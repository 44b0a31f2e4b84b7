import Dockerfiles.Nginx.Cidr

/-! # The address of a client behind proxies

`ngx_http_get_forwarded_addr` of `src/http/ngx_http_core_module.c` goes through the
`X-Forwarded-For` headers from the last byte to the first for as long as the address
it has is a trusted proxy. Abstractly that is a walk along a list of hops. The hops
are the fields of the headers, the last one first; the first byte of a header is
never taken for a separator.
-/

namespace Nginx

/-! ## The code -/

/-- `*p == ' ' || *p == ','`. -/
def isSep (c : UInt8) : Bool := c == 32 || c == 44

/-- The first loop of `ngx_http_get_forwarded_addr_internal`: the index of the last
byte that is kept. -/
def skipBack (xff : Bytes) : Nat → Nat
  | 0 => 0
  | p + 1 => if isSep (xff.getD (p + 1) 0) then skipBack xff p else p + 1

/-- The second loop: the index at which the last field begins. -/
def hopStart (xff : Bytes) : Nat → Nat
  | 0 => 0
  | p + 1 => if isSep (xff.getD (p + 1) 0) then p + 2 else hopStart xff p

/-- The text that is parsed and the index it begins at. For an empty header both
loops are skipped and the one byte before the header is parsed. -/
def lastHop (prev : UInt8) (xff : Bytes) : Bytes × Nat :=
  if xff = [] then ([prev], 0)
  else
    let last := skipBack xff (xff.length - 1)
    let p := hopStart xff last
    ((xff.take (last + 1)).drop p, p)

/-- What the outer call makes of the code of the inner one. -/
def afterInner : Rc × Sockaddr → Rc × Sockaddr
  | (.declined, addr) => (.done, addr)
  | result => result

/-- The recursion of `ngx_http_get_forwarded_addr_internal`, which has a shorter text
each time. -/
def forwardedLoop (proxies : List Cidr) (recursive : Bool) (prev : UInt8) :
    Nat → Sockaddr → Bytes → Rc × Sockaddr
  | 0, addr, _ => (.declined, addr)
  | depth + 1, addr, xff =>
      if cidrMatch addr proxies ≠ .ok then (.declined, addr)
      else
        let (hop, p) := lastHop prev xff
        match parseAddrPort hop with
        | none => (.declined, addr)
        | some paddr =>
            if recursive ∧ 0 < p then
              afterInner (forwardedLoop proxies recursive prev depth paddr (xff.take (p - 1)))
            else (.ok, paddr)

/-- A header: its value, and the byte that stands before it in memory. -/
structure Header where
  prev : UInt8
  value : Bytes

/-- `ngx_http_get_forwarded_addr_internal`. -/
def forwardedInternal (proxies : List Cidr) (recursive : Bool) (addr : Sockaddr) (h : Header) :
    Rc × Sockaddr :=
  forwardedLoop proxies recursive h.prev (h.value.length + 1) addr h.value

/-- The loop of `ngx_http_get_forwarded_addr`, over the headers from the last on. -/
def forwardedHeaders (proxies : List Cidr) (recursive : Bool) :
    Rc → Bool → Sockaddr → List Header → Rc × Sockaddr
  | rc, _, addr, [] => (rc, addr)
  | _, found, addr, h :: hs =>
      let (rc, addr) := forwardedInternal proxies recursive addr h
      if ¬ recursive then (rc, addr)
      else if rc = .declined ∧ found then (.done, addr)
      else if rc ≠ .ok then (rc, addr)
      else forwardedHeaders proxies recursive rc true addr hs

/-- `ngx_http_get_forwarded_addr` for an array of headers. -/
def getForwardedAddr (proxies : List Cidr) (recursive : Bool) (addr : Sockaddr)
    (headers : List Header) : Rc × Sockaddr :=
  forwardedHeaders proxies recursive .declined false addr headers.reverse

/-! ## A walk along hops -/

section Walk

variable {α τ : Type} (trusted : α → Bool) (read : τ → Option α)

/-- Hops are taken for as long as the current address is trusted and the next one
can be read: the address at the end, and the number of hops taken. -/
def walk : α → List τ → α × Nat
  | a, [] => (a, 0)
  | a, t :: ts =>
      if trusted a then
        match read t with
        | none => (a, 0)
        | some b => ((walk b ts).1, (walk b ts).2 + 1)
      else (a, 0)

theorem walk_le (a : α) (ts : List τ) : (walk trusted read a ts).2 ≤ ts.length := by
  induction ts generalizing a with
  | nil => exact Nat.le_refl 0
  | cons t ts ih =>
      rw [walk]
      split
      · split
        · exact Nat.zero_le _
        · next b hb => exact Nat.succ_le_succ (ih b)
      · exact Nat.zero_le _

/-- A walk that stops on the way, or at an address that is not trusted, does not
depend on what comes later. -/
theorem walk_append_of_stopped {a : α} {ts : List τ}
    (h : (walk trusted read a ts).2 < ts.length ∨ trusted (walk trusted read a ts).1 = false)
    (us : List τ) : walk trusted read a (ts ++ us) = walk trusted read a ts := by
  induction ts generalizing a with
  | nil =>
      have ha : trusted a = false := by
        rcases h with h | h
        · simp at h
        · exact h
      cases us with
      | nil => rfl
      | cons u us => simp [walk, ha]
  | cons t ts ih =>
      rw [List.cons_append, walk, walk]
      split
      · next ha =>
          cases hb : read t with
          | none => rfl
          | some b =>
              have hstop : (walk trusted read b ts).2 < ts.length ∨
                  trusted (walk trusted read b ts).1 = false := by
                simpa [walk, ha, hb] using h
              simp only [ih hstop]
      · rfl

/-- A walk that takes all its hops goes on from where it has come. -/
theorem walk_append_of_finished {a : α} {ts : List τ}
    (h : (walk trusted read a ts).2 = ts.length) (us : List τ) :
    walk trusted read a (ts ++ us) =
      ((walk trusted read (walk trusted read a ts).1 us).1,
        ts.length + (walk trusted read (walk trusted read a ts).1 us).2) := by
  induction ts generalizing a with
  | nil => simp [walk]
  | cons t ts ih =>
      rw [walk] at h
      split at h
      · next ha =>
          cases hb : read t with
          | none => simp [hb] at h
          | some b =>
              simp only [hb, List.length_cons, Nat.add_right_cancel_iff] at h
              simp only [List.cons_append, walk, if_pos ha, hb, ih h, List.length_cons]
              congr 1
              omega
      · simp at h

end Walk

/-! ## The hops of a header -/

def pieces (text : Bytes) : List Bytes := (text.splitOnP isSep).filter (!·.isEmpty)

/-- The hops of a header, the last one first. The first byte belongs to the first
field even if it is a separator. -/
def hopsOf : Bytes → List Bytes
  | [] => [[]]
  | c :: rest =>
      (((rest.splitOnP isSep).tail.filter (!·.isEmpty)).reverse) ++
        [c :: (rest.splitOnP isSep).headD []]

theorem hopsOf_ne_nil (xff : Bytes) : hopsOf xff ≠ [] := by
  cases xff <;> simp [hopsOf]

theorem pieces_of_sep {seps : Bytes} (h : ∀ c ∈ seps, isSep c = true) : pieces seps = [] := by
  induction seps with
  | nil => rfl
  | cons c seps ih =>
      have hc : isSep c = true := h c List.mem_cons_self
      have hrest := ih (fun d hd => h d (List.mem_cons_of_mem c hd))
      rw [pieces] at hrest ⊢
      rw [List.splitOnP_cons_eq_if_modifyHead, if_pos hc]
      simpa using hrest

theorem pieces_append_cons (u v : Bytes) {s : UInt8} (hs : isSep s = true) :
    pieces (u ++ s :: v) = pieces u ++ pieces v := by
  rw [pieces, List.splitOnP_append_cons u v hs, List.filter_append]
  rfl

theorem pieces_of_not_sep {t : Bytes} (ht : ∀ c ∈ t, isSep c = false) (hne : t ≠ []) :
    pieces t = [t] := by
  rw [pieces, List.splitOnP_eq_singleton ht]
  simp [hne]

/-- Separators at the end make no field. -/
theorem pieces_append_sep (t : Bytes) {seps : Bytes} (h : ∀ c ∈ seps, isSep c = true) :
    pieces (t ++ seps) = pieces t := by
  cases seps with
  | nil => rw [List.append_nil]
  | cons c seps =>
      rw [pieces_append_cons t seps (h c List.mem_cons_self),
        pieces_of_sep (fun d hd => h d (List.mem_cons_of_mem c hd)), List.append_nil]

theorem hopsOf_append_cons (c : UInt8) (u v : Bytes) {s : UInt8} (hs : isSep s = true) :
    hopsOf (c :: (u ++ s :: v)) = (pieces v).reverse ++ hopsOf (c :: u) := by
  obtain ⟨first, others, hsplit⟩ := List.exists_cons_of_ne_nil (List.splitOnP_ne_nil isSep u)
  simp only [hopsOf, List.splitOnP_append_cons u v hs, hsplit, pieces, List.cons_append,
    List.tail_cons, List.headD_cons, List.filter_append, List.reverse_append, List.append_assoc]

theorem hopsOf_of_not_sep (c : UInt8) {t seps : Bytes} (ht : ∀ d ∈ t, isSep d = false)
    (hseps : ∀ d ∈ seps, isSep d = true) : hopsOf (c :: (t ++ seps)) = [c :: t] := by
  cases seps with
  | nil => simp [hopsOf, List.splitOnP_eq_singleton ht]
  | cons s seps =>
      rw [hopsOf_append_cons c t seps (hseps s List.mem_cons_self),
        pieces_of_sep (fun d hd => hseps d (List.mem_cons_of_mem s hd))]
      simp [hopsOf, List.splitOnP_eq_singleton ht]

/-! ### The loops find the last hop -/

theorem skipBack_spec (xff : Bytes) (p : Nat) :
    skipBack xff p ≤ p ∧
      (∀ j, skipBack xff p < j → j ≤ p → isSep (xff.getD j 0) = true) ∧
      (skipBack xff p = 0 ∨ isSep (xff.getD (skipBack xff p) 0) = false) := by
  induction p with
  | zero =>
      refine ⟨Nat.le_refl 0, ?_, .inl rfl⟩
      intro j hj hj'
      omega
  | succ p ih =>
      obtain ⟨hle, hsep, hlast⟩ := ih
      rw [skipBack]
      split
      · next hc =>
          refine ⟨by omega, ?_, hlast⟩
          intro j hj hj'
          rcases Nat.lt_or_ge p j with hlt | hge
          · rw [show j = p + 1 by omega]
            exact hc
          · exact hsep j hj hge
      · next hc =>
          refine ⟨Nat.le_refl _, ?_, .inr (by simpa using hc)⟩
          intro j hj hj'
          omega

theorem hopStart_spec (xff : Bytes) (p : Nat) :
    hopStart xff p ≤ p + 1 ∧
      (∀ j, hopStart xff p ≤ j → j ≤ p → j ≠ 0 → isSep (xff.getD j 0) = false) ∧
      (hopStart xff p = 0 ∨
        2 ≤ hopStart xff p ∧ isSep (xff.getD (hopStart xff p - 1) 0) = true) := by
  induction p with
  | zero =>
      refine ⟨Nat.zero_le _, ?_, .inl rfl⟩
      intro j _ hj hne
      omega
  | succ p ih =>
      obtain ⟨hle, hfield, hstart⟩ := ih
      rw [hopStart]
      split
      · next hc =>
          refine ⟨Nat.le_refl _, ?_, .inr ⟨by omega, hc⟩⟩
          intro j hj hj'
          omega
      · next hc =>
          refine ⟨by omega, ?_, hstart⟩
          intro j hj hj' hne
          rcases Nat.lt_or_ge p j with hlt | hge
          · rw [show j = p + 1 by omega]
            simpa using hc
          · exact hfield j hj hge hne

/-- Bytes `i` to `k` of a text have a property that each of them has. -/
theorem forall_mem_take_drop {xff : Bytes} {i k : Nat} {b : Bool}
    (h : ∀ j, i ≤ j → j < k → isSep (xff.getD j 0) = b) (hk : k ≤ xff.length) :
    ∀ c ∈ (xff.take k).drop i, isSep c = b := by
  intro c hc
  obtain ⟨j, hj, rfl⟩ := List.mem_iff_getElem.mp hc
  simp only [List.length_drop, List.length_take] at hj
  have := h (i + j) (by omega) (by omega)
  rw [List.getD_eq_getElem _ _ (by omega)] at this
  simpa using this

/-- The code takes the last hop off. -/
theorem lastHop_spec (prev : UInt8) {xff : Bytes} (hne : xff ≠ []) :
    ((lastHop prev xff).2 = 0 ∧ hopsOf xff = [(lastHop prev xff).1]) ∨
      (0 < (lastHop prev xff).2 ∧ (lastHop prev xff).2 - 1 < xff.length ∧
        hopsOf xff = (lastHop prev xff).1 :: hopsOf (xff.take ((lastHop prev xff).2 - 1))) := by
  have hpos : 0 < xff.length := List.length_pos_of_ne_nil hne
  obtain ⟨last, hlast⟩ : ∃ last, skipBack xff (xff.length - 1) = last := ⟨_, rfl⟩
  obtain ⟨p, hp⟩ : ∃ p, hopStart xff last = p := ⟨_, rfl⟩
  have hhop : lastHop prev xff = ((xff.take (last + 1)).drop p, p) := by
    rw [lastHop, if_neg hne]
    simp only [hlast, hp]
  obtain ⟨hle, hseps, hend⟩ := skipBack_spec xff (xff.length - 1)
  obtain ⟨hple, hfield, hstart⟩ := hopStart_spec xff last
  rw [hlast] at hle hseps hend
  rw [hp] at hple hfield hstart
  have hlen : last + 1 ≤ xff.length := by omega
  have hsplit : xff = xff.take (last + 1) ++ xff.drop (last + 1) := (List.take_append_drop _ _).symm
  have htail : ∀ c ∈ xff.drop (last + 1), isSep c = true := by
    have := @forall_mem_take_drop xff (last + 1) xff.length true
      (fun j hj hj' => hseps j (by omega) (by omega)) (Nat.le_refl _)
    rwa [List.take_length] at this
  simp only [hhop]
  rcases hstart with rfl | ⟨htwo, hsep⟩
  · left
    refine ⟨rfl, ?_⟩
    have hnot := @forall_mem_take_drop xff 1 (last + 1) false
      (fun j hj hj' => hfield j (Nat.zero_le j) (by omega) (by omega)) hlen
    cases htake : xff.take (last + 1) with
    | nil =>
        have := congrArg List.length htake
        simp only [List.length_take, List.length_nil] at this
        omega
    | cons c t =>
        rw [htake] at hnot hsplit
        rw [hsplit, List.drop_zero]
        exact hopsOf_of_not_sep c hnot htail
  · right
    refine ⟨by omega, by omega, ?_⟩
    have hplast : p ≤ last := by
      rcases hend with rfl | hnot
      · rw [hopStart] at hp
        omega
      · rcases Nat.lt_or_ge last p with hlt | hge
        · rw [show p - 1 = last by omega, hnot] at hsep
          cases hsep
        · exact hge
    have hnot := @forall_mem_take_drop xff p (last + 1) false
      (fun j hj hj' => hfield j hj (by omega) (by omega)) hlen
    have hhopne : (xff.take (last + 1)).drop p ≠ [] := by
      intro h
      have := congrArg List.length h
      simp only [List.length_drop, List.length_take, List.length_nil] at this
      omega
    have hgetD : xff.getD (p - 1) 0 = xff.get ⟨p - 1, by omega⟩ := by
      rw [List.getD_eq_getElem _ _ (by omega)]
      rfl
    have hpre : xff = xff.take (p - 1) ++ xff.getD (p - 1) 0 ::
        ((xff.take (last + 1)).drop p ++ xff.drop (last + 1)) := by
      have hback : (xff.take (last + 1)).drop p ++ xff.drop (last + 1) = xff.drop p := by
        have := congrArg (List.drop p) hsplit
        rw [List.drop_append_of_le_length (by simp; omega)] at this
        exact this.symm
      rw [hback, hgetD]
      have hcons := List.drop_eq_getElem_cons (l := xff) (i := p - 1) (by omega)
      rw [show p - 1 + 1 = p by omega] at hcons
      exact (List.take_append_drop (p - 1) xff).symm.trans (congrArg (xff.take (p - 1) ++ ·) hcons)
    obtain ⟨c, u, hcu⟩ := List.exists_cons_of_ne_nil
      (show xff.take (p - 1) ≠ [] by
        intro h
        have := congrArg List.length h
        simp only [List.length_take, List.length_nil] at this
        omega)
    rw [hcu] at hpre ⊢
    refine (congrArg hopsOf hpre).trans ?_
    rw [List.cons_append, hopsOf_append_cons c u _ hsep, pieces_append_sep _ htail,
      pieces_of_not_sep hnot hhopne]
    rfl

/-! ## The code walks -/

/-- The return code after `taken` of `total` hops. -/
def rcOf (taken total : Nat) : Rc :=
  if taken = 0 then .declined else if taken = total then .ok else .done

/-- One more hop was taken before: what was declined is now done. -/
theorem afterInner_rcOf {taken total : Nat} (htotal : 0 < total) (addr : Sockaddr) :
    afterInner (rcOf taken total, addr) = (rcOf (taken + 1) (total + 1), addr) := by
  by_cases hzero : taken = 0
  · have hnot : ¬ total = 0 := by omega
    simp [rcOf, afterInner, hzero, hnot]
  · by_cases hall : taken = total
    · simp [rcOf, afterInner, hall, Nat.pos_iff_ne_zero.mp htotal]
    · simp [rcOf, afterInner, hzero, hall]

def trusts (proxies : List Cidr) (sa : Sockaddr) : Bool := cidrMatch sa proxies = .ok

section Code

variable (proxies : List Cidr)

/-- The one byte that is read for an empty header is never an address. -/
theorem parseAddrPort_singleton (c : UInt8) : parseAddrPort [c] = none := by
  have hall : ∀ n : Fin 256, parseAddrPort [UInt8.ofNat n] = none := by decide +kernel
  have hc := hall ⟨c.toNat, c.toNat_lt⟩
  rwa [UInt8.ofNat_toNat] at hc

theorem forwardedLoop_eq_walk (prev : UInt8) {depth : Nat} (addr : Sockaddr) {xff : Bytes}
    (hdepth : xff.length < depth) :
    forwardedLoop proxies true prev depth addr xff =
      (rcOf (walk (trusts proxies) parseAddrPort addr (hopsOf xff)).2 (hopsOf xff).length,
        (walk (trusts proxies) parseAddrPort addr (hopsOf xff)).1) := by
  induction depth generalizing addr xff with
  | zero => omega
  | succ depth ih =>
      obtain ⟨t, ts, hhops⟩ := List.exists_cons_of_ne_nil (hopsOf_ne_nil xff)
      rw [forwardedLoop]
      by_cases htrust : cidrMatch addr proxies = .ok
      swap
      · have hwalk : trusts proxies addr = false := by simp [trusts, htrust]
        simp [htrust, hhops, walk, hwalk, rcOf]
      have hwalk : trusts proxies addr = true := by simp [trusts, htrust]
      rw [if_neg (not_not.mpr htrust)]
      by_cases hnil : xff = []
      · subst hnil
        have hempty : parseAddrPort [] = none := by decide
        simp [lastHop, parseAddrPort_singleton, hopsOf, walk, hwalk, hempty, rcOf]
      rcases lastHop_spec prev hnil with ⟨hp, hone⟩ | ⟨hp, hlt, hmore⟩
      · simp only [hone, hp]
        cases hread : parseAddrPort (lastHop prev xff).1 with
        | none => simp [walk, hwalk, hread, rcOf]
        | some paddr => simp [walk, hwalk, hread, rcOf]
      · simp only [hmore]
        cases hread : parseAddrPort (lastHop prev xff).1 with
        | none => simp [walk, hwalk, hread, rcOf]
        | some paddr =>
            have hrest : (xff.take ((lastHop prev xff).2 - 1)).length < depth := by
              simp only [List.length_take]
              omega
            have hhops : 0 < (hopsOf (xff.take ((lastHop prev xff).2 - 1))).length :=
              List.length_pos_of_ne_nil (hopsOf_ne_nil _)
            simp only [true_and, if_pos hp, walk, if_pos hwalk, hread, List.length_cons,
              ih paddr hrest]
            exact afterInner_rcOf hhops _

theorem forwardedLoop_eq_walk_one (prev : UInt8) (depth : Nat) (addr : Sockaddr) (xff : Bytes) :
    forwardedLoop proxies false prev (depth + 1) addr xff =
      (rcOf (walk (trusts proxies) parseAddrPort addr ((hopsOf xff).take 1)).2 1,
        (walk (trusts proxies) parseAddrPort addr ((hopsOf xff).take 1)).1) := by
  have hfirst : ∃ t, (hopsOf xff).take 1 = [t] ∧
      parseAddrPort t = parseAddrPort (lastHop prev xff).1 := by
    by_cases hnil : xff = []
    · subst hnil
      have hempty : parseAddrPort [] = none := by decide
      exact ⟨[], rfl, by simp [lastHop, hempty, parseAddrPort_singleton]⟩
    · refine ⟨(lastHop prev xff).1, ?_, rfl⟩
      rcases lastHop_spec prev hnil with ⟨-, hone⟩ | ⟨-, -, hmore⟩
      · rw [hone]
        rfl
      · rw [hmore]
        rfl
  obtain ⟨t, htake, hread⟩ := hfirst
  rw [forwardedLoop, htake]
  by_cases htrust : cidrMatch addr proxies = .ok
  · have hwalk : trusts proxies addr = true := by simp [trusts, htrust]
    rw [if_neg (not_not.mpr htrust)]
    simp only [Bool.false_eq_true, false_and, if_false, walk, if_pos hwalk, hread]
    cases parseAddrPort (lastHop prev xff).1 with
    | none => rfl
    | some paddr => rfl
  · have hwalk : trusts proxies addr = false := by simp [trusts, htrust]
    simp [htrust, walk, hwalk, rcOf]

theorem forwardedHeaders_eq_walk (addr : Sockaddr) (hs : List Header) (found : Bool) :
    forwardedHeaders proxies true (if found then .ok else .declined) found addr hs =
      (if found then
          (if (walk (trusts proxies) parseAddrPort addr (hs.flatMap (hopsOf ·.value))).2 =
              (hs.flatMap (hopsOf ·.value)).length then .ok else .done)
        else
          rcOf (walk (trusts proxies) parseAddrPort addr (hs.flatMap (hopsOf ·.value))).2
            (hs.flatMap (hopsOf ·.value)).length,
        (walk (trusts proxies) parseAddrPort addr (hs.flatMap (hopsOf ·.value))).1) := by
  induction hs generalizing addr found with
  | nil => cases found <;> simp [forwardedHeaders, walk, rcOf]
  | cons h hs ih =>
      have hinner := forwardedLoop_eq_walk proxies h.prev addr
        (Nat.lt_succ_self h.value.length)
      have hpos : 0 < (hopsOf h.value).length := List.length_pos_of_ne_nil (hopsOf_ne_nil _)
      have hle := walk_le (trusts proxies) parseAddrPort addr (hopsOf h.value)
      rw [forwardedHeaders, forwardedInternal, hinner]
      simp only [not_true_eq_false, if_false, List.flatMap_cons, List.length_append]
      by_cases hfinished : (walk (trusts proxies) parseAddrPort addr (hopsOf h.value)).2 =
          (hopsOf h.value).length
      · have hok : rcOf (walk (trusts proxies) parseAddrPort addr (hopsOf h.value)).2
            (hopsOf h.value).length = .ok := by
          simp [rcOf, hfinished, Nat.pos_iff_ne_zero.mp hpos]
        have hrest := ih (walk (trusts proxies) parseAddrPort addr (hopsOf h.value)).1 true
        rw [if_pos rfl, if_pos rfl] at hrest
        rw [walk_append_of_finished _ _ hfinished]
        simp only [hok, hrest]
        cases found <;> simp [rcOf, Nat.pos_iff_ne_zero.mp hpos]
      · have hstopped : (walk (trusts proxies) parseAddrPort addr (hopsOf h.value)).2 <
            (hopsOf h.value).length := by omega
        rw [walk_append_of_stopped _ _ (.inl hstopped)]
        generalize (walk (trusts proxies) parseAddrPort addr (hopsOf h.value)) = w at *
        have hnot : ¬ w.2 = (hopsOf h.value).length + (hs.flatMap (hopsOf ·.value)).length := by
          omega
        generalize (hs.flatMap (hopsOf ·.value)).length = more at *
        by_cases hzero : w.2 = 0
        · rw [hzero] at hnot
          cases found <;> simp [rcOf, hzero, hnot]
        · cases found <;> simp [rcOf, hzero, hfinished, hnot]

end Code

def hops (recursive : Bool) (headers : List Header) : List Bytes :=
  if recursive then headers.reverse.flatMap (hopsOf ·.value)
  else (headers.reverse.flatMap (hopsOf ·.value)).take 1

theorem getForwardedAddr_recursive (proxies : List Cidr) (addr : Sockaddr)
    (headers : List Header) :
    getForwardedAddr proxies true addr headers =
      (rcOf (walk (trusts proxies) parseAddrPort addr (hops true headers)).2
          (hops true headers).length,
        (walk (trusts proxies) parseAddrPort addr (hops true headers)).1) :=
  forwardedHeaders_eq_walk proxies addr headers.reverse false

/-- The code goes along the hops of all headers while it meets trusted proxies. -/
theorem getForwardedAddr_eq_walk (proxies : List Cidr) (recursive : Bool) (addr : Sockaddr)
    (headers : List Header) :
    getForwardedAddr proxies recursive addr headers =
      (rcOf (walk (trusts proxies) parseAddrPort addr (hops recursive headers)).2
          (hops recursive headers).length,
        (walk (trusts proxies) parseAddrPort addr (hops recursive headers)).1) := by
  cases recursive with
  | true => exact getForwardedAddr_recursive proxies addr headers
  | false =>
      rw [getForwardedAddr]
      cases hrev : headers.reverse with
      | nil => simp [hops, hrev, forwardedHeaders, walk, rcOf]
      | cons h hs =>
          obtain ⟨t, ts, hhops⟩ := List.exists_cons_of_ne_nil (hopsOf_ne_nil h.value)
          have htake : hops false headers = (hopsOf h.value).take 1 := by
            simp [hops, hrev, hhops]
          have hlen : ((hopsOf h.value).take 1).length = 1 := by
            rw [hhops]
            rfl
          rw [htake, hlen, forwardedHeaders, forwardedInternal, forwardedLoop_eq_walk_one]
          simp

/-! ## What a client writes -/

theorem hopsOf_eq_pieces {c : UInt8} (hc : isSep c = false) (v : Bytes) :
    hopsOf (c :: v) = (pieces (c :: v)).reverse := by
  obtain ⟨first, others, hsplit⟩ := List.exists_cons_of_ne_nil (List.splitOnP_ne_nil isSep v)
  simp [hopsOf, pieces, List.splitOnP_cons_eq_if_modifyHead, hc, hsplit]

/-- A proxy puts `", "` and its own text after what it was sent. -/
theorem hopsOf_appended (sent : Bytes) {c : UInt8} (hc : isSep c = false) (v : Bytes) :
    hopsOf (sent ++ [44, 32] ++ c :: v) = hopsOf (c :: v) ++ hopsOf (sent ++ [44]) := by
  have happend : sent ++ [44, 32] ++ c :: v = sent ++ [44] ++ 32 :: c :: v := by simp
  obtain ⟨d, u, hdu⟩ := List.exists_cons_of_ne_nil (show sent ++ [44] ≠ [] by simp)
  rw [happend, hdu, List.cons_append, hopsOf_append_cons d u (c :: v) rfl, hopsOf_eq_pieces hc]

/-- If the hops that the proxies themselves have written lead to an address that is
no proxy, then that is the address of the client, whatever the client has sent: text
in front of theirs in the same header, and headers before it. -/
theorem getForwardedAddr_of_sent (proxies : List Cidr) (addr : Sockaddr) (prev : UInt8)
    (c : UInt8) (v : Bytes) (later : List Header) (hc : isSep c = false)
    (hclient : trusts proxies
      (getForwardedAddr proxies true addr (⟨prev, c :: v⟩ :: later)).2 = false)
    (prev' : UInt8) (sent : Bytes) (sentHeaders : List Header) :
    (getForwardedAddr proxies true addr
        (sentHeaders ++ ⟨prev', sent ++ [44, 32] ++ c :: v⟩ :: later)).2 =
      (getForwardedAddr proxies true addr (⟨prev, c :: v⟩ :: later)).2 := by
  have hown : hops true (⟨prev, c :: v⟩ :: later) =
      later.reverse.flatMap (hopsOf ·.value) ++ hopsOf (c :: v) := by
    simp [hops]
  have hall : hops true (sentHeaders ++ ⟨prev', sent ++ [44, 32] ++ c :: v⟩ :: later) =
      hops true (⟨prev, c :: v⟩ :: later) ++
        (hopsOf (sent ++ [44]) ++ sentHeaders.reverse.flatMap (hopsOf ·.value)) := by
    have happended := hopsOf_appended sent hc v
    rw [hown]
    simp only [hops, if_true, List.reverse_append, List.reverse_cons, List.flatMap_append,
      List.flatMap_cons, List.flatMap_nil, List.append_nil, happended]
    simp only [List.append_assoc]
  rw [getForwardedAddr_recursive] at hclient
  rw [getForwardedAddr_recursive, getForwardedAddr_recursive, hall,
    walk_append_of_stopped _ _ (.inr hclient)]

/-- Behind a proxy in `10.0.0.0/8` that has seen `1.2.3.4`, a client that sends
`6.6.6.6` is still `1.2.3.4`. -/
theorem getForwardedAddr_of_sent_private :
    (getForwardedAddr [.inet 0x0a000000#32 0xff000000#32] true (.inet 0x0a000001#32 80)
        ([] ++ ⟨32, [54, 46, 54, 46, 54, 46, 54] ++ [44, 32] ++ 49 :: [46, 50, 46, 51, 46, 52]⟩ ::
          [])).2 =
      (getForwardedAddr [.inet 0x0a000000#32 0xff000000#32] true (.inet 0x0a000001#32 80)
        (⟨32, 49 :: [46, 50, 46, 51, 46, 52]⟩ :: [])).2 :=
  getForwardedAddr_of_sent [.inet 0x0a000000#32 0xff000000#32] (.inet 0x0a000001#32 80) 32 49
    [46, 50, 46, 51, 46, 52] [] (by decide) (by decide +kernel) 32 [54, 46, 54, 46, 54, 46, 54] []

end Nginx
