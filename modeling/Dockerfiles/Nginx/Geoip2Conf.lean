import Dockerfiles.Nginx.Geoip2

/-! # The configuration of the GeoIP2 module

The blocks `geoip2` of a configuration, in their order: each names a file and opens it as a
database, and each line in it binds a variable to a value of that database. Variables
live in one table for the whole server, by names without regard to case; a line may
bind a variable again that another one has bound.
-/

namespace Nginx

/-! ## Names -/

def toLower (c : UInt8) : UInt8 := if 65 ≤ c ∧ c ≤ 90 then c ||| 0x20 else c

/-- `ngx_strncasecmp(...) == 0` for texts of one length: a zero byte ends both. -/
def sameCaseless : Bytes → Bytes → Bool
  | a :: s, b :: t =>
      if toLower a = toLower b then (if toLower a = 0 then true else sameCaseless s t) else false
  | _, _ => true

/-- The names of two variables are the same to `ngx_http_add_variable`. -/
def sameName (a b : Bytes) : Bool := decide (a.length = b.length) && sameCaseless a b

/-- What the comparison looks at. -/
def nameKey (a : Bytes) : Nat × Bytes := (a.length, (a.map toLower).takeWhile (· ≠ 0))

theorem sameCaseless_iff {a b : Bytes} (hlen : a.length = b.length) :
    sameCaseless a b = true ↔
      (a.map toLower).takeWhile (· ≠ 0) = (b.map toLower).takeWhile (· ≠ 0) := by
  induction a generalizing b with
  | nil =>
      have hnil : b = [] := List.length_eq_zero_iff.mp hlen.symm
      simp [hnil, sameCaseless]
  | cons x a ih =>
      cases b with
      | nil => simp at hlen
      | cons y b =>
          have hrest := ih (b := b) (by simpa using hlen)
          rw [sameCaseless]
          by_cases hxy : toLower x = toLower y
          · by_cases hzero : toLower x = 0
            · have hzero' : toLower y = 0 := hxy ▸ hzero
              simp [hzero, hzero']
            · have hzero' : toLower y ≠ 0 := hxy ▸ hzero
              simp [hxy, hzero', hrest]
          · rw [if_neg hxy]
            refine iff_of_false (by simp) ?_
            intro h
            by_cases hx : toLower x = 0
            · by_cases hy : toLower y = 0
              · exact hxy (hx.trans hy.symm)
              · simp [hx, hy] at h
            · by_cases hy : toLower y = 0
              · simp [hx, hy] at h
              · simp only [List.map_cons, List.takeWhile_cons, decide_not, hx, hy, decide_false,
                  Bool.not_false, if_true, List.cons.injEq] at h
                exact hxy h.1

theorem sameName_iff (a b : Bytes) : sameName a b = true ↔ nameKey a = nameKey b := by
  rw [sameName, nameKey, nameKey, Prod.mk.injEq, Bool.and_eq_true, decide_eq_true_eq]
  constructor
  · rintro ⟨hlen, hsame⟩
    exact ⟨hlen, (sameCaseless_iff hlen).mp hsame⟩
  · rintro ⟨hlen, hsame⟩
    exact ⟨hlen, (sameCaseless_iff hlen).mpr hsame⟩

theorem toLower_toLower (c : UInt8) : toLower (toLower c) = toLower c := by
  have hall : ∀ n : Fin 256, toLower (toLower (UInt8.ofNat n)) = toLower (UInt8.ofNat n) := by
    decide +kernel
  have hc := hall ⟨c.toNat, c.toNat_lt⟩
  rwa [UInt8.ofNat_toNat] at hc

theorem nameKey_lower (name : Bytes) : nameKey (name.map toLower) = nameKey name := by
  simp only [nameKey, List.length_map, List.map_map, Prod.mk.injEq, true_and]
  congr 1
  apply List.map_congr_left
  intro c _
  exact toLower_toLower c

/-! ## The table of variables -/

/-- `ngx_http_variable_t`: the name, whether the flag `NGX_HTTP_VAR_CHANGEABLE` is set,
and the database and the context of a variable of this module. -/
structure HttpVariable where
  name : Bytes
  changeable : Bool
  handler : Option (Nat × Ctx)

/-- `ngx_http_add_variable` with `NGX_HTTP_VAR_CHANGEABLE`, and the two assignments
to the variable it returns. -/
def setVariable (name : Bytes) (handler : Nat × Ctx) :
    List HttpVariable → Option (List HttpVariable)
  | [] => some [{ name := name.map toLower, changeable := true, handler := some handler }]
  | v :: vs =>
      if sameName name v.name then
        if v.changeable then some ({ v with handler := some handler } :: vs) else none
      else (setVariable name handler vs).map (v :: ·)

/-- `"default="`. -/
def defaultText : Bytes := [100, 101, 102, 97, 117, 108, 116, 61]

/-- The context of a line: a first value that begins with `default=` is the default
value, the others are the path. -/
def lineCtx : List Bytes → Ctx
  | [] => { lookup := [], defaultValue := [] }
  | value :: values =>
      if defaultText.isPrefixOf value then
        { lookup := values, defaultValue := value.drop defaultText.length }
      else { lookup := value :: values, defaultValue := [] }

/-- `ngx_http_geoip2_add_variable`: one line of a block, as its values. -/
def addVariable (database : Nat) (table : List HttpVariable) :
    List Bytes → Option (List HttpVariable)
  | (36 :: name) :: values =>
      if name = [] then none else setVariable name (database, lineCtx values) table
  | _ => none

def addVariables (database : Nat) : List HttpVariable → List (List Bytes) →
    Option (List HttpVariable)
  | table, [] => some table
  | table, line :: lines =>
      match addVariable database table line with
      | none => none
      | some table => addVariables database table lines

structure Block where
  filename : Bytes
  lines : List (List Bytes)

structure ConfState where
  databases : List Bytes
  table : List HttpVariable

/-- `ngx_http_geoip2`, for a library that opens the files `opens`. -/
def geoip2Block (opens : Bytes → Bool) (s : ConfState) (block : Block) : Option ConfState :=
  if cString block.filename ∈ s.databases then none
  else if ¬ opens (cString block.filename) then none
  else
    match addVariables s.databases.length s.table block.lines with
    | none => none
    | some table => some { databases := s.databases ++ [cString block.filename], table }

def geoip2Blocks (opens : Bytes → Bool) : ConfState → List Block → Option ConfState
  | s, [] => some s
  | s, block :: blocks =>
      match geoip2Block opens s block with
      | none => none
      | some s => geoip2Blocks opens s blocks

/-! ## What a table means -/

def handlerFor (table : List HttpVariable) (key : Nat × Bytes) : Option (Nat × Ctx) :=
  (table.find? fun v => nameKey v.name = key).bind (·.handler)

def DistinctNames (table : List HttpVariable) : Prop :=
  table.Pairwise fun v w => nameKey v.name ≠ nameKey w.name

/-- `table'` has every variable of `table` that may not be changed, as it is there. -/
def KeepsFixed (table table' : List HttpVariable) : Prop :=
  ∀ v ∈ table, v.changeable = false → v ∈ table'

/-- The names of `table'` are those of `table` and `name`. -/
theorem setVariable_names {name : Bytes} {handler : Nat × Ctx} {table table' : List HttpVariable}
    (h : setVariable name handler table = some table') :
    ∀ w ∈ table', nameKey w.name = nameKey name ∨ ∃ v ∈ table, nameKey v.name = nameKey w.name := by
  induction table generalizing table' with
  | nil =>
      cases h
      intro w hw
      rw [List.mem_singleton.mp hw]
      exact .inl (nameKey_lower name)
  | cons v vs ih =>
      rw [setVariable] at h
      split at h
      · split at h
        · cases h
          intro w hw
          rcases List.mem_cons.mp hw with rfl | hw
          · exact .inr ⟨v, List.mem_cons_self, rfl⟩
          · exact .inr ⟨w, List.mem_cons_of_mem _ hw, rfl⟩
        · cases h
      · obtain ⟨vs', hvs', rfl⟩ := Option.map_eq_some_iff.mp h
        intro w hw
        rcases List.mem_cons.mp hw with rfl | hw
        · exact .inr ⟨w, List.mem_cons_self, rfl⟩
        · rcases ih hvs' w hw with hname | ⟨u, hu, heq⟩
          · exact .inl hname
          · exact .inr ⟨u, List.mem_cons_of_mem _ hu, heq⟩

/-- One binding: the name is bound, the others are as they were. -/
theorem setVariable_spec {name : Bytes} {handler : Nat × Ctx} {table table' : List HttpVariable}
    (h : setVariable name handler table = some table') (hdistinct : DistinctNames table) :
    DistinctNames table' ∧ KeepsFixed table table' ∧
      ∀ key, handlerFor table' key =
        if key = nameKey name then some handler else handlerFor table key := by
  induction table generalizing table' with
  | nil =>
      cases h
      refine ⟨by simp [DistinctNames], by simp [KeepsFixed], ?_⟩
      intro key
      by_cases hkey : key = nameKey name
      · simp [handlerFor, hkey, nameKey_lower]
      · have hne : ¬ nameKey name = key := fun h => hkey h.symm
        simp [handlerFor, nameKey_lower, hkey, hne]
  | cons v vs ih =>
      have hrest : DistinctNames vs := hdistinct.tail
      have hfirst : ∀ w ∈ vs, nameKey v.name ≠ nameKey w.name := (List.pairwise_cons.mp hdistinct).1
      rw [setVariable] at h
      split at h
      · next hsame =>
          have hname : nameKey name = nameKey v.name := (sameName_iff _ _).mp hsame
          split at h
          · next hchange =>
              cases h
              refine ⟨List.pairwise_cons.mpr ⟨hfirst, hrest⟩, ?_, ?_⟩
              · intro w hw hfixed
                rcases List.mem_cons.mp hw with rfl | hw
                · rw [hchange] at hfixed
                  cases hfixed
                · exact List.mem_cons_of_mem _ hw
              · intro key
                by_cases hkey : key = nameKey name
                · simp [handlerFor, hkey, hname]
                · have hne : ¬ nameKey v.name = key := fun h => hkey (h.symm.trans hname.symm)
                  simp [handlerFor, hne, hkey]
          · cases h
      · next hsame =>
          have hname : nameKey name ≠ nameKey v.name := fun h => hsame ((sameName_iff _ _).mpr h)
          obtain ⟨vs', hvs', rfl⟩ := Option.map_eq_some_iff.mp h
          obtain ⟨hdist', hfixed', hhandler⟩ := ih hvs' hrest
          refine ⟨List.pairwise_cons.mpr ⟨?_, hdist'⟩, ?_, ?_⟩
          · intro w hw
            rcases setVariable_names hvs' w hw with heq | ⟨u, hu, heq⟩
            · rw [heq]
              exact hname.symm
            · rw [← heq]
              exact hfirst u hu
          · intro w hw hfixed
            rcases List.mem_cons.mp hw with rfl | hw
            · exact List.mem_cons_self
            · exact List.mem_cons_of_mem _ (hfixed' w hw hfixed)
          · intro key
            by_cases hkey : nameKey v.name = key
            · have hne : ¬ key = nameKey name := fun h => hname (h.symm.trans hkey.symm)
              simp [handlerFor, hkey, hne]
            · have := hhandler key
              simpa [handlerFor, hkey] using this

/-! ## What a configuration binds -/

def lineBinding (database : Nat) : List Bytes → Option (Bytes × Nat × Ctx)
  | (36 :: name) :: values => some (name, database, lineCtx values)
  | _ => none

/-- The bindings of blocks, in their order; databases are counted from `n` on. -/
def bindings : Nat → List Block → List (Bytes × Nat × Ctx)
  | _, [] => []
  | n, block :: blocks => block.lines.filterMap (lineBinding n) ++ bindings (n + 1) blocks

def lastBound (key : Nat × Bytes) (before : Option (Nat × Ctx))
    (bs : List (Bytes × Nat × Ctx)) : Option (Nat × Ctx) :=
  bs.foldl (fun bound b => if key = nameKey b.1 then some b.2 else bound) before

theorem KeepsFixed.trans {t u v : List HttpVariable} (htu : KeepsFixed t u)
    (huv : KeepsFixed u v) : KeepsFixed t v :=
  fun w hw hfixed => huv w (htu w hw hfixed) hfixed

theorem addVariable_spec {n : Nat} {table table' : List HttpVariable} {line : List Bytes}
    (h : addVariable n table line = some table') (hdistinct : DistinctNames table) :
    DistinctNames table' ∧ KeepsFixed table table' ∧
      ∃ b, lineBinding n line = some b ∧
        ∀ key, handlerFor table' key = lastBound key (handlerFor table key) [b] := by
  unfold addVariable at h
  split at h
  · next name values =>
      split at h
      · cases h
      · obtain ⟨hdist', hfixed', hhandler⟩ := setVariable_spec h hdistinct
        exact ⟨hdist', hfixed', (name, n, lineCtx values), rfl, hhandler⟩
  · cases h

theorem addVariables_spec {n : Nat} {lines : List (List Bytes)} {table table' : List HttpVariable}
    (h : addVariables n table lines = some table') (hdistinct : DistinctNames table) :
    DistinctNames table' ∧ KeepsFixed table table' ∧
      ∀ key, handlerFor table' key =
        lastBound key (handlerFor table key) (lines.filterMap (lineBinding n)) := by
  induction lines generalizing table with
  | nil =>
      cases h
      exact ⟨hdistinct, fun v hv _ => hv, fun key => rfl⟩
  | cons line lines ih =>
      rw [addVariables] at h
      cases hline : addVariable n table line with
      | none => simp [hline] at h
      | some table₁ =>
          simp only [hline] at h
          obtain ⟨hdist₁, hfixed₁, b, hb, hhandler₁⟩ := addVariable_spec hline hdistinct
          obtain ⟨hdist', hfixed', hhandler⟩ := ih h hdist₁
          refine ⟨hdist', hfixed₁.trans hfixed', ?_⟩
          intro key
          rw [hhandler key, hhandler₁ key, List.filterMap_cons_some hb]
          rfl

theorem geoip2Blocks_spec {opens : Bytes → Bool} {blocks : List Block} {s s' : ConfState}
    (h : geoip2Blocks opens s blocks = some s') (hdistinct : DistinctNames s.table)
    (hfiles : s.databases.Nodup) :
    s'.databases = s.databases ++ blocks.map (cString ·.filename) ∧ s'.databases.Nodup ∧
      DistinctNames s'.table ∧ KeepsFixed s.table s'.table ∧
      ∀ key, handlerFor s'.table key =
        lastBound key (handlerFor s.table key) (bindings s.databases.length blocks) := by
  induction blocks generalizing s with
  | nil =>
      cases h
      exact ⟨by simp, hfiles, hdistinct, fun v hv _ => hv, fun key => rfl⟩
  | cons block blocks ih =>
      rw [geoip2Blocks, geoip2Block] at h
      by_cases hnew : cString block.filename ∈ s.databases
      · simp [hnew] at h
      · by_cases hopens : opens (cString block.filename) = true
        swap
        · simp [hnew, hopens] at h
        cases hlines : addVariables s.databases.length s.table block.lines with
        | none => simp [hnew, hopens, hlines] at h
        | some table =>
            simp only [if_neg hnew, hopens, not_true_eq_false, if_false, hlines] at h
            obtain ⟨hdist₁, hfixed₁, hhandler₁⟩ := addVariables_spec hlines hdistinct
            have hnodup : (s.databases ++ [cString block.filename]).Nodup := by
              refine List.nodup_append.mpr ⟨hfiles, by simp, ?_⟩
              intro a ha b hb hab
              rw [List.mem_singleton.mp hb] at hab
              exact hnew (hab ▸ ha)
            obtain ⟨hdbs, hfiles', hdist', hfixed', hhandler⟩ := ih h hdist₁ hnodup
            refine ⟨?_, hfiles', hdist', hfixed₁.trans hfixed', ?_⟩
            · simp [hdbs]
            · intro key
              rw [hhandler key, hhandler₁ key, bindings, lastBound, lastBound, lastBound,
                List.foldl_append]
              simp

/-- A configuration that is accepted opens one database for each block, no file twice,
leaves every variable of the server that may not be changed as it was, and binds each
name to what the last line with it says. -/
theorem geoip2Blocks_binds_last (opens : Bytes → Bool) (table : List HttpVariable)
    (hdistinct : DistinctNames table) (blocks : List Block) (s : ConfState)
    (h : geoip2Blocks opens { databases := [], table } blocks = some s) :
    s.databases = blocks.map (cString ·.filename) ∧ s.databases.Nodup ∧
      DistinctNames s.table ∧ KeepsFixed table s.table ∧
      ∀ key, handlerFor s.table key = lastBound key (handlerFor table key) (bindings 0 blocks) := by
  have hspec := geoip2Blocks_spec h hdistinct List.nodup_nil
  simpa using hspec

/-- Two blocks bind `$c`, the second in upper case: the second binding is the one. -/
theorem geoip2Blocks_binds_last_twice :
    handlerFor [{ name := [99], changeable := true, handler := some (1, lineCtx [[105]]) }]
        (nameKey [99]) =
      lastBound (nameKey [99]) (handlerFor [] (nameKey [99]))
        (bindings 0 [⟨[97], [[[36, 99], [105]]]⟩, ⟨[98], [[[36, 67], [105]]]⟩]) :=
  (geoip2Blocks_binds_last (fun _ => true) [] .nil
    [⟨[97], [[[36, 99], [105]]]⟩, ⟨[98], [[[36, 67], [105]]]⟩]
    { databases := [[97], [98]],
      table := [{ name := [99], changeable := true, handler := some (1, lineCtx [[105]]) }] }
    (by rfl)).2.2.2.2 (nameKey [99])

end Nginx
