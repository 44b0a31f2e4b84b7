import Dockerfiles.Bind.Links

/-! # What a start does to the volume

With the data directory at `/data`: what each node is after the three functions of
the script, its owner and its mode included. The two directories outside the volume,
`/var/run/named` and `/var/cache/bind`, may be reached through links.
-/

namespace BindImage

open Shell FileTree

variable {c : Config} {t t' s u : FileSystem} {q : Place Text}

/-! ## What the attributes are set to -/

/-- A node after `chmod -R` and `chown -R`; a link keeps its mode. -/
def Config.normal (c : Config) (x : Node Text Text Attr) : Node Text Text Attr :=
  { x with attr := c.setOwner (if x.kind.isLink then x.attr else Config.setMode x.attr) }

theorem Config.normal_kind (c : Config) (x : Node Text Text Attr) : (c.normal x).kind = x.kind :=
  rfl

theorem Config.normal_normal (c : Config) (x : Node Text Text Attr) :
    c.normal (c.normal x) = c.normal x := by
  cases hl : x.kind.isLink <;> simp [normal, hl, setOwner, setMode]

theorem Config.normal_eq_self_iff (c : Config) (x : Node Text Text Attr) :
    c.normal x = x ↔ c.setOwner x.attr = x.attr ∧
      (x.kind.isLink = false → Config.setMode x.attr = x.attr) := by
  obtain ⟨k, o, g, m⟩ := x
  cases hl : k.isLink <;> simp [normal, hl, setOwner, setMode]
  grind

theorem Config.setOwner_normal (c : Config) (x : Node Text Text Attr) :
    c.setOwner (c.normal x).attr = (c.normal x).attr := rfl

/-- Everything at and below the place is as the script would set it. -/
def Normal (c : Config) (x : Place Text) (t : FileSystem) : Prop :=
  ∀ q y, x <:+ q → t.node q = some y → c.normal y = y

/-! ## One run on the volume -/

theorem Base.leads_data (h : Base t) : t.leadsToDir [.name dataName] = true :=
  t.leadsToDir_dir h.data

theorem Base.linkAt_data (h : Base t) : t.linkAt [.name dataName] = none := by
  have hroot : t.resolve [] = .found [] :=
    Tree.resolve_eq_found_iff.mpr ⟨0, Nat.zero_le _, .done []⟩
  simp [Tree.linkAt, hroot, h.data]

theorem owned_node (hb : Base t) {s' : FileSystem}
    (hm : t.chmodR Config.setMode [.name dataName] = some s)
    (ho : s.chownR c.setOwner [.name dataName] = some s') (q : Place Text) :
    s'.node q = if [dataName] <:+ q then (t.node q).map c.normal else t.node q := by
  have hb' : Base s := hb.of_kind (Tree.chmodR_kind hm)
  rw [Tree.chmodR_eq hb.resolve_data hb.linkAt_data] at hm
  rw [Tree.chownR_eq hb'.resolve_data hb'.linkAt_data] at ho
  cases hm
  cases ho
  rw [Tree.retouchAt_node, Tree.retouchAt_node]
  cases t.node q with
  | none => simp
  | some x =>
      by_cases hq : [dataName] <:+ q
      · cases hl : x.kind.isLink <;> simp [hq, Config.normal, hl]
      · simp [hq]

theorem data_not_replaced (h : [dataName] <:+ q) : q ∉ replaced := by
  rintro (hs | hs)
  · exact not_suffix_of_apart h (by decide) (by decide) hs
  · exact not_suffix_of_apart h (by decide) (by decide) hs

theorem dataEtc_below (h : dataEtc <:+ q) : [dataName] <:+ q :=
  (List.suffix_cons etcName [dataName]).trans h

/-! ## The volume -/

/-- What the volume has when `create_bind_data_dir` starts and keeps: all that is there,
but for an `etc` that is no directory. -/
def held (c : Config) (t : FileSystem) : Set (Place Text) :=
  {q | [dataName] <:+ q ∧ t.node q ≠ none ∧ (dataEtc <:+ q → t.leadsToDir (path c.etcDir) = true)}

/-- `s'` is `s` with the owners and modes of some nodes set. -/
structure Normalised (c : Config) (z : Set (Place Text)) (s s' : FileSystem) : Prop where
  held : ∀ q ∈ z, s'.node q = (s.node q).map c.normal
  other : ∀ q, q ∉ z → s'.node q = s.node q

theorem Normalised.kind {z : Set (Place Text)} (h : Normalised c z s s') : s'.kind = s.kind := by
  funext q
  by_cases hq : q ∈ z
  · simp [Tree.kind, h.held q hq, Option.map_map, Function.comp_def, Config.normal_kind]
  · exact Tree.kind_congr (h.other q hq)

section Run

variable {made owned moved linked kept : FileSystem} (hd : c.dataPath = [.name dataName])

include hd

theorem Stages.made_eq (hb : Base t) (h : Stages c t made owned moved linked kept t') :
    made = t := by
  have hm := h.make
  rw [hd, Tree.mkdirP_of_leads hb.leads_data] at hm
  exact (Option.some.inj hm).symm

theorem Stages.owned_node (hb : Base t) (h : Stages c t made owned moved linked kept t')
    (q : Place Text) :
    owned.node q = if [dataName] <:+ q then (t.node q).map c.normal else t.node q := by
  obtain ⟨s, hm, ho⟩ := h.own
  rw [h.made_eq hd hb, hd] at hm
  rw [hd] at ho
  exact BindImage.owned_node hb hm ho q

/-- The data directory is no link, and none is on its way. -/
theorem Base.data_outside (hb : Base t) :
    t.resolve c.dataPath = .found [dataName] ∧
      Walks (hide replaced t.kind) [] c.dataPath [dataName] 0 := by
  rw [hd]
  have hroot := hide_eq_some.mpr ⟨region_replaced.root, t.kind_root⟩
  have hdata := hide_eq_some.mpr ⟨data_not_replaced (List.suffix_refl _), hb.data⟩
  exact ⟨hb.resolve_data, .entry hroot hdata rfl (.done _)⟩

theorem Stages.moves_data (hb : Base t) (h : Stages c t made owned moved linked kept t') :
    (t.leadsToDir (path c.etcDir) = true ∧ moved = owned) ∨
      (t.leadsToDir (path c.etcDir) = false ∧ t.resolve (path c.etcDir) ≠ .loop ∧
        t.canMove etcBind etcName [dataName] = true ∧
        ∃ hp hx, moved = owned.graft etcBind etcName [dataName] hp hx) := by
  obtain rfl := h.made_eq hd hb
  exact h.moves hb.layout (hb.data_outside hd).1

/-- What the volume keeps, and what lies elsewhere, is not moved. -/
theorem populated_same (hb : Base t) (h : Stages c t made owned moved linked kept t')
    (hq : q ∈ held c t ∨ (q ∉ replaced ∧ ¬ [dataName] <:+ q)) :
    (populated c t [dataName]).node q = t.node q := by
  have hbind : ¬ etcBind <:+ q := by
    rcases hq with hq | hq
    · exact fun hs => data_not_replaced hq.1 (.inl hs)
    · exact fun hs => hq.1 (.inl hs)
  rw [populated]
  rcases h.moves_data hd hb with ⟨hl, _⟩ | ⟨hl, _, hc, _⟩
  · rw [if_pos hl]
  · obtain ⟨hp, hx, hm⟩ := Tree.move_eq_graft hc
    rw [hl, if_neg Bool.false_ne_true, hm, Option.getD_some]
    refine t.graft_node_other hp hx (fun hs => ?_) hbind
    rcases hq with hq | hq
    · rw [hq.2.2 hs] at hl
      cases hl
    · exact hq.2 (dataEtc_below hs)

/-- What has been moved is as it was. -/
theorem Stages.normalised_moved (hb : Base t)
    (h : Stages c t made owned moved linked kept t') :
    Normalised c (held c t) (populated c t [dataName]) moved := by
  have howned := h.owned_node hd hb
  have hnot : ∀ q, q ∉ held c t → [dataName] <:+ q → (dataEtc <:+ q → t.leadsToDir
      (path c.etcDir) = true) → t.node q = none := by
    intro q hq hdata hetc
    by_contra hne
    exact hq ⟨hdata, hne, hetc⟩
  -- where a node has not been moved
  have hstay : ∀ q, q ∉ held c t → (dataEtc <:+ q → t.leadsToDir (path c.etcDir) = true) →
      owned.node q = t.node q := by
    intro q hq hetc
    rw [howned]
    split
    · next hdata => rw [hnot q hq hdata hetc, Option.map_none]
    · rfl
  rcases h.moves_data hd hb with ⟨hl, rfl⟩ | ⟨hl, _, hc, hp, hx, rfl⟩
  · have hpop : populated c t [dataName] = t := by rw [populated, if_pos hl]
    rw [hpop]
    exact ⟨fun q hq => (howned q).trans (if_pos hq.1), fun q hq => hstay q hq fun _ => hl⟩
  · obtain ⟨hp', hx', hm⟩ := Tree.move_eq_graft hc
    have hpop : populated c t [dataName] = t.graft etcBind etcName [dataName] hp' hx' := by
      rw [populated, hl, if_neg Bool.false_ne_true, hm, Option.getD_some]
    refine ⟨fun q hq => ?_, fun q hq => ?_⟩
    · rw [populated_same hd hb h (.inl hq)]
      have hetc : ¬ etcName :: [dataName] <:+ q := fun hs => by
        rw [hq.2.2 hs] at hl
        cases hl
      rw [owned.graft_node_other hp hx hetc fun hs => data_not_replaced hq.1 (.inl hs), howned,
        if_pos hq.1]
    · rw [hpop]
      by_cases hetc : etcName :: [dataName] <:+ q
      · obtain ⟨s, rfl⟩ := hetc
        rw [owned.graft_node_moved hp hx, t.graft_node_moved hp' hx', howned]
        exact if_neg fun hs => data_not_replaced hs (.inl (List.suffix_append s etcBind))
      · by_cases hbind : etcBind <:+ q
        · rw [owned.graft_node_source hp hx hetc hbind, t.graft_node_source hp' hx' hetc hbind]
        · rw [owned.graft_node_other hp hx hetc hbind, t.graft_node_other hp' hx' hetc hbind]
          exact hstay q hq fun hs => absurd hs hetc

theorem Stages.moved_data (hb : Base t) (h : Stages c t made owned moved linked kept t') :
    moved.kind [dataName] = some .dir ∧ t' = withLib c [dataName] (relinked c moved) := by
  obtain rfl := h.made_eq hd hb
  obtain ⟨hP, hw⟩ := hb.data_outside hd
  exact h.final_eq hb.layout hP hb.data (Nat.zero_le _) hw

theorem Stages.outlook_node (hb : Base t) (h : Stages c t made owned moved linked kept t')
    (q : Place Text) : (outlook c t [dataName]).node q =
      if q = varLibBind then some (linkNode c.libDir) else if varLibBind <:+ q then none
      else if q = etcBind then some (linkNode c.etcDir) else if etcBind <:+ q then none
      else if q = dataLib ∧ (populated c t [dataName]).node q = none then
        some ⟨.dir, c.setOwner c.newDir⟩
      else (populated c t [dataName]).node q := by
  have hkind := (h.normalised_moved hd hb).kind
  refine withLib_node (h.layout_moved.within ?_) (data_not_replaced (List.suffix_refl _)) ?_ q
  · rw [hkind]
    exact Within.refl _
  · rw [← hkind, (h.moved_data hd hb).1]

theorem Stages.outlook_same (hb : Base t) (h : Stages c t made owned moved linked kept t')
    (hq : q ∈ held c t ∨ (q ∉ replaced ∧ ¬ [dataName] <:+ q)) :
    (outlook c t [dataName]).node q = t.node q := by
  have hsame := populated_same hd hb h hq
  have hr : q ∉ replaced := hq.elim (fun hq => data_not_replaced hq.1) And.left
  have hnot : ¬ (q = dataLib ∧ (populated c t [dataName]).node q = none) := by
    rintro ⟨rfl, hnone⟩
    rcases hq with hq | hq
    · exact hq.2.1 (hsame.symm.trans hnone)
    · exact hq.2 (List.suffix_cons _ _)
  rw [h.outlook_node hd hb, if_not_replaced hr, if_neg hnot, hsame]

/-- After `create_bind_data_dir` the links are in place, and the owners and modes set of
what the volume had. -/
theorem Stages.normalised (hb : Base t) (h : Stages c t made owned moved linked kept t') :
    Normalised c (held c t) (outlook c t [dataName]) t' := by
  have hm := h.normalised_moved hd hb
  obtain ⟨hmd, ht'⟩ := h.moved_data hd hb
  have hfinal : ∀ q, t'.node q = _ := fun q => ht' ▸
    withLib_node h.layout_moved (data_not_replaced (List.suffix_refl _)) hmd q
  refine ⟨fun q hq => ?_, fun q hq => ?_⟩
  · have hnone : moved.node q ≠ none := by
      rw [hm.held q hq, populated_same hd hb h (.inl hq)]
      simpa using hq.2.1
    rw [h.outlook_same hd hb (.inl hq), hfinal, if_not_replaced (data_not_replaced hq.1),
      if_neg fun h => hnone h.2, hm.held q hq, populated_same hd hb h (.inl hq)]
  · rw [hfinal, h.outlook_node hd hb, hm.other q hq]
    rfl

theorem Stages.base (hb : Base t) (h : Stages c t made owned moved linked kept t') : Base t' := by
  obtain ⟨hP, hw⟩ := hb.data_outside hd
  obtain rfl := h.made_eq hd hb
  exact ⟨h.layout, (h.final_data hb.layout hP hb.data hw).2⟩

end Run

/-! ## The two directories elsewhere -/

def runPath : List (Comp Text) := path "/var/run/named".toList

def cachePath : List (Comp Text) := path "/var/cache/bind".toList

/-- The path leads to a directory with its owner set. -/
def Owned (c : Config) (cs : List (Comp Text)) (s : FileSystem) : Prop :=
  ∃ r x, s.resolve cs = .found r ∧ s.node r = some x ∧ x.kind = .dir ∧ c.setOwner x.attr = x.attr

/-- Nodes stay, but for the owner of some. -/
def Retains (c : Config) (s s' : FileSystem) : Prop :=
  ∀ q x, s.node q = some x → ∃ y, s'.node q = some y ∧ y.kind = x.kind ∧
    (y.attr = x.attr ∨ y.attr = c.setOwner x.attr)

theorem Retains.within (h : Retains c s s') : Within s.kind s'.kind := by
  intro q k hk
  obtain ⟨x, hx, rfl⟩ := Option.map_eq_some_iff.mp hk
  obtain ⟨y, hy, hkind, _⟩ := h q x hx
  simp [Tree.kind, hy, hkind]

section Owned

variable {cs : List (Comp Text)}

theorem Owned.fixed (h : Owned c cs s) : exec [mkdir c cs, chown c cs] s = some s := by
  obtain ⟨r, x, hr, hx, hd, ho⟩ := h
  have hdir : s.isDir r = true := by simp [Tree.isDir, Tree.kind, hx, hd]
  have hmake : (mkdir c cs).effect s = some s :=
    Tree.mkdirP_of_leads (by simp [Tree.leadsToDir, hr, hdir])
  have hown : (chown c cs).effect s = some s := by
    rw [chown_effect, Tree.chown_eq hr]
    refine congrArg some (Tree.retouchAt_eq_self fun p y hy hp => ?_)
    obtain rfl : p = r := by simpa using hp
    rw [hx] at hy
    cases hy
    exact ho
  exact exec_cons_eq_some.mpr ⟨s, hmake, exec_cons_eq_some.mpr ⟨s, hown, rfl⟩⟩

end Owned

end BindImage
