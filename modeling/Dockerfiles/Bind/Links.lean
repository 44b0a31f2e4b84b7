import Dockerfiles.Bind.Stages

/-! # Where the links lead

After a finished `create_bind_data_dir` the two links lead to the directories
`etc` and `lib` of the data directory, unless the data directory is reached
through a place that has been replaced, or what has been moved to `etc` makes it no
directory: a dangling link left by an earlier start is moved onto its own target.
`outlook` reads the tree before with the moved node and the links in their places.
-/

namespace BindImage

open Shell FileTree

/-! ## The replaced places -/

def replaced : Set (Place Text) := {q | etcBind <:+ q} ∪ {q | varLibBind <:+ q}

theorem region_replaced : Region replaced :=
  (region_below (by decide)).union (region_below (by decide))

theorem entry_replaced {n : Text} {p : Place Text} (hp : p ∉ replaced) (hc : n :: p ∈ replaced) :
    n :: p = etcBind ∨ n :: p = varLibBind := by
  rcases hc with hc | hc
  · exact .inl ((List.suffix_cons_iff.mp hc).resolve_right fun h => hp (.inl h)).symm
  · exact .inr ((List.suffix_cons_iff.mp hc).resolve_right fun h => hp (.inr h)).symm

theorem name_not_replaced {n : Text} {p : Place Text} (hn : n ≠ bindName) (hp : p ∉ replaced) :
    n :: p ∉ replaced := by
  intro hc
  rcases entry_replaced hp hc with he | he
  · exact hn (List.cons.inj he).1
  · exact hn (List.cons.inj he).1

variable {c : Config} {t t' u s : FileSystem} {P q : Place Text}

/-! ## The property -/

/-- Both paths lead to one directory. -/
def SameDir (t : FileSystem) (cs ds : List (Comp Text)) : Prop :=
  ∃ r, t.resolve cs = .found r ∧ t.resolve ds = .found r ∧ t.kind r = some .dir

def LinksResolve (c : Config) (t : FileSystem) : Prop :=
  SameDir t [.name etcName, .name bindName] (path c.etcDir) ∧
    SameDir t [.name varName, .name libName, .name bindName] (path c.libDir)

/-- The path leads to a directory, and so does a link that holds it. -/
def LeadsOn (t : FileSystem) (cs : List (Comp Text)) : Prop :=
  ∃ r n, n < maxLinks ∧ Walks t.kind [] cs r n ∧ t.kind r = some .dir

theorem Layout.walks_parent {parent : List (Comp Text)} {p : Place Text} (h : Layout t)
    (hm : (parent, p) ∈ parents) : Walks t.kind [] parent p 0 ∧ t.kind p = some .dir := by
  simp only [parents, List.mem_cons, Prod.mk.injEq, List.not_mem_nil, or_false] at hm
  rcases hm with ⟨rfl, rfl⟩ | ⟨rfl, rfl⟩
  · exact ⟨t.walks_dir h.etc_dir, h.etc_dir⟩
  · exact ⟨t.walks_dir h.lib_dir, h.lib_dir⟩

theorem sameDir_iff {parent ds : List (Comp Text)} {p : Place Text} (h : Layout t)
    (hm : (parent, p) ∈ parents) (hx : t.kind (bindName :: p) = some (.link ⟨true, ds⟩)) :
    SameDir t (parent ++ [.name bindName]) ds ↔ LeadsOn t ds := by
  obtain ⟨hparent, hdir⟩ := h.walks_parent hm
  constructor
  · rintro ⟨r, hr, _, hd⟩
    obtain ⟨m, hle, hw⟩ := Tree.resolve_eq_found_iff.mp hr
    obtain ⟨r', i, j, hij, ha, hb⟩ := hw.split
    obtain ⟨rfl, rfl⟩ := ha.unique hparent
    cases hb with
    | entry _ hk hl _ =>
        rw [hx] at hk
        cases hk
        cases hl
    | link _ hk hw' =>
        rw [hx] at hk
        cases hk
        refine ⟨r, _, ?_, by simpa [Target.base] using hw', hd⟩
        omega
  · rintro ⟨r, n, hn, hw, hd⟩
    have hlink : Walks t.kind [] (parent ++ [.name bindName]) r (0 + (n + 1)) :=
      hparent.append (.link hdir hx (by simpa [Target.base] using hw))
    exact ⟨r, Tree.resolve_eq_found_iff.mpr ⟨_, by omega, hlink⟩,
      Tree.resolve_eq_found_iff.mpr ⟨n, hn.le, hw⟩, hd⟩

/-- The links of the script lead where their targets lead. -/
theorem linksResolve_iff (ha : c.dataDir.head? = some '/') (hl : Layout t)
    (hb : t.kind etcBind = some (.link (target c.etcDir)))
    (hv : t.kind varLibBind = some (.link (target c.libDir))) :
    LinksResolve c t ↔ LeadsOn t (path c.etcDir) ∧ LeadsOn t (path c.libDir) := by
  rw [target_etcDir ha, ← path_etcDir] at hb
  rw [target_libDir ha, ← path_libDir] at hv
  exact and_congr (sameDir_iff hl etc_mem_parents hb) (sameDir_iff hl lib_mem_parents hv)

/-! ## The tree with the links in place -/

def linkNode (source : Text) : Node Text Text Attr := ⟨.link (target source), Config.newLink⟩

/-- Where `etc` in the data directory, at `P`, is no directory, what stands at `/etc/bind`
stands there. -/
def populated (c : Config) (u : FileSystem) (P : Place Text) : FileSystem :=
  if u.leadsToDir (path c.etcDir) then u else (u.move etcBind etcName P).getD u

/-- `/etc/bind` and `/var/lib/bind` are links into the data directory. -/
def relinked (c : Config) (u : FileSystem) : FileSystem :=
  (u.wall bindName [etcName] (linkNode c.etcDir)).wall bindName [libName, varName]
    (linkNode c.libDir)

/-- A directory at `lib` in the data directory, if nothing is there. -/
def withLib (c : Config) (P : Place Text) (u : FileSystem) : FileSystem :=
  if (u.kind (libName :: P)).isNone then u.add (libName :: P, ⟨.dir, c.setOwner c.newDir⟩) else u

def outlook (c : Config) (u : FileSystem) (P : Place Text) : FileSystem :=
  withLib c P (relinked c (populated c u P))

/-! ## The condition -/

/-- What is to be `etc` in the data directory: what is there, if that leads to a directory,
and if not what is at `/etc/bind`. -/
def etcSource (c : Config) (u : FileSystem) (P : Place Text) : Place Text :=
  if u.leadsToDir (path c.etcDir) then etcName :: P else etcBind

/-- A directory, or a link that leads on to one from `P` where `b` links are left. -/
def Opens (s : FileSystem) (P : Place Text) (b : Nat) (k : Option (Kind Text Text)) : Prop :=
  k = some .dir ∨ ∃ x, k = some (.link x) ∧
    ∃ r m, m < b ∧ Walks s.kind (x.base P) x.comps r m ∧ s.kind r = some .dir

/-- In `u`, where the data directory has been made, it is reached, at `P`, without the
replaced places, and `b` links are left; what is to be its `etc` is a directory, or leads to
one with the links in place; and its `lib` is not there, or is or leads to one likewise. -/
structure Sound (c : Config) (t u : FileSystem) (P : Place Text) (b : Nat) : Prop where
  make : t.mkdirP c.newDir c.dataPath = some u
  data : ∃ n, n + b + 1 = maxLinks ∧ Walks (hide replaced u.kind) [] c.dataPath P n
  etc : Opens (outlook c u P) P b (u.kind (etcSource c u P))
  lib : u.kind (libName :: P) = none ∨ Opens (outlook c u P) P b (u.kind (libName :: P))

theorem Opens.of_kind {s s' : FileSystem} {b : Nat} {k : Option (Kind Text Text)}
    (h : Opens s P b k) (hk : s'.kind = s.kind) : Opens s' P b k := by
  unfold Opens
  rw [hk]
  exact h

/-- A path to a directory goes through its last entry. -/
theorem leads_name_iff {cs : List (Comp Text)} {e : Text} {n b : Nat}
    (hw : Walks s.kind [] cs P n) (hP : s.kind P = some .dir) :
    (∃ r m, m ≤ n + b ∧ Walks s.kind [] (cs ++ [.name e]) r m ∧ s.kind r = some .dir) ↔
      Opens s P b (s.kind (e :: P)) := by
  constructor
  · rintro ⟨r, m, hm, hr, hd⟩
    obtain ⟨q, i, j, hij, ha, hb⟩ := hr.split
    obtain ⟨rfl, rfl⟩ := ha.unique hw
    cases hb with
    | entry _ hk _ hw' =>
        cases hw'
        exact .inl hd
    | link _ hk hw' =>
        rw [List.append_nil] at hw'
        exact .inr ⟨_, hk, r, _, by omega, hw', hd⟩
  · rintro (hk | ⟨x, hk, r, m, hm, hr, hd⟩)
    · exact ⟨e :: P, n, Nat.le_add_right n b, hw.append (.entry hP hk rfl (.done _)), hk⟩
    · have hlink : Walks s.kind P [.name e] r (m + 1) := .link hP hk (by simpa using hr)
      exact ⟨r, n + (m + 1), by omega, hw.append hlink, hd⟩

theorem leadsOn_name_iff {cs : List (Comp Text)} {e : Text} {n b : Nat}
    (hn : n + b + 1 = maxLinks) (hw : Walks s.kind [] cs P n) (hP : s.kind P = some .dir) :
    LeadsOn s (cs ++ [.name e]) ↔ Opens s P b (s.kind (e :: P)) := by
  rw [← leads_name_iff hw hP, LeadsOn, ← hn]
  simp only [Nat.lt_succ_iff]

/-! ## Its nodes -/

theorem Layout.isDir_etc (h : Layout t) : t.isDir [etcName] = true :=
  (t.isDir_iff _).mpr h.etc_dir

theorem relinked_node (h : Layout u) (q : Place Text) :
    (relinked c u).node q =
      if q = varLibBind then some (linkNode c.libDir) else if varLibBind <:+ q then none
      else if q = etcBind then some (linkNode c.etcDir) else if etcBind <:+ q then none
      else u.node q := by
  have hetc := u.wall_node h.isDir_etc (n := bindName) (linkNode c.etcDir)
  have hlib : (u.wall bindName [etcName] (linkNode c.etcDir)).isDir [libName, varName] = true := by
    rw [Tree.isDir_iff, ← h.lib_dir]
    refine Tree.kind_congr ((hetc _).trans ?_)
    rw [if_neg (by decide), if_neg (by decide)]
  rw [relinked, Tree.wall_node _ hlib, hetc]
  rfl

theorem ne_of_not_suffix {x q : Place Text} (h : ¬ x <:+ q) : q ≠ x :=
  fun he => h (he ▸ List.suffix_refl _)

/-- What stands in a replaced place, and the given node elsewhere. -/
theorem if_not_replaced {α : Type} {q : Place Text} {a b d e x : α} (hq : q ∉ replaced) :
    (if q = varLibBind then a else if varLibBind <:+ q then b
      else if q = etcBind then d else if etcBind <:+ q then e else x) = x := by
  have h₁ : ¬ varLibBind <:+ q := fun hs => hq (.inr hs)
  have h₂ : ¬ etcBind <:+ q := fun hs => hq (.inl hs)
  rw [if_neg (ne_of_not_suffix h₁), if_neg h₁, if_neg (ne_of_not_suffix h₂), if_neg h₂]

theorem withLib_node (hl : Layout s) (hP : P ∉ replaced) (hd : s.kind P = some .dir)
    (q : Place Text) : (withLib c P (relinked c s)).node q =
      if q = varLibBind then some (linkNode c.libDir) else if varLibBind <:+ q then none
      else if q = etcBind then some (linkNode c.etcDir) else if etcBind <:+ q then none
      else if q = libName :: P ∧ s.node q = none then some ⟨.dir, c.setOwner c.newDir⟩
      else s.node q := by
  have hnode := relinked_node (c := c) hl
  have hout : ∀ q, q ∉ replaced → (relinked c s).node q = s.node q :=
    fun q hq => (hnode q).trans (if_not_replaced hq)
  have hlib := name_not_replaced (n := libName) (by decide) hP
  rw [withLib]
  by_cases hnone : s.node (libName :: P) = none
  · have hkind : (relinked c s).kind (libName :: P) = none := by
      rw [Tree.kind_congr (hout _ hlib), Tree.kind_eq_none_iff, hnone]
    have hp : (relinked c s).isDir P = true := by
      rw [Tree.isDir_iff, Tree.kind_congr (hout P hP), hd]
    have hn : (relinked c s).isDir (libName :: P) = false := by
      simp [Tree.isDir, hkind]
    rw [hkind, Option.isNone_none, if_pos rfl, Tree.add_node _ _ hp hn]
    by_cases hq : q = libName :: P
    · rw [if_pos hq, if_not_replaced (hq ▸ hlib), if_pos ⟨hq, by rw [hq, hnone]⟩]
    · rw [if_neg hq, hnode, if_neg (fun h : q = libName :: P ∧ _ => hq h.1)]
  · have hsome : (relinked c s).kind (libName :: P) ≠ none := by
      rw [Tree.kind_congr (hout _ hlib), ne_eq, Tree.kind_eq_none_iff]
      exact hnone
    have hnot : ¬ (q = libName :: P ∧ s.node q = none) := by
      rintro ⟨rfl, hq⟩
      exact hnone hq
    rw [if_neg (by simpa using hsome), hnode, if_neg hnot]

/-! ## What a finished start leaves -/

theorem leadsToDir_of_kind {s s' : FileSystem} (h : s'.kind = s.kind) (cs : List (Comp Text)) :
    s'.leadsToDir cs = s.leadsToDir cs := by
  simp [Tree.leadsToDir, Tree.resolve, Tree.isDir, h]

theorem resolve_of_kind {s s' : FileSystem} (h : s'.kind = s.kind) (cs : List (Comp Text)) :
    s'.resolve cs = s.resolve cs := by
  simp [Tree.resolve, h]

section Run

variable {made owned moved linked kept : FileSystem}

theorem Stages.owned_kind (h : Stages c t made owned moved linked kept t') :
    owned.kind = made.kind := by
  obtain ⟨s, hm, ho⟩ := h.own
  rw [Tree.chownR_kind ho, Tree.chmodR_kind hm]

theorem Stages.made_place (h : Stages c t made owned moved linked kept t') :
    ∃ P, made.resolve c.dataPath = .found P ∧ made.kind P = some .dir := by
  obtain ⟨P, n, hn, hw, hd⟩ := Tree.leadsToDir_iff.mp (Tree.mkdirP_leads h.make)
  exact ⟨P, Tree.resolve_eq_found_iff.mpr ⟨n, hn, hw⟩, hd⟩

/-- The two cases of the move. -/
theorem Stages.moves (hl : Layout t) (h : Stages c t made owned moved linked kept t')
    (hP : made.resolve c.dataPath = .found P) :
    (made.leadsToDir (path c.etcDir) = true ∧ moved = owned) ∨
      (made.leadsToDir (path c.etcDir) = false ∧ made.resolve (path c.etcDir) ≠ .loop ∧
        made.canMove etcBind etcName P = true ∧
        ∃ hp hx, moved = owned.graft etcBind etcName P hp hx) := by
  have hk := h.owned_kind
  rcases h.move with ⟨hd, hm⟩ | ⟨hd, hm⟩
  · exact .inl ⟨by rw [← leadsToDir_of_kind hk, hd], hm⟩
  · have hlay : Layout owned := (hl.within (Tree.mkdirP_grows h.make).within).within <| by
      rw [hk]
      exact Within.refl _
    have hloop := Tree.resolve_ne_loop_of_mv hm
    have hd' := hd
    rw [path_etcDir] at hd'
    obtain ⟨a, p, hp, hx, ⟨ha, hp', _, hc⟩, hg⟩ := Tree.mv_eq_some hm hd'
    rw [hlay.resolve_etc] at ha
    cases ha
    rw [resolve_of_kind hk, hP] at hp'
    cases hp'
    rw [← path_etcDir, resolve_of_kind hk] at hloop
    rw [leadsToDir_of_kind hk] at hd
    exact .inr ⟨hd, hloop, by rw [← Tree.canMove_of_kind hk]; exact hc, hp, hx, hg⟩

theorem Stages.populated_kind (hl : Layout t) (h : Stages c t made owned moved linked kept t')
    (hP : made.resolve c.dataPath = .found P) : (populated c made P).kind = moved.kind := by
  rw [populated]
  rcases h.moves hl hP with ⟨hd, rfl⟩ | ⟨hd, _, hc, hp, hx, rfl⟩
  · rw [if_pos hd, h.owned_kind]
  · obtain ⟨hp', hx', hmove⟩ := Tree.move_eq_graft hc
    rw [hd, if_neg Bool.false_ne_true, hmove, Option.getD_some]
    funext q
    rw [Tree.graft_kind, Tree.graft_kind, h.owned_kind]

/-- Outside the replaced places, and the place that has been moved to. -/
theorem Stages.linked_outside (hl : Layout t) (h : Stages c t made owned moved linked kept t')
    (hP : made.resolve c.dataPath = .found P) (hq : q ∉ replaced)
    (he : etcName :: P <:+ q → made.leadsToDir (path c.etcDir) = true) :
    linked.kind q = made.kind q := by
  have hb : ¬ etcBind <:+ q := fun hs => hq (.inl hs)
  rw [h.link.kind_other hb]
  rcases h.moves hl hP with ⟨_, rfl⟩ | ⟨hd, _, _, hp, hx, rfl⟩
  · rw [h.owned_kind]
  · have hout : ¬ etcName :: P <:+ q := by
      intro hs
      rw [he hs] at hd
      cases hd
    rw [owned.graft_kind_other hp hx hout hb, h.owned_kind]

/-- Where the data directory was reached without the replaced places, it still is: the
move has not come in the way. -/
theorem Stages.linked_data {n : Nat} (hl : Layout t)
    (h : Stages c t made owned moved linked kept t') (hP : made.resolve c.dataPath = .found P)
    (hd : made.kind P = some .dir) (hw : Walks (hide replaced made.kind) [] c.dataPath P n) :
    Walks (hide replaced linked.kind) [] c.dataPath P n ∧ linked.kind P = some .dir := by
  have hPout := hw.not_mem region_replaced region_replaced.root
  refine ⟨?_, ?_⟩
  · rcases h.moves hl hP with ⟨hlead, _⟩ | ⟨hlead, hloop, _⟩
    · refine hw.mono fun q x hx => ?_
      obtain ⟨hq, hk⟩ := hide_eq_some.mp hx
      exact hide_eq_some.mpr ⟨hq, by rw [h.linked_outside hl hP hq fun _ => hlead, hk]⟩
    · rw [path_etcDir] at hlead hloop
      have hw' := Tree.hide_of_not_leads hw (hide_within _ _) hd hlead hloop
      refine hw'.mono fun q x hx => ?_
      obtain ⟨he, hx⟩ := hide_eq_some.mp hx
      obtain ⟨hq, hk⟩ := hide_eq_some.mp hx
      exact hide_eq_some.mpr ⟨hq, by rw [h.linked_outside hl hP hq fun hs => absurd hs he, hk]⟩
  · rw [h.linked_outside hl hP hPout fun hs => absurd hs (not_cons_suffix _ _), hd]

/-- `lib` is there, or is made. -/
theorem Stages.kept_cases {n : Nat} (h : Stages c t made owned moved linked kept t')
    (hw : Walks linked.kind [] c.dataPath P n) (hn : n ≤ maxLinks)
    (hd : linked.kind P = some .dir) :
    (linked.node (libName :: P) ≠ none ∧ kept = linked) ∨
      (linked.node (libName :: P) = none ∧ ∀ q, kept.node q =
        if q = libName :: P then some ⟨.dir, c.setOwner c.newDir⟩ else linked.node q) := by
  have hP : linked.resolve c.dataPath = .found P := Tree.resolve_eq_found_iff.mpr ⟨n, hn, hw⟩
  rcases h.keep with ⟨hlead, hk⟩ | ⟨hlead, s, hm, ho⟩
  · refine .inl ⟨fun hnone => ?_, hk⟩
    rw [path_libDir, Tree.leadsToDir_of_none hP ((Tree.kind_eq_none_iff _ _).mpr hnone)] at hlead
    cases hlead
  · rw [path_libDir] at hlead hm ho
    have hgrow := (Tree.mkdirP_grows hm).within
    obtain ⟨hnone, hfree, hs⟩ := Tree.mkdirP_snoc hm hP ((linked.isDir_iff P).mpr hd) hlead
    have hlib : s.kind (libName :: P) = some .dir := by
      rw [hs, Tree.put_kind, if_pos rfl]
    have hr := Tree.resolve_eq_found_iff.mpr
      ⟨n, hn, (hw.mono hgrow).append (.entry (hgrow P _ hd) hlib rfl (.done _))⟩
    rw [Tree.chown_eq hr] at ho
    cases ho
    refine .inr ⟨(Tree.kind_eq_none_iff _ _).mp hnone, fun q => ?_⟩
    rw [Tree.retouchAt_node, hs, Tree.put_node]
    by_cases hq : q = libName :: P
    · simp [hq]
    · rw [if_neg hq, if_neg hq]
      cases linked.node q with
      | none => rfl
      | some x => simp [hq]

/-- What stands in the tree after the move stands in the last one, with the links and
`lib` in their places. -/
theorem Stages.final_eq {n : Nat} (hl : Layout t)
    (h : Stages c t made owned moved linked kept t') (hP : made.resolve c.dataPath = .found P)
    (hd : made.kind P = some .dir) (hn : n ≤ maxLinks)
    (hw : Walks (hide replaced made.kind) [] c.dataPath P n) :
    moved.kind P = some .dir ∧ t' = withLib c P (relinked c moved) := by
  have hPout := hw.not_mem region_replaced region_replaced.root
  obtain ⟨hlw, hld⟩ := h.linked_data hl hP hd hw
  have hmd : moved.kind P = some .dir := by
    rw [← h.link.kind_other (fun hs => hPout (.inl hs)), hld]
  have hlib := name_not_replaced (n := libName) (by decide) hPout
  have hliblinked : linked.node (libName :: P) = moved.node (libName :: P) :=
    h.link.node_other fun hs => hlib (.inl hs)
  have hkept : ∀ q, kept.node q = if q = etcBind then some (linkNode c.etcDir)
      else if etcBind <:+ q then none
      else if q = libName :: P ∧ moved.node q = none then some ⟨.dir, c.setOwner c.newDir⟩
      else moved.node q := by
    intro q
    rcases h.kept_cases (hlw.mono (hide_within _ _)) hn hld with ⟨hsome, rfl⟩ | ⟨hnone, hk⟩
    · have hnot : ¬ (q = libName :: P ∧ moved.node q = none) := by
        rintro ⟨rfl, hq⟩
        exact hsome (hliblinked.trans hq)
      rw [h.link q, if_neg hnot]
      rfl
    · rw [hk q]
      by_cases hq : q = libName :: P
      · have h₂ : ¬ etcBind <:+ q := fun hs => hlib (.inl (hq ▸ hs))
        have hnone' : moved.node q = none := by rw [hq, ← hliblinked, hnone]
        rw [if_pos hq, if_neg (ne_of_not_suffix h₂), if_neg h₂, if_pos ⟨hq, hnone'⟩]
      · rw [if_neg hq, h.link q, if_neg fun h : q = libName :: P ∧ _ => hq h.1]
        rfl
  refine ⟨hmd, Tree.ext (funext fun q => ?_)⟩
  rw [h.relink q, hkept q, withLib_node h.layout_moved hPout hmd]
  rfl

/-- The kinds are those of `outlook`. -/
theorem Stages.final_kind {n : Nat} (hl : Layout t)
    (h : Stages c t made owned moved linked kept t') (hP : made.resolve c.dataPath = .found P)
    (hd : made.kind P = some .dir) (hn : n ≤ maxLinks)
    (hw : Walks (hide replaced made.kind) [] c.dataPath P n) :
    t'.kind = (outlook c made P).kind := by
  have hPout := hw.not_mem region_replaced region_replaced.root
  obtain ⟨hmd, rfl⟩ := h.final_eq hl hP hd hn hw
  have hpop := h.populated_kind hl hP
  have hlay : Layout (populated c made P) := h.layout_moved.within <| by
    rw [hpop]
    exact Within.refl _
  have hpd : (populated c made P).kind P = some .dir := by rw [hpop, hmd]
  funext q
  have hsame : ((populated c made P).node q).map Node.kind = (moved.node q).map Node.kind :=
    congrFun hpop q
  have hnone : (populated c made P).node q = none ↔ moved.node q = none := by
    rw [← Option.map_eq_none_iff, hsame, Option.map_eq_none_iff]
  rw [Tree.kind, Tree.kind, withLib_node h.layout_moved hPout hmd, outlook,
    withLib_node hlay hPout hpd]
  simp only [hnone]
  split_ifs
  · rfl
  · rfl
  · rfl
  · rfl
  · rfl
  · exact hsame.symm

/-- What is kept of the linked tree, and directories at most. -/
theorem Stages.kept_kind (h : Stages c t made owned moved linked kept t') (q : Place Text) :
    kept.kind q = linked.kind q ∨ (linked.kind q = none ∧ kept.kind q = some .dir) := by
  rcases h.keep with ⟨_, rfl⟩ | ⟨_, s, hm, ho⟩
  · exact .inl rfl
  · rw [Tree.chown_kind ho]
    rcases Tree.mkdirP_grows hm q with he | ⟨hn, hd, _⟩
    · exact .inl (Tree.kind_congr he)
    · exact .inr ⟨(linked.kind_eq_none_iff q).mpr hn, by simp [Tree.kind, hd]⟩

theorem Stages.final_of_linked (h : Stages c t made owned moved linked kept t')
    (hq : ¬ varLibBind <:+ q) {x : Kind Text Text} (hx : linked.kind q = some x) :
    t'.kind q = some x := by
  rw [h.relink.kind_other hq]
  rcases h.kept_kind q with he | ⟨hn, _⟩
  · rw [he, hx]
  · rw [hn] at hx
    cases hx

theorem Stages.kind_etcBind (h : Stages c t made owned moved linked kept t') :
    t'.kind etcBind = some (.link (target c.etcDir)) :=
  h.final_of_linked (by decide) h.link.kind_self

/-- Where the links resolve, the data directory does not need them: a walk that
used one would come back to its own beginning. -/
theorem LeadsOn.data_outside (ha : c.dataDir.head? = some '/')
    (hb : t'.kind etcBind = some (.link (target c.etcDir)))
    (hv : t'.kind varLibBind = some (.link (target c.libDir))) (h : LeadsOn t' (path c.etcDir)) :
    ∃ P n, n < maxLinks ∧ Walks (hide replaced t'.kind) [] c.dataPath P n := by
  obtain ⟨r, m, hm, hw, _⟩ := h
  rw [path_etcDir] at hw
  obtain ⟨P, n, l, hsum, hdata, _⟩ := hw.split
  refine ⟨P, n, by omega, hdata.hide_of_links region_replaced ?_⟩
  intro p n hp hc
  rcases entry_replaced hp hc with he | he
  · exact .inr ⟨_, by rw [he, hb, target_etcDir ha]⟩
  · exact .inr ⟨_, by rw [he, hv, target_libDir ha]⟩

/-- The data directory as it was made does not need them either. -/
theorem Stages.data_outside {n n' : Nat} {P' : Place Text} (hl : Layout t)
    (h : Stages c t made owned moved linked kept t') (hP : made.resolve c.dataPath = .found P)
    (hd : made.kind P = some .dir) (hw : Walks made.kind [] c.dataPath P n)
    (hfinal : Walks (hide replaced t'.kind) [] c.dataPath P' n') :
    Walks (hide replaced made.kind) [] c.dataPath P n ∧ n = n' := by
  obtain ⟨k, hk, hwk, hkeep⟩ : ∃ k, Within k made.kind ∧ Walks k [] c.dataPath P n ∧
      ∀ p x, p ∉ replaced → k p = some x → t'.kind p = some x := by
    rcases h.moves hl hP with ⟨hlead, _⟩ | ⟨hlead, hloop, _⟩
    · refine ⟨made.kind, Within.refl _, hw, fun p x hp hx => ?_⟩
      exact h.final_of_linked (fun hs => hp (.inr hs))
        ((h.linked_outside hl hP hp fun _ => hlead).trans hx)
    · rw [path_etcDir] at hlead hloop
      refine ⟨_, hide_within _ _,
        Tree.hide_of_not_leads hw (Within.refl _) hd hlead hloop, fun p x hp hx => ?_⟩
      obtain ⟨he, hx⟩ := hide_eq_some.mp hx
      exact h.final_of_linked (fun hs => hp (.inr hs))
        ((h.linked_outside hl hP hp fun hs => absurd hs he).trans hx)
  have hwz := hwk.hide_of_agree hfinal region_replaced.root region_replaced
    fun p x hp hx _ => hkeep p x hp hx
  refine ⟨hwz.mono fun p x hx => ?_, ?_⟩
  · obtain ⟨hp, hx⟩ := hide_eq_some.mp hx
    exact hide_eq_some.mpr ⟨hp, hk p x hx⟩
  · have hwt : Walks t'.kind [] c.dataPath P n := hwz.mono fun p x hx => by
      obtain ⟨hp, hx⟩ := hide_eq_some.mp hx
      exact hkeep p x hp hx
    exact (hwt.unique (hfinal.mono (hide_within _ _))).2

theorem Stages.final_data {n : Nat} (hl : Layout t)
    (h : Stages c t made owned moved linked kept t') (hP : made.resolve c.dataPath = .found P)
    (hd : made.kind P = some .dir) (hw : Walks (hide replaced made.kind) [] c.dataPath P n) :
    Walks t'.kind [] c.dataPath P n ∧ t'.kind P = some .dir := by
  obtain ⟨hlw, hld⟩ := h.linked_data hl hP hd hw
  have hkeep : ∀ q x, q ∉ replaced → linked.kind q = some x → t'.kind q = some x :=
    fun q x hq hx => h.final_of_linked (fun hs => hq (.inr hs)) hx
  refine ⟨hlw.mono fun q x hx => ?_, ?_⟩
  · obtain ⟨hq, hk⟩ := hide_eq_some.mp hx
    exact hkeep q x hq hk
  · exact hkeep P _ (hw.not_mem region_replaced region_replaced.root) hld

/-- What is kept at `etc`, or moved there. -/
theorem Stages.final_etc {n : Nat} (hl : Layout t)
    (h : Stages c t made owned moved linked kept t') (hP : made.resolve c.dataPath = .found P)
    (hw : Walks (hide replaced made.kind) [] c.dataPath P n) :
    ∃ x, made.kind (etcSource c made P) = some x ∧ t'.kind (etcName :: P) = some x := by
  have hPout := hw.not_mem region_replaced region_replaced.root
  have hout := name_not_replaced (n := etcName) (by decide) hPout
  obtain ⟨x, hx, hmoved⟩ : ∃ x, made.kind (etcSource c made P) = some x ∧
      moved.kind (etcName :: P) = some x := by
    rcases h.moves hl hP with ⟨hlead, hm⟩ | ⟨hlead, _, hc, hp, hx, hm⟩
    · rw [etcSource, if_pos hlead, hm, h.owned_kind]
      cases hk : made.kind (etcName :: P) with
      | none =>
          rw [path_etcDir, Tree.leadsToDir_of_none hP hk] at hlead
          cases hlead
      | some x => exact ⟨x, rfl, rfl⟩
    · rw [etcSource, hlead, if_neg Bool.false_ne_true]
      obtain ⟨_, _, hsome, _⟩ := Tree.canMove_iff.mp hc
      obtain ⟨x, hk⟩ := Option.ne_none_iff_exists'.mp hsome
      refine ⟨x, hk, ?_⟩
      rw [hm, ← hk, ← h.owned_kind]
      exact owned.graft_kind_moved hp hx []
  refine ⟨x, hx, h.final_of_linked (fun hs => hout (.inr hs)) ?_⟩
  rw [h.link.kind_other fun hs => hout (.inl hs), hmoved]

/-- A `lib` that was there, or has been made. -/
theorem Stages.final_lib {n : Nat} (hl : Layout t)
    (h : Stages c t made owned moved linked kept t') (hP : made.resolve c.dataPath = .found P)
    (hd : made.kind P = some .dir) (hn : n ≤ maxLinks)
    (hw : Walks (hide replaced made.kind) [] c.dataPath P n) :
    t'.kind (libName :: P) = some ((made.kind (libName :: P)).getD .dir) := by
  have hPout := hw.not_mem region_replaced region_replaced.root
  have hout := name_not_replaced (n := libName) (by decide) hPout
  obtain ⟨hlw, hld⟩ := h.linked_data hl hP hd hw
  have hlinked : linked.kind (libName :: P) = made.kind (libName :: P) := by
    refine h.linked_outside hl hP hout fun hs => ?_
    rcases List.suffix_cons_iff.mp hs with he | hs
    · exact absurd (List.cons.inj he).1 (by decide)
    · exact absurd hs (not_cons_suffix _ _)
  rw [h.relink.kind_other fun hs => hout (.inr hs), ← hlinked]
  rcases h.kept_cases (hlw.mono (hide_within _ _)) hn hld with ⟨hsome, hk⟩ | ⟨hnone, hk⟩
  · obtain ⟨x, hx⟩ := Option.ne_none_iff_exists'.mp
      fun hn => hsome ((linked.kind_eq_none_iff _).mp hn)
    rw [hk, hx, Option.getD_some]
  · rw [(linked.kind_eq_none_iff _).mpr hnone, Option.getD_none, Tree.kind, hk, if_pos rfl]
    rfl

theorem LinksResolve.sound (ha : c.dataDir.head? = some '/') (hl : Layout t)
    (h : Stages c t made owned moved linked kept t') (hr : LinksResolve c t') :
    ∃ u P b, Sound c t u P b := by
  obtain ⟨hetc, hlib⟩ := (linksResolve_iff ha h.layout h.kind_etcBind h.relink.kind_self).mp hr
  obtain ⟨P, hP, hd⟩ := h.made_place
  obtain ⟨n, hle, hw⟩ := Tree.resolve_eq_found_iff.mp hP
  obtain ⟨P', n', hlt, hfinal⟩ := hetc.data_outside ha h.kind_etcBind h.relink.kind_self
  obtain ⟨hout, rfl⟩ := h.data_outside hl hP hd hw hfinal
  obtain ⟨b, hb⟩ : ∃ b, n + b + 1 = maxLinks := ⟨maxLinks - 1 - n, by omega⟩
  have hkind := h.final_kind hl hP hd hle hout
  obtain ⟨hdata, hPd⟩ := h.final_data hl hP hd hout
  obtain ⟨x, hx, hx'⟩ := h.final_etc hl hP hout
  rw [path_etcDir, leadsOn_name_iff hb hdata hPd, hx', ← hx] at hetc
  rw [path_libDir, leadsOn_name_iff hb hdata hPd, h.final_lib hl hP hd hle hout] at hlib
  refine ⟨made, P, b, h.make, ⟨n, hb, hout⟩, hetc.of_kind hkind.symm, ?_⟩
  cases hk : made.kind (libName :: P) with
  | none => exact .inl rfl
  | some x =>
      rw [hk] at hlib
      exact .inr (hlib.of_kind hkind.symm)

end Run

end BindImage
