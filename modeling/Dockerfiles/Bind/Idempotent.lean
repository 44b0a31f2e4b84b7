import Dockerfiles.Bind.Provision
import Dockerfiles.Bind.Safety

/-! # Running the script a second time

The owners and modes in `/data` are set before the default configuration is moved
there, and before `lib` is made, so what these two bring is set right only by the
next start. Where they bring nothing that needs to be set, and the paths still lead to
directories with the links in place, the second run finds everything done.
-/

namespace BindImage

open Shell FileTree

variable {c : Config} {t t' s : FileSystem} {q : Place Text}

/-! ## What a second run finds -/

theorem exec_append_fixed {cs ds : List (Cmd FileSystem)} (h : exec cs s = some s)
    (h' : exec ds s = some s) : exec (cs ++ ds) s = some s := by
  rw [exec_append, h]
  exact h'

/-- A link of the script is removed and made again. -/
theorem relink_fixed {parent : List (Comp Text)} {p : Place Text} {source : Text} (base : Text)
    (h : Layout s) (hm : (parent, p) ∈ parents)
    (hx : s.node (bindName :: p) = some ⟨.link (target source), Config.newLink⟩) :
    exec [rm parent bindName, ln source base parent bindName] s = some s := by
  obtain ⟨hr, hd⟩ := h.parent hm
  have hrm : (rm parent bindName).effect s = some (s.prune bindName p) := Tree.rmRf_eq hr hd
  have hlay : Layout (s.prune bindName p) := by
    refine h.mono fun q hq hdir => ?_
    rw [Tree.prune_kind, if_neg (not_suffix_of_parents hm hq), hdir]
  obtain ⟨hr', hd'⟩ := hlay.parent hm
  have hnone : (s.prune bindName p).kind (bindName :: p) = none := by
    rw [Tree.prune_kind, if_pos (List.suffix_refl _)]
  have hnot : (s.prune bindName p).isDir (bindName :: p) = false := by simp [Tree.isDir, hnone]
  have hln : (ln source base parent bindName).effect (s.prune bindName p) = some s := by
    refine (Tree.lnSf_eq hr' hd' hnot hnone).trans (congrArg some (Tree.ext ?_))
    funext q
    rw [Tree.put_node, Tree.prune_node]
    by_cases hq : q = bindName :: p
    · rw [if_pos hq, hq, hx]
    · rw [if_neg hq]
      split
      next hs =>
        have hlink : s.isDir (bindName :: p) = false := by simp [Tree.isDir, Tree.kind, hx]
        exact ((s.kind_eq_none_iff q).mp (s.kind_eq_none_of_suffix hs (Ne.symm hq) hlink)).symm
      next => rfl
  exact exec_cons_eq_some.mpr ⟨_, hrm, exec_cons_eq_some.mpr ⟨s, hln, rfl⟩⟩

theorem when_fixed {test : FileSystem → Bool} {body : List (Cmd FileSystem)}
    (h : test s = false) : exec [Cmd.when test body] s = some s := by
  simp [exec, Cmd.when, h]

/-- Nothing is left to do. -/
structure Done (c : Config) (t : FileSystem) : Prop where
  base : Base t
  run : Owned c runPath t
  cache : Owned c cachePath t
  normal : Normal c [dataName] t
  etc : t.leadsToDir (path c.etcDir) = true
  lib : t.leadsToDir (path c.libDir) = true
  etcBind_link : t.node etcBind = some ⟨.link (target c.etcDir), Config.newLink⟩
  varLibBind_link : t.node varLibBind = some ⟨.link (target c.libDir), Config.newLink⟩

theorem Done.own (hd : c.dataPath = [.name dataName]) (h : Done c t) :
    exec [mkdir c c.dataPath, chmodR c.dataPath, chownR c c.dataPath] t = some t := by
  have hnode : ∀ q x, [dataName] <:+ q → t.node q = some x → c.setOwner x.attr = x.attr ∧
      (x.kind.isLink = false → Config.setMode x.attr = x.attr) :=
    fun q x hq hx => (c.normal_eq_self_iff x).mp (h.normal q x hq hx)
  have hmake : (mkdir c c.dataPath).effect t = some t := by
    rw [mkdir_effect, hd, Tree.mkdirP_of_leads h.base.leads_data]
  have hmode : (chmodR c.dataPath).effect t = some t := by
    rw [chmodR_effect, hd, Tree.chmodR_eq h.base.resolve_data h.base.linkAt_data]
    refine congrArg some (Tree.retouchAt_eq_self fun q x hx hq => ?_)
    simp only [Bool.and_eq_true, decide_eq_true_eq, Bool.not_eq_true'] at hq
    exact (hnode q x hq.1 hx).2 hq.2
  have hown : (chownR c c.dataPath).effect t = some t := by
    rw [chownR_effect, hd, Tree.chownR_eq h.base.resolve_data h.base.linkAt_data]
    refine congrArg some (Tree.retouchAt_eq_self fun q x hx hq => ?_)
    exact (hnode q x (of_decide_eq_true hq) hx).1
  exact exec_cons_eq_some.mpr ⟨t, hmake, exec_cons_eq_some.mpr ⟨t, hmode,
    exec_cons_eq_some.mpr ⟨t, hown, rfl⟩⟩⟩

theorem Done.fixed (hd : c.dataPath = [.name dataName]) (cut : MoveCut) (h : Done c t) :
    exec (entrypoint c cut) t = some t := by
  have hmove : exec [Cmd.when (fun t : FileSystem => !t.leadsToDir (path c.etcDir))
      [mv cut [.name etcName] bindName c.dataPath etcName]] t = some t :=
    when_fixed (by simp [h.etc])
  have hkeep : exec [Cmd.when (fun t : FileSystem => !t.leadsToDir (path c.libDir))
      [mkdir c (path c.libDir), chown c (path c.libDir)]] t = some t :=
    when_fixed (by simp [h.lib])
  have hlink := relink_fixed etcName h.base.layout etc_mem_parents h.etcBind_link
  have hrelink := relink_fixed libName h.base.layout lib_mem_parents h.varLibBind_link
  have hdata : exec (createBindDataDir c cut) t = some t :=
    exec_append_fixed (h.own hd) <| exec_append_fixed hmove <| exec_append_fixed hlink <|
      exec_append_fixed hkeep hrelink
  exact exec_append_fixed (exec_append_fixed h.run.fixed hdata) h.cache.fixed

/-! ## The condition -/

/-- In `a` the data directory is about to be populated; `v` is that tree with the links in
place and `/var/cache/bind` made. What is to be `etc`, and `lib` if it is there, is or leads
to a directory; so does `/var/run/named`; and nothing in the volume that is new in it has
another owner or mode. -/
structure Settled (c : Config) (a v : FileSystem) : Prop where
  run : ∃ r x, v.resolve runPath = .found r ∧ v.node r = some x ∧ x.kind = .dir ∧
    ([dataName] <:+ r ∨ c.setOwner x.attr = x.attr)
  brought : ∀ q x, [dataName] <:+ q → v.node q = some x → q ∉ held c a → c.normal x = x
  etc : Opens v [dataName] maxLinks (a.kind (etcSource c a [dataName]))
  lib : a.kind dataLib = none ∨ Opens v [dataName] maxLinks (a.kind dataLib)

theorem normal_of_map {x y : Option (Node Text Text Attr)} {z : Node Text Text Attr}
    (h : x = y.map c.normal) (hx : x = some z) : c.normal z = z := by
  rw [hx] at h
  obtain ⟨z', _, rfl⟩ := Option.map_eq_some_iff.mp h.symm
  exact c.normal_normal z'

theorem setOwner_of_normal {x : Node Text Text Attr} (h : c.normal x = x) :
    c.setOwner x.attr = x.attr := by
  rw [← h]
  exact c.setOwner_normal x

theorem Retains.normal {x y : Node Text Text Attr} (hx : c.normal x = x) (hk : y.kind = x.kind)
    (ha : y.attr = x.attr ∨ y.attr = c.setOwner x.attr) : c.normal y = y := by
  have hown := setOwner_of_normal hx
  have hxy : y = x := by
    cases x
    cases y
    simp_all
  rw [hxy, hx]

/-! ## The first run -/

/-- A run: the tree before `create_bind_data_dir`, the same with the links in place and
`/var/cache/bind` made, and the last one. -/
structure FirstRun (c : Config) (t a v t' : FileSystem) : Prop where
  first : exec (createPidDir c) t = some a
  last : exec (createBindCacheDir c) (outlook c a [dataName]) = some v
  normalised : Normalised c (held c a) v t'
  base : Base t'
  etc : ∃ x, a.kind (etcSource c a [dataName]) = some x ∧ v.kind dataEtc = some x
  lib : v.kind dataLib = some ((a.kind dataLib).getD .dir)
  cache : Owned c cachePath t'
  etcBind_link : t'.node etcBind = some (linkNode c.etcDir)
  varLibBind_link : t'.node varLibBind = some (linkNode c.libDir)

variable {a v : FileSystem}

theorem leadsToDir_name_iff {e : Text} (h : s.kind [dataName] = some .dir) :
    s.leadsToDir ([.name dataName] ++ [.name e]) = true ↔
      Opens s [dataName] maxLinks (s.kind [e, dataName]) := by
  have hw : Walks s.kind [] [.name dataName] [dataName] 0 := s.walks_dir h
  rw [← leads_name_iff hw h, Tree.leadsToDir_iff, Nat.zero_add]

theorem FirstRun.leads_etc_iff (hd : c.dataPath = [.name dataName]) (hf : FirstRun c t a v t') :
    t'.leadsToDir (path c.etcDir) = true ↔
      Opens v [dataName] maxLinks (a.kind (etcSource c a [dataName])) := by
  have hkind := hf.normalised.kind
  obtain ⟨x, hx, hx'⟩ := hf.etc
  rw [leadsToDir_of_kind hkind, path_etcDir, hd,
    leadsToDir_name_iff (by rw [← hkind, hf.base.data]), hx]
  exact iff_of_eq (congrArg _ hx')

theorem FirstRun.leads_lib_iff (hd : c.dataPath = [.name dataName]) (hf : FirstRun c t a v t') :
    t'.leadsToDir (path c.libDir) = true ↔
      a.kind dataLib = none ∨ Opens v [dataName] maxLinks (a.kind dataLib) := by
  have hkind := hf.normalised.kind
  have hlib := hf.lib
  rw [leadsToDir_of_kind hkind, path_libDir, hd,
    leadsToDir_name_iff (by rw [← hkind, hf.base.data])]
  cases hk : a.kind dataLib with
  | none =>
      rw [hk, Option.getD_none] at hlib
      exact iff_of_true (.inl hlib) (.inl rfl)
  | some x =>
      rw [hk, Option.getD_some] at hlib
      rw [show v.kind [libName, dataName] = _ from hlib]
      exact (or_iff_right (Option.some_ne_none x)).symm

theorem FirstRun.done (hd : c.dataPath = [.name dataName]) (hf : FirstRun c t a v t')
    (h : Settled c a v) : Done c t' := by
  have hkind := hf.normalised.kind
  refine
    { base := hf.base
      run := ?_
      cache := hf.cache
      normal := ?_
      etc := (hf.leads_etc_iff hd).mpr h.etc
      lib := (hf.leads_lib_iff hd).mpr h.lib
      etcBind_link := hf.etcBind_link
      varLibBind_link := hf.varLibBind_link }
  · obtain ⟨r, x, hr, hx, hxd, ho⟩ := h.run
    rw [← resolve_of_kind hkind] at hr
    by_cases hh : r ∈ held c a
    · have hnode : t'.node r = some (c.normal x) := by
        rw [hf.normalised.held r hh, hx, Option.map_some]
      exact ⟨r, c.normal x, hr, hnode, hxd, c.setOwner_normal x⟩
    · refine ⟨r, x, hr, by rw [hf.normalised.other r hh, hx], hxd, ?_⟩
      exact ho.elim (fun hq => setOwner_of_normal (h.brought r x hq hx hh)) id
  · intro q y hq hy
    by_cases hh : q ∈ held c a
    · exact normal_of_map (hf.normalised.held q hh) hy
    · rw [hf.normalised.other q hh] at hy
      exact h.brought q y hq hy hh

section Second

variable {made owned moved linked kept b : FileSystem}

end Second

end BindImage
