import Dockerfiles.Bind.Entrypoint

/-! # The stages of a finished start

What `create_bind_data_dir` has done, command by command, when none has failed.
-/

namespace BindImage

open Shell FileTree

variable {c : Config} {t t' s s' s'' : FileSystem}

/-! ## A place replaced by a link -/

/-- `rm -rf x` and then `ln -sf source x`. -/
def Replaced (x : Place Text) (source : Text) (s s' : FileSystem) : Prop :=
  ∀ q, s'.node q =
    if q = x then some ⟨.link (target source), Config.newLink⟩
    else if x <:+ q then none else s.node q

section Replaced

variable {x q : Place Text} {source : Text}

theorem Replaced.node_self (h : Replaced x source s s') :
    s'.node x = some ⟨.link (target source), Config.newLink⟩ := by
  rw [h x, if_pos rfl]

theorem Replaced.kind_self (h : Replaced x source s s') :
    s'.kind x = some (.link (target source)) := by
  simp [Tree.kind, h.node_self]

theorem Replaced.node_other (h : Replaced x source s s') (hq : ¬ x <:+ q) :
    s'.node q = s.node q := by
  have hne : q ≠ x := fun he => hq (he ▸ List.suffix_refl _)
  rw [h q, if_neg hne, if_neg hq]

theorem Replaced.kind_other (h : Replaced x source s s') (hq : ¬ x <:+ q) :
    s'.kind q = s.kind q := Tree.kind_congr (h.node_other hq)

end Replaced

theorem not_suffix_of_parents {parent : List (Comp Text)} {p q : Place Text}
    (hm : (parent, p) ∈ parents) (hq : q = [etcName] ∨ q = [libName, varName]) :
    ¬ bindName :: p <:+ q := by
  simp only [parents, List.mem_cons, Prod.mk.injEq, List.not_mem_nil, or_false] at hm
  rcases hm with ⟨_, rfl⟩ | ⟨_, rfl⟩ <;> rcases hq with rfl | rfl <;> decide

theorem Layout.replaced {parent : List (Comp Text)} {p : Place Text} {source base : Text}
    (h : Layout s) (hm : (parent, p) ∈ parents) (hr : (rm parent bindName).effect s = some s')
    (hl : (ln source base parent bindName).effect s' = some s'') :
    Replaced (bindName :: p) source s s'' := by
  have hs' := h.rm_eq hm hr
  have hlay : Layout s' := by
    refine h.mono fun q hq hd => ?_
    rw [hs', Tree.prune_kind, if_neg (not_suffix_of_parents hm hq), hd]
  have hnone : s'.kind (bindName :: p) = none := by
    rw [hs', Tree.prune_kind, if_pos (List.suffix_refl _)]
  obtain ⟨hp, hn, hs''⟩ := hlay.ln_eq hm hnone hl
  intro q
  rw [hs'', Tree.put_node, hs', Tree.prune_node]

theorem Replaced.layout {parent : List (Comp Text)} {p : Place Text} {source : Text}
    (hm : (parent, p) ∈ parents) (hr : Replaced (bindName :: p) source s s') (h : Layout s) :
    Layout s' := by
  refine h.mono fun q hq hd => ?_
  rw [hr.kind_other (not_suffix_of_parents hm hq), hd]

/-! ## The stages -/

/-- The file system after the data directory has been made, after its attributes
have been set, after the move, after the first link and before the second. -/
structure Stages (c : Config) (t made owned moved linked kept t' : FileSystem) : Prop where
  make : t.mkdirP c.newDir c.dataPath = some made
  own : ∃ s, made.chmodR Config.setMode c.dataPath = some s ∧
    s.chownR c.setOwner c.dataPath = some owned
  move : (owned.leadsToDir (path c.etcDir) = true ∧ moved = owned) ∨
    (owned.leadsToDir (path c.etcDir) = false ∧
      owned.mv [.name etcName] bindName c.dataPath etcName = some moved)
  layout_moved : Layout moved
  link : Replaced etcBind c.etcDir moved linked
  keep : (linked.leadsToDir (path c.libDir) = true ∧ kept = linked) ∨
    (linked.leadsToDir (path c.libDir) = false ∧ ∃ s,
      linked.mkdirP c.newDir (path c.libDir) = some s ∧
      s.chown c.setOwner (path c.libDir) = some kept)
  relink : Replaced varLibBind c.libDir kept t'
  layout : Layout t'

end BindImage
