import Mathlib.Data.List.Infix

/-! # File trees

A tree maps places to nodes. A place lists the names on the way from the node up
to the root, its own name first, so that a child is a `cons` and everything at
or below a place has it for a suffix. Contents, names and attributes are
arbitrary types. What exists lies in a directory, by the fields of `Tree`, and
the operations below cannot build a tree where it does not.
-/

namespace FileTree

/-! ## Nodes and trees -/

inductive Comp (ν : Type) where
  | here
  | up
  | name (n : ν)
  deriving DecidableEq

/-- What a symbolic link holds. -/
structure Target (ν : Type) where
  absolute : Bool
  comps : List (Comp ν)
  deriving DecidableEq

inductive Kind (ν κ : Type) where
  | file (content : κ)
  | dir
  | link (target : Target ν)
  deriving DecidableEq

structure Node (ν κ μ : Type) where
  kind : Kind ν κ
  attr : μ
  deriving DecidableEq

abbrev Place (ν : Type) := List ν

theorem not_cons_suffix {ν : Type} (n : ν) (p : Place ν) : ¬ n :: p <:+ p := by
  intro hs
  have hl := hs.length_le
  rw [List.length_cons] at hl
  omega

/-- What lies below a place lies below no place apart from it. -/
theorem not_suffix_of_apart {ν : Type} {x y q : Place ν} (hx : x <:+ q) (hxy : ¬ x <:+ y)
    (hyx : ¬ y <:+ x) : ¬ y <:+ q := by
  intro hy
  exact (List.suffix_or_suffix_of_suffix hx hy).elim hxy hyx

/-- The kinds of the nodes, which is all that the resolution of a path reads. -/
abbrev Kinds (ν κ : Type) := Place ν → Option (Kind ν κ)

@[ext] structure Tree (ν κ μ : Type) where
  node : Place ν → Option (Node ν κ μ)
  root_dir : (node []).map Node.kind = some .dir
  parent_dir : ∀ n p, node (n :: p) ≠ none → (node p).map Node.kind = some .dir

variable {ν κ μ : Type}

namespace Tree

def kind (t : Tree ν κ μ) : Kinds ν κ := fun p => (t.node p).map Node.kind

def isDir (t : Tree ν κ μ) (p : Place ν) : Bool :=
  match t.kind p with
  | some .dir => true
  | _ => false

theorem isDir_iff (t : Tree ν κ μ) (p : Place ν) : t.isDir p = true ↔ t.kind p = some .dir := by
  unfold isDir
  split
  next h => simp [h]
  next h => simpa using h

@[simp] theorem kind_root (t : Tree ν κ μ) : t.kind [] = some .dir := t.root_dir

theorem kind_eq_none_iff (t : Tree ν κ μ) (p : Place ν) : t.kind p = none ↔ t.node p = none := by
  simp [kind]

theorem kind_congr {t t' : Tree ν κ μ} {p q : Place ν} (h : t'.node p = t.node q) :
    t'.kind p = t.kind q := congrArg (Option.map Node.kind) h

theorem kind_parent (t : Tree ν κ μ) {n : ν} {p : Place ν} (h : t.kind (n :: p) ≠ none) :
    t.kind p = some .dir := by
  apply t.parent_dir n p
  simpa [kind] using h

/-- Everything above a node is a directory. -/
theorem kind_of_suffix (t : Tree ν κ μ) {p q : Place ν} (hs : p <:+ q) (hne : p ≠ q)
    (hq : t.kind q ≠ none) : t.kind p = some .dir := by
  induction q with
  | nil => exact absurd (List.suffix_nil.mp hs) hne
  | cons n q ih =>
      have hd := t.kind_parent hq
      rcases List.suffix_cons_iff.mp hs with h | h
      · exact absurd h hne
      · by_cases he : p = q
        · rw [he]
          exact hd
        · exact ih h he (by simp [hd])

/-- Nothing stands below what is not a directory. -/
theorem kind_eq_none_of_suffix (t : Tree ν κ μ) {p q : Place ν} (hs : p <:+ q) (hne : p ≠ q)
    (hp : t.isDir p = false) : t.kind q = none := by
  by_contra hq
  have hd := (t.isDir_iff p).mpr (t.kind_of_suffix hs hne hq)
  rw [hp] at hd
  cases hd

/-! ## Changing attributes -/

def retouch (t : Tree ν κ μ) (f : Place ν → Node ν κ μ → μ) : Tree ν κ μ where
  node p := (t.node p).map fun x => { x with attr := f p x }
  root_dir := by simpa [Option.map_map] using t.root_dir
  parent_dir n p h := by
    have hp := t.parent_dir n p (by simpa using h)
    simpa [Option.map_map] using hp

@[simp] theorem retouch_kind (t : Tree ν κ μ) (f : Place ν → Node ν κ μ → μ) :
    (t.retouch f).kind = t.kind := by
  funext p
  simp [kind, retouch, Option.map_map, Function.comp_def]

/-- Attributes given to nodes that already have them change nothing. -/
theorem retouch_eq_self_iff (t : Tree ν κ μ) (f : Place ν → Node ν κ μ → μ) :
    t.retouch f = t ↔ ∀ p x, t.node p = some x → f p x = x.attr := by
  constructor
  · intro h p x hx
    have hn : (t.retouch f).node p = t.node p := by rw [h]
    simp only [retouch, hx, Option.map_some, Option.some.injEq] at hn
    exact congrArg Node.attr hn
  · intro h
    apply Tree.ext
    funext p
    cases hx : t.node p with
    | none => simp [retouch, hx]
    | some x => simp [retouch, hx, h p x hx]

/-! ## Adding and removing -/

section Place

variable [DecidableEq ν]

/-- Puts a node into a directory, in place of what is there if that is no directory. -/
def put (t : Tree ν κ μ) (n : ν) (p : Place ν) (x : Node ν κ μ) (hp : t.isDir p = true)
    (hn : t.isDir (n :: p) = false) : Tree ν κ μ where
  node q := if q = n :: p then some x else t.node q
  root_dir := by simpa using t.root_dir
  parent_dir m q h := by
    by_cases hq : q = n :: p
    · have hnone := t.kind_eq_none_of_suffix (List.suffix_cons m (n :: p)) (by simp) hn
      rw [t.kind_eq_none_iff] at hnone
      simp [hq, hnone] at h
    · by_cases hm : m :: q = n :: p
      · obtain ⟨_, rfl⟩ := List.cons.inj hm
        simpa [hq, isDir_iff, kind] using hp
      · simp only [hm, if_false] at h
        simpa [hq] using t.parent_dir m q h

theorem put_node (t : Tree ν κ μ) {n : ν} {p : Place ν} (x : Node ν κ μ) (hp : t.isDir p = true)
    (hn : t.isDir (n :: p) = false) (q : Place ν) :
    (t.put n p x hp hn).node q = if q = n :: p then some x else t.node q := rfl

theorem put_kind (t : Tree ν κ μ) {n : ν} {p : Place ν} (x : Node ν κ μ) (hp : t.isDir p = true)
    (hn : t.isDir (n :: p) = false) (q : Place ν) :
    (t.put n p x hp hn).kind q = if q = n :: p then some x.kind else t.kind q := by
  unfold kind
  rw [put_node]
  split <;> rfl

/-- Removes a place with everything below it. -/
def prune (t : Tree ν κ μ) (n : ν) (p : Place ν) : Tree ν κ μ where
  node q := if n :: p <:+ q then none else t.node q
  root_dir := by simpa using t.root_dir
  parent_dir m q h := by
    by_cases hm : n :: p <:+ m :: q
    · simp [hm] at h
    · have hq : ¬ n :: p <:+ q := fun hs => hm (hs.trans (List.suffix_cons m q))
      simp only [hm, if_false] at h
      simpa [hq] using t.parent_dir m q h

theorem prune_node (t : Tree ν κ μ) (n : ν) (p q : Place ν) :
    (t.prune n p).node q = if n :: p <:+ q then none else t.node q := rfl

theorem prune_kind (t : Tree ν κ μ) (n : ν) (p q : Place ν) :
    (t.prune n p).kind q = if n :: p <:+ q then none else t.kind q := by
  unfold kind
  rw [prune_node]
  split <;> rfl

/-! ## Moving -/

/-- The place that `q`, at or below `y`, has come from when `x` moved to `y`. -/
def origin (x y q : Place ν) : Place ν := q.take (q.length - y.length) ++ x

omit [DecidableEq ν] in
@[simp] theorem origin_append (x y s : Place ν) : origin x y (s ++ y) = s ++ x := by
  simp [origin]

/-- Moves a place with everything below it into a directory, in place of what is
there. -/
def graft (t : Tree ν κ μ) (x : Place ν) (n : ν) (p : Place ν) (hp : t.isDir p = true)
    (hx : ¬ x <:+ n :: p) : Tree ν κ μ where
  node q :=
    if n :: p <:+ q then t.node (origin x (n :: p) q)
    else if x <:+ q then none else t.node q
  root_dir := by
    have hr : ¬ x <:+ [] := fun hs => hx (hs.trans List.nil_suffix)
    simpa [hr] using t.root_dir
  parent_dir m q h := by
    by_cases hm : n :: p <:+ m :: q
    · simp only [hm, if_true] at h
      rcases List.suffix_cons_iff.mp hm with he | hs
      · -- the moved node itself: its directory is not moved
        obtain ⟨_, rfl⟩ := List.cons.inj he
        have h1 : ¬ n :: p <:+ p := not_cons_suffix n p
        have h2 : ¬ x <:+ p := fun hs => hx (hs.trans (List.suffix_cons n p))
        simpa [h1, h2, isDir_iff, kind] using hp
      · obtain ⟨s, rfl⟩ := hs
        have ho : origin x (n :: p) (m :: (s ++ n :: p)) = m :: (s ++ x) := by
          rw [← List.cons_append, origin_append, List.cons_append]
        rw [ho] at h
        simpa using t.parent_dir m (s ++ x) h
    · have hq : ¬ n :: p <:+ q := fun hs => hm (hs.trans (List.suffix_cons m q))
      simp only [hm, if_false] at h
      by_cases hxm : x <:+ m :: q
      · simp [hxm] at h
      · have hxq : ¬ x <:+ q := fun hs => hxm (hs.trans (List.suffix_cons m q))
        simp only [hxm, if_false] at h
        simpa [hq, hxq] using t.parent_dir m q h

section Graft

variable (t : Tree ν κ μ) {x : Place ν} {n : ν} {p : Place ν} (hp : t.isDir p = true)
  (hx : ¬ x <:+ n :: p)

theorem graft_node_moved (s : Place ν) :
    (t.graft x n p hp hx).node (s ++ n :: p) = t.node (s ++ x) := by
  have hs : n :: p <:+ s ++ n :: p := List.suffix_append s (n :: p)
  simp [graft, hs]

theorem graft_node_other {q : Place ν} (hq : ¬ n :: p <:+ q) (hxq : ¬ x <:+ q) :
    (t.graft x n p hp hx).node q = t.node q := by
  simp [graft, hq, hxq]

theorem graft_node_source {q : Place ν} (hq : ¬ n :: p <:+ q) (hxq : x <:+ q) :
    (t.graft x n p hp hx).node q = none := by
  simp [graft, hq, hxq]

theorem graft_kind (q : Place ν) : (t.graft x n p hp hx).kind q =
    if n :: p <:+ q then t.kind (origin x (n :: p) q)
    else if x <:+ q then none else t.kind q := by
  unfold kind
  simp only [graft]
  split
  · rfl
  · split <;> rfl

theorem graft_kind_moved (s : Place ν) :
    (t.graft x n p hp hx).kind (s ++ n :: p) = t.kind (s ++ x) :=
  kind_congr (t.graft_node_moved hp hx s)

theorem graft_kind_other {q : Place ν} (hq : ¬ n :: p <:+ q) (hxq : ¬ x <:+ q) :
    (t.graft x n p hp hx).kind q = t.kind q :=
  kind_congr (t.graft_node_other hp hx hq hxq)

end Graft

/-! ## Building -/

def empty (attr : μ) : Tree ν κ μ where
  node
    | [] => some ⟨.dir, attr⟩
    | _ => none
  root_dir := rfl
  parent_dir := by simp

/-- The node added in its place if that is possible. -/
def add (t : Tree ν κ μ) : Place ν × Node ν κ μ → Tree ν κ μ
  | (n :: p, x) =>
      if h : t.isDir p = true ∧ t.isDir (n :: p) = false then t.put n p x h.1 h.2 else t
  | _ => t

theorem add_node (t : Tree ν κ μ) {n : ν} {p : Place ν} (x : Node ν κ μ) (hp : t.isDir p = true)
    (hn : t.isDir (n :: p) = false) (q : Place ν) :
    (t.add (n :: p, x)).node q = if q = n :: p then some x else t.node q := by
  rw [add, dif_pos ⟨hp, hn⟩, put_node]

/-- The tree with a node in place of all that is at and below a place. -/
def wall (t : Tree ν κ μ) (n : ν) (p : Place ν) (x : Node ν κ μ) : Tree ν κ μ :=
  (t.prune n p).add (n :: p, x)

theorem wall_node (t : Tree ν κ μ) {n : ν} {p : Place ν} (hp : t.isDir p = true)
    (x : Node ν κ μ) (q : Place ν) :
    (t.wall n p x).node q = if q = n :: p then some x
      else if n :: p <:+ q then none else t.node q := by
  have hne : ¬ n :: p <:+ p := not_cons_suffix n p
  have hdir : (t.prune n p).isDir p = true := by
    rw [isDir_iff, prune_kind, if_neg hne, (t.isDir_iff p).mp hp]
  have hfree : (t.prune n p).isDir (n :: p) = false := by
    simp [isDir, prune_kind]
  rw [wall, add_node _ _ hdir hfree, prune_node]

def ofList (attr : μ) (entries : List (Place ν × Node ν κ μ)) : Tree ν κ μ :=
  entries.foldl add (empty attr)

/-! ## Mounting -/

/-- `t` with everything at and below the directory `p` taken from `v`. -/
def mount (t v : Tree ν κ μ) (p : Place ν) (ht : t.isDir p = true) (hv : v.isDir p = true) :
    Tree ν κ μ where
  node q := if p <:+ q then v.node q else t.node q
  root_dir := by
    split
    · exact v.root_dir
    · exact t.root_dir
  parent_dir m q h := by
    by_cases hq : p <:+ q
    · have hm : p <:+ m :: q := hq.trans (List.suffix_cons m q)
      simp only [hm, if_true] at h
      simpa [hq] using v.parent_dir m q h
    · by_cases hm : p <:+ m :: q
      · have he : p = m :: q := (List.suffix_cons_iff.mp hm).resolve_right hq
        subst he
        rw [isDir_iff] at ht
        simpa [hq] using t.parent_dir m q (by
          intro hnone
          simp [kind, hnone] at ht)
      · simp only [hm, if_false] at h
        simpa [hq] using t.parent_dir m q h

end Place

end Tree

end FileTree
