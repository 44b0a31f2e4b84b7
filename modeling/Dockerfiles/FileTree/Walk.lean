import Dockerfiles.FileTree.Basic

/-! # Resolving paths

`walk` resolves a path component by component, expanding each symbolic link it
meets and giving up after a number of them. `Walks` is the same as a relation,
without the bound, and counts the links. A path that resolves does so in every
tree with the same nodes on its way, so what happens to the rest of the tree
does not matter: `hide` takes a region away, and the lemmas say when a walk is
left with what remains.
-/

namespace FileTree

variable {ν κ μ : Type}

/-! ## The relation -/

def Target.base (t : Target ν) (p : Place ν) : Place ν := if t.absolute then [] else p

def Kind.isLink : Kind ν κ → Bool
  | .link _ => true
  | _ => false

/-- From the place `p` the components lead to `q`, through `n` links. -/
inductive Walks (k : Kinds ν κ) : Place ν → List (Comp ν) → Place ν → Nat → Prop
  | done (p : Place ν) : Walks k p [] p 0
  | here {p q : Place ν} {cs : List (Comp ν)} {n : Nat} :
      k p = some .dir → Walks k p cs q n → Walks k p (.here :: cs) q n
  | up {p q : Place ν} {cs : List (Comp ν)} {n : Nat} :
      k p = some .dir → Walks k p.tail cs q n → Walks k p (.up :: cs) q n
  | entry {p q : Place ν} {c : ν} {cs : List (Comp ν)} {n : Nat} {x : Kind ν κ} :
      k p = some .dir → k (c :: p) = some x → x.isLink = false → Walks k (c :: p) cs q n →
        Walks k p (.name c :: cs) q n
  | link {p q : Place ν} {c : ν} {cs : List (Comp ν)} {n : Nat} {t : Target ν} :
      k p = some .dir → k (c :: p) = some (.link t) → Walks k (t.base p) (t.comps ++ cs) q n →
        Walks k p (.name c :: cs) q (n + 1)

/-! ## The function -/

inductive Result (ν : Type) where
  | found (p : Place ν)
  | noEntry
  | notDir
  | loop
  deriving DecidableEq

/-- Up to the next link, from which `onLink` goes on. -/
def follow (k : Kinds ν κ) (onLink : Place ν → List (Comp ν) → Result ν) :
    Place ν → List (Comp ν) → Result ν
  | p, [] => .found p
  | p, c :: cs =>
      match k p with
      | some .dir =>
          match c with
          | .here => follow k onLink p cs
          | .up => follow k onLink p.tail cs
          | .name n =>
              match k (n :: p) with
              | none => .noEntry
              | some (.link t) => onLink (t.base p) (t.comps ++ cs)
              | some _ => follow k onLink (n :: p) cs
      | _ => .notDir

/-- At most the given number of links is followed. -/
def walk (k : Kinds ν κ) : Nat → Place ν → List (Comp ν) → Result ν
  | 0 => follow k fun _ _ => .loop
  | n + 1 => follow k (walk k n)

theorem Walks.follow_eq {k : Kinds ν κ} {p q : Place ν} {cs : List (Comp ν)} {m : Nat}
    (h : Walks k p cs q m) (n : Nat) (hm : m ≤ n) : walk k n p cs = .found q := by
  induction h generalizing n with
  | done p => cases n <;> rfl
  | here hd _ ih =>
      have hr := ih n hm
      cases n <;> simpa [walk, follow, hd] using hr
  | up hd _ ih =>
      have hr := ih n hm
      cases n <;> simpa [walk, follow, hd] using hr
  | @entry p q c cs m x hd hk hl _ ih =>
      have hr := ih n hm
      cases x with
      | link t => cases hl
      | file _ => cases n <;> simpa [walk, follow, hd, hk] using hr
      | dir => cases n <;> simpa [walk, follow, hd, hk] using hr
  | link hd hk _ ih =>
      cases n with
      | zero => omega
      | succ n => simpa [walk, follow, hd, hk] using ih n (by omega)

/-- More links than are followed. -/
theorem Walks.loop_of_lt {k : Kinds ν κ} {p q : Place ν} {cs : List (Comp ν)} {m : Nat}
    (h : Walks k p cs q m) {n : Nat} (hm : n < m) : walk k n p cs = .loop := by
  induction h generalizing n with
  | done p => omega
  | here hd _ ih =>
      have hr := ih hm
      cases n <;> simpa [walk, follow, hd] using hr
  | up hd _ ih =>
      have hr := ih hm
      cases n <;> simpa [walk, follow, hd] using hr
  | @entry p q c cs m x hd hk hl _ ih =>
      have hr := ih hm
      cases x with
      | link t => cases hl
      | file _ => cases n <;> simpa [walk, follow, hd, hk] using hr
      | dir => cases n <;> simpa [walk, follow, hd, hk] using hr
  | link hd hk _ ih =>
      cases n with
      | zero => simp [walk, follow, hd, hk]
      | succ n => simpa [walk, follow, hd, hk] using ih (Nat.lt_of_succ_lt_succ hm)

private theorem follow_found {k : Kinds ν κ} {onLink : Place ν → List (Comp ν) → Result ν}
    (bound : Nat)
    (ho : ∀ p cs q, onLink p cs = .found q → ∃ m, m < bound ∧ Walks k p cs q m)
    (p : Place ν) (cs : List (Comp ν)) (q : Place ν) (h : follow k onLink p cs = .found q) :
    ∃ m, m ≤ bound ∧ Walks k p cs q m := by
  fun_induction follow k onLink p cs with
  | case1 =>
      cases h
      exact ⟨0, Nat.zero_le _, .done _⟩
  | case2 p cs hd ih =>
      obtain ⟨m, hm, hw⟩ := ih h
      exact ⟨m, hm, .here hd hw⟩
  | case3 p cs hd ih =>
      obtain ⟨m, hm, hw⟩ := ih h
      exact ⟨m, hm, .up hd hw⟩
  | case4 p cs hd n hk => cases h
  | case5 p cs hd n t hk =>
      obtain ⟨m, hm, hw⟩ := ho _ _ _ h
      exact ⟨m + 1, hm, .link hd hk hw⟩
  | case6 p cs hd n x hx hk ih =>
      obtain ⟨m, hm, hw⟩ := ih h
      refine ⟨m, hm, .entry hd hk ?_ hw⟩
      cases x with
      | link t => exact (hx t rfl).elim
      | file _ => rfl
      | dir => rfl
  | case7 => cases h

theorem walk_eq_found_iff {k : Kinds ν κ} {n : Nat} {p q : Place ν} {cs : List (Comp ν)} :
    walk k n p cs = .found q ↔ ∃ m, m ≤ n ∧ Walks k p cs q m := by
  constructor
  · intro h
    induction n generalizing p cs q with
    | zero => exact follow_found 0 (by simp) p cs q h
    | succ n ih =>
        apply follow_found (n + 1) _ p cs q h
        intro p cs q h'
        obtain ⟨m, hm, hw⟩ := ih h'
        exact ⟨m, by omega, hw⟩
  · rintro ⟨m, hm, hw⟩
    exact hw.follow_eq n hm

/-! ## Composition -/

section Composition

variable {k : Kinds ν κ} {p q r : Place ν} {as bs cs : List (Comp ν)} {m n : Nat}

theorem Walks.append (ha : Walks k p as r m) (hb : Walks k r bs q n) :
    Walks k p (as ++ bs) q (m + n) := by
  induction ha with
  | done p => simpa using hb
  | here hd _ ih => exact .here hd (ih hb)
  | up hd _ ih => exact .up hd (ih hb)
  | entry hd hk hl _ ih => exact .entry hd hk hl (ih hb)
  | @link p r c cs m t hd hk _ ih =>
      have hw := ih hb
      rw [List.append_assoc] at hw
      have hs := Walks.link hd hk hw
      rwa [Nat.add_right_comm] at hs

theorem Walks.split (h : Walks k p (as ++ bs) q n) :
    ∃ r m l, m + l = n ∧ Walks k p as r m ∧ Walks k r bs q l := by
  generalize hcs : as ++ bs = cs at h
  induction h generalizing as with
  | done p =>
      obtain ⟨rfl, rfl⟩ := List.append_eq_nil_iff.mp hcs
      exact ⟨p, 0, 0, rfl, .done p, .done p⟩
  | @here p q cs n hd hw ih =>
      cases as with
      | nil =>
          obtain rfl : bs = _ := hcs
          exact ⟨p, 0, n, by omega, .done p, .here hd hw⟩
      | cons c as =>
          simp only [List.cons_append, List.cons.injEq] at hcs
          obtain ⟨rfl, hcs⟩ := hcs
          obtain ⟨r, m, l, hs, ha, hb⟩ := ih hcs
          exact ⟨r, m, l, hs, .here hd ha, hb⟩
  | @up p q cs n hd hw ih =>
      cases as with
      | nil =>
          obtain rfl : bs = _ := hcs
          exact ⟨p, 0, n, by omega, .done p, .up hd hw⟩
      | cons c as =>
          simp only [List.cons_append, List.cons.injEq] at hcs
          obtain ⟨rfl, hcs⟩ := hcs
          obtain ⟨r, m, l, hs, ha, hb⟩ := ih hcs
          exact ⟨r, m, l, hs, .up hd ha, hb⟩
  | @entry p q c cs n x hd hk hl hw ih =>
      cases as with
      | nil =>
          obtain rfl : bs = _ := hcs
          exact ⟨p, 0, n, by omega, .done p, .entry hd hk hl hw⟩
      | cons c as =>
          simp only [List.cons_append, List.cons.injEq] at hcs
          obtain ⟨rfl, hcs⟩ := hcs
          obtain ⟨r, m, l, hs, ha, hb⟩ := ih hcs
          exact ⟨r, m, l, hs, .entry hd hk hl ha, hb⟩
  | @link p q c cs n t hd hk hw ih =>
      cases as with
      | nil =>
          obtain rfl : bs = _ := hcs
          exact ⟨p, 0, n + 1, by omega, .done p, .link hd hk hw⟩
      | cons c as =>
          simp only [List.cons_append, List.cons.injEq] at hcs
          obtain ⟨rfl, hcs⟩ := hcs
          obtain ⟨r, m, l, hs, ha, hb⟩ := ih (by rw [← hcs, List.append_assoc])
          exact ⟨r, m + 1, l, by omega, .link hd hk ha, hb⟩

theorem Walks.unique {q' : Place ν} {n' : Nat} (h : Walks k p cs q n) (h' : Walks k p cs q' n') :
    q = q' ∧ n = n' := by
  induction h generalizing q' n' with
  | done p =>
      cases h'
      exact ⟨rfl, rfl⟩
  | here hd _ ih =>
      cases h' with
      | here _ hw' => exact ih hw'
  | up hd _ ih =>
      cases h' with
      | up _ hw' => exact ih hw'
  | entry hd hk hl _ ih =>
      cases h' with
      | entry _ _ _ hw' => exact ih hw'
      | link _ hk' _ =>
          rw [hk] at hk'
          cases hk'
          cases hl
  | link hd hk _ ih =>
      cases h' with
      | entry _ hk' hl' _ =>
          rw [hk] at hk'
          cases hk'
          cases hl'
      | link _ hk' hw' =>
          rw [hk] at hk'
          cases hk'
          obtain ⟨hq, hn⟩ := ih hw'
          exact ⟨hq, by rw [hn]⟩

end Composition

/-- Through an entry that is no link there is one way. -/
theorem Walks.of_name {k : Kinds ν κ} {p q : Place ν} {c : ν} {cs : List (Comp ν)} {n : Nat}
    {x : Kind ν κ} (h : Walks k p (.name c :: cs) q n) (hk : k (c :: p) = some x)
    (hx : x.isLink = false) : Walks k (c :: p) cs q n := by
  cases h with
  | entry _ _ _ hw => exact hw
  | link _ hk' _ =>
      rw [hk] at hk'
      cases hk'
      cases hx

/-- Names lead to the place they name, where no link stands on the way. -/
theorem Walks.of_names {k : Kinds ν κ} {p q : Place ν} {ns : List ν} {n : Nat}
    (h : Walks k p (ns.map .name) q n)
    (hx : ∀ r, p <:+ r → r <:+ ns.reverse ++ p → ∀ t, k r ≠ some (.link t)) :
    q = ns.reverse ++ p := by
  induction ns generalizing p n with
  | nil =>
      cases h
      rfl
  | cons c ns ih =>
      have happ : (c :: ns).reverse ++ p = ns.reverse ++ c :: p := by simp
      rw [happ] at hx ⊢
      cases h with
      | entry _ _ _ hw => exact ih hw fun r hr => hx r ((List.suffix_cons c p).trans hr)
      | link _ hk _ =>
          exact absurd hk (hx _ (List.suffix_cons c p) (List.suffix_append _ _) _)

theorem not_walks_of_none {k : Kinds ν κ} {p q : Place ν} {c : ν} {cs : List (Comp ν)} {n : Nat}
    (hk : k (c :: p) = none) : ¬ Walks k p (.name c :: cs) q n := by
  intro h
  cases h with
  | entry _ hk' _ _ => rw [hk] at hk'; cases hk'
  | link _ hk' _ => rw [hk] at hk'; cases hk'

/-- Nothing leads on from what is no directory. -/
theorem Walks.of_not_dir {k : Kinds ν κ} {p q : Place ν} {cs : List (Comp ν)} {n : Nat}
    (h : Walks k p cs q n) (hk : k p ≠ some .dir) : q = p := by
  cases h with
  | done => rfl
  | here hd _ => exact absurd hd hk
  | up hd _ => exact absurd hd hk
  | entry hd _ _ _ => exact absurd hd hk
  | link hd _ _ => exact absurd hd hk

/-- What a path goes on from is a directory. -/
theorem Walks.dir_of_walks {k : Kinds ν κ} {p q : Place ν} {cs : List (Comp ν)} {n : Nat}
    (h : Walks k p cs q n) (hq : k q = some .dir) : k p = some .dir := by
  by_contra hp
  rw [h.of_not_dir hp] at hq
  exact hp hq

/-! ## Trees that share nodes -/

/-- Every node of the one is a node of the other. -/
def Within (k k' : Kinds ν κ) : Prop := ∀ p x, k p = some x → k' p = some x

theorem Within.refl (k : Kinds ν κ) : Within k k := fun _ _ h => h

theorem Walks.mono {k k' : Kinds ν κ} {p q : Place ν} {cs : List (Comp ν)} {n : Nat}
    (h : Walks k p cs q n) (hk : Within k k') : Walks k' p cs q n := by
  induction h with
  | done p => exact .done p
  | here hd _ ih => exact .here (hk _ _ hd) ih
  | up hd _ ih => exact .up (hk _ _ hd) ih
  | entry hd he hl _ ih => exact .entry (hk _ _ hd) (hk _ _ he) hl ih
  | link hd he _ ih => exact .link (hk _ _ hd) (hk _ _ he) ih

/-! ## Hidden regions -/

open Classical in
/-- The tree without a region. -/
noncomputable def hide (z : Set (Place ν)) (k : Kinds ν κ) : Kinds ν κ :=
  fun p => if p ∈ z then none else k p

section Hide

variable {z : Set (Place ν)} {k k' : Kinds ν κ}

theorem hide_eq_some {p : Place ν} {x : Kind ν κ} : hide z k p = some x ↔ p ∉ z ∧ k p = some x := by
  simp [hide]

theorem hide_within (z : Set (Place ν)) (k : Kinds ν κ) : Within (hide z k) k :=
  fun _ _ h => (hide_eq_some.mp h).2

/-- A region that contains what lies below its places, and not the root. -/
structure Region (z : Set (Place ν)) : Prop where
  root : [] ∉ z
  below : ∀ c p, p ∈ z → c :: p ∈ z

theorem Region.tail (hz : Region z) {p : Place ν} (hp : p ∉ z) : p.tail ∉ z := by
  cases p with
  | nil => exact hp
  | cons c p => exact fun h => hp (hz.below c p h)

theorem Region.base (hz : Region z) {p : Place ν} (hp : p ∉ z) (t : Target ν) : t.base p ∉ z := by
  unfold Target.base
  split
  · exact hz.root
  · exact hp

theorem region_below {x : Place ν} (hx : x ≠ []) : Region {q | x <:+ q} where
  root h := hx (List.suffix_nil.mp h)
  below c p h := List.IsSuffix.trans h (List.suffix_cons c p)

theorem Region.union {z' : Set (Place ν)} (hz : Region z) (hz' : Region z') : Region (z ∪ z') where
  root h := h.elim hz.root hz'.root
  below c p h := h.imp (hz.below c p) (hz'.below c p)

/-- A walk that does not use the region ends outside it. -/
theorem Walks.not_mem {p q : Place ν} {cs : List (Comp ν)} {n : Nat}
    (h : Walks (hide z k) p cs q n) (hz : Region z) (hp : p ∉ z) : q ∉ z := by
  induction h with
  | done p => exact hp
  | here _ _ ih => exact ih hp
  | up _ _ ih => exact ih (hz.tail hp)
  | entry _ hk _ _ ih => exact ih (hide_eq_some.mp hk).1
  | @link p q c cs n t _ _ _ ih => exact ih (hz.base hp t)

/-- A walk avoids the region, or there is a first entry into it. -/
theorem Walks.hide_or_enters {p q : Place ν} {cs : List (Comp ν)} {n : Nat} (h : Walks k p cs q n)
    (hz : Region z) (hp : p ∉ z) :
    Walks (hide z k) p cs q n ∨ ∃ p' c cs' n', p' ∉ z ∧ c :: p' ∈ z ∧ n' ≤ n ∧
      Walks k p' (.name c :: cs') q n' := by
  induction h with
  | done p => exact .inl (.done p)
  | here hd _ ih =>
      rcases ih hp with hw | he
      · exact .inl (.here (hide_eq_some.mpr ⟨hp, hd⟩) hw)
      · exact .inr he
  | up hd _ ih =>
      rcases ih (hz.tail hp) with hw | he
      · exact .inl (.up (hide_eq_some.mpr ⟨hp, hd⟩) hw)
      · exact .inr he
  | @entry p q c cs n x hd hk hl hw ih =>
      by_cases hc : c :: p ∈ z
      · exact .inr ⟨p, c, cs, n, hp, hc, le_rfl, .entry hd hk hl hw⟩
      · rcases ih hc with hw | he
        · exact .inl (.entry (hide_eq_some.mpr ⟨hp, hd⟩) (hide_eq_some.mpr ⟨hc, hk⟩) hl hw)
        · exact .inr he
  | @link p q c cs n t hd hk hw ih =>
      by_cases hc : c :: p ∈ z
      · exact .inr ⟨p, c, cs, n + 1, hp, hc, le_rfl, .link hd hk hw⟩
      · rcases ih (hz.base hp t) with hw | ⟨p', c', cs', n', h1, h2, h3, h4⟩
        · exact .inl (.link (hide_eq_some.mpr ⟨hp, hd⟩) (hide_eq_some.mpr ⟨hc, hk⟩) hw)
        · exact .inr ⟨p', c', cs', n', h1, h2, by omega, h4⟩

/-- If the entries into the region are links that begin with the path `ds` again,
then `ds` is reached without them: a shortest walk cannot use one. -/
theorem Walks.hide_of_links {q : Place ν} {ds : List (Comp ν)} {n : Nat} (h : Walks k [] ds q n)
    (hz : Region z)
    (hlink : ∀ p c, p ∉ z → c :: p ∈ z →
      k (c :: p) = none ∨ ∃ rest, k (c :: p) = some (.link ⟨true, ds ++ rest⟩)) :
    Walks (hide z k) [] ds q n := by
  induction n using Nat.strong_induction_on with
  | _ n ih =>
      rcases h.hide_or_enters hz hz.root with hw | ⟨p, c, cs, n', hp, hc, hn, hw⟩
      · exact hw
      · exfalso
        have shorter : ∃ m, m < n ∧ Walks k [] ds q m := by
          rcases hlink p c hp hc with hk | ⟨rest, hk⟩
          · cases hw with
            | entry _ hk' _ _ => rw [hk] at hk'; cases hk'
            | link _ hk' _ => rw [hk] at hk'; cases hk'
          · cases hw with
            | entry _ hk' hl _ =>
                rw [hk] at hk'
                cases hk'
                cases hl
            | @link _ _ _ _ m t _ hk' hw' =>
                rw [hk] at hk'
                cases hk'
                simp only [Target.base, if_true, List.append_assoc] at hw'
                obtain ⟨r, m₁, l, hm, ha, _⟩ := hw'.split
                obtain ⟨rfl, _⟩ := ha.unique h
                exact ⟨m₁, by omega, ha⟩
        obtain ⟨m, hm, hw'⟩ := shorter
        have := (hw'.unique h).2
        omega

/-- Two trees that have the same directories and links outside the region, the
path resolved in both and in the second without the region: then it needs the
region in neither. -/
theorem Walks.hide_of_agree {p q q' : Place ν} {cs : List (Comp ν)} {n n' : Nat}
    (h : Walks k p cs q n) (h' : Walks (hide z k') p cs q' n') (hp : p ∉ z) (hz : Region z)
    (hk : ∀ p x, p ∉ z → k p = some x → x = .dir ∨ x.isLink = true → k' p = some x) :
    Walks (hide z k) p cs q n := by
  induction h generalizing q' n' with
  | done p => exact .done p
  | here hd _ ih =>
      cases h' with
      | here _ hw' => exact .here (hide_eq_some.mpr ⟨hp, hd⟩) (ih hw' hp)
  | up hd _ ih =>
      cases h' with
      | up _ hw' => exact .up (hide_eq_some.mpr ⟨hp, hd⟩) (ih hw' (hz.tail hp))
  | @entry p q c cs n x hd he hl hw ih =>
      have hc : c :: p ∉ z := by
        cases h' with
        | entry _ he' _ _ => exact (hide_eq_some.mp he').1
        | link _ he' _ => exact (hide_eq_some.mp he').1
      refine .entry (hide_eq_some.mpr ⟨hp, hd⟩) (hide_eq_some.mpr ⟨hc, he⟩) hl ?_
      cases x with
      | link t => cases hl
      | dir =>
          have hk' := hk _ _ hc he (.inl rfl)
          cases h' with
          | entry _ _ _ hw' => exact ih hw' hc
          | link _ he' _ =>
              rw [(hide_eq_some.mp he').2] at hk'
              cases hk'
      | file content =>
          -- a file ends the path
          cases hw with
          | done => exact .done _
          | here hd' _ => rw [he] at hd'; cases hd'
          | up hd' _ => rw [he] at hd'; cases hd'
          | entry hd' _ _ _ => rw [he] at hd'; cases hd'
          | link hd' _ _ => rw [he] at hd'; cases hd'
  | @link p q c cs n t hd he hw ih =>
      have hc : c :: p ∉ z := by
        cases h' with
        | entry _ he' _ _ => exact (hide_eq_some.mp he').1
        | link _ he' _ => exact (hide_eq_some.mp he').1
      have hk' := hk _ _ hc he (.inr rfl)
      refine .link (hide_eq_some.mpr ⟨hp, hd⟩) (hide_eq_some.mpr ⟨hc, he⟩) ?_
      cases h' with
      | entry _ he' hl' _ =>
          rw [(hide_eq_some.mp he').2] at hk'
          cases hk'
          cases hl'
      | link _ he' hw' =>
          rw [(hide_eq_some.mp he').2] at hk'
          cases hk'
          exact ih hw' (hz.base hp t)

end Hide

end FileTree
