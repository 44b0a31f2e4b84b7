import Dockerfiles.FileTree.Walk

/-! # Commands on file trees

The file commands of a shell script as functions on trees, run by a user whom no
permission stops. A command that ends with an error gives `none`. The relations
that follow `rm -rf` and `mv` say what a kill in the middle can leave behind:
`mv` between file systems copies first and then removes the source.
-/

namespace FileTree

variable {ν κ μ : Type}

/-! ## Paths -/

/-- The links the kernel follows before it gives up. -/
def maxLinks : Nat := 40

namespace Tree

def resolve (t : Tree ν κ μ) (cs : List (Comp ν)) : Result ν := walk t.kind maxLinks [] cs

/-- `[ -d path ]` -/
def leadsToDir (t : Tree ν κ μ) (cs : List (Comp ν)) : Bool :=
  match t.resolve cs with
  | .found p => t.isDir p
  | _ => false

/-- The place of the symbolic link that the path itself names. -/
def linkAt (t : Tree ν κ μ) (cs : List (Comp ν)) : Option (Place ν) :=
  match cs.reverse with
  | .name c :: rest =>
      match t.resolve rest.reverse with
      | .found p =>
          match t.kind (c :: p) with
          | some (.link _) => some (c :: p)
          | _ => none
      | _ => none
  | _ => none

theorem resolve_eq_found_iff {t : Tree ν κ μ} {cs : List (Comp ν)} {p : Place ν} :
    t.resolve cs = .found p ↔ ∃ n, n ≤ maxLinks ∧ Walks t.kind [] cs p n := walk_eq_found_iff

theorem leadsToDir_iff {t : Tree ν κ μ} {cs : List (Comp ν)} :
    t.leadsToDir cs = true ↔
      ∃ p n, n ≤ maxLinks ∧ Walks t.kind [] cs p n ∧ t.kind p = some .dir := by
  unfold leadsToDir
  constructor
  · intro h
    cases hr : t.resolve cs with
    | found p =>
        rw [hr] at h
        obtain ⟨n, hn, hw⟩ := resolve_eq_found_iff.mp hr
        exact ⟨p, n, hn, hw, (t.isDir_iff p).mp h⟩
    | noEntry => rw [hr] at h; cases h
    | notDir => rw [hr] at h; cases h
    | loop => rw [hr] at h; cases h
  · rintro ⟨p, n, hn, hw, hd⟩
    rw [resolve_eq_found_iff.mpr ⟨n, hn, hw⟩]
    exact (t.isDir_iff p).mpr hd

/-- The names down to a directory lead to it. -/
theorem walks_dir (t : Tree ν κ μ) {p : Place ν} (h : t.kind p = some .dir) :
    Walks t.kind [] (p.reverse.map Comp.name) p 0 := by
  induction p with
  | nil => exact .done []
  | cons n p ih =>
      have hp : t.kind p = some .dir := t.kind_parent (by rw [h]; simp)
      rw [List.reverse_cons, List.map_append]
      exact (ih hp).append (.entry hp h rfl (.done _))

theorem resolve_dir (t : Tree ν κ μ) {p : Place ν} (h : t.kind p = some .dir) :
    t.resolve (p.reverse.map Comp.name) = .found p :=
  resolve_eq_found_iff.mpr ⟨0, Nat.zero_le _, t.walks_dir h⟩

theorem leadsToDir_dir (t : Tree ν κ μ) {p : Place ν} (h : t.kind p = some .dir) :
    t.leadsToDir (p.reverse.map Comp.name) = true :=
  leadsToDir_iff.mpr ⟨p, 0, Nat.zero_le _, t.walks_dir h, h⟩

section Commands

variable [DecidableEq ν]

/-! ## `mkdir -p` -/

/-- One component: the directory is there, or is made in its parent. -/
def mkdirStep (attr : μ) (t : Tree ν κ μ) (done : List (Comp ν)) (c : Comp ν) :
    Option (Tree ν κ μ) :=
  if t.leadsToDir (done ++ [c]) then some t
  else
    match c, t.resolve done with
    | .name n, .found p =>
        if h : t.isDir p = true ∧ t.isDir (n :: p) = false then
          if (t.kind (n :: p)).isNone then some (t.put n p ⟨.dir, attr⟩ h.1 h.2) else none
        else none
    | _, _ => none

def mkdirFrom (attr : μ) : List (Comp ν) → List (Comp ν) → Tree ν κ μ → Option (Tree ν κ μ)
  | _, [], t => some t
  | done, c :: cs, t => (t.mkdirStep attr done c).bind (mkdirFrom attr (done ++ [c]) cs)

def mkdirP (attr : μ) (cs : List (Comp ν)) (t : Tree ν κ μ) : Option (Tree ν κ μ) :=
  mkdirFrom attr [] cs t

/-! ## `chmod -R`, `chown -R` and `chown` -/

def retouchAt (t : Tree ν κ μ) (region : Place ν → Node ν κ μ → Bool) (set : μ → μ) : Tree ν κ μ :=
  t.retouch fun p x => if region p x then set x.attr else x.attr

/-- `chmod -R`: links below the directory are skipped; one that the path itself
names is followed, and nothing below it is visited. -/
def chmodR (set : μ → μ) (cs : List (Comp ν)) (t : Tree ν κ μ) : Option (Tree ν κ μ) :=
  match t.resolve cs, t.linkAt cs with
  | .found q, some _ => some (t.retouchAt (fun p _ => p = q) set)
  | .found q, none => some (t.retouchAt (fun p x => decide (q <:+ p) && !x.kind.isLink) set)
  | _, _ => none

/-- `chown -R`: links are changed themselves and not followed. -/
def chownR (set : μ → μ) (cs : List (Comp ν)) (t : Tree ν κ μ) : Option (Tree ν κ μ) :=
  match t.linkAt cs, t.resolve cs with
  | some l, _ => some (t.retouchAt (fun p _ => p = l) set)
  | none, .found q => some (t.retouchAt (fun p _ => decide (q <:+ p)) set)
  | none, _ => none

def chown (set : μ → μ) (cs : List (Comp ν)) (t : Tree ν κ μ) : Option (Tree ν κ μ) :=
  match t.resolve cs with
  | .found q => some (t.retouchAt (fun p _ => p = q) set)
  | _ => none

/-! ## `rm -rf` and `ln -sf` -/

/-- `rm -rf parent/n`; what is not there is no error. -/
def rmRf (parent : List (Comp ν)) (n : ν) (t : Tree ν κ μ) : Option (Tree ν κ μ) :=
  match t.resolve parent with
  | .found p => if t.isDir p then some (t.prune n p) else none
  | .noEntry => some t
  | _ => none

/-- Some of the nodes are removed and the others are left. -/
def RmRfCut (parent : List (Comp ν)) (n : ν) (t t' : Tree ν κ μ) : Prop :=
  ∃ p, t.resolve parent = .found p ∧ ∀ q,
    t'.node q = t.node q ∨ (n :: p <:+ q ∧ t'.node q = none)

/-- Makes a link in a directory, in place of a file or a link of that name. -/
def symlink (attr : μ) (target : Target ν) (p : Place ν) (n : ν) (t : Tree ν κ μ) :
    Option (Tree ν κ μ) :=
  if h : t.isDir p = true ∧ t.isDir (n :: p) = false then
    some (t.put n p ⟨.link target, attr⟩ h.1 h.2)
  else none

/-- `ln -sf target parent/n`, where `base` is the last name of the target: where
the path leads to a directory, the link is made in that directory. -/
def lnSf (attr : μ) (target : Target ν) (base : ν) (parent : List (Comp ν)) (n : ν)
    (t : Tree ν κ μ) : Option (Tree ν κ μ) :=
  match t.resolve (parent ++ [.name n]), t.resolve parent with
  | .found q, .found p =>
      if t.isDir q then t.symlink attr target q base else t.symlink attr target p n
  | _, .found p => t.symlink attr target p n
  | _, _ => none

/-! ## `mv` -/

/-- The move of `x` to `n` in `p` is possible: `x` is there, does not contain its
new place, and finds nothing in the way, or a file or a link if it is no
directory itself. -/
def canMove (t : Tree ν κ μ) (x : Place ν) (n : ν) (p : Place ν) : Bool :=
  t.isDir p && !decide (x <:+ n :: p) && (t.kind x).isSome && !t.isDir (n :: p) &&
    (!t.isDir x || (t.kind (n :: p)).isNone)

def move (t : Tree ν κ μ) (x : Place ν) (n : ν) (p : Place ν) : Option (Tree ν κ μ) :=
  if h : t.isDir p = true ∧ ¬ x <:+ n :: p then
    if t.canMove x n p then some (t.graft x n p h.1 h.2) else none
  else none

/-- `mv sp/s dp/d`. Where the destination leads to a directory, the source goes
into it; a destination that cannot be examined is an error. -/
def mv (sp : List (Comp ν)) (s : ν) (dp : List (Comp ν)) (d : ν) (t : Tree ν κ μ) :
    Option (Tree ν κ μ) :=
  match t.resolve sp, t.resolve dp, t.resolve (dp ++ [.name d]) with
  | .found a, .found p, .found q =>
      if t.isDir q then t.move (s :: a) s q else t.move (s :: a) d p
  | .found a, .found p, .noEntry => t.move (s :: a) d p
  | _, _, _ => none

/-- What has been copied of a node. -/
inductive Copied (part : κ → κ → Prop) : Kind ν κ → Kind ν κ → Prop
  | dir : Copied part .dir .dir
  | link (t : Target ν) : Copied part (.link t) (.link t)
  | file {c c' : κ} : part c' c → Copied part (.file c) (.file c')

/-- Killed while `x` is copied to `y`: what stands at `y` is a part of the source,
all else is as it was. -/
def Copying (part : κ → κ → Prop) (x y : Place ν) (t t' : Tree ν κ μ) : Prop :=
  (∀ q, ¬ y <:+ q → t'.node q = t.node q) ∧
    ∀ s k', t'.kind (s ++ y) = some k' → ∃ k, t.kind (s ++ x) = some k ∧ Copied part k k'

/-- Killed while the source is removed: `y` is complete. -/
def Removing (x y : Place ν) (t t' : Tree ν κ μ) : Prop :=
  (∀ s, t'.node (s ++ y) = t.node (s ++ x)) ∧
    ∀ q, ¬ y <:+ q → t'.node q = t.node q ∨ (x <:+ q ∧ t'.node q = none)

/-- The places that `mv sp/s dp/d` works on where the destination leads to no
directory. -/
def Moves (sp : List (Comp ν)) (s : ν) (dp : List (Comp ν)) (d : ν) (t : Tree ν κ μ)
    (a p : Place ν) : Prop :=
  t.resolve sp = .found a ∧ t.resolve dp = .found p ∧ t.leadsToDir (dp ++ [.name d]) = false ∧
    t.canMove (s :: a) d p = true

end Commands

/-! ## What `mkdir -p` adds -/

/-- `t'` is `t` with new directories, each of a name in the path. -/
def Grows (attr : μ) (cs : List (Comp ν)) (t t' : Tree ν κ μ) : Prop :=
  ∀ q, t'.node q = t.node q ∨
    (t.node q = none ∧ t'.node q = some ⟨.dir, attr⟩ ∧ ∃ n p, q = n :: p ∧ .name n ∈ cs)

theorem Grows.refl (attr : μ) (cs : List (Comp ν)) (t : Tree ν κ μ) : Grows attr cs t t :=
  fun _ => .inl rfl

theorem Grows.node {attr : μ} {cs : List (Comp ν)} {t t' : Tree ν κ μ} (h : Grows attr cs t t')
    {q : Place ν} {x : Node ν κ μ} (hx : t.node q = some x) : t'.node q = some x := by
  rcases h q with he | ⟨hn, _⟩
  · rw [he, hx]
  · rw [hn] at hx
    cases hx

theorem Grows.trans {attr : μ} {cs : List (Comp ν)} {t t' t'' : Tree ν κ μ} (h : Grows attr cs t t')
    (h' : Grows attr cs t' t'') : Grows attr cs t t'' := by
  intro q
  rcases h q with he | ⟨hn, hd, hm⟩
  · rw [← he]
    exact h' q
  · exact .inr ⟨hn, h'.node hd, hm⟩

theorem Grows.mono {attr : μ} {cs cs' : List (Comp ν)} {t t' : Tree ν κ μ}
    (h : Grows attr cs t t') (hs : cs ⊆ cs') : Grows attr cs' t t' := by
  intro q
  rcases h q with he | ⟨hn, hd, n, p, hq, hm⟩
  · exact .inl he
  · exact .inr ⟨hn, hd, n, p, hq, hs hm⟩

theorem Grows.within {attr : μ} {cs : List (Comp ν)} {t t' : Tree ν κ μ} (h : Grows attr cs t t') :
    Within t.kind t'.kind := by
  intro q k hk
  obtain ⟨x, hx, rfl⟩ := Option.map_eq_some_iff.mp hk
  exact Option.map_eq_some_iff.mpr ⟨x, h.node hx, rfl⟩

section Mkdir

variable {attr : μ} {t t' : Tree ν κ μ} {as bs cs done : List (Comp ν)} {c : Comp ν}

/-- The directories on the way. -/
theorem leadsToDir_of_append (h : t.leadsToDir (as ++ bs) = true) : t.leadsToDir as = true := by
  obtain ⟨p, n, hn, hw, hd⟩ := leadsToDir_iff.mp h
  obtain ⟨r, m, l, hml, ha, hb⟩ := hw.split
  exact leadsToDir_iff.mpr ⟨r, m, by omega, ha, hb.dir_of_walks hd⟩

theorem leadsToDir_of_none {n : ν} {p : Place ν} (hr : t.resolve cs = .found p)
    (hk : t.kind (n :: p) = none) : t.leadsToDir (cs ++ [.name n]) = false := by
  by_contra hl
  obtain ⟨q, m, _, hw, _⟩ := leadsToDir_iff.mp (by simpa using hl)
  obtain ⟨m', _, hw'⟩ := resolve_eq_found_iff.mp hr
  obtain ⟨r, i, j, _, ha, hb⟩ := hw.split
  obtain ⟨rfl, _⟩ := ha.unique hw'
  exact not_walks_of_none hk hb

/-- A path to a directory does not use a name in that directory, where the name leads to
no directory and into no loop. -/
theorem hide_of_not_leads {k : Kinds ν κ} {d : ν} {p : Place ν} {n : Nat}
    (h : Walks k [] cs p n) (hk : Within k t.kind) (hp : t.kind p = some .dir)
    (hl : t.leadsToDir (cs ++ [.name d]) = false)
    (hloop : t.resolve (cs ++ [.name d]) ≠ .loop) :
    Walks (hide {q | d :: p <:+ q} k) [] cs p n := by
  have hz : Region {q | d :: p <:+ q} := region_below (by simp)
  rcases h.hide_or_enters hz hz.root with hw | ⟨p', c, cs', n', hp', hc, hn', hw⟩
  · exact hw
  · exfalso
    obtain ⟨rfl, rfl⟩ := List.cons.inj ((List.suffix_cons_iff.mp hc).resolve_right hp')
    have hsplit : Walks k p (.name d :: ([] ++ cs')) p n' := hw
    rw [← List.cons_append] at hsplit
    obtain ⟨r, m, l, hml, ha, hb⟩ := hsplit.split
    have hr := (hb.mono hk).dir_of_walks hp
    have hall := (h.mono hk).append (ha.mono hk)
    by_cases hle : n + m ≤ maxLinks
    · have hlead := leadsToDir_iff.mpr ⟨r, n + m, hle, hall, hr⟩
      rw [hl] at hlead
      cases hlead
    · exact hloop (hall.loop_of_lt (by omega))

variable [DecidableEq ν]

theorem mkdirStep_eq_some (h : t.mkdirStep attr done c = some t') :
    (t.leadsToDir (done ++ [c]) = true ∧ t' = t) ∨
      ∃ n p hp hn, c = .name n ∧ t.leadsToDir (done ++ [c]) = false ∧ t.resolve done = .found p ∧
        t.kind (n :: p) = none ∧ t' = t.put n p ⟨.dir, attr⟩ hp hn := by
  unfold mkdirStep at h
  split at h
  next hl =>
    cases h
    exact .inl ⟨hl, rfl⟩
  next hl =>
    split at h
    next n p hr =>
      split at h
      next hd =>
        split at h
        next hk =>
          cases h
          exact .inr ⟨n, p, hd.1, hd.2, rfl, by simpa using hl, hr, by simpa using hk, rfl⟩
        next => cases h
      next => cases h
    next => cases h

theorem mkdirStep_grows (h : t.mkdirStep attr done c = some t') :
    Grows attr [c] t t' := by
  rcases mkdirStep_eq_some h with ⟨_, rfl⟩ | ⟨n, p, hp, hn, rfl, _, _, hk, rfl⟩
  · exact Grows.refl _ _ _
  · intro q
    rw [put_node]
    by_cases hq : q = n :: p
    · refine .inr ⟨?_, by simp [hq], n, p, hq, by simp⟩
      rw [hq, ← kind_eq_none_iff]
      exact hk
    · simp [hq]

theorem mkdirStep_leads (h : t.mkdirStep attr done c = some t') :
    t'.leadsToDir (done ++ [c]) = true := by
  rcases mkdirStep_eq_some h with ⟨hl, rfl⟩ | ⟨n, p, hp, hn, rfl, _, hr, hk, ht⟩
  · exact hl
  · have hg := (mkdirStep_grows h).within
    obtain ⟨m, hm, hw⟩ := resolve_eq_found_iff.mp hr
    have hnew : t'.kind (n :: p) = some .dir := by rw [ht, put_kind]; simp
    have hpar := hg p _ ((t.isDir_iff p).mp hp)
    refine leadsToDir_iff.mpr ⟨n :: p, m, hm, ?_, hnew⟩
    simpa using (hw.mono hg).append (.entry hpar hnew rfl (.done _))

theorem mkdirFrom_grows (h : mkdirFrom attr done cs t = some t') :
    Grows attr cs t t' := by
  induction cs generalizing done t with
  | nil =>
      cases h
      exact Grows.refl _ _ _
  | cons c cs ih =>
      obtain ⟨t₁, h₁, h₂⟩ := Option.bind_eq_some_iff.mp h
      have hc := mkdirStep_grows h₁
      have hcs := ih h₂
      exact (hc.mono (by simp)).trans (hcs.mono (by simp))

theorem mkdirFrom_leads (h : mkdirFrom attr done cs t = some t') (hd : t.leadsToDir done = true) :
    t'.leadsToDir (done ++ cs) = true := by
  induction cs generalizing done t with
  | nil =>
      cases h
      simpa using hd
  | cons c cs ih =>
      obtain ⟨t₁, h₁, h₂⟩ := Option.bind_eq_some_iff.mp h
      have hl := ih h₂ (mkdirStep_leads h₁)
      simpa using hl

theorem mkdirP_grows (h : t.mkdirP attr cs = some t') : Grows attr cs t t' :=
  mkdirFrom_grows h

theorem mkdirP_leads (h : t.mkdirP attr cs = some t') : t'.leadsToDir cs = true := by
  have hroot : t.leadsToDir [] = true :=
    leadsToDir_iff.mpr ⟨[], 0, Nat.zero_le _, .done [], t.kind_root⟩
  simpa using mkdirFrom_leads h hroot

/-- Where the directory is there already, nothing happens. -/
theorem mkdirP_of_leads (h : t.leadsToDir cs = true) : t.mkdirP attr cs = some t := by
  have hfrom : ∀ cs done, t.leadsToDir (done ++ cs) = true → mkdirFrom attr done cs t = some t := by
    intro cs
    induction cs with
    | nil => exact fun _ _ => rfl
    | cons c cs ih =>
        intro done hl
        have hassoc : done ++ c :: cs = (done ++ [c]) ++ cs := by simp
        rw [hassoc] at hl
        have hstep := leadsToDir_of_append hl
        simp only [mkdirFrom, mkdirStep, hstep, if_true, Option.bind_some]
        exact ih _ hl
  exact hfrom cs [] h

theorem mkdirFrom_append (as bs : List (Comp ν)) :
    mkdirFrom attr done (as ++ bs) t =
      (mkdirFrom attr done as t).bind (mkdirFrom attr (done ++ as) bs) := by
  induction as generalizing done t with
  | nil => simp [mkdirFrom]
  | cons a as ih =>
      simp only [List.cons_append, mkdirFrom]
      cases t.mkdirStep attr done a with
      | none => rfl
      | some t₁ => simp [ih]

/-- A name that is made in a directory. -/
theorem mkdirP_snoc {n : ν} {p : Place ν} (h : t.mkdirP attr (cs ++ [.name n]) = some t')
    (hr : t.resolve cs = .found p) (hp : t.isDir p = true)
    (hl : t.leadsToDir (cs ++ [.name n]) = false) :
    t.kind (n :: p) = none ∧ ∃ hn, t' = t.put n p ⟨.dir, attr⟩ hp hn := by
  have hcs : t.leadsToDir cs = true := by simpa [leadsToDir, hr] using hp
  have hfirst : mkdirFrom attr [] cs t = some t := mkdirP_of_leads hcs
  unfold mkdirP at h
  rw [mkdirFrom_append, hfirst, Option.bind_some, List.nil_append] at h
  obtain ⟨t₁, h₁, h₂⟩ := Option.bind_eq_some_iff.mp h
  cases h₂
  rcases mkdirStep_eq_some h₁ with ⟨hlead, _⟩ | ⟨m, q, _, hn, hm, _, hq, hk, ht⟩
  · rw [hl] at hlead
    cases hlead
  · cases hm
    rw [hr] at hq
    cases hq
    exact ⟨hk, hn, ht⟩

end Mkdir

/-! ## What the other commands do -/

section Other

@[simp] theorem retouchAt_kind (t : Tree ν κ μ) (region : Place ν → Node ν κ μ → Bool)
    (set : μ → μ) : (t.retouchAt region set).kind = t.kind := retouch_kind ..

variable [DecidableEq ν] {t t' : Tree ν κ μ} {cs : List (Comp ν)} {set : μ → μ}

/-- The three commands set the attributes of some nodes. -/
theorem eq_retouchAt (h : t.chmodR set cs = some t' ∨ t.chownR set cs = some t' ∨
    t.chown set cs = some t') : ∃ region, t' = t.retouchAt region set := by
  unfold chmodR chownR chown at h
  rcases h with h | h | h
  · split at h <;> cases h <;> exact ⟨_, rfl⟩
  · split at h <;> cases h <;> exact ⟨_, rfl⟩
  · split at h <;> cases h
    exact ⟨_, rfl⟩

theorem kind_of_set (h : t.chmodR set cs = some t' ∨ t.chownR set cs = some t' ∨
    t.chown set cs = some t') : t'.kind = t.kind := by
  obtain ⟨region, rfl⟩ := eq_retouchAt h
  exact retouchAt_kind ..

theorem chmodR_kind (h : t.chmodR set cs = some t') : t'.kind = t.kind := kind_of_set (.inl h)

theorem chownR_kind (h : t.chownR set cs = some t') : t'.kind = t.kind :=
  kind_of_set (.inr (.inl h))

theorem chown_kind (h : t.chown set cs = some t') : t'.kind = t.kind :=
  kind_of_set (.inr (.inr h))

section Attributes

variable {q : Place ν}

theorem chmodR_eq (hr : t.resolve cs = .found q) (hl : t.linkAt cs = none) :
    t.chmodR set cs =
      some (t.retouchAt (fun p x => decide (q <:+ p) && !x.kind.isLink) set) := by
  simp [chmodR, hr, hl]

theorem chownR_eq (hr : t.resolve cs = .found q) (hl : t.linkAt cs = none) :
    t.chownR set cs = some (t.retouchAt (fun p _ => decide (q <:+ p)) set) := by
  simp [chownR, hr, hl]

theorem chown_eq (hr : t.resolve cs = .found q) :
    t.chown set cs = some (t.retouchAt (fun p _ => p = q) set) := by
  simp [chown, hr]

omit [DecidableEq ν] in
theorem retouchAt_node (t : Tree ν κ μ) (region : Place ν → Node ν κ μ → Bool) (set : μ → μ)
    (p : Place ν) : (t.retouchAt region set).node p =
      (t.node p).map fun x => { x with attr := if region p x then set x.attr else x.attr } := rfl

omit [DecidableEq ν] in
theorem retouchAt_eq_self {region : Place ν → Node ν κ μ → Bool}
    (h : ∀ p x, t.node p = some x → region p x = true → set x.attr = x.attr) :
    t.retouchAt region set = t := by
  refine (retouch_eq_self_iff t _).mpr fun p x hx => ?_
  split
  next hr => exact h p x hx hr
  next => rfl

end Attributes

variable {parent : List (Comp ν)} {n : ν} {p : Place ν}

theorem rmRf_eq (hr : t.resolve parent = .found p) (hp : t.isDir p = true) :
    t.rmRf parent n = some (t.prune n p) := by
  simp [rmRf, hr, hp]

/-- Where nothing of that name is there, the link is made there. -/
theorem lnSf_eq {attr : μ} {target : Target ν} {base : ν} (hr : t.resolve parent = .found p)
    (hp : t.isDir p = true) (hn : t.isDir (n :: p) = false) (hk : t.kind (n :: p) = none) :
    t.lnSf attr target base parent n = some (t.put n p ⟨.link target, attr⟩ hp hn) := by
  have hnot : ∀ q, t.resolve (parent ++ [.name n]) ≠ .found q := by
    intro q hq
    obtain ⟨m, _, hw⟩ := resolve_eq_found_iff.mp hq
    obtain ⟨m', _, hw'⟩ := resolve_eq_found_iff.mp hr
    obtain ⟨r, i, j, _, ha, hb⟩ := hw.split
    obtain ⟨rfl, _⟩ := ha.unique hw'
    cases hb with
    | entry _ he _ _ => rw [hk] at he; cases he
    | link _ he _ => rw [hk] at he; cases he
  cases hq : t.resolve (parent ++ [.name n]) with
  | found q => exact absurd hq (hnot q)
  | noEntry => simp [lnSf, hq, hr, symlink, hp, hn]
  | notDir => simp [lnSf, hq, hr, symlink, hp, hn]
  | loop => simp [lnSf, hq, hr, symlink, hp, hn]

variable {x : Place ν} {sp dp : List (Comp ν)} {s d : ν}

theorem canMove_iff : t.canMove x n p = true ↔
    t.isDir p = true ∧ ¬ x <:+ n :: p ∧ t.kind x ≠ none ∧ t.isDir (n :: p) = false ∧
      (t.isDir x = true → t.kind (n :: p) = none) := by
  simp only [canMove, Bool.and_eq_true, Bool.not_eq_true', decide_eq_false_iff_not,
    Option.isSome_iff_ne_none, Bool.or_eq_true, Option.isNone_iff_eq_none, and_assoc]
  cases t.isDir x <;> simp

theorem canMove_of_kind {s : Tree ν κ μ} (hk : s.kind = t.kind) :
    s.canMove x n p = t.canMove x n p := by
  simp [canMove, isDir, hk]

theorem move_eq_graft (hc : t.canMove x n p = true) :
    ∃ hp hx, t.move x n p = some (t.graft x n p hp hx) := by
  obtain ⟨hp, hx, _⟩ := canMove_iff.mp hc
  exact ⟨hp, hx, by rw [move, dif_pos ⟨hp, hx⟩, if_pos hc]⟩

theorem move_eq_some (h : t.move x n p = some t') :
    t.canMove x n p = true ∧ ∃ hp hx, t' = t.graft x n p hp hx := by
  unfold move at h
  split at h
  next hg =>
    split at h
    next hc =>
      cases h
      exact ⟨hc, hg.1, hg.2, rfl⟩
    next => cases h
  next => cases h

theorem mv_eq_some (h : t.mv sp s dp d = some t') (hl : t.leadsToDir (dp ++ [.name d]) = false) :
    ∃ a p hp hx, t.Moves sp s dp d a p ∧ t' = t.graft (s :: a) d p hp hx := by
  unfold mv at h
  split at h
  next a p q ha hp hq =>
    have hnd : t.isDir q = false := by simpa [leadsToDir, hq] using hl
    simp only [hnd, Bool.false_eq_true, if_false] at h
    obtain ⟨hc, h₁, h₂, rfl⟩ := move_eq_some h
    exact ⟨a, p, h₁, h₂, ⟨ha, hp, hl, hc⟩, rfl⟩
  next a p ha hp hq =>
    obtain ⟨hc, h₁, h₂, rfl⟩ := move_eq_some h
    exact ⟨a, p, h₁, h₂, ⟨ha, hp, hl, hc⟩, rfl⟩
  next => cases h

/-- A finished move is one of which all the source has been removed. -/
theorem graft_removing (hp : t.isDir p = true) (hx : ¬ x <:+ n :: p) :
    Removing x (n :: p) t (t.graft x n p hp hx) := by
  refine ⟨fun s => t.graft_node_moved hp hx s, ?_⟩
  intro q hq
  by_cases hb : x <:+ q
  · exact .inr ⟨hb, t.graft_node_source hp hx hq hb⟩
  · exact .inl (t.graft_node_other hp hx hq hb)

theorem resolve_ne_loop_of_mv (h : t.mv sp s dp d = some t') :
    t.resolve (dp ++ [.name d]) ≠ .loop := by
  intro hl
  unfold mv at h
  rw [hl] at h
  split at h
  next hq => cases hq
  next hq => cases hq
  next => cases h

end Other

end Tree

end FileTree
