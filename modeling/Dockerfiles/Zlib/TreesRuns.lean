import Dockerfiles.Zlib.TreesBlocks

/-! # Runs of lengths

`scan_tree` and `send_tree` go through the lengths of a tree in runs. The runs make up the
lengths again, and each is long enough and short enough for the symbols it is sent with.
-/

namespace Trees

/-- A run as `treeLoop` tells of it. -/
structure Run where
  prevlen : Option Nat
  curlen : Nat
  count : Nat
  minCount : Nat

def collect (prevlen : Option Nat) (curlen count minCount : Nat) (rs : List Run) : List Run :=
  rs ++ [⟨prevlen, curlen, count, minCount⟩]

def runs (lens : List Nat) : List Run := treeRuns collect lens []

section Collect

variable {σ : Type} (emit : Option Nat → Nat → Nat → Nat → σ → σ)

/-- What a function that is told of runs does with one. -/
def atRun (s : σ) (r : Run) : σ := emit r.prevlen r.curlen r.count r.minCount s

/-- Going through the lengths is going through their runs. -/
theorem treeLoop_eq_foldl (lens : List Nat) (prevlen : Option Nat) (count maxCount minCount : Nat)
    (s : σ) (rs : List Run) :
    (treeLoop collect lens prevlen count maxCount minCount rs).foldl (atRun emit) s =
      treeLoop emit lens prevlen count maxCount minCount (rs.foldl (atRun emit) s) := by
  induction lens generalizing prevlen count maxCount minCount rs with
  | nil => rfl
  | cons curlen rest ih =>
      rw [treeLoop, treeLoop]
      dsimp only
      split
      · exact ih ..
      · have hsnoc : (collect prevlen curlen (count + 1) minCount rs).foldl (atRun emit) s =
            emit prevlen curlen (count + 1) minCount (rs.foldl (atRun emit) s) := by
          rw [collect, List.foldl_append]
          rfl
        rw [← hsnoc]
        split
        · exact ih ..
        · split
          · exact ih ..
          · exact ih ..

theorem treeRuns_eq_foldl (lens : List Nat) (s : σ) :
    treeRuns emit lens s = (runs lens).foldl (atRun emit) s := by
  rw [runs, treeRuns, treeRuns]
  split
  · exact (treeLoop_eq_foldl emit lens none 0 138 3 s []).symm
  · exact (treeLoop_eq_foldl emit lens none 0 7 4 s []).symm

end Collect

/-- How long a run may be, and from when on it is sent as a run. -/
def limits (prevlen : Option Nat) (curlen : Nat) : Nat × Nat :=
  if curlen = 0 then (138, 3) else if prevlen = some curlen then (6, 3) else (7, 4)

/-- The runs, behind a length or none, that make up the lengths. -/
inductive RunsOf : Option Nat → List Run → List Nat → Prop
  | nil (prevlen : Option Nat) : RunsOf prevlen [] []
  | cons {r : Run} {rs : List Run} {lens : List Nat} (hpos : 1 ≤ r.count)
      (hmax : r.count ≤ (limits r.prevlen r.curlen).1)
      (hmin : r.minCount = (limits r.prevlen r.curlen).2)
      (h : RunsOf (some r.curlen) rs lens) :
      RunsOf r.prevlen (r :: rs) (List.replicate r.count r.curlen ++ lens)

/-- The loop with `count` lengths seen that were not told of yet. -/
theorem treeLoop_runsOf {lens : List Nat} (hguard : ∀ l ∈ lens, l ≠ 0xffff) {prevlen : Option Nat}
    {count maxCount minCount curlen : Nat}
    (hhead : lens ≠ [] → lens.headD 0xffff = curlen ∧
      (maxCount, minCount) = limits prevlen curlen ∧ count < maxCount)
    (hnil : lens = [] → count = 0) (rs : List Run) :
    ∃ rs', treeLoop collect lens prevlen count maxCount minCount rs = rs ++ rs' ∧
      RunsOf prevlen rs' (List.replicate count curlen ++ lens) := by
  induction lens generalizing prevlen count maxCount minCount curlen rs with
  | nil =>
      obtain rfl := hnil rfl
      exact ⟨[], (List.append_nil rs).symm, RunsOf.nil prevlen⟩
  | cons cur rest ih =>
      obtain ⟨hcur, hlimits, hlt⟩ := hhead (List.cons_ne_nil cur rest)
      have hcur' : cur = curlen := hcur
      subst hcur'
      have hguard' : ∀ l ∈ rest, l ≠ 0xffff := fun l hl => hguard l (List.mem_cons_of_mem cur hl)
      rw [treeLoop]
      dsimp only
      by_cases hgo : count + 1 < maxCount ∧ cur = rest.headD 0xffff
      · rw [if_pos hgo]
        have hrest : rest ≠ [] := by
          rintro rfl
          exact hguard cur List.mem_cons_self hgo.2
        obtain ⟨rs', heq, hruns⟩ := @ih hguard' prevlen (count + 1) maxCount minCount cur
          (fun _ => ⟨hgo.2.symm, hlimits, hgo.1⟩) (fun h => absurd h hrest) rs
        refine ⟨rs', heq, ?_⟩
        rw [List.replicate_succ', List.append_assoc] at hruns
        exact hruns
      · rw [if_neg hgo]
        -- the run ends here, and the next one starts with what follows
        have hnext : ∀ {maxCount' minCount' : Nat}, (rest ≠ [] →
              (maxCount', minCount') = limits (some cur) (rest.headD 0xffff)) →
            0 < maxCount' →
            ∃ rs', treeLoop collect rest (some cur) 0 maxCount' minCount'
                (collect prevlen cur (count + 1) minCount rs) = rs ++ rs' ∧
              RunsOf prevlen rs' (List.replicate count cur ++ cur :: rest) := by
          intro maxCount' minCount' hlimits' hpos
          obtain ⟨rs', heq, hruns⟩ := @ih hguard' (some cur) 0 maxCount' minCount'
            (rest.headD 0xffff) (fun h => ⟨rfl, hlimits' h, hpos⟩) (fun _ => rfl)
            (collect prevlen cur (count + 1) minCount rs)
          refine ⟨{ prevlen, curlen := cur, count := count + 1, minCount } :: rs', ?_, ?_⟩
          · rw [heq, collect, List.append_assoc, List.singleton_append]
          · have hrun := @RunsOf.cons { prevlen, curlen := cur, count := count + 1, minCount } rs'
              rest (Nat.le_add_left 1 count) (by rw [← hlimits]; exact hlt)
              (by rw [← hlimits]) hruns
            rw [List.replicate_succ', List.append_assoc] at hrun
            exact hrun
        by_cases hzero : rest.headD 0xffff = 0
        · rw [if_pos hzero]
          exact hnext (fun _ => by rw [limits, if_pos hzero]) (by decide)
        · rw [if_neg hzero]
          by_cases hsame : cur = rest.headD 0xffff
          · rw [if_pos hsame]
            exact hnext (fun _ => by rw [limits, if_neg hzero, if_pos (congrArg some hsame)])
              (by decide)
          · rw [if_neg hsame]
            exact hnext (fun _ => by
              rw [limits, if_neg hzero, if_neg (fun h => hsame (Option.some.inj h))]) (by decide)

/-- The runs make up the lengths. -/
theorem runs_runsOf {lens : List Nat} (hguard : ∀ l ∈ lens, l ≠ 0xffff) :
    RunsOf none (runs lens) lens := by
  have hloop : ∀ {maxCount minCount : Nat},
      (maxCount, minCount) = limits none (lens.headD 0xffff) → 0 < maxCount →
      RunsOf none (treeLoop collect lens none 0 maxCount minCount []) lens := by
    intro maxCount minCount hlimits hpos
    obtain ⟨rs', heq, hruns⟩ := treeLoop_runsOf hguard
      (fun _ => ⟨rfl, hlimits, hpos⟩) (fun _ => rfl) []
    rw [heq, List.nil_append]
    exact hruns
  rw [runs, treeRuns]
  by_cases hzero : lens.headD 0xffff = 0
  · rw [if_pos hzero]
    exact hloop (by rw [limits, if_pos hzero]) (by decide)
  · rw [if_neg hzero]
    exact hloop (by rw [limits, if_neg hzero, if_neg (fun h => nomatch h)]) (by decide)

/-! ## The symbols of a run -/

/-- A symbol of the code for lengths, with the extra bits behind it. -/
structure Item where
  symbol : Nat
  need : Nat
  value : Nat

def Run.items (r : Run) : List Item :=
  if r.count < r.minCount then List.replicate r.count ⟨r.curlen, 0, 0⟩
  else if r.curlen ≠ 0 then
    if r.prevlen ≠ some r.curlen then [⟨r.curlen, 0, 0⟩, ⟨16, 2, r.count - 1 - 3⟩]
    else [⟨16, 2, r.count - 3⟩]
  else if r.count ≤ 10 then [⟨17, 3, r.count - 3⟩]
  else [⟨18, 7, r.count - 11⟩]

def items (lens : List Nat) : List Item := (runs lens).flatMap Run.items

/-- What a symbol says that comes behind the lengths `acc`. -/
inductive Item.Adds : Item → List Nat → List Nat → Prop
  | one {l : Nat} (hl : l < 16) (acc : List Nat) : Item.Adds ⟨l, 0, 0⟩ acc (acc ++ [l])
  | again {acc : List Nat} {l k : Nat} (hlast : acc.getLast? = some l) (hk : k < 2 ^ 2) :
      Item.Adds ⟨16, 2, k⟩ acc (acc ++ List.replicate (3 + k) l)
  | zeros {k : Nat} (hk : k < 2 ^ 3) (acc : List Nat) :
      Item.Adds ⟨17, 3, k⟩ acc (acc ++ List.replicate (3 + k) 0)
  | moreZeros {k : Nat} (hk : k < 2 ^ 7) (acc : List Nat) :
      Item.Adds ⟨18, 7, k⟩ acc (acc ++ List.replicate (11 + k) 0)

/-- Behind the lengths `acc`, the symbols say how they go on to `acc'`. -/
inductive Adds : List Nat → List Item → List Nat → Prop
  | nil (acc : List Nat) : Adds acc [] acc
  | cons {acc acc' acc'' : List Nat} {i : Item} {rest : List Item} (h : i.Adds acc acc')
      (h' : Adds acc' rest acc'') : Adds acc (i :: rest) acc''

theorem Item.Adds.length_lt {i : Item} {acc acc' : List Nat} (h : i.Adds acc acc') :
    acc.length < acc'.length := by
  cases h with
  | one hl =>
      rw [List.length_append, List.length_singleton]
      omega
  | again hlast hk =>
      rw [List.length_append, List.length_replicate]
      omega
  | zeros hk =>
      rw [List.length_append, List.length_replicate]
      omega
  | moreZeros hk =>
      rw [List.length_append, List.length_replicate]
      omega

theorem Adds.length_le {acc acc' : List Nat} {xs : List Item} (h : Adds acc xs acc') :
    acc.length ≤ acc'.length := by
  induction h with
  | nil acc => exact Nat.le_refl _
  | cons h h' ih => exact h.length_lt.le.trans ih

theorem Adds.trans {acc acc' acc'' : List Nat} {xs ys : List Item} (h : Adds acc xs acc')
    (h' : Adds acc' ys acc'') : Adds acc (xs ++ ys) acc'' := by
  induction h with
  | nil acc => exact h'
  | cons h rest ih => exact Adds.cons h (ih h')

theorem Item.Adds.adds {i : Item} {acc acc' : List Nat} (h : i.Adds acc acc') :
    Trees.Adds acc [i] acc' :=
  Trees.Adds.cons h (Trees.Adds.nil acc')

/-- The same length several times. -/
theorem Adds.replicate {l : Nat} (hl : l < 16) (count : Nat) (acc : List Nat) :
    Adds acc (List.replicate count ⟨l, 0, 0⟩) (acc ++ List.replicate count l) := by
  induction count generalizing acc with
  | zero =>
      rw [List.replicate_zero, List.replicate_zero, List.append_nil]
      exact Adds.nil acc
  | succ count ih =>
      have hrest := ih (acc ++ [l])
      rw [List.append_assoc, List.singleton_append, ← List.replicate_succ] at hrest
      exact Adds.cons (Item.Adds.one hl acc) hrest

/-- The symbols of a run add the run. -/
theorem Run.adds {r : Run} (hcurlen : r.curlen < 16) (hpos : 1 ≤ r.count)
    (hmax : r.count ≤ (limits r.prevlen r.curlen).1)
    (hmin : r.minCount = (limits r.prevlen r.curlen).2) {acc : List Nat}
    (hprev : ∀ l, r.prevlen = some l → acc.getLast? = some l) :
    Adds acc r.items (acc ++ List.replicate r.count r.curlen) := by
  rw [Run.items]
  split
  · exact Adds.replicate hcurlen r.count acc
  · next hlong =>
      rw [limits] at hmax hmin
      split
      · next hzero =>
          rw [if_neg hzero] at hmax hmin
          split
          · next hnew =>
              rw [if_neg hnew] at hmax hmin
              dsimp only at hmax hmin
              obtain ⟨k, hk⟩ : ∃ k, r.count = k + 4 := ⟨r.count - 4, by omega⟩
              have hagain := @Item.Adds.again (acc ++ [r.curlen]) r.curlen k (by simp) (by omega)
              rw [List.append_assoc, List.singleton_append, ← List.replicate_succ,
                show 3 + k + 1 = r.count by omega] at hagain
              rw [show r.count - 1 - 3 = k by omega]
              exact Adds.cons (Item.Adds.one hcurlen acc) hagain.adds
          · next hsame =>
              rw [not_not] at hsame
              rw [if_pos hsame] at hmax hmin
              dsimp only at hmax hmin
              have hagain := @Item.Adds.again acc r.curlen (r.count - 3) (hprev _ hsame)
                (by omega)
              rw [show 3 + (r.count - 3) = r.count by omega] at hagain
              exact hagain.adds
      · next hzero =>
          rw [not_not] at hzero
          rw [if_pos hzero] at hmax hmin
          dsimp only at hmax hmin
          rw [hzero]
          split
          · have hzeros := @Item.Adds.zeros (r.count - 3) (by omega) acc
            rw [show 3 + (r.count - 3) = r.count by omega] at hzeros
            exact hzeros.adds
          · have hzeros := @Item.Adds.moreZeros (r.count - 11) (by omega) acc
            rw [show 11 + (r.count - 11) = r.count by omega] at hzeros
            exact hzeros.adds

theorem RunsOf.adds {prevlen : Option Nat} {rs : List Run} {lens : List Nat}
    (h : RunsOf prevlen rs lens) (hlens : ∀ l ∈ lens, l < 16) {acc : List Nat}
    (hprev : ∀ l, prevlen = some l → acc.getLast? = some l) :
    Adds acc (rs.flatMap Run.items) (acc ++ lens) := by
  induction h generalizing acc with
  | nil prevlen =>
      rw [List.append_nil]
      exact Adds.nil acc
  | @cons r rs lens hpos hmax hmin h ih =>
      have hcurlen : r.curlen < 16 :=
        hlens r.curlen (List.mem_append_left _ (List.mem_replicate.mpr ⟨by omega, rfl⟩))
      have hlast : (acc ++ List.replicate r.count r.curlen).getLast? = some r.curlen := by
        rw [List.getLast?_append, List.getLast?_replicate, if_neg (by omega)]
        rfl
      have hrest := @ih (fun l hl => hlens l (List.mem_append_right _ hl))
        (acc ++ List.replicate r.count r.curlen)
        (fun l hl => by rw [hlast, hl])
      rw [List.append_assoc] at hrest
      rw [List.flatMap_cons]
      exact (Run.adds hcurlen hpos hmax hmin hprev).trans hrest

/-- The symbols for a list of lengths add it to what there is. -/
theorem items_adds {lens : List Nat} (hlens : ∀ l ∈ lens, l < 16) (acc : List Nat) :
    Adds acc (items lens) (acc ++ lens) := by
  refine (runs_runsOf ?_).adds hlens (fun l hl => nomatch hl)
  rintro l hl rfl
  exact absurd (hlens _ hl) (by decide)

end Trees
