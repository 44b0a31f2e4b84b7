import Mathlib.Data.List.Basic

/-! # Scripts, interrupted starts and restarts

A script is a list of commands. Without `set -e` every command runs, and one
that fails is one that changes nothing. Under `set -e` the first failing command
ends the script. In both cases the process may be killed between two commands,
and a long command may be killed, or fail, halfway through its own work. The
rules below carry an invariant, and a relation between the state before and the
state after, from single commands to whole starts and to sequences of starts.
-/

namespace Shell

variable {σ ι : Type}

/-! ## Scripts without `set -e` -/

def runAll (cs : List (σ → σ)) (s : σ) : σ := cs.foldl (fun s c => c s) s

@[simp] theorem runAll_nil (s : σ) : runAll [] s = s := rfl

@[simp] theorem runAll_cons (c : σ → σ) (cs : List (σ → σ)) (s : σ) :
    runAll (c :: cs) s = runAll cs (c s) := rfl

/-! ## Sequences of starts -/

/-- `P` holds at each start of the sequence, of the state it finds and of its input. -/
def AtEach (start : σ → ι → σ) (P : σ → ι → Prop) : σ → List ι → Prop
  | _, [] => True
  | s, x :: xs => P s x ∧ AtEach start P (start s x) xs

/-- Two properties that agree wherever an invariant of the starts holds agree at
each start of every sequence. -/
theorem atEach_congr {start : σ → ι → σ} {P Q : σ → ι → Prop} {I : σ → Prop} {s : σ}
    {xs : List ι} (hI : I s) (step : ∀ s, ∀ x ∈ xs, I s → I (start s x))
    (h : ∀ s, ∀ x ∈ xs, I s → (P s x ↔ Q s x)) :
    AtEach start P s xs ↔ AtEach start Q s xs := by
  induction xs generalizing s with
  | nil => exact Iff.rfl
  | cons x xs ih =>
      have tail := ih (step s x List.mem_cons_self hI)
        (fun s y hy => step s y (List.mem_cons_of_mem x hy))
        (fun s y hy => h s y (List.mem_cons_of_mem x hy))
      exact and_congr (h s x List.mem_cons_self hI) tail

/-! ## Scripts under `set -e` -/

/-- One command. `effect` is its result when it ends with status zero, `none` a
failure that leaves the state alone; `cut` relates the state before to those a
kill or a failure inside the command can leave behind. -/
structure Cmd (σ : Type) where
  effect : σ → Option σ
  cut : σ → σ → Prop

def Cmd.atomic (effect : σ → Option σ) : Cmd σ := ⟨effect, fun _ _ => False⟩

/-- What the command can make of a state, stopped inside it or not. -/
def Cmd.Leaves (c : Cmd σ) (s s' : σ) : Prop := c.effect s = some s' ∨ c.cut s s'

/-- The script run to its end with no command failing. -/
def exec : List (Cmd σ) → σ → Option σ
  | [], s => some s
  | c :: cs, s => (c.effect s).bind (exec cs)

/-- The states in which a kill or a failing command can leave the script. -/
inductive Stops : List (Cmd σ) → σ → σ → Prop
  | here (cs : List (Cmd σ)) (s : σ) : Stops cs s s
  | inside {c : Cmd σ} {cs : List (Cmd σ)} {s s' : σ} : c.cut s s' → Stops (c :: cs) s s'
  | later {c : Cmd σ} {cs : List (Cmd σ)} {s s' s'' : σ} :
      c.effect s = some s' → Stops cs s' s'' → Stops (c :: cs) s s''

/-- The single steps of a run: `Makes cs s a b` when some command of the script,
started in `s`, takes state `a` to state `b`. -/
inductive Makes : List (Cmd σ) → σ → σ → σ → Prop
  | whole {c : Cmd σ} {cs : List (Cmd σ)} {s s' : σ} :
      c.effect s = some s' → Makes (c :: cs) s s s'
  | inside {c : Cmd σ} {cs : List (Cmd σ)} {s s' : σ} : c.cut s s' → Makes (c :: cs) s s s'
  | later {c : Cmd σ} {cs : List (Cmd σ)} {s s' a b : σ} :
      c.effect s = some s' → Makes cs s' a b → Makes (c :: cs) s a b

/-- `if test; then body; fi` -/
def Cmd.when (test : σ → Bool) (body : List (Cmd σ)) : Cmd σ where
  effect s := if test s then exec body s else some s
  cut s s' := test s = true ∧ Stops body s s'

theorem exec_cons_eq_some {c : Cmd σ} {cs : List (Cmd σ)} {s s'' : σ} :
    exec (c :: cs) s = some s'' ↔ ∃ s', c.effect s = some s' ∧ exec cs s' = some s'' := by
  simp [exec, Option.bind_eq_some_iff]

theorem exec_append (cs ds : List (Cmd σ)) (s : σ) :
    exec (cs ++ ds) s = (exec cs s).bind (exec ds) := by
  induction cs generalizing s with
  | nil => rfl
  | cons c cs ih =>
      simp only [List.cons_append, exec]
      cases c.effect s with
      | none => rfl
      | some s' => simpa using ih s'

theorem Stops.after {cs ds : List (Cmd σ)} {s s' s'' : σ} (h : exec cs s = some s')
    (hs : Stops ds s' s'') : Stops (cs ++ ds) s s'' := by
  induction cs generalizing s with
  | nil =>
      cases h
      exact hs
  | cons c cs ih =>
      obtain ⟨s₁, he, hr⟩ := exec_cons_eq_some.mp h
      exact .later he (ih hr)

/-- The step of the command at a position, when those before it have ended well. -/
theorem Makes.of_take {c : Cmd σ} {cs : List (Cmd σ)} {k : Nat} {s a b : σ}
    (h : exec (cs.take k) s = some a) (hc : cs[k]? = some c) (he : c.effect a = some b) :
    Makes cs s a b := by
  induction k generalizing cs s with
  | zero =>
      cases cs with
      | nil => cases hc
      | cons c' cs =>
          cases h
          cases hc
          exact .whole he
  | succ k ih =>
      cases cs with
      | nil => cases hc
      | cons c' cs =>
          obtain ⟨s₁, he₁, hr⟩ := exec_cons_eq_some.mp h
          exact .later he₁ (ih hr hc)

theorem Stops.of_exec {cs : List (Cmd σ)} {s s' : σ} (h : exec cs s = some s') :
    Stops cs s s' := by
  have hs := Stops.after h (.here [] s')
  rwa [List.append_nil] at hs

/-! ## Rules for scripts under `set -e`

`I` holds before, `J` after, `W` wherever the script is left on the way, and `R`
relates the states before and after each command.
-/

def Cmd.Meets (W : σ → Prop) (R : σ → σ → Prop) (I : σ → Prop) (c : Cmd σ) (J : σ → Prop) :
    Prop :=
  ∀ s s', I s → (c.effect s = some s' → J s' ∧ R s s') ∧ (c.cut s s' → W s' ∧ R s s')

inductive Meets (W : σ → Prop) (R : σ → σ → Prop) :
    (σ → Prop) → List (Cmd σ) → (σ → Prop) → Prop
  | nil {I : σ → Prop} : (∀ s, I s → W s) → Meets W R I [] I
  | cons {I J K : σ → Prop} {c : Cmd σ} {cs : List (Cmd σ)} :
      (∀ s, I s → W s) → c.Meets W R I J → Meets W R J cs K → Meets W R I (c :: cs) K

section Rules

variable {W I J K : σ → Prop} {R : σ → σ → Prop} {c : Cmd σ} {cs ds : List (Cmd σ)} {s s' : σ}

theorem Cmd.Meets.atomic {effect : σ → Option σ}
    (h : ∀ s s', I s → effect s = some s' → J s' ∧ R s s') :
    (Cmd.atomic effect).Meets W R I J :=
  fun s s' hs => ⟨h s s' hs, False.elim⟩

/-- A command that need not be told from its own stops. -/
theorem Cmd.Meets.of_leaves (hw : ∀ s, J s → W s)
    (h : ∀ s s', I s → c.Leaves s s' → J s' ∧ R s s') : c.Meets W R I J := by
  intro s s' hs
  refine ⟨fun he => h s s' hs (.inl he), fun hk => ?_⟩
  obtain ⟨hj, hr⟩ := h s s' hs (.inr hk)
  exact ⟨hw s' hj, hr⟩

theorem Meets.append (h : Meets W R I cs J) (h' : Meets W R J ds K) : Meets W R I (cs ++ ds) K := by
  induction h with
  | nil _ => exact h'
  | cons hw hc _ ih => exact .cons hw hc (ih h')

/-- A single step of the script is related by `R`. -/
theorem Makes.related {a b : σ} (h : Makes cs s a b) (hm : Meets W R I cs J) (hs : I s) :
    R a b := by
  induction h generalizing I with
  | whole he =>
      cases hm with
      | cons _ hc _ => exact ((hc _ _ hs).1 he).2
  | inside hk =>
      cases hm with
      | cons _ hc _ => exact ((hc _ _ hs).2 hk).2
  | later he _ ih =>
      cases hm with
      | cons _ hc hm => exact ih hm ((hc _ _ hs).1 he).1

section Preorder

variable (refl : ∀ s, R s s) (trans : ∀ {s s' s''}, R s s' → R s' s'' → R s s'')

include refl trans

theorem Meets.exec (hm : Meets W R I cs J) (h : exec cs s = some s') (hs : I s) :
    J s' ∧ R s s' := by
  induction hm generalizing s with
  | nil _ =>
      cases h
      exact ⟨hs, refl _⟩
  | cons _ hc _ ih =>
      obtain ⟨s₁, he, hr⟩ := exec_cons_eq_some.mp h
      have first := (hc s s₁ hs).1 he
      have rest := ih hr first.1
      exact ⟨rest.1, trans first.2 rest.2⟩

theorem Meets.stops (hm : Meets W R I cs J) (h : Stops cs s s') (hs : I s) : W s' ∧ R s s' := by
  induction h generalizing I with
  | here =>
      cases hm with
      | nil hw => exact ⟨hw _ hs, refl _⟩
      | cons hw _ _ => exact ⟨hw _ hs, refl _⟩
  | inside hk =>
      cases hm with
      | cons _ hc _ => exact (hc _ _ hs).2 hk
  | later he _ ih =>
      cases hm with
      | cons _ hc hm =>
          have first := (hc _ _ hs).1 he
          have rest := ih hm first.1
          exact ⟨rest.1, trans first.2 rest.2⟩

theorem Cmd.Meets.when {test : σ → Bool} {body : List (Cmd σ)}
    (hb : Shell.Meets W R (fun s => I s ∧ test s = true) body J)
    (hn : ∀ s, I s → test s = false → J s) : (Cmd.when test body).Meets W R I J := by
  intro s s' hs
  constructor
  · intro he
    simp only [Cmd.when] at he
    split at he
    next ht => exact hb.exec refl trans he ⟨hs, ht⟩
    next ht =>
      cases he
      exact ⟨hn s hs (by simpa using ht), refl s⟩
  · rintro ⟨ht, hk⟩
    exact hb.stops refl trans hk ⟨hs, ht⟩

end Preorder

end Rules

end Shell
