import Mathlib.Tactic.Common

/-! # Programs that may fail, two at a time

Rules for programs with a state and errors. Two programs agree when, from related
states, they give the same value in related states or fail in a related way. The first
program may also give up where the second goes on, when that is an error that was
announced: what is then known of the state of the second program is kept by the rest of
it. Each way of building a program keeps agreement.
-/

namespace Program

variable {ε σ α β : Type}

/-- The state a program leaves, whether it failed or not. -/
def leaves : EStateM.Result ε σ α → σ
  | .ok _ s => s
  | .error _ s => s

/-- A program goes on after a part that did not fail. -/
theorem bind_ok {f : EStateM ε σ α} {k : α → EStateM ε σ β} {s s' : σ} {a : α}
    (h : f s = .ok a s') : (f >>= k) s = k a s' := by
  show EStateM.bind f k s = k a s'
  rw [EStateM.bind, h]

/-- Both end with the same value in related states, or both fail as `E` allows, or the
first one gives up with an error that `X` allows where the second one is. -/
def AgreeAt (R : σ → σ → Prop) (E : ε → σ → ε → σ → Prop) (X : ε → σ → Prop) :
    EStateM.Result ε σ α → EStateM.Result ε σ α → Prop
  | .ok a s, .ok b t => a = b ∧ R s t
  | .error e s, .error d t => E e s d t ∨ X e t
  | .error e _, .ok _ t => X e t
  | .ok _ _, .error _ _ => False

/-- Two programs that agree from all related states, the second of which keeps what is
known after the first gave up. -/
structure Agree (R : σ → σ → Prop) (E : ε → σ → ε → σ → Prop) (X : ε → σ → Prop)
    (f g : EStateM ε σ α) : Prop where
  both : ∀ s t, R s t → AgreeAt R E X (f s) (g t)
  kept : ∀ e t, X e t → X e (leaves (g t))

section Rules

variable {R : σ → σ → Prop} {E : ε → σ → ε → σ → Prop} {X : ε → σ → Prop}

theorem Agree.pure (a : α) : Agree R E X (Pure.pure a : EStateM ε σ α) (Pure.pure a) where
  both := by
    intro s t hst
    exact ⟨rfl, hst⟩
  kept := by
    intro e t h
    exact h

theorem Agree.throw {e : ε} (h : ∀ s t, R s t → E e s e t ∨ X e t) :
    Agree R E X (MonadExcept.throw e : EStateM ε σ α) (MonadExcept.throw e) where
  both := by
    intro s t hst
    exact h s t hst
  kept := by
    intro e t h
    exact h

/-- A program that gives up agrees with all that keep what is then known. -/
theorem Agree.throw_left {e : ε} {g : EStateM ε σ α} (h : ∀ t, X e t)
    (hkept : ∀ e t, X e t → X e (leaves (g t))) :
    Agree R E X (MonadExcept.throw e : EStateM ε σ α) g where
  both := by
    intro s t _
    have hX : X e (leaves (g t)) := hkept e t (h t)
    show AgreeAt R E X (.error e s) (g t)
    cases hg : g t with
    | ok b t' =>
        rw [hg] at hX
        exact hX
    | error d t' =>
        rw [hg] at hX
        exact Or.inr hX
  kept := hkept

theorem leaves_bind (g : EStateM ε σ α) (l : α → EStateM ε σ β) (t : σ) :
    leaves ((g >>= l) t) =
      match g t with
      | .ok b t' => leaves (l b t')
      | .error _ t' => t' := by
  show leaves (EStateM.bind g l t) = _
  rw [EStateM.bind]
  cases g t with
  | ok b t' => rfl
  | error d t' => rfl

theorem Agree.bind {f g : EStateM ε σ α} {k l : α → EStateM ε σ β} (hfg : Agree R E X f g)
    (hkl : ∀ a, Agree R E X (k a) (l a)) : Agree R E X (f >>= k) (g >>= l) where
  both := by
    intro s t hst
    have h := hfg.both s t hst
    show AgreeAt R E X (EStateM.bind f k s) (EStateM.bind g l t)
    rw [EStateM.bind, EStateM.bind]
    cases hf : f s with
    | ok a s' =>
        cases hg : g t with
        | ok b t' =>
            rw [hf, hg] at h
            obtain ⟨rfl, hst'⟩ := h
            exact (hkl a).both s' t' hst'
        | error d t' =>
            rw [hf, hg] at h
            exact h.elim
    | error e s' =>
        cases hg : g t with
        | ok b t' =>
            -- the first gave up; the rest of the second keeps what is known
            rw [hf, hg] at h
            have hX : X e (leaves (l b t')) := (hkl b).kept e t' h
            show AgreeAt R E X (.error e s') (l b t')
            cases hl : l b t' with
            | ok c u =>
                rw [hl] at hX
                exact hX
            | error d u =>
                rw [hl] at hX
                exact Or.inr hX
        | error d t' =>
            rw [hf, hg] at h
            exact h
  kept := by
    intro e t h
    rw [leaves_bind]
    have hg := hfg.kept e t h
    cases hgt : g t with
    | ok b t' =>
        rw [hgt] at hg
        exact (hkl b).kept e t' hg
    | error d t' =>
        rw [hgt] at hg
        exact hg

theorem Agree.ite {p : Prop} [Decidable p] {f f' g g' : EStateM ε σ α}
    (hpos : p → Agree R E X f g) (hneg : ¬ p → Agree R E X f' g') :
    Agree R E X (if p then f else f') (if p then g else g') := by
  by_cases h : p
  · rw [if_pos h, if_pos h]
    exact hpos h
  · rw [if_neg h, if_neg h]
    exact hneg h

/-- The state of a result, changed. -/
def mapState (φ : σ → σ) : EStateM.Result ε σ α → EStateM.Result ε σ α
  | .ok a s => .ok a (φ s)
  | .error e s => .error e (φ s)

/-- A program that does on a changed state what another does on the state, which keeps an
invariant, unless that other one gives up. -/
theorem Agree.simulate {φ : σ → σ} {I : σ → Prop} {f g : EStateM ε σ α}
    (hE : ∀ e s, I s → E e s e (φ s))
    (h : ∀ s, I s → (g (φ s) = mapState φ (f s) ∧ I (leaves (f s))) ∨
      ∃ e s', f s = .error e s' ∧ X e (leaves (g (φ s))))
    (hkept : ∀ e t, X e t → X e (leaves (g t))) :
    Agree (fun s t => t = φ s ∧ I s) E X f g where
  both := by
    rintro s t ⟨rfl, hs⟩
    obtain ⟨hg, hI⟩ | ⟨e, s', hf, hX⟩ := h s hs
    · rw [hg]
      cases hf : f s with
      | ok a s' =>
          rw [hf] at hI
          exact ⟨rfl, rfl, hI⟩
      | error e s' =>
          rw [hf] at hI
          exact Or.inl (hE e s' hI)
    · rw [hf]
      cases hg : g (φ s) with
      | ok b t =>
          rw [hg] at hX
          exact hX
      | error d t =>
          rw [hg] at hX
          exact Or.inr hX
  kept := hkept

/-- A program agrees with itself where it keeps an invariant. -/
theorem Agree.self {I : σ → Prop} {f : EStateM ε σ α} (hE : ∀ e s, I s → E e s e s)
    (h : ∀ s, I s → I (leaves (f s))) (hkept : ∀ e t, X e t → X e (leaves (f t))) :
    Agree (fun s t => t = s ∧ I s) E X f f := by
  refine Agree.simulate (φ := id) hE (fun s hs => Or.inl ⟨?_, h s hs⟩) hkept
  show f s = mapState id (f s)
  cases f s with
  | ok a s' => rfl
  | error e s' => rfl

end Rules

/-! ## Programs that use something up -/

/-- At least `n` was taken of the measure `b`, or there is an error of the given kind. -/
def SpentAt (μ : σ → Nat) (P : ε → Prop) (n b : Nat) : EStateM.Result ε σ α → Prop
  | .ok _ s => μ s + n ≤ b
  | .error e _ => P e

/-- From states of measure at most `m`, the program takes at least `n` of the measure, or
fails with an error of the given kind. -/
structure Spends (μ : σ → Nat) (P : ε → Prop) (m n : Nat) (f : EStateM ε σ α) : Prop where
  spent : ∀ s, μ s ≤ m → SpentAt μ P n (μ s) (f s)

section Spends

variable {μ : σ → Nat} {P : ε → Prop} {m n : Nat}

theorem Spends.pure (a : α) : Spends μ P m 0 (Pure.pure a : EStateM ε σ α) where
  spent := by
    intro s _
    exact Nat.le_refl (μ s)

theorem Spends.throw {e : ε} (h : P e) :
    Spends μ P m n (MonadExcept.throw e : EStateM ε σ α) where
  spent := by
    intro s _
    exact h

theorem Spends.toZero {f : EStateM ε σ α} (h : Spends μ P m n f) : Spends μ P m 0 f where
  spent := by
    intro s hs
    have hf := h.spent s hs
    cases hfs : f s with
    | ok a s' =>
        rw [hfs] at hf
        exact Nat.le_trans (Nat.add_le_add_left (Nat.zero_le n) (μ s')) hf
    | error e s' =>
        rw [hfs] at hf
        exact hf

/-- The rest of the program has only what the first part leaves of the measure. -/
theorem Spends.bind {f : EStateM ε σ α} {k : α → EStateM ε σ β} (hf : Spends μ P m n f)
    (hk : ∀ a s s', f s = .ok a s' → n ≤ m → Spends μ P (m - n) 0 (k a)) :
    Spends μ P m n (f >>= k) where
  spent := by
    intro s hs
    have h := hf.spent s hs
    show SpentAt μ P n (μ s) (EStateM.bind f k s)
    rw [EStateM.bind]
    cases hfs : f s with
    | error e t =>
        rw [hfs] at h
        exact h
    | ok a t =>
        rw [hfs, SpentAt] at h
        have hrest := (hk a s t hfs (by omega)).spent t (by omega)
        dsimp only
        cases hkt : k a t with
        | error e r =>
            rw [hkt] at hrest
            exact hrest
        | ok b r =>
            rw [hkt, SpentAt] at hrest
            rw [SpentAt]
            omega

theorem Spends.ite {p : Prop} [Decidable p] {f g : EStateM ε σ α}
    (hf : p → Spends μ P m n f) (hg : ¬ p → Spends μ P m n g) :
    Spends μ P m n (if p then f else g) := by
  by_cases h : p
  · rw [if_pos h]
    exact hf h
  · rw [if_neg h]
    exact hg h

end Spends

end Program
