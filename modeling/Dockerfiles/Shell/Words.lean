import Dockerfiles.Shell.Text

/-! # Words of an unquoted expansion

Arguments that are joined into one value and expanded without quotes are split
into fields again, and each field is then replaced by the names of the files it
matches. The arguments come back as they were when each of them is one field
that pathname expansion leaves alone. The converse needs a directory in which no
name with white space in it is matched: such a name can put an argument together
again that was split.
-/

namespace Shell

/-! ## Joining and splitting -/

/-- A value that is one field. -/
def Word (w : Text) : Prop := w ≠ [] ∧ ∀ c ∈ w, isBlank c = false

instance (w : Text) : Decidable (Word w) :=
  decidable_of_iff (w ≠ [] ∧ w.all (fun c => isBlank c = false) = true)
    (and_congr Iff.rfl List.all_iff_forall_prop)

theorem Word.fields_eq {w : Text} (h : Word w) : fields w = [w] := by
  simp [fields, List.splitOnP_eq_singleton h.2, h.1]

theorem fields_append_cons (t u : Text) {c : Char} (hc : isBlank c = true) :
    fields (t ++ c :: u) = fields t ++ fields u := by
  simp only [fields, List.splitOnP_append_cons t u hc, List.filter_append]

/-- The words that are joined have their own fields, and no other. -/
theorem fields_unwords (ws : List Text) : fields (unwords ws) = ws.flatMap fields := by
  induction ws with
  | nil => rfl
  | cons w ws ih =>
      cases ws with
      | nil => simp [unwords]
      | cons v vs =>
          have joined : unwords (w :: v :: vs) = w ++ ' ' :: unwords (v :: vs) := by
            simp [unwords, List.intercalate_cons_cons]
          rw [joined, fields_append_cons w _ rfl, ih]
          rfl

/-! ## Lists that are their own expansion -/

section FlatMap

variable {α : Type} {f : α → List α}

theorem length_le_length_flatMap (hf : ∀ a, f a ≠ []) (l : List α) :
    l.length ≤ (l.flatMap f).length := by
  induction l with
  | nil => exact Nat.le_refl 0
  | cons a l ih =>
      have ha : 0 < (f a).length := List.length_pos_of_ne_nil (hf a)
      simp only [List.flatMap_cons, List.length_append, List.length_cons]
      omega

/-- No element can be dropped to make room for another's expansion. -/
theorem eq_singleton_of_flatMap_eq_self (hf : ∀ a, f a ≠ []) {l : List α}
    (h : l.flatMap f = l) : ∀ a ∈ l, f a = [a] := by
  induction l with
  | nil => simp
  | cons a l ih =>
      have hlen := congrArg List.length h
      have hl := length_le_length_flatMap hf l
      have ha : 0 < (f a).length := List.length_pos_of_ne_nil (hf a)
      simp only [List.flatMap_cons, List.length_append, List.length_cons] at hlen
      obtain ⟨b, hb⟩ := List.length_eq_one_iff.mp (show (f a).length = 1 by omega)
      rw [List.flatMap_cons, hb, List.singleton_append, List.cons.injEq] at h
      intro c hc
      rcases List.mem_cons.mp hc with rfl | hc
      · rw [hb, h.1]
      · exact ih h.2 c hc

end FlatMap

/-! ## Pathname expansion -/

/-- Pathname expansion of a field in some working directory. A field that matches
no file stays. -/
structure Globbing where
  expand : Text → List Text
  literal : ∀ w, GlobFree w → '\\' ∉ w → expand w = [w]
  nonempty : ∀ w, expand w ≠ []

namespace Globbing

variable (g : Globbing)

/-- The words of an unquoted expansion. -/
def words (t : Text) : List Text := (fields t).flatMap g.expand

theorem words_unwords (ws : List Text) : g.words (unwords ws) = ws.flatMap g.words := by
  rw [words, fields_unwords, List.flatMap_assoc]
  rfl

/-- One field, left alone by pathname expansion. -/
def Keeps (w : Text) : Prop := Word w ∧ g.expand w = [w]

/-- No field of the values expands to an empty name or one with white space in it. -/
def Tidy (ws : List Text) : Prop := ∀ w ∈ ws, ∀ f ∈ fields w, ∀ v ∈ g.expand f, Word v

variable {g}

theorem words_of_word {w : Text} (h : Word w) : g.words w = g.expand w := by
  rw [words, h.fields_eq, List.flatMap_singleton]

theorem keeps_of_literal {w : Text} (hw : Word w) (hg : GlobFree w) (hb : '\\' ∉ w) : g.Keeps w :=
  ⟨hw, g.literal w hg hb⟩

theorem Keeps.words_eq {w : Text} (h : g.Keeps w) : g.words w = [w] := by
  rw [words_of_word h.1, h.2]

theorem words_unwords_of_keeps {ws : List Text} (h : ∀ w ∈ ws, g.Keeps w) :
    g.words (unwords ws) = ws := by
  rw [words_unwords]
  exact flatMap_eq_self fun w hw => (h w hw).words_eq

theorem keeps_of_words_unwords {ws : List Text} (ht : g.Tidy ws) (h : g.words (unwords ws) = ws) :
    ∀ w ∈ ws, g.Keeps w := by
  rw [words_unwords] at h
  -- every word is the expansion of some field
  have word : ∀ w ∈ ws, Word w := by
    intro w hw
    rw [← h] at hw
    obtain ⟨v, hv, hm⟩ := List.mem_flatMap.mp hw
    obtain ⟨f, hf, hm⟩ := List.mem_flatMap.mp hm
    exact ht v hv f hf w hm
  have expanded : ws.flatMap g.expand = ws := by
    calc ws.flatMap g.expand = ws.flatMap g.words :=
          List.flatMap_congr fun w hw => (words_of_word (word w hw)).symm
      _ = ws := h
  intro w hw
  exact ⟨word w hw, eq_singleton_of_flatMap_eq_self g.nonempty expanded w hw⟩

end Globbing

end Shell
