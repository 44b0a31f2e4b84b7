import Mathlib.Algebra.GroupWithZero.Nat
import Mathlib.Data.Bool.AllAny
import Mathlib.Data.List.DropRight
import Mathlib.Data.List.Infix

/-! # Texts, fields and streams of a shell

A value, a line and a file are lists of characters. The functions below are the
expansions a POSIX shell performs on them: field splitting of an unquoted
expansion, the removal of trailing newlines by a command substitution, and the
options and escapes of bash's builtin `echo`.
-/

namespace Shell

abbrev Text := List Char

/-! ## Fields -/

/-- The characters of the default `IFS`. -/
def isBlank (c : Char) : Bool := c == ' ' || c == '\t' || c == '\n'

/-- The fields of an unquoted expansion, before pathname expansion. -/
def fields (t : Text) : List Text := (t.splitOnP isBlank).filter (!·.isEmpty)

/-- Words with one space between each two, as `echo` writes them. -/
def unwords (ws : List Text) : Text := [' '].intercalate ws

theorem field_ne_nil {t w : Text} (h : w ∈ fields t) : w ≠ [] := by
  simp only [fields, List.mem_filter] at h
  intro he
  simp [he] at h

/-- The length of the words with one more character for each. -/
def weight (ws : List Text) : Nat := (ws.map fun w => w.length + 1).sum

theorem length_unwords_le_weight (ws : List Text) : (unwords ws).length ≤ weight ws := by
  unfold unwords weight
  induction ws with
  | nil => simp
  | cons w ws ih =>
      cases ws with
      | nil => simp
      | cons w' ws =>
          rw [List.intercalate_cons_cons]
          simp only [List.length_append, List.length_singleton, List.map_cons, List.sum_cons] at ih ⊢
          omega

private theorem weight_splitOnP (t : Text) : weight (t.splitOnP isBlank) = t.length + 1 := by
  induction t with
  | nil => simp [weight]
  | cons c cs ih =>
      rw [List.splitOnP_cons_eq_if_modifyHead]
      obtain ⟨w, ws, hw⟩ := List.exists_cons_of_ne_nil (List.splitOnP_ne_nil isBlank cs)
      rw [hw] at ih ⊢
      by_cases hc : isBlank c = true
      · simp only [hc, if_true]
        simp only [weight, List.map_cons, List.sum_cons, List.length_cons, List.length_nil] at ih ⊢
        omega
      · simp only [hc, Bool.false_eq_true, if_false, List.modifyHead_cons]
        simp only [weight, List.map_cons, List.sum_cons, List.length_cons] at ih ⊢
        omega

/-- Splitting into fields adds nothing. -/
theorem weight_fields_le (t : Text) : weight (fields t) ≤ t.length + 1 := by
  rw [← weight_splitOnP, fields]
  generalize t.splitOnP isBlank = ws
  unfold weight
  induction ws with
  | nil => simp
  | cons w ws ih =>
      rw [List.filter_cons]
      split <;> simp only [List.map_cons, List.sum_cons] <;> omega

theorem field_blank_free {t w : Text} (h : w ∈ fields t) : ∀ c ∈ w, isBlank c = false := by
  have hw : w ∈ t.splitOnP isBlank := List.mem_of_mem_filter h
  clear h
  induction t generalizing w with
  | nil =>
      have hn : w = [] := by simpa using hw
      simp [hn]
  | cons c cs ih =>
      rw [List.splitOnP_cons_eq_if_modifyHead] at hw
      obtain ⟨v, vs, hv⟩ := List.exists_cons_of_ne_nil (List.splitOnP_ne_nil isBlank cs)
      rw [hv] at hw ih
      cases hc : isBlank c with
      | true =>
          rcases List.mem_cons.mp (by simpa [hc] using hw : w ∈ [] :: v :: vs) with rfl | hm
          · simp
          · exact ih hm
      | false =>
          rcases List.mem_cons.mp (by simpa [hc] using hw : w ∈ (c :: v) :: vs) with rfl | hm
          · simpa [hc] using ih (List.mem_cons_self : v ∈ v :: vs)
          · exact ih (List.mem_cons_of_mem v hm)

theorem mem_of_mem_field {t w : Text} {c : Char} (hw : w ∈ fields t) (hc : c ∈ w) : c ∈ t := by
  have hs : w ∈ t.splitOnP isBlank := List.mem_of_mem_filter hw
  clear hw
  induction t generalizing w with
  | nil =>
      have hn : w = [] := by simpa using hs
      simp [hn] at hc
  | cons d ds ih =>
      rw [List.splitOnP_cons_eq_if_modifyHead] at hs
      obtain ⟨v, vs, hv⟩ := List.exists_cons_of_ne_nil (List.splitOnP_ne_nil isBlank ds)
      rw [hv] at hs ih
      cases hd : isBlank d with
      | true =>
          rcases List.mem_cons.mp (by simpa [hd] using hs : w ∈ [] :: v :: vs) with rfl | hm
          · simp at hc
          · exact List.mem_cons_of_mem d (ih hc hm)
      | false =>
          rcases List.mem_cons.mp (by simpa [hd] using hs : w ∈ (d :: v) :: vs) with rfl | hm
          · rcases List.mem_cons.mp hc with rfl | hc
            · exact List.mem_cons_self
            · exact List.mem_cons_of_mem d (ih hc List.mem_cons_self)
          · exact List.mem_cons_of_mem d (ih hc (List.mem_cons_of_mem v hm))

/-- An expansion that leaves every field alone. -/
theorem flatMap_eq_self {α : Type} {f : α → List α} {l : List α} (h : ∀ a ∈ l, f a = [a]) :
    l.flatMap f = l := by
  rw [List.flatMap_congr h, List.flatMap_singleton']

/-- No character that starts a pattern of pathname expansion. -/
def GlobFree (t : Text) : Prop := ∀ c ∈ t, c ≠ '*' ∧ c ≠ '?' ∧ c ≠ '['

instance (t : Text) : Decidable (GlobFree t) :=
  decidable_of_iff (t.all fun c => c ≠ '*' ∧ c ≠ '?' ∧ c ≠ '[') List.all_iff_forall_prop

theorem newline_not_mem_unwords {ws : List Text} (h : ∀ w ∈ ws, '\n' ∉ w) :
    '\n' ∉ unwords ws := by
  unfold unwords
  induction ws with
  | nil => simp
  | cons w ws ih =>
      cases ws with
      | nil => simpa using h w
      | cons w' ws =>
          rw [List.intercalate_cons_cons]
          simp only [List.mem_append, List.mem_singleton, not_or]
          exact ⟨⟨h w List.mem_cons_self, by decide⟩,
            ih fun v hv => h v (List.mem_cons_of_mem w hv)⟩

/-! ## Streams -/

/-- What a command substitution keeps of the output: all but the trailing newlines. -/
def commandSubst (t : Text) : Text := t.rdropWhile (· == '\n')

/-- The first line of a stream, without its newline. -/
def firstLine (t : Text) : Text := t.takeWhile (· != '\n')

theorem newline_not_mem_firstLine (t : Text) : '\n' ∉ firstLine t := by
  intro h
  have hn := List.mem_takeWhile_imp h
  simp at hn

theorem firstLine_append_newline {t : Text} (rest : Text) (h : '\n' ∉ t) :
    firstLine (t ++ '\n' :: rest) = t := by
  unfold firstLine
  rw [List.takeWhile_append_of_pos]
  · simp
  · intro c hc
    simp only [bne_iff_ne, ne_eq]
    rintro rfl
    exact h hc

theorem firstLine_append_final_newline (t : Text) : firstLine (t ++ ['\n']) = firstLine t := by
  unfold firstLine
  rw [List.takeWhile_append]
  split
  next h =>
    rw [(List.takeWhile_prefix _).eq_of_length h]
    simp
  next => rfl

theorem length_firstLine_le (t : Text) : (firstLine t).length ≤ t.length :=
  (List.takeWhile_prefix _).length_le

theorem firstLine_of_not_mem {t : Text} (h : '\n' ∉ t) : firstLine t = t := by
  unfold firstLine
  rw [List.takeWhile_eq_self_iff]
  intro c hc
  simp only [bne_iff_ne, ne_eq]
  rintro rfl
  exact h hc

/-- A stream is its substituted value followed by newlines only. -/
theorem commandSubst_spec (t : Text) :
    ∃ tail, t = commandSubst t ++ tail ∧ ∀ c ∈ tail, c = '\n' := by
  refine ⟨t.rtakeWhile (· == '\n'), (List.rdropWhile_append_rtakeWhile ..).symm, ?_⟩
  intro c hc
  simpa using List.mem_rtakeWhile_imp hc

/-- Reading one line and substituting the whole stream give the same value
exactly when that value is a single line. -/
theorem firstLine_eq_commandSubst_iff (t : Text) :
    firstLine t = commandSubst t ↔ '\n' ∉ commandSubst t := by
  constructor
  · intro h
    rw [← h]
    exact newline_not_mem_firstLine t
  · intro h
    obtain ⟨tail, ht, hn⟩ := commandSubst_spec t
    cases tail with
    | nil =>
        rw [List.append_nil] at ht
        rw [← ht] at h ⊢
        exact firstLine_of_not_mem h
    | cons c cs =>
        rw [hn c (by simp)] at ht
        rw [ht, firstLine_append_newline cs h, ← ht]

end Shell
