import Dockerfiles.Shell.Text

/-! # Replacing words in a text

`substMany` replaces the words of a table, scanning once from left to right; a
replaced occurrence is skipped as a whole and its replacement is not scanned
again. A character that stands in none of the words separates the text: no
occurrence reaches across it, so the two sides are replaced independently.
-/

namespace Shell

/-! ## One pass over a text -/

/-- The first word of the table that stands at the head of the text. -/
def headMatch (table : List (Text × Text)) (t : Text) : Option (Text × Text) :=
  table.find? fun entry => !entry.1.isEmpty && entry.1.isPrefixOf t

/-- The first argument counts the characters still covered by the occurrence
just replaced. -/
def substAux (table : List (Text × Text)) : Nat → Text → Text
  | _, [] => []
  | skip + 1, _ :: cs => substAux table skip cs
  | 0, c :: cs =>
      match headMatch table (c :: cs) with
      | some (w, v) => v ++ substAux table (w.length - 1) cs
      | none => c :: substAux table 0 cs

def substMany (table : List (Text × Text)) (t : Text) : Text := substAux table 0 t

def replaceAll (w v t : Text) : Text := substMany [(w, v)] t

/-- The first occurrence only. -/
def replaceFirst (w v : Text) : Text → Text
  | [] => []
  | c :: cs =>
      if w.isPrefixOf (c :: cs) then v ++ (c :: cs).drop w.length else c :: replaceFirst w v cs

theorem headMatch_some {table : List (Text × Text)} {t w v : Text}
    (h : headMatch table t = some (w, v)) : (w, v) ∈ table ∧ w ≠ [] ∧ w <+: t := by
  have hp := List.find?_some h
  simp only [Bool.and_eq_true, Bool.not_eq_eq_eq_not, Bool.not_true, List.isEmpty_eq_false_iff,
    List.isPrefixOf_iff_prefix] at hp
  exact ⟨List.mem_of_find?_eq_some h, hp.1, hp.2⟩

theorem headMatch_eq_none {table : List (Text × Text)} {t : Text}
    (h : ∀ entry ∈ table, ¬ entry.1 <:+: t) : headMatch table t = none := by
  rw [headMatch, List.find?_eq_none]
  intro entry he
  have hp : ¬ entry.1 <+: t := fun hp => h entry he hp.isInfix
  simp [hp]

/-! ## Texts without an occurrence -/

/-- A text that contains none of the words is left as it is. -/
theorem substMany_of_forall_not_infix {table : List (Text × Text)} {t : Text}
    (h : ∀ entry ∈ table, ¬ entry.1 <:+: t) : substMany table t = t := by
  unfold substMany
  induction t with
  | nil => rfl
  | cons c cs ih =>
      have hcs : ∀ entry ∈ table, ¬ entry.1 <:+: cs :=
        fun entry he hi => h entry he (List.infix_cons hi)
      simp only [substAux, headMatch_eq_none h]
      rw [ih hcs]

theorem replaceAll_of_not_infix {w t : Text} (v : Text) (h : ¬ w <:+: t) :
    replaceAll w v t = t :=
  substMany_of_forall_not_infix (by simpa using h)

theorem replaceFirst_of_not_infix {w t : Text} (v : Text) (h : ¬ w <:+: t) :
    replaceFirst w v t = t := by
  induction t with
  | nil => rfl
  | cons c cs ih =>
      have hp : ¬ w <+: c :: cs := fun hp => h hp.isInfix
      have hcs : ¬ w <:+: cs := fun hi => h (List.infix_cons hi)
      simp [replaceFirst, hp, ih hcs]

/-- The first replacement adds what the new word is longer by. -/
theorem length_replaceFirst_of_infix {w t : Text} (v : Text) (hw : w ≠ []) (h : w <:+: t) :
    (replaceFirst w v t).length + w.length = t.length + v.length := by
  induction t with
  | nil => exact absurd (List.infix_nil.mp h) hw
  | cons c cs ih =>
      by_cases hp : w <+: c :: cs
      · have hl := hp.length_le
        simp only [replaceFirst, List.isPrefixOf_iff_prefix, hp, if_true, List.length_append,
          List.length_drop]
        omega
      · have hcs : w <:+: cs := by
          rcases List.infix_cons_iff.mp h with hh | hh
          · exact absurd hh hp
          · exact hh
        have hr := ih hcs
        simp only [replaceFirst, List.isPrefixOf_iff_prefix, hp, if_false, List.length_cons]
        omega

/-! ## Separators -/

private theorem prefix_append_sep {w x : Text} {d : Char} (y : Text) (hd : d ∉ w) :
    w <+: x ++ d :: y ↔ w <+: x := by
  constructor
  · intro h
    rcases List.prefix_or_prefix_of_prefix h (List.prefix_append x (d :: y)) with hx | hx
    · exact hx
    · obtain ⟨z, rfl⟩ := hx
      rw [List.prefix_append_right_inj] at h
      cases z with
      | nil => simp
      | cons e es =>
          obtain ⟨rfl, _⟩ := List.cons_prefix_cons.mp h
          exact absurd (by simp) hd
  · intro h
    exact h.trans (List.prefix_append x (d :: y))

private theorem headMatch_append_sep {table : List (Text × Text)} {d : Char} (x y : Text)
    (hd : ∀ entry ∈ table, d ∉ entry.1) :
    headMatch table (x ++ d :: y) = headMatch table x := by
  induction table with
  | nil => rfl
  | cons entry table ih =>
      have he : entry.1.isPrefixOf (x ++ d :: y) = entry.1.isPrefixOf x := by
        rw [Bool.eq_iff_iff, List.isPrefixOf_iff_prefix, List.isPrefixOf_iff_prefix]
        exact prefix_append_sep y (hd entry List.mem_cons_self)
      have ht := ih fun e h => hd e (List.mem_cons_of_mem entry h)
      simp only [headMatch] at ht ⊢
      simp only [List.find?_cons, he, ht]

private theorem headMatch_nil (table : List (Text × Text)) : headMatch table [] = none := by
  rw [headMatch, List.find?_eq_none]
  intro entry _
  cases entry.1 <;> simp

private theorem substAux_append_sep {table : List (Text × Text)} {d : Char} (y : Text)
    (hd : ∀ entry ∈ table, d ∉ entry.1) (x : Text) (skip : Nat) (hs : skip ≤ x.length) :
    substAux table skip (x ++ d :: y) = substAux table skip x ++ d :: substMany table y := by
  induction x generalizing skip with
  | nil =>
      have h0 : skip = 0 := by simpa using hs
      have hm : headMatch table (d :: y) = none :=
        (headMatch_append_sep [] y hd).trans (headMatch_nil table)
      subst h0
      simp [substAux, hm, substMany]
  | cons c cs ih =>
      cases skip with
      | succ skip => exact ih skip (by simpa using hs)
      | zero =>
          have hm := headMatch_append_sep (c :: cs) y hd
          simp only [List.cons_append] at hm
          simp only [List.cons_append, substAux, hm]
          cases hw : headMatch table (c :: cs) with
          | none => simp [ih 0 (Nat.zero_le _)]
          | some entry =>
              have hl := (headMatch_some hw).2.2.length_le
              have hi := ih (entry.1.length - 1) (by simp at hl; omega)
              simp [hi]

/-- A character outside the words splits the replacement. -/
theorem substMany_append_sep {table : List (Text × Text)} {d : Char} (x y : Text)
    (hd : ∀ entry ∈ table, d ∉ entry.1) :
    substMany table (x ++ d :: y) = substMany table x ++ d :: substMany table y :=
  substAux_append_sep y hd x 0 (Nat.zero_le _)

/-- Replacement works line by line. -/
theorem substMany_intercalate {table : List (Text × Text)} {d : Char}
    (hd : ∀ entry ∈ table, d ∉ entry.1) (ls : List Text) :
    substMany table ([d].intercalate ls) = [d].intercalate (ls.map (substMany table)) := by
  induction ls with
  | nil => rfl
  | cons l ls ih =>
      cases ls with
      | nil => simp
      | cons l' ls =>
          simp only [List.map_cons] at ih ⊢
          rw [List.intercalate_cons_cons, List.intercalate_cons_cons, List.append_assoc,
            List.append_assoc, List.singleton_append, substMany_append_sep _ _ hd, ih]
          rfl

/-! ## The word itself, and what a replacement keeps -/

theorem replaceAll_self {w : Text} (v : Text) (hw : w ≠ []) : replaceAll w v w = v := by
  obtain ⟨c, cs, rfl⟩ := List.exists_cons_of_ne_nil hw
  have hskip : ∀ (t : Text) (table : List (Text × Text)), substAux table t.length t = [] := by
    intro t table
    induction t with
    | nil => rfl
    | cons c cs ih => exact ih
  simp [replaceAll, substMany, substAux, headMatch, hskip]

/-- A word replaced by itself. -/
theorem replaceAll_same (w t : Text) : replaceAll w w t = t := by
  have haux : ∀ (t : Text) (skip : Nat), substAux [(w, w)] skip t = t.drop skip := by
    intro t
    induction t with
    | nil => simp [substAux]
    | cons c cs ih =>
        intro skip
        cases skip with
        | succ skip => exact ih skip
        | zero =>
            simp only [substAux, List.drop_zero]
            cases hw : headMatch [(w, w)] (c :: cs) with
            | none => simp [ih 0]
            | some entry =>
                obtain ⟨hmem, hne, hpre⟩ := headMatch_some hw
                obtain rfl : entry = (w, w) := List.mem_singleton.mp hmem
                obtain ⟨k, hk⟩ : ∃ k, w.length = k + 1 :=
                  Nat.exists_eq_succ_of_ne_zero (by simpa using hne)
                have hrest := List.prefix_iff_eq_append.mp hpre
                simp only [hk, List.drop_succ_cons] at hrest
                simp only [ih, hk, Nat.add_sub_cancel]
                exact hrest
  exact haux t 0

/-- A replacement brings in no character but those of the new word. -/
theorem mem_replaceAll {w v t : Text} {c : Char} (h : c ∈ replaceAll w v t) : c ∈ v ∨ c ∈ t := by
  have haux : ∀ (t : Text) (skip : Nat), c ∈ substAux [(w, v)] skip t → c ∈ v ∨ c ∈ t := by
    intro t
    induction t with
    | nil => simp [substAux]
    | cons d ds ih =>
        intro skip hc
        cases skip with
        | succ skip => exact (ih skip hc).imp_right (List.mem_cons_of_mem d)
        | zero =>
            simp only [substAux] at hc
            cases hw : headMatch [(w, v)] (d :: ds) with
            | none =>
                rw [hw] at hc
                rcases List.mem_cons.mp hc with rfl | hm
                · exact .inr List.mem_cons_self
                · exact (ih 0 hm).imp_right (List.mem_cons_of_mem d)
            | some entry =>
                obtain rfl : entry = (w, v) := List.mem_singleton.mp (headMatch_some hw).1
                rw [hw] at hc
                rcases List.mem_append.mp hc with hm | hm
                · exact .inl hm
                · exact (ih _ hm).imp_right (List.mem_cons_of_mem d)
  exact haux t 0 h

private theorem count_substAux {table : List (Text × Text)} {d : Char}
    (hd : ∀ entry ∈ table, d ∉ entry.1 ∧ d ∉ entry.2) (t : Text) (skip : Nat) :
    (substAux table skip t).count d = (t.drop skip).count d := by
  induction t generalizing skip with
  | nil => simp [substAux]
  | cons c cs ih =>
      cases skip with
      | succ skip => exact ih skip
      | zero =>
          simp only [substAux, List.drop_zero]
          cases hw : headMatch table (c :: cs) with
          | none => simp [List.count_cons, ih 0]
          | some entry =>
              obtain ⟨hmem, hne, hpre⟩ := headMatch_some hw
              obtain ⟨h1, h2⟩ := hd _ hmem
              obtain ⟨k, hk⟩ : ∃ k, entry.1.length = k + 1 :=
                Nat.exists_eq_succ_of_ne_zero (by simpa using hne)
              have hrest : (c :: cs).count d = ((c :: cs).drop entry.1.length).count d := by
                conv_lhs => rw [← List.prefix_iff_eq_append.mp hpre]
                rw [List.count_append, List.count_eq_zero_of_not_mem h1, Nat.zero_add]
              rw [hrest, hk, List.drop_succ_cons, List.count_append,
                List.count_eq_zero_of_not_mem h2, ih, Nat.zero_add]
              simp [hk]

/-- A character of neither the word nor its replacement keeps its number. -/
theorem count_replaceAll {w v : Text} {d : Char} (hw : d ∉ w) (hv : d ∉ v) (t : Text) :
    (replaceAll w v t).count d = t.count d := by
  have hd : ∀ entry ∈ [(w, v)], d ∉ entry.1 ∧ d ∉ entry.2 := by simp [hw, hv]
  simpa [replaceAll, substMany] using count_substAux hd t 0

end Shell
