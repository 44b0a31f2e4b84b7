import Dockerfiles.Shell.Replace

/-! # Editing a file with `sed`

`sed` works line by line. Its substitution program is parsed from a text, in
which the delimiter `/`, the backslash and `&` have a meaning of their own. The
replacement follows busybox: a backslash and a digit stand for a group, of which
a literal pattern has only the whole match, `\n`, `\t` and `\r` for the control
characters, and a backslash before any other character for that character.
-/

namespace Shell

/-! ## Editing by lines -/

/-- A missing newline at the end of the file stays missing. -/
def editLines (f : Text → Text) (t : Text) : Text := ['\n'].intercalate ((t.splitOn '\n').map f)

theorem newline_not_mem_line {t l : Text} (h : l ∈ t.splitOn '\n') : '\n' ∉ l := by
  induction t generalizing l with
  | nil =>
      have hl : l = [] := by simpa using h
      simp [hl]
  | cons c cs ih =>
      rw [List.splitOn_cons_eq_if_modifyHead] at h
      obtain ⟨w, ws, hw⟩ := List.exists_cons_of_ne_nil (List.splitOn_ne_nil '\n' cs)
      rw [hw] at h ih
      by_cases hc : c = '\n'
      · rcases List.mem_cons.mp (by simpa [hc] using h : l ∈ [] :: w :: ws) with rfl | hm
        · simp
        · exact ih hm
      · rcases List.mem_cons.mp (by simpa [hc] using h : l ∈ (c :: w) :: ws) with rfl | hm
        · have hn := ih (List.mem_cons_self : w ∈ w :: ws)
          simpa [hn] using fun h => hc h.symm
        · exact ih (List.mem_cons_of_mem w hm)

theorem splitOn_editLines {f : Text → Text} (hf : ∀ l, '\n' ∉ l → '\n' ∉ f l) (t : Text) :
    (editLines f t).splitOn '\n' = (t.splitOn '\n').map f := by
  apply List.splitOn_intercalate
  · intro l hl
    obtain ⟨l', hl', rfl⟩ := List.mem_map.mp hl
    exact hf l' (newline_not_mem_line hl')
  · simp

theorem editLines_editLines {f g : Text → Text} (hf : ∀ l, '\n' ∉ l → '\n' ∉ f l) (t : Text) :
    editLines g (editLines f t) = editLines (g ∘ f) t := by
  rw [editLines, splitOn_editLines hf, List.map_map]
  rfl

/-- An edit by lines that inserts no newline keeps the text exactly when it keeps
each of its lines. -/
theorem editLines_eq_self_iff {f : Text → Text} (hf : ∀ l, '\n' ∉ l → '\n' ∉ f l) (t : Text) :
    editLines f t = t ↔ ∀ l ∈ t.splitOn '\n', f l = l := by
  constructor
  · intro h l hl
    have hs := splitOn_editLines hf t
    rw [h] at hs
    have hid : (t.splitOn '\n').map f = (t.splitOn '\n').map id := by rw [List.map_id, ← hs]
    exact List.map_inj_left.mp hid l hl
  · intro h
    have hid : (t.splitOn '\n').map f = (t.splitOn '\n').map id := List.map_inj_left.mpr h
    rw [editLines, hid, List.map_id, List.intercalate_splitOn]

/-- The lines of a text are replaced in as the text is. -/
theorem editLines_substMany {table : List (Text × Text)} (hn : ∀ entry ∈ table, '\n' ∉ entry.1)
    (t : Text) : editLines (substMany table) t = substMany table t := by
  rw [editLines, ← substMany_intercalate hn, List.intercalate_splitOn]

/-! ## The program of a substitution -/

/-- Up to the next unescaped delimiter: the text before it and the text after. -/
def splitDelim : Text → Option (Text × Text)
  | [] => none
  | '/' :: cs => some ([], cs)
  | '\\' :: c :: cs => (splitDelim cs).map fun r => ('\\' :: c :: r.1, r.2)
  | c :: cs => (splitDelim cs).map fun r => (c :: r.1, r.2)

/-- What a program is: one global substitution of a literal pattern, a program
that `sed` refuses, or any other. -/
inductive Program where
  | subst (pattern replacement : Text)
  | refused
  | other
  deriving DecidableEq

/-- The flags after which the parser goes on; blanks are skipped. -/
def isPlainFlag (c : Char) : Bool :=
  c == 'g' || c == 'p' || c == 'i' || c == 'I' || c.isDigit || c.isWhitespace ||
    c == '\x0b' || c == '\x0c'

def isLiteral (c : Char) : Bool := c.isAlphanum || c == '_'

/-- The flags of a substitution: after plain ones a `w`, a comment, a `;` or a `}`
make it a longer program, anything else an error. -/
def parseFlags (pattern replacement flags : Text) : Program :=
  if flags = ['g'] then
    if pattern.all isLiteral then .subst pattern replacement else .other
  else
    match flags.dropWhile isPlainFlag with
    | [] => .other
    | c :: _ => if c == 'w' || c == '#' || c == ';' || c == '}' then .other else .refused

def parse : Text → Program
  | 's' :: '/' :: rest =>
      match splitDelim rest with
      | none => .refused
      | some (pattern, rest) =>
          match splitDelim rest with
          | none => .refused
          | some (replacement, flags) => parseFlags pattern replacement flags
  | _ => .other

def escapeText (w : Text) (c : Char) : Text :=
  if c = 'n' then ['\n']
  else if c = 't' then ['\t']
  else if c = 'r' then ['\r']
  else if c = '0' then w
  else if c.isDigit then []
  else [c]

/-- The text a replacement stands for where the pattern matched `w`. -/
def expand (w : Text) : Text → Text
  | [] => []
  | '&' :: cs => w ++ expand w cs
  | '\\' :: c :: cs => escapeText w c ++ expand w cs
  | c :: cs => c :: expand w cs

/-- `sed -i program file`. A refused program leaves the file alone; programs that
are not one literal substitution are given by `other`. -/
def sed (other : Text → Text → Text) (program file : Text) : Text :=
  match parse program with
  | .subst pattern replacement => editLines (replaceAll pattern (expand pattern replacement)) file
  | .refused => file
  | .other => other program file

/-! ## Values spliced into a program -/

/-- `s/w/v/g`, the value spliced in as it is. -/
def substProgram (w v : Text) : Text := 's' :: '/' :: (w ++ '/' :: (v ++ ['/', 'g']))

/-- No character of the value means anything to `sed`. -/
def Plain (v : Text) : Prop := ∀ c ∈ v, c ≠ '/' ∧ c ≠ '&' ∧ c ≠ '\\'

instance (v : Text) : Decidable (Plain v) :=
  decidable_of_iff (v.all fun c => c ≠ '/' ∧ c ≠ '&' ∧ c ≠ '\\') List.all_iff_forall_prop

theorem splitDelim_spec {t a b : Text} (h : splitDelim t = some (a, b)) : t = a ++ '/' :: b := by
  fun_induction splitDelim t generalizing a b with
  | case1 => cases h
  | case2 cs =>
      cases h
      rfl
  | case3 c cs ih =>
      obtain ⟨r, hr, he⟩ := Option.map_eq_some_iff.mp h
      cases he
      simpa using ih hr
  | case4 c cs _ _ ih =>
      obtain ⟨r, hr, he⟩ := Option.map_eq_some_iff.mp h
      cases he
      simpa using ih hr

theorem splitDelim_append {v : Text} (rest : Text) (h : ∀ c ∈ v, c ≠ '/' ∧ c ≠ '\\') :
    splitDelim (v ++ '/' :: rest) = some (v, rest) := by
  induction v with
  | nil => rfl
  | cons c cs ih =>
      obtain ⟨h1, h2⟩ := h c List.mem_cons_self
      have hcs := ih fun d hd => h d (List.mem_cons_of_mem c hd)
      rw [List.cons_append, splitDelim]
      · simp [hcs]
      · exact h1
      · intro d ds hc
        exact absurd hc h2

/-- A text taken up to its delimiter without a backslash has no slash. -/
theorem slash_not_mem_of_splitDelim {t a b : Text} (h : splitDelim t = some (a, b))
    (hb : '\\' ∉ a) : '/' ∉ a := by
  fun_induction splitDelim t generalizing a b with
  | case1 => cases h
  | case2 cs =>
      cases h
      simp
  | case3 c cs ih =>
      obtain ⟨r, hr, he⟩ := Option.map_eq_some_iff.mp h
      cases he
      exact absurd List.mem_cons_self hb
  | case4 c cs hc _ ih =>
      obtain ⟨r, hr, he⟩ := Option.map_eq_some_iff.mp h
      cases he
      have hrest := ih hr fun hm => hb (List.mem_cons_of_mem c hm)
      simp only [List.mem_cons, not_or]
      exact ⟨fun h => hc h.symm, hrest⟩

theorem parse_substProgram {w : Text} (v : Text) (hw : ∀ c ∈ w, c ≠ '/' ∧ c ≠ '\\') :
    parse (substProgram w v) =
      match splitDelim (v ++ ['/', 'g']) with
      | none => .refused
      | some (replacement, flags) => parseFlags w replacement flags := by
  simp only [substProgram, parse, splitDelim_append _ hw]

theorem parse_substProgram_plain {w v : Text} (hw : ∀ c ∈ w, c ≠ '/' ∧ c ≠ '\\')
    (hl : w.all isLiteral = true) (hv : Plain v) : parse (substProgram w v) = .subst w v := by
  have hd := splitDelim_append ['g'] fun c hc => ⟨(hv c hc).1, (hv c hc).2.2⟩
  rw [parse_substProgram v hw, hd]
  simp [parseFlags, hl]

/-- A program that is neither refused nor longer replaces by the value it was given. -/
theorem parse_substProgram_cases {w v : Text} (hw : ∀ c ∈ w, c ≠ '/' ∧ c ≠ '\\')
    (hl : w.all isLiteral = true) (ho : parse (substProgram w v) ≠ .other) :
    (parse (substProgram w v) = .refused ∧ ¬ Plain v) ∨
      (parse (substProgram w v) = .subst w v ∧ splitDelim (v ++ ['/', 'g']) = some (v, ['g'])) := by
  have hplain : parse (substProgram w v) = .refused → ¬ Plain v := by
    intro hr hp
    rw [parse_substProgram_plain hw hl hp] at hr
    cases hr
  have hp := parse_substProgram v hw
  cases hd : splitDelim (v ++ ['/', 'g']) with
  | none =>
      rw [hd] at hp
      exact .inl ⟨hp, hplain hp⟩
  | some parts =>
      obtain ⟨replacement, flags⟩ := parts
      simp only [hd] at hp
      by_cases hf : flags = ['g']
      · have hv : v = replacement := by
          have hs := splitDelim_spec hd
          rw [hf] at hs
          exact List.append_cancel_right hs
        subst hv
        simp only [parseFlags, hf, hl, if_true] at hp
        exact .inr ⟨hp, by rw [hf]⟩
      · have hr : parse (substProgram w v) = .refused := by
          rw [hp] at ho ⊢
          simp only [parseFlags, hf, if_false] at ho ⊢
          split at ho
          · exact absurd rfl ho
          · split at ho
            next hc => exact absurd rfl ho
            next hc => simp [hc]
        exact .inl ⟨hr, hplain hr⟩

/-! ## What an expanded replacement says about the value -/

theorem expand_of_plain (w : Text) {v : Text} (hv : Plain v) : expand w v = v := by
  induction v with
  | nil => rfl
  | cons c cs ih =>
      obtain ⟨_, h2, h3⟩ := hv c List.mem_cons_self
      have hcs := ih fun d hd => hv d (List.mem_cons_of_mem c hd)
      rw [expand]
      · rw [hcs]
      · exact h2
      · intro d ds hc
        exact absurd hc h3

private theorem count_escapeText {w : Text} (hw : '\\' ∉ w) (c : Char) :
    (escapeText w c).count '\\' ≤ [c].count '\\' := by
  have h0 : w.count '\\' = 0 := List.count_eq_zero_of_not_mem hw
  unfold escapeText
  split_ifs <;> simp_all

private theorem splitDelim_map_inj {c : Char} {cs rest : Text} {t : Text}
    (h : (splitDelim t).map (fun r => (c :: r.1, r.2)) = some (c :: cs, rest)) :
    splitDelim t = some (cs, rest) := by
  obtain ⟨r, hr, he⟩ := Option.map_eq_some_iff.mp h
  cases he
  exact hr

/-- Each backslash that the parser accepts is used up: a value with one has more
backslashes than what it expands to. -/
theorem count_expand {w v rest : Text} (hw : '\\' ∉ w)
    (hd : splitDelim (v ++ '/' :: rest) = some (v, rest)) :
    (expand w v).count '\\' ≤ v.count '\\' ∧
      ('\\' ∈ v → (expand w v).count '\\' < v.count '\\') := by
  have h0 : w.count '\\' = 0 := List.count_eq_zero_of_not_mem hw
  fun_induction expand w v with
  | case1 => simp
  | case2 cs ih =>
      have hcs := ih (splitDelim_map_inj hd)
      simpa [List.count_cons, h0] using hcs
  | case3 c cs ih =>
      have hc := count_escapeText hw c
      have hcs : splitDelim (cs ++ '/' :: rest) = some (cs, rest) := by
        obtain ⟨r, hr, he⟩ := Option.map_eq_some_iff.mp hd
        cases he
        exact hr
      have hle := (ih hcs).1
      simp only [List.count_append, List.count_cons, List.count_nil] at hc ⊢
      simp only [beq_self_eq_true, if_true]
      omega
  | case4 c cs hamp hesc ih =>
      by_cases hs : c = '/'
      · subst hs
        cases hd
      · have hb : c ≠ '\\' := by
          rintro rfl
          cases cs with
          | nil =>
              obtain ⟨r, hr, he⟩ := Option.map_eq_some_iff.mp hd
              cases he
          | cons d ds => exact hesc d ds rfl rfl
        rw [List.cons_append, splitDelim] at hd
        · have hcs := ih (splitDelim_map_inj hd)
          simpa [List.count_cons, hb, Ne.symm hb] using hcs
        · exact hs
        · intro d ds hc
          exact absurd hc hb

/-- Without a backslash, an `&` of the value gives way to the match. -/
theorem count_amp_expand {w v : Text} (hw : '&' ∉ w) (hb : '\\' ∉ v) :
    (expand w v).count '&' = 0 := by
  have h0 : w.count '&' = 0 := List.count_eq_zero_of_not_mem hw
  fun_induction expand w v with
  | case1 => rfl
  | case2 cs ih =>
      rw [List.count_append, h0, ih fun h => hb (List.mem_cons_of_mem _ h)]
  | case3 c cs ih => exact absurd List.mem_cons_self hb
  | case4 c cs hamp hesc ih =>
      rw [List.count_cons, ih fun h => hb (List.mem_cons_of_mem _ h)]
      simpa using hamp

/-- If an accepted value keeps its number of backslashes and of `&`, it is plain. -/
theorem plain_of_count_expand {w v : Text} (hw : '\\' ∉ w) (ha : '&' ∉ w)
    (hd : splitDelim (v ++ ['/', 'g']) = some (v, ['g']))
    (hb : (expand w v).count '\\' = v.count '\\') (hc : (expand w v).count '&' = v.count '&') :
    Plain v := by
  have hback : '\\' ∉ v := by
    intro hm
    have hlt := (count_expand hw hd).2 hm
    omega
  have hamp : '&' ∉ v := by
    rw [count_amp_expand ha hback] at hc
    exact List.count_eq_zero.mp hc.symm
  have hslash := slash_not_mem_of_splitDelim hd hback
  intro c hm
  exact ⟨fun h => hslash (h ▸ hm), fun h => hamp (h ▸ hm), fun h => hback (h ▸ hm)⟩

end Shell
