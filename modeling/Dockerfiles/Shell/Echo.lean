import Dockerfiles.Shell.Text

/-! # The builtin `echo` of bash

`echo` takes leading arguments made of `-` and letters of `neE` as options,
writes the others with one space between each two, and ends with a newline.
Under `-e` it replaces backslash escapes, and `\c` ends all output.
-/

namespace Shell

/-! ## Options -/

def isEchoOption : Text → Bool
  | '-' :: c :: cs => (c :: cs).all fun x => x == 'n' || x == 'e' || x == 'E'
  | _ => false

/-- Whether the final newline is written, and whether escapes are replaced. -/
structure EchoMode where
  newline : Bool
  escapes : Bool

def EchoMode.letter (m : EchoMode) (c : Char) : EchoMode :=
  if c = 'n' then { m with newline := false }
  else if c = 'e' then { m with escapes := true }
  else { m with escapes := false }

/-- The mode after the leading options, and the arguments to write. -/
def echoArguments (m : EchoMode) : List Text → EchoMode × List Text
  | [] => (m, [])
  | w :: ws =>
      if isEchoOption w then echoArguments (w.tail.foldl EchoMode.letter m) ws else (m, w :: ws)

/-! ## Escapes -/

def octalDigit? (c : Char) : Option Nat :=
  if '0' ≤ c ∧ c ≤ '7' then some (c.toNat - '0'.toNat) else none

def hexDigit? (c : Char) : Option Nat :=
  if '0' ≤ c ∧ c ≤ '9' then some (c.toNat - '0'.toNat)
  else if 'a' ≤ c ∧ c ≤ 'f' then some (c.toNat - 'a'.toNat + 10)
  else if 'A' ≤ c ∧ c ≤ 'F' then some (c.toNat - 'A'.toNat + 10)
  else none

/-- The value of at most `limit` leading digits, and their number. -/
def numeral (digit? : Char → Option Nat) (base : Nat) : Nat → Nat → Text → Nat × Nat
  | 0, acc, _ => (acc, 0)
  | _ + 1, acc, [] => (acc, 0)
  | limit + 1, acc, c :: cs =>
      match digit? c with
      | none => (acc, 0)
      | some d =>
          let rest := numeral digit? base limit (acc * base + d) cs
          (rest.1, rest.2 + 1)

def simpleEscape? (c : Char) : Option Char :=
  match c with
  | 'a' => some (Char.ofNat 7)
  | 'b' => some (Char.ofNat 8)
  | 'e' | 'E' => some (Char.ofNat 27)
  | 'f' => some (Char.ofNat 12)
  | 'n' => some '\n'
  | 'r' => some '\r'
  | 't' => some '\t'
  | 'v' => some (Char.ofNat 11)
  | '\\' => some '\\'
  | _ => none

/-- The character of a numeric escape after `letter`, and the number of its digits. -/
def numericEscape? (letter : Char) (cs : Text) : Option (Char × Nat) :=
  let read (digit? : Char → Option Nat) (base limit : Nat) : Option (Char × Nat) :=
    let (value, count) := numeral digit? base limit 0 cs
    if count = 0 ∧ letter ≠ '0' then none else some (Char.ofNat value, count)
  match letter with
  | '0' => read octalDigit? 8 3
  | 'x' => read hexDigit? 16 2
  | 'u' => read hexDigit? 16 4
  | 'U' => read hexDigit? 16 8
  | _ => none

/-- One argument under `-e`: its output, and whether a `\c` ended it. The first
argument counts the characters still covered by the escape just replaced. -/
def unescape : Nat → Text → Text × Bool
  | _, [] => ([], false)
  | skip + 1, _ :: cs => unescape skip cs
  | 0, '\\' :: 'c' :: _ => ([], true)
  | 0, '\\' :: c :: cs =>
      match simpleEscape? c, numericEscape? c cs with
      | some x, _ => let rest := unescape 1 (c :: cs); (x :: rest.1, rest.2)
      | none, some (x, digits) =>
          let rest := unescape (digits + 1) (c :: cs); (x :: rest.1, rest.2)
      | none, none => let rest := unescape 0 (c :: cs); ('\\' :: rest.1, rest.2)
  | 0, c :: cs => let rest := unescape 0 cs; (c :: rest.1, rest.2)

def unescapeWords : List Text → Text × Bool
  | [] => ([], false)
  | [w] => unescape 0 w
  | w :: ws =>
      match unescape 0 w with
      | (out, true) => (out, true)
      | (out, false) => let rest := unescapeWords ws; (out ++ ' ' :: rest.1, rest.2)

/-! ## The command -/

def echo (args : List Text) : Text :=
  let (mode, ws) := echoArguments ⟨true, false⟩ args
  let (out, ended) := if mode.escapes then unescapeWords ws else (unwords ws, false)
  if mode.newline && !ended then out ++ ['\n'] else out

/-- Without a leading option, `echo` writes its arguments as they are. -/
theorem echo_of_head_plain {w : Text} (ws : List Text) (h : isEchoOption w = false) :
    echo (w :: ws) = unwords (w :: ws) ++ ['\n'] := by
  simp [echo, echoArguments, h]

theorem length_unescape_le (t : Text) (skip : Nat) : (unescape skip t).1.length ≤ t.length - skip := by
  fun_induction unescape skip t with
  | case1 => simp
  | case2 skip c cs ih =>
      simp only [List.length_cons]
      omega
  | case3 => simp
  | case4 c cs _ x _ rest ih =>
      simp only [rest, List.length_cons] at ih ⊢
      omega
  | case5 c cs _ x digits _ _ rest ih =>
      simp only [rest, List.length_cons] at ih ⊢
      omega
  | case6 c cs _ _ _ rest ih =>
      simp only [rest, List.length_cons] at ih ⊢
      omega
  | case7 c cs _ _ rest ih =>
      simp only [rest, List.length_cons] at ih ⊢
      omega

theorem length_unescapeWords_le (ws : List Text) :
    (unescapeWords ws).1.length ≤ (unwords ws).length := by
  fun_induction unescapeWords ws with
  | case1 => simp
  | case2 w => simpa [unwords] using length_unescape_le w 0
  | case3 w ws hne out he =>
      obtain ⟨w', ws', rfl⟩ := List.exists_cons_of_ne_nil hne
      have hw := length_unescape_le w 0
      simp only [he, unwords, List.intercalate_cons_cons, List.length_append] at hw ⊢
      omega
  | case4 w ws hne out he rest ih =>
      obtain ⟨w', ws', rfl⟩ := List.exists_cons_of_ne_nil hne
      have hw := length_unescape_le w 0
      simp only [rest, he, unwords, List.intercalate_cons_cons, List.length_append,
        List.length_cons, List.length_nil] at hw ih ⊢
      omega

theorem weight_echoArguments_le (m : EchoMode) (ws : List Text) :
    weight (echoArguments m ws).2 ≤ weight ws := by
  fun_induction echoArguments m ws with
  | case1 => exact Nat.le_refl _
  | case2 m w ws _ ih =>
      simp only [weight, List.map_cons, List.sum_cons] at ih ⊢
      omega
  | case3 => exact Nat.le_refl _

/-- The line a reader gets is never longer than the arguments written. -/
theorem length_firstLine_echo_le (args : List Text) :
    (firstLine (echo args)).length ≤ (unwords (echoArguments ⟨true, false⟩ args).2).length := by
  have hout : ∀ (out : Text) (newline : Bool),
      (firstLine (if newline then out ++ ['\n'] else out)).length ≤ out.length := by
    intro out newline
    cases newline with
    | false => exact length_firstLine_le out
    | true =>
        simp only [if_true, firstLine_append_final_newline]
        exact length_firstLine_le out
  unfold echo
  generalize echoArguments ⟨true, false⟩ args = parsed
  obtain ⟨mode, ws⟩ := parsed
  dsimp only
  cases mode.escapes with
  | true => exact Nat.le_trans (hout _ _) (length_unescapeWords_le ws)
  | false => exact hout _ _

example : echo ["-e".toList, "host\\tall\\x41".toList] = "host\tallA\n".toList := by decide

example : echo ["-n".toList, "a".toList] = "a".toList := by decide

end Shell
