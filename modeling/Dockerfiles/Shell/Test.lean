import Dockerfiles.Shell.Text
import Mathlib.Algebra.Group.Int.Defs

/-! # The builtin `[` of bash

With at most four arguments the number of arguments decides how they are read;
with more, an expression of `!`, parentheses, `-a` and `-o` is parsed from left
to right. `none` is an error, which ends `[` with status 2 and an `if` takes for
false. What is asked of the system is given by `Primaries`.
-/

namespace Shell

/-! ## Operators -/

structure Primaries where
  /-- The unary operators on files, variables and options, by their letter. -/
  unary : Char → Text → Bool
  terminal : Int → Bool
  newer : Text → Text → Bool
  older : Text → Text → Bool
  sameFile : Text → Text → Bool

def isUnary (c : Char) : Bool := c ∈ "abcdefghknoprstuvwxzGLNORS".toList

inductive BinOp where
  | same | differ | before | after
  | eq | ne | lt | le | gt | ge
  | newer | older | sameFile

def binOp (op : Text) : Option BinOp :=
  [("=".toList, .same), ("==".toList, .same), ("!=".toList, .differ), ("<".toList, .before),
    (">".toList, .after), ("-eq".toList, .eq), ("-ne".toList, .ne), ("-lt".toList, .lt),
    ("-le".toList, .le), ("-gt".toList, .gt), ("-ge".toList, .ge), ("-nt".toList, .newer),
    ("-ot".toList, .older), ("-ef".toList, .sameFile)].lookup op

def digits (t : Text) : Option Int :=
  if !t.isEmpty && t.all Char.isDigit then
    some (t.foldl (fun n c => 10 * n + (c.toNat - '0'.toNat : Nat)) 0)
  else none

/-- A decimal number that fits the machine's `intmax_t`. -/
def legalNumber (t : Text) : Option Int :=
  let number :=
    match t with
    | '-' :: ds => (digits ds).map Int.neg
    | '+' :: ds => digits ds
    | ds => digits ds
  number.filter fun n => decide (-2 ^ 63 ≤ n ∧ n < 2 ^ 63)

def arithmetic (test : Int → Int → Bool) (a b : Text) : Option Bool :=
  (legalNumber a).bind fun m => (legalNumber b).map (test m)

def binaryTest (p : Primaries) (op : BinOp) (a b : Text) : Option Bool :=
  match op with
  | .same => some (a == b)
  | .differ => some (a != b)
  | .before => some (decide (a < b))
  | .after => some (decide (b < a))
  | .eq => arithmetic (fun m n => decide (m = n)) a b
  | .ne => arithmetic (fun m n => decide (m ≠ n)) a b
  | .lt => arithmetic (fun m n => decide (m < n)) a b
  | .le => arithmetic (fun m n => decide (m ≤ n)) a b
  | .gt => arithmetic (fun m n => decide (n < m)) a b
  | .ge => arithmetic (fun m n => decide (n ≤ m)) a b
  | .newer => some (p.newer a b)
  | .older => some (p.older a b)
  | .sameFile => some (p.sameFile a b)

def unaryTest (p : Primaries) (c : Char) (w : Text) : Bool :=
  if c = 'n' then !w.isEmpty else if c = 'z' then w.isEmpty else p.unary c w

/-- A unary operator with its operand, and what it leaves of the arguments; `-t` takes
a number only. -/
def unaryOperator (p : Primaries) (c : Char) (w : Text) (rest : List Text) : Bool × List Text :=
  if c = 't' then
    match legalNumber w with
    | some n => (p.terminal n, rest)
    | none => (false, w :: rest)
  else (unaryTest p c w, rest)

/-! ## Expressions -/

/-- A word with a dash is an operator where an operand follows and the letter is that of
one, and else a text like any other. -/
def primary (p : Primaries) (t : Text) (rest : List Text) : Bool × List Text :=
  match t, rest with
  | ['-', c], w :: rest' =>
      if isUnary c then unaryOperator p c w rest' else (true, rest)
  | _, _ => (!t.isEmpty, rest)

def term (p : Primaries) (expr : List Text → Option (Bool × List Text)) :
    List Text → Option (Bool × List Text)
  | [] => none
  | t :: rest =>
      if t = ['!'] then (term p expr rest).map fun r => (!r.1, r.2)
      else if t = ['('] then
        match expr rest with
        | some (value, [')'] :: rest') => some (value, rest')
        | _ => none
      else
        match rest with
        | op :: b :: rest' =>
            match binOp op with
            | some o => (binaryTest p o t b).map fun value => (value, rest')
            | none => some (primary p t rest)
        | _ => some (primary p t rest)

/-- Operands joined by one operator. -/
def chain (op : Text) (join : Bool → Bool → Bool)
    (operand : List Text → Option (Bool × List Text)) :
    Nat → List Text → Option (Bool × List Text)
  | 0, _ => none
  | fuel + 1, args =>
      match operand args with
      | some (value, next :: rest) =>
          if next = op then
            (chain op join operand fuel rest).map fun r => (join value r.1, r.2)
          else some (value, next :: rest)
      | result => result

/-- Every parenthesis and every operator uses up an argument, so the number of
arguments is fuel enough. -/
def expr (p : Primaries) : Nat → List Text → Option (Bool × List Text)
  | 0, _ => none
  | fuel + 1, args =>
      let conjunction := fun args => chain "-a".toList and (term p (expr p fuel)) (args.length + 1) args
      chain "-o".toList or conjunction (args.length + 1) args

end Shell
