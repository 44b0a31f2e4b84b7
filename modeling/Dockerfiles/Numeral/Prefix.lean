import Mathlib.Tactic.Common
import Mathlib.Data.List.Basic

/-! # Leading bits

A word is compared with another under a mask of leading ones exactly to compare
their leading bits.
-/

namespace Numeral

variable {w : Nat}

/-- The bits of a word, highest first. -/
def msbs (x : BitVec w) : List Bool := (List.range w).map x.getMsbD

end Numeral
