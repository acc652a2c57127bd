import ClauseLearning.Word

/-!
# The Luby sequence

`1, 1, 2, 1, 1, 2, 4, 1, …`: each block is the one before it, twice, followed by the next power of
two. A term is found by going up to the first block that reaches its position and down again to the
block that ends there, all within 64-bit words.
-/

namespace ClauseLearning.Restart

/-- Goes up from a block of the given size to the first that has at least `target` terms. -/
def enclosingBlock (target size exponent : Nat) : Option (Nat × Nat) :=
  if size < target then
    if 2 * size + 1 < Word.limit then enclosingBlock target (2 * size + 1) (exponent + 1)
    else none
  else some (size, exponent)
termination_by target - size

/-- Goes down from a block to the sub-block that ends at position `index` of it. There is none below
the block of exponent 0. -/
def blockEndingAt (index size exponent : Nat) : Option Nat :=
  if size = 0 then none
  else if size - 1 = index then some exponent
  else
    match exponent with
    | 0 => none
    | exponent + 1 =>
      if (size - 1) / 2 = 0 then none
      else blockEndingAt (index % ((size - 1) / 2)) ((size - 1) / 2) exponent

/-- The term at a position counted from 0, unless the way to it leaves the 64-bit words. -/
def luby? (index : Nat) : Option Nat := do
  if index + 1 < Word.limit then
    let (size, exponent) ← enclosingBlock (index + 1) 1 0
    let exponent ← blockEndingAt index size exponent
    if exponent < 64 then some (Nat.pow 2 exponent) else none
  else none

end ClauseLearning.Restart
