/-!
# 64-bit words

Numbers that are kept in 64-bit words, counted without signs.
-/

namespace ClauseLearning.Word

/-- Words stay below this bound. -/
def limit : Nat := 0x10000000000000000

/-- The word nearest to a number. -/
def saturate (n : Nat) : Nat := min n (limit - 1)

theorem saturate_lt (n : Nat) : saturate n < limit := by
  unfold saturate limit
  omega

theorem saturate_of_lt {n : Nat} (h : n < limit) : saturate n = n := by
  unfold saturate
  omega

end ClauseLearning.Word
