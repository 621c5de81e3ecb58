/-
# Widths of numbers

A number that is exchanged with another program has a width in bits, which says how large it may
be.
-/

namespace SpecExplorer

namespace Width

/-- How many numbers there are of some bits. -/
def count (bits : Nat) : Nat := 1 <<< bits

/-- The largest number of some bits. -/
def largest (bits : Nat) : Nat := count bits - 1

example : largest 32 = 4294967295 := by decide +kernel

end Width

end SpecExplorer
