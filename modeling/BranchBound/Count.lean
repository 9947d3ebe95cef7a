/-!
# Counts

Counts and indices that come from outside are 64-bit words.
-/

namespace BranchBound

/-- Counts and indices lie below `2^64`. -/
def countLimit : Nat := 18446744073709551616

end BranchBound
