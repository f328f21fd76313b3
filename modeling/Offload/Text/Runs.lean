/-!
# Runs of characters

A large class of characters is given by the lengths of its runs: as many characters as are not in it, as many as
are, and so on from the first character on.
-/

namespace Offload.Text

def inRuns : List Nat → Nat → Bool
  | outside :: inside :: rest, n =>
    if n < outside then false
    else if n < outside + inside then true
    else inRuns rest (n - (outside + inside))
  | _, _ => false

end Offload.Text
