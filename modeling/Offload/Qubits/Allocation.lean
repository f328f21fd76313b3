import Offload.Fault

/-!
# Allocation of physical resources

A logical resource owns a list of physical resources. Allocating adds to the end of that list and takes
nothing away; the logical resources stay in the order of their first allocation.
-/

namespace Offload

structure AllocationMap (L P : Type) where
  entries : List (L × List P) := []
  deriving Inhabited

namespace AllocationMap

variable {L P : Type} [DecidableEq L]

def find? (m : AllocationMap L P) (logical : L) : Option (List P) := m.entries.lookup logical

def contains (m : AllocationMap L P) (logical : L) : Bool := (m.find? logical).isSome

def size (m : AllocationMap L P) : Nat := m.entries.length

def add (logical : L) (physical : List P) : List (L × List P) → List (L × List P)
  | [] => [(logical, physical)]
  | (l, ps) :: rest =>
    if l = logical then (l, ps ++ physical) :: rest else (l, ps) :: add logical physical rest

def allocate (m : AllocationMap L P) (logical : L) (physical : List P) : AllocationMap L P :=
  ⟨add logical physical m.entries⟩

def find (m : AllocationMap L P) (describe : L → String) (logical : L) : Except Fault (List P) :=
  match m.find? logical with
  | some physical => .ok physical
  | none => .error (.unallocated (describe logical))

end AllocationMap

def notAllocated (description : String) : String :=
  "no physical resources for " ++ description ++ ": logical resource not allocated"

end Offload
