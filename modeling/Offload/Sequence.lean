import Offload.Capacity

/-!
# Sequences and sets of names
-/

namespace Offload

namespace Sequence

def at? {α : Type} (xs : List α) (index : Int) : Option α :=
  let i := if index < 0 then Word.add xs.length index else index
  if i < 0 then none else xs[i.toNat]?

def last? {α : Type} (xs : List α) : Option α := at? xs (-1)

def isRun : List Int → Bool
  | [] => false
  | [_] => true
  | x :: y :: rest => y = Word.add x 1 && isRun (y :: rest)

def iota (bits : Nat) (start length : Int) : Except Fault (List Int) :=
  (checkLength length).map fun n => (List.range n).map fun (i : Nat) => (start + i).bmod (Nat.pow 2 bits)

def productFloat (xs : List Float) : Float := xs.foldl (· * ·) 1

end Sequence

structure NameSet where
  names : List String := []
  deriving DecidableEq, Repr, Inhabited

namespace NameSet

def contains (s : NameSet) (name : String) : Bool := s.names.contains name

def place (name : String) : List String → List String
  | [] => [name]
  | n :: rest =>
    if name < n then name :: n :: rest else if name = n then n :: rest else n :: place name rest

def insert (s : NameSet) (name : String) : NameSet := ⟨place name s.names⟩

def insertAll (s : NameSet) (names : List String) : NameSet := names.foldl insert s

def remove (s : NameSet) (name : String) : NameSet := ⟨s.names.filter (· ≠ name)⟩

def removeAll (s : NameSet) (names : List String) : NameSet := names.foldl remove s

def ofList (names : List String) : NameSet := ({} : NameSet).insertAll names

end NameSet

end Offload
