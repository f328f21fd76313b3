import Offload.IR.Program
import Offload.Text.Numeral
import Offload.Text.Split

/-!
# Addresses

Texts that point at the parts of a program. An address starts with the name of an operation.

* `m/0.0.1` is the operation number 1 in block 0 of region 0 of `m`; more such steps can follow.
* `m^0.1` is block 1 of region 0 of `m`.
* `m#2` is result 2 of `m`.
* `m^0.1@2` is argument 2 of the block `m^0.1`.
-/

namespace Offload

inductive AddressError where
  | unreadable (text : String)
  | unknownName (name : String)
  | nothingAt (text : String)
  deriving DecidableEq, Repr

def AddressError.message : AddressError → String
  | unreadable text => text ++ " is not an address"
  | unknownName name => "there is no operation " ++ name
  | nothingAt text => "there is nothing at " ++ text

abbrev OpNames := List (String × OpId)

namespace Address

def place? (cs : List Char) : Option Nat :=
  match Text.parseInt cs with
  | .ok n => if 0 ≤ n then some n.toNat else none
  | .error _ => none

def places? (cs : List Char) : Option (List Nat) := (Text.split '.' cs).mapM place?

variable (p : Program) (names : OpNames)

def blockIn? (i : OpId) (region block : Nat) : Option BlockId :=
  (p.op i).regions[region]?.bind fun blocks => blocks[block]?

def descend (text : String) (i : OpId) : List (List Char) → Except AddressError OpId
  | [] => .ok i
  | step :: rest =>
    match places? step with
    | some [region, block, place] =>
      match (blockIn? p i region block).bind fun b => (p.block b).ops[place]? with
      | some j => descend text j rest
      | none => .error (.nothingAt text)
    | _ => .error (.unreadable text)

def op (text : String) : Except AddressError OpId :=
  match Text.split '/' text.toList with
  | [] => .error (.unreadable text)
  | name :: steps =>
    match names.lookup (String.ofList name) with
    | some i => descend p text i steps
    | none => .error (.unknownName (String.ofList name))

def block (text : String) : Except AddressError BlockId := do
  match Text.split '^' text.toList with
  | [front, back] =>
    let i ← op p names (String.ofList front)
    match places? back with
    | some [region, place] =>
      match blockIn? p i region place with
      | some b => return b
      | none => throw (.nothingAt text)
    | _ => throw (.unreadable text)
  | _ => throw (.unreadable text)

def pick (text : String) (values : List ValueId) (place : List Char) : Except AddressError ValueId :=
  match place? place with
  | none => .error (.unreadable text)
  | some n =>
    match values[n]? with
    | some v => .ok v
    | none => .error (.nothingAt text)

def value (text : String) : Except AddressError ValueId := do
  match Text.split '#' text.toList, Text.split '@' text.toList with
  | [front, place], _ =>
    let i ← op p names (String.ofList front)
    pick text (p.op i).results place
  | _, [front, place] =>
    let b ← block p names (String.ofList front)
    pick text (p.block b).args place
  | _, _ => throw (.unreadable text)

end Address

end Offload
