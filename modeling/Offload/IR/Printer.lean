import Offload.Fault
import Offload.IR.Program

/-!
# Printed programs

Each operation has a line with its results, name, operands, attributes and types, followed by its regions
in braces. Results are numbered `%0, %1, …` and block arguments `%arg0, %arg1, …` in the order in which
they are first seen. Operands and results whose types are not whole cannot be printed.
-/

namespace Offload

structure Naming where
  names : List (ValueId × String) := []
  results : Nat := 0
  args : Nat := 0

namespace Program

variable (p : Program)

abbrev Printing := StateT Naming (Except Fault)

def nameOf (v : ValueId) : Printing String := do
  let s ← get
  match s.names.lookup v with
  | some name => return name
  | none =>
    match (p.value v).source with
    | .argument _ _ =>
      let name := "%arg" ++ toString s.args
      set { s with names := (v, name) :: s.names, args := s.args + 1 }
      return name
    | .result _ _ =>
      let name := "%" ++ toString s.results
      set { s with names := (v, name) :: s.names, results := s.results + 1 }
      return name

def nameOfSlot : Slot → Printing String
  | none => return "<<null>>"
  | some v => p.nameOf v

def typeText (t : Ty) : Except Fault String :=
  if t.whole then .ok t.render else .error .crash

def typeTextOfSlot (s : Slot) : Except Fault String :=
  match p.slotType? s with
  | none => .ok "<<null>>"
  | some t => typeText t

def indent (level : Nat) : String := String.join (List.replicate level "  ")

def printHead (o : Op) : Printing String := do
  let results ← o.results.mapM p.nameOf
  let operands ← o.operands.mapM p.nameOfSlot
  let attrs := o.attrs.map fun (name, a) => name ++ " = " ++ a.render
  let operandTypes ← o.operands.mapM fun s => p.typeTextOfSlot s
  let resultTypes ← o.results.mapM fun r => typeText (p.typeOf r)
  return (if results.isEmpty then "" else ", ".intercalate results ++ " = ") ++
    o.name ++ "(" ++ ", ".intercalate operands ++ ")" ++
    (if attrs.isEmpty then "" else " \x7b" ++ ", ".intercalate attrs ++ "\x7d") ++
    " : (" ++ ", ".intercalate operandTypes ++ ") -> " ++
    match resultTypes with
    | [t] => t
    | ts => "(" ++ ", ".intercalate ts ++ ")"

def printLabel (index : Nat) (b : Block) : Printing String := do
  let args ← b.args.mapM fun a => return (← p.nameOf a) ++ ": " ++ (p.typeOf a).render
  return "^bb" ++ toString index ++ "(" ++ ", ".intercalate args ++ "):\n"

def printFrom : Nat → Nat → OpId → Printing String
  | 0, _, _ => return ""
  | fuel + 1, level, i => do
    let o := p.op i
    let head ← p.printHead o
    let regions ← o.regions.mapM fun blocks => do
      let texts ← blocks.zipIdx.mapM fun (b, index) => do
        let label ← p.printLabel index (p.block b)
        let ops ← (p.block b).ops.mapM (printFrom fuel (level + 1))
        return indent level ++ label ++ String.join ops
      return " \x7b\n" ++ String.join texts ++ indent level ++ "\x7d"
    return indent level ++ head ++ String.join regions ++ "\n"

def print (i : OpId) : Except Fault String :=
  ((p.printFrom (p.ops.size + 1) 0 i).run {}).map Prod.fst

end Program

end Offload
