import Offload.Dialect.Handle
import Offload.Qubits.Allocation
import Offload.Rewrite.Conversion

/-!
# Registers to handles

Every register is replaced by the handles of its qubits. An allocation map keeps the handles of each value
while the program is converted: a gate leaves the handles as they are, splitting and merging cuts and joins
their lists, and a measured bit is the handle of its outcome.
-/

namespace Offload.Qubits

open Rewrite (Rewriting Pattern Outcome PatternError Stats Target ConversionError)

def loweringName : String := "convert-quantum-to-qir"

abbrev QubitMap := AllocationMap ValueId ValueId

abbrev Lowering := Rewriting QubitMap

namespace Lowering

def operand (i : OpId) (index : Nat) : Lowering Slot := do
  match ((← Rewriting.program).op i).operands[index]? with
  | some v => return v
  | none => throw .crash

def result (i : OpId) (index : Nat) : Lowering ValueId := do
  match ((← Rewriting.program).op i).results[index]? with
  | some v => return v
  | none => throw .crash

def allocate (v : ValueId) (handles : List ValueId) : Lowering Unit :=
  modify fun s => { s with extra := s.extra.allocate v handles }

def handles (v : Slot) : Lowering (List ValueId) := do
  match v with
  | none => throw (.unallocated "<nil>")
  | some v =>
    let t := (← Rewriting.program).typeOf v
    Rewriting.fail ((← get).extra.find (fun _ => t.render) v)

def singleHandle (role : String) (v : Slot) : Lowering (Except PatternError ValueId) := do
  match ← handles v with
  | [h] => return .ok h
  | hs => return .error (.registerSize role hs.length)

end Lowering

open Lowering

def lowerAlloc (i : OpId) : Lowering Outcome := do
  let r ← result i 0
  let n ← Rewriting.fail (checkLength ((← Rewriting.program).typeOf r).qubits)
  let hs ← (List.replicate n ()).mapM fun _ => Rewriting.build Handle.alloc
  allocate r hs
  Rewriting.eraseOp i
  return .applied

def lowerDealloc (i : OpId) : Lowering Outcome := do
  (← handles (← operand i 0)).forM fun h => discard (Rewriting.build (Handle.release (some h)))
  Rewriting.eraseOp i
  return .applied

def cutHandles (hs : List ValueId) : Int → List ValueId → Lowering (Option PatternError)
  | _, [] => return none
  | offset, r :: rest => do
    let size := ((← Rewriting.program).typeOf r).qubits
    let stop := Word.add offset size
    if (hs.length : Int) < stop then return some (.splitSize stop hs.length)
    if stop < offset then throw .crash
    allocate r ((hs.drop offset.toNat).take size.toNat)
    cutHandles hs stop rest

def lowerSplit (i : OpId) : Lowering Outcome := do
  let hs ← handles (← operand i 0)
  match ← cutHandles hs 0 ((← Rewriting.program).op i).results with
  | some e => return .failed e
  | none =>
    Rewriting.eraseOp i
    return .applied

def lowerMerge (i : OpId) : Lowering Outcome := do
  let hs ← ((← Rewriting.program).op i).operands.mapM handles
  allocate (← result i 0) hs.flatten
  Rewriting.eraseOp i
  return .applied

def lowerGate (gate : String) (i : OpId) : Lowering Outcome := do
  let hs ← handles (← operand i 0)
  hs.forM fun h => do
    let attrs := ((← Rewriting.program).op i).attrs
    discard (Rewriting.build (Handle.applyGate gate (some h) attrs))
  allocate (← result i 0) hs
  Rewriting.eraseOp i
  return .applied

def lowerCnot (i : OpId) : Lowering Outcome := do
  match ← singleHandle "control" (← operand i 0) with
  | .error e => return .failed e
  | .ok control =>
    match ← singleHandle "target" (← operand i 1) with
    | .error e => return .failed e
    | .ok target =>
      discard (Rewriting.build (Handle.cnot (some control) (some target)))
      allocate (← result i 0) [control]
      allocate (← result i 1) [target]
      Rewriting.eraseOp i
      return .applied

/-- The bit is read from a new outcome, and the qubit keeps its handle. -/
def lowerMeasure (i : OpId) : Lowering Outcome := do
  match ← singleHandle "" (← operand i 0) with
  | .error e => return .failed e
  | .ok h =>
    let outcome ← Rewriting.build Handle.allocOutcome
    discard (Rewriting.build (Handle.measure (some h) (some outcome)))
    let bit ← Rewriting.build (Handle.read (some outcome))
    allocate (← result i 0) [outcome]
    allocate (← result i 1) [h]
    Rewriting.replaceAllUses (some (← result i 0)) (some bit)
    Rewriting.eraseOp i
    return .applied

def patterns : List (Pattern QubitMap) :=
  [⟨Register.allocName, lowerAlloc⟩, ⟨Register.deallocName, lowerDealloc⟩,
    ⟨Register.splitName, lowerSplit⟩, ⟨Register.mergeName, lowerMerge⟩,
    ⟨Register.cnotName, lowerCnot⟩, ⟨Register.measureName, lowerMeasure⟩] ++
  Register.gates.map fun g => ⟨Register.gateName g, lowerGate g⟩

def target : Target :=
  { illegalDialects := .ofList [Register.dialect]
    legalDialects := .ofList [Handle.dialect]
    unknownLegal := true }

structure Lowered where
  stats : Stats
  qubits : QubitMap
  error : Option ConversionError

/-- Replaces everything on registers inside `root`. A fault ends the conversion and becomes its error; what
was changed before stays changed. Every rewrite takes away an operation on registers and adds none, so
there are no more rewrites than operations. -/
def lower (root : OpId) : Edit Lowered := fun p =>
  match Rewrite.start true {} (Rewrite.convert .partly root target patterns p.ops.size) p with
  | .ok (stats, error) s => .ok ⟨stats, s.extra, error⟩ s.work.program
  | .error e s => .ok ⟨{}, s.extra, some (.fault loweringName e)⟩ s.work.program

end Offload.Qubits
