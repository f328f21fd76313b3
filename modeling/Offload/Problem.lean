import Offload.Command.Reports
import Offload.Execution.Run
import Offload.FileTree
import Offload.IR.Address

/-!
# Problems

One view of everything that can go wrong: the kind of a problem, for those who react to it, and its text,
for those who read it.
-/

namespace Offload

open Rewrite

inductive ProblemKind where
  | crash
  | fault
  | tooLarge
  | notConverted
  | notConverged
  | unsupported
  | other
  deriving DecidableEq, Repr

structure Problem where
  kind : ProblemKind
  message : String
  deriving DecidableEq, Repr

class Problematic (ε : Type) where
  problem : ε → Problem

export Problematic (problem)

def Rewrite.ConversionError.kind : ConversionError → ProblemKind
  | .fault _ .crash => .crash
  | _ => .notConverted

def Rewrite.GreedyError.kind : GreedyError → ProblemKind
  | .notConverged _ => .notConverged
  | .pattern _ _ _ => .other

def Distribution.DistributionError.kind : Distribution.DistributionError → ProblemKind
  | .conversion cause => cause.kind
  | .notTensors _ _ => .other

def PassError.kind : PassError → ProblemKind
  | .distribution cause => cause.kind
  | .greedy cause => cause.kind
  | .conversion cause => cause.kind

def Pass.RunError.kind : Pass.RunError → ProblemKind
  | .failed _ (.error cause) => cause.kind
  | .failed _ (.fault .crash) => .crash
  | _ => .other

def Execution.CallError.kind (e : Execution.CallError) : ProblemKind :=
  if e.isCrash then .crash else if e.isUnsupported then .unsupported else .other

instance : Problematic Fault := ⟨fun e => ⟨if e.isCrash then .crash else .fault, e.message⟩⟩
instance : Problematic ElementType.Unknown := ⟨fun e => ⟨.other, e.message⟩⟩
instance : Problematic ShapeFault := ⟨fun e => ⟨.fault, e.message⟩⟩
instance : Problematic Affine.Fault := ⟨fun e => ⟨.fault, e.message⟩⟩
instance : Problematic Affine.EvalError := ⟨fun e => ⟨.other, e.message⟩⟩
instance : Problematic AddressError := ⟨fun e => ⟨.other, e.message⟩⟩
instance : Problematic VerifyError := ⟨fun e => ⟨if e = .crash then .crash else .other, e.message⟩⟩
instance : Problematic Device.KernelError := ⟨fun e => ⟨match e with
  | .tooLarge _ => .tooLarge
  | _ => .other, e.message⟩⟩
instance : Problematic Device.BufferTooLarge := ⟨fun e => ⟨.tooLarge, e.message⟩⟩
instance : Problematic Device.LimitError := ⟨fun e => ⟨.other, e.message⟩⟩
instance : Problematic Distribution.CandidateError := ⟨fun e => ⟨.other, e.message⟩⟩
instance : Problematic Distribution.DistributionError := ⟨fun e => ⟨e.kind, e.message⟩⟩
instance : Problematic ConversionError := ⟨fun e => ⟨e.kind, e.message⟩⟩
instance : Problematic GreedyError := ⟨fun e => ⟨e.kind, e.message⟩⟩
instance : Problematic StillUsed := ⟨fun e => ⟨.notConverted, e.message⟩⟩
instance : Problematic Pass.OptionReadError := ⟨fun e => ⟨.other, e.message⟩⟩
instance : Problematic Pass.CreateError := ⟨fun e => ⟨.other, e.message⟩⟩
instance : Problematic Pass.AddError := ⟨fun e => ⟨.other, e.message⟩⟩
instance : Problematic (String × Pass.RunError) := ⟨fun (runId, e) => ⟨e.kind, e.message runId⟩⟩
instance : Problematic Execution.RunError := ⟨fun e => ⟨.other, e.message⟩⟩
instance : Problematic Execution.CallError := ⟨fun e => ⟨e.kind, e.message⟩⟩
instance : Problematic TransferError := ⟨fun e => ⟨.other, e.message⟩⟩
instance {ε : Type} [Problematic ε] : Problematic (Stop ε) := ⟨fun
  | .error cause => problem cause
  | .fault cause => problem cause⟩
instance : Problematic Text.UnknownUser := ⟨fun e => ⟨.other, e.message⟩⟩
instance : Problematic WriteError := ⟨fun e => ⟨.other, e.message⟩⟩
instance : Problematic Command.Difference := ⟨fun e => ⟨.other, e.message⟩⟩

end Offload
