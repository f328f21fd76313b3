import Offload.Distribution.Lowering
import Offload.Pass.Options
import Offload.Qubits.Lowering
import Offload.Qubits.PhaseGates

/-!
# Passes

The passes that a pipeline can name, each with its configuration.
-/

namespace Offload

open Rewrite (Stats ConversionError GreedyError)

inductive Pass where
  | distribute (sel : Distribution.Selector)
  | dropPhaseGates (maxSweeps : Int)
  | lowerQubits
  deriving Inhabited

inductive PassError where
  | distribution (cause : Distribution.DistributionError)
  | greedy (cause : GreedyError)
  | conversion (cause : ConversionError)

def PassError.message : PassError → String
  | distribution cause => cause.message
  | greedy cause => cause.message
  | conversion cause => cause.message

namespace Pass

def name : Pass → String
  | distribute _ => Distribution.passName
  | dropPhaseGates _ => Qubits.phaseGatesName
  | lowerQubits => Qubits.loweringName

def run (r : Registry) (root : OpId) : Pass → Edit (Stats × Option PassError)
  | distribute sel => do
    let (stats, error) ← Distribution.distribute sel root
    return (stats, error.map .distribution)
  | dropPhaseGates n => do
    let (stats, error) ← Qubits.dropPhaseGates r n root
    return (stats, error.map .greedy)
  | lowerQubits => do
    let lowered ← Qubits.lower root
    return (lowered.stats, lowered.error.map .conversion)

def defaults : List Pass :=
  [distribute { candidates := [Distribution.defaultCandidate] }, dropPhaseGates 0, lowerQubits]

/-! ## By name and options -/

def registered : List String := [Qubits.loweringName, Distribution.passName, Qubits.phaseGatesName]

inductive ConfigureError where
  | candidates (cause : Distribution.CandidateError)
  | limit (cause : Device.LimitError)
  | option (cause : OptionReadError)

inductive CreateError where
  | unknown (name : String)
  | configuring (name : String) (cause : ConfigureError)

def ConfigureError.message : ConfigureError → String
  | candidates cause => cause.message
  | limit cause => cause.message
  | option cause => cause.message

def CreateError.message : CreateError → String
  | unknown name =>
    "unknown pass " ++ Text.quote name ++ ", registered passes are [" ++ " ".intercalate registered ++
      "] -- maybe the package implementing it was not imported?"
  | configuring name cause => "configuring pass " ++ Text.quote name ++ ": " ++ cause.message

def selectorOf (options : Options) : Except ConfigureError Distribution.Selector := do
  let default := renderDims Distribution.defaultCandidate
  let candidates ←
    (Distribution.parseCandidates (options.string "workgroup" default)).mapError .candidates
  match options.string "max-buffer" "" with
  | "" => return { candidates }
  | text => return { candidates, memoryLimit := ← (Device.parseLimit text).mapError .limit }

def configure? (options : Options) (name : String) : Option (Except ConfigureError Pass) :=
  if name = Distribution.passName then some do return .distribute (← selectorOf options)
  else if name = Qubits.phaseGatesName then
    some do
      let n ← (options.int "max-iterations" Rewrite.defaultSweeps).mapError .option
      return .dropPhaseGates n
  else if name = Qubits.loweringName then some (.ok .lowerQubits)
  else none

def create (name : String) (options : Options) : Except CreateError Pass :=
  match configure? options name with
  | none => .error (.unknown name)
  | some pass => pass.mapError (.configuring name)

end Pass

end Offload
