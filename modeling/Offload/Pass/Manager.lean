import Offload.IR.Verify
import Offload.Pass.Pipeline
import Offload.Pass.Registered

/-!
# Running passes

A manager collects passes and runs them one after the other. The program is checked before the first pass
and after each one, and the first failure ends the run; what was changed until then stays changed.
-/

namespace Offload.Pass

open Rewrite (Stats)

structure Manager where
  runId : String := "00000000-0000-0000-0000-000000000000"
  params : Params := { separator := Options.rootScope }
  passes : List Pass := []
  verifyEach : Bool := true
  deriving Inhabited

structure Report where
  pass : String
  stats : Stats
  before : Nat
  after : Nat
  /-- The time that the pass took. Runs are not timed. -/
  duration : String := "0s"
  deriving Repr, Inhabited

inductive Failure where
  | error (cause : PassError)
  | fault (cause : Fault)

inductive RunError where
  | invalidInput (cause : VerifyError)
  | failed (pass : String) (cause : Failure)
  | invalidOutput (pass : String) (cause : VerifyError)

def Failure.message : Failure → String
  | error cause => cause.message
  | fault cause => "panic: " ++ cause.message

def RunError.message (runId : String) (e : RunError) : String :=
  "run " ++ runId ++ ": " ++
    match e with
    | invalidInput cause => "invalid input module: " ++ cause.message
    | failed pass cause => "pass " ++ Text.quote pass ++ " failed: " ++ cause.message
    | invalidOutput pass cause => "module invalid after pass " ++ Text.quote pass ++ ": " ++ cause.message

inductive AddError where
  | pipeline (text : String) (cause : PipelineError)
  | create (cause : CreateError)

def AddError.message : AddError → String
  | pipeline text cause => cause.message text
  | create cause => cause.message

namespace Manager

def setGlobal (m : Manager) (key value : String) : Manager :=
  { m with params := m.params.set Options.rootScope key (.str value) }

def add (m : Manager) (passes : List Pass) : Manager := { m with passes := m.passes ++ passes }

def names (m : Manager) : List String := m.passes.map Pass.name

/-- Adds one pass. Its options stay set for later passes of that name. -/
def addSpec (m : Manager) (spec : Spec) : Manager × Option CreateError :=
  let scope := m.params.join Options.rootScope spec.name
  let params := (spec.options.getD []).foldl (fun p (k, v) => p.set scope k (.str v)) m.params
  match Pass.create spec.name { params, scope } with
  | .error e => ({ m with params }, some e)
  | .ok pass => ({ m with params, passes := m.passes ++ [pass] }, none)

def addSpecs (m : Manager) : List Spec → Manager × Option CreateError
  | [] => (m, none)
  | spec :: rest =>
    match m.addSpec spec with
    | (m, some e) => (m, some e)
    | (m, none) => m.addSpecs rest

/-- Adds the passes of a pipeline. If one cannot be created, those before it are added. -/
def addPipeline (m : Manager) (text : String) : Manager × Option AddError :=
  match parsePipeline text with
  | .error e => (m, some (.pipeline text e))
  | .ok specs =>
    let (m, e) := m.addSpecs specs
    (m, e.map .create)

/-! ## Running -/

def countOps (p : Program) (root : OpId) : Nat := (p.preorder (fun _ => true) root).length

def verify (m : Manager) (r : Registry) (root : OpId) : Edit (Option VerifyError) := do
  if !m.verifyEach then return none
  match Program.verify r (← get) root with
  | .ok () => return none
  | .error .crash => throw .crash
  | .error e => return some e

def runPass (r : Registry) (root : OpId) (pass : Pass) : Edit (Stats × Option Failure) := fun p =>
  match pass.run r root p with
  | .ok (stats, error) p => .ok (stats, error.map .error) p
  | .error e p => .ok ({}, some (.fault e)) p

def runFrom (m : Manager) (r : Registry) (root : OpId) : List Pass → Edit (List Report × Option RunError)
  | [] => return ([], none)
  | pass :: rest => do
    let before := countOps (← get) root
    let (stats, failure) ← runPass r root pass
    let report : Report := { pass := pass.name, stats, before, after := countOps (← get) root }
    match failure with
    | some cause => return ([report], some (.failed pass.name cause))
    | none =>
      match ← m.verify r root with
      | some cause => return ([report], some (.invalidOutput pass.name cause))
      | none =>
        let (reports, error) ← m.runFrom r root rest
        return (report :: reports, error)

def run (m : Manager) (r : Registry) (root : OpId) : Edit (List Report × Option RunError) := do
  match ← m.verify r root with
  | some cause => return ([], some (.invalidInput cause))
  | none => m.runFrom r root m.passes

end Manager

def pipelineFor (environment : Option String) (default : String) : String := environment.getD default

end Offload.Pass
