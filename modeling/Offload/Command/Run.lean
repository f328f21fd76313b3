import Offload.Command.Check
import Offload.Command.Flags
import Offload.FileTree
import Offload.IR.Printer

/-!
# The command

Builds a sample program, runs a pipeline on it, and reports what the passes did and which kernels the
program needs. On request the program is printed, written to a file, or run before and after the pipeline
to see whether its results are the same.
-/

namespace Offload.Command

inductive Printed where
  | line (text : String)
  | title (text : String)
  | table (t : Table)
  deriving Repr

def Printed.render : Printed → String
  | line text => text ++ "\n"
  | title text => Table.renderTitle text ++ "\n"
  | table t => t.render ++ "\n"

/-- The text without the column of durations, which is the last one and differs from run to run. -/
def Printed.renderUntimed : Printed → String
  | table t =>
    if t.columns.any (·.header = "Duration") then
      let lines := { t with columns := t.columns.dropLast }.render.splitOn "\n"
      "\n".intercalate (lines.take 3 ++ (lines.drop 3).map fun l => (l.dropEnd 1).toString) ++ "\n"
    else t.render ++ "\n"
  | x => x.render

structure Surroundings where
  pipeline : Option String := none
  home : String := "/"
  homeOf : String → Option String := fun _ => none
  files : FileTree := {}

structure Outcome where
  printed : List Printed := []
  messages : List String := []
  files : FileTree := {}
  written : Option (String × String) := none
  deriving Inhabited

inductive Exit where
  | failure
  | fault
  | help

def Exit.code : Exit → Nat
  | help => 0
  | failure => 1
  | fault => 2

abbrev Session := EStateM Exit Outcome

namespace Session

def say (x : Printed) : Session Unit := modify fun s => { s with printed := s.printed ++ [x] }

def tell (text : String) : Session Unit := modify fun s => { s with messages := s.messages ++ [text] }

def quit {α : Type} (exit : Exit) (text : String) : Session α := do
  tell text
  throw exit

def log (settings : Settings) (text : String) : Session Unit := do
  tell text
  if let some path := settings.logPath? then
    match (← get).files.openFile? path with
    | some files => modify fun s => { s with files }
    | none => throw .fault

def logAt (settings : Settings) (level : Int) (text : String) : Session Unit := do
  if level ≤ settings.verbosity || level ≤ settings.fileVerbosity then log settings text

def fail {α : Type} (settings : Settings) (text : String) : Session α := do
  log settings text
  throw .failure

def orFault {α : Type} : Except Fault α → Session α
  | .ok a => return a
  | .error e => quit .fault e.message

def orStop {α : Type} : Except (Stop Execution.CallError) α → Session α
  | .ok a => return a
  | .error (.error e) => quit .fault e.message
  | .error (.fault e) => quit .fault e.message

end Session

open Session

structure Work where
  settings : Settings
  pipeline : String
  program : Program
  root : OpId

def printProgram (w : Work) (title : String) : Session Unit := do
  if w.settings.printProgram then
    say (.title (w.settings.program ++ ": " ++ title))
    say (.line (← orFault (w.program.print w.root)))

def expectation? (sample : Sample) (w : Work) : Session (Option Expectation) := do
  if w.settings.check && sample.executable then return some (← orStop (Expectation.of w.program w.root))
  else return none

/-- The messages that passes leave in the log: one for each that is done, and more if it has changed
something. -/
def logPasses (settings : Settings) (reports : List Pass.Report) (error : Option Pass.RunError) :
    Session Unit := do
  let done := match error with
    | some (.failed _ _) => reports.length - 1
    | _ => reports.length
  for (r, k) in reports.zipIdx do
    if 0 < r.stats.rewritten then logAt settings 2 ("Rewrites of pass " ++ Text.quote r.pass)
    if k < done then logAt settings 1 ("Pass " ++ Text.quote r.pass ++ " is done")

def runPipeline (w : Work) : Session Work := do
  let manager : Pass.Manager := { verifyEach := w.settings.verifyEach }
  match manager.addPipeline w.pipeline with
  | (_, some e) => quit .fault e.message
  | (manager, none) =>
    match manager.run catalogue w.root w.program with
    | .error e _ => quit .fault e.message
    | .ok (reports, error) program =>
      logPasses w.settings reports error
      say (.table (passesTable w.pipeline reports error.isSome))
      match error with
      | some e => fail w.settings ("Pipeline failed: " ++ e.message manager.runId)
      | none => return { w with program }

def writeOutput (around : Surroundings) (w : Work) : Session Unit := do
  if w.settings.output ≠ "" then
    let text ← orFault (w.program.print w.root)
    let (files, written) := (← get).files.writeText around.home around.homeOf w.settings.output text
    modify fun s => { s with files }
    match written with
    | .error e => quit .fault e.message
    | .ok path =>
      modify fun s => { s with written := some (path, text) }
      log w.settings ("Program written to " ++ Text.quote path)

def reportKernels (w : Work) : Session Unit := do
  let kernels ← orFault (kernelsTable w.program w.root w.settings.tasklets)
  unless kernels.rows.isEmpty do say (.table kernels)
  if 0 < kernels.failedCount then
    log w.settings (toString kernels.failedCount ++ " kernel(s) can't run on a DPU with " ++
      toString w.settings.tasklets ++ " tasklets")

def checkResults (w : Work) (e : Expectation) : Session Unit := do
  if hasLaunches w.program w.root then logAt w.settings 2 "Launching"
  match ← orStop (e.difference? w.program w.root) with
  | some difference => fail w.settings ("Results changed by the pipeline: " ++ difference.message)
  | none => say (.line ("Results before and after " ++ Text.quote w.pipeline ++ " match."))

def runSettings (around : Surroundings) (settings : Settings) : Session Unit := do
  match sample? settings.program with
  | none => fail settings ("Unknown program " ++ Text.quote settings.program)
  | some sample =>
    match ElementType.ofName? settings.dtype with
    | none => fail settings ("Invalid -dtype=" ++ Text.quote settings.dtype)
    | some element =>
      let pipeline :=
        if settings.pipeline = "" then Pass.pipelineFor around.pipeline sample.pipeline else settings.pipeline
      let (program, root) ← orFault (sample.program settings.rows settings.cols element)
      let w : Work := { settings, pipeline, program, root }
      printProgram w "input"
      let expectation ← expectation? sample w
      let w ← runPipeline w
      printProgram w ("after " ++ w.pipeline)
      writeOutput around w
      reportKernels w
      if let some e := expectation then checkResults w e

def run (around : Surroundings) (args : List String) : Nat × Outcome :=
  let session : Session Unit := do
    match parseSettings args with
    | .error .help => throw .help
    | .error e => quit .fault e.message
    | .ok settings => runSettings around settings
  match session { files := around.files } with
  | .ok () outcome => (0, outcome)
  | .error exit outcome => (exit.code, outcome)

end Offload.Command
