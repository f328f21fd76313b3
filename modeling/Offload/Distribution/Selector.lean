import Offload.Device.Memory
import Offload.Dialect.Reduction
import Offload.Distribution.Plan
import Offload.Sequence
import Offload.Text.Split

/-!
# Choice of a workgroup

A list of candidates is tried in order, and the first that is legal for a reduction is taken: its workers
divide the outputs evenly, the reduced axes are the last ones, and the buffers fit into memory.
-/

namespace Offload.Distribution

structure Selector where
  candidates : List (List Int)
  memoryLimit : Int := 0
  storage : Storage := ElementType.bytes?
  deriving Inhabited

def defaultCandidate : List Int := [4, 16]

def fits (t : Ty) (extents axes : List Int) : Except Fault Bool :=
  match t with
  | .tensor s =>
    let workers := Workgroup.workers extents
    if workers = 0 then .error .crash else .ok (Word.rem (s.volumeExcluding axes) workers = 0)
  | _ => .ok false

/-- Whether no axis is reduced, or an unbroken run of axes up to the last. -/
def isSupported (rank : Int) (axes : List Int) : Bool :=
  axes.isEmpty || (Sequence.isRun axes && Sequence.last? axes = some (Word.sub rank 1))

def allOf {α : Type} (test : α → Except Fault Bool) : List α → Except Fault Bool
  | [] => .ok true
  | x :: rest => do if ← test x then allOf test rest else return false

section Legality

variable (p : Program)

def typeOf (s : Slot) : Except Fault Ty :=
  match p.slotType? s with
  | some t => .ok t
  | none => .error .crash

def initFits (extents : List Int) (s : Slot) : Except Fault Bool := do fits (← typeOf p s) extents []

def inputFits (extents axes : List Int) (s : Slot) : Except Fault Bool := do
  let t ← typeOf p s
  if ← fits t extents axes then return t.shape?.any fun shape => isSupported shape.rank axes
  else return false

namespace Selector

def bufferFits (sel : Selector) (extents : List Int) (s : Slot) : Except Fault Bool := do
  let plan ← planOperand p s extents
  return (← Fault.ofShape (Device.checkBuffer sel.storage plan.buffer sel.memoryLimit)).isNone

def isLegal (sel : Selector) (i : OpId) (extents : List Int) : Except Fault Bool := do
  if !(← allOf (initFits p extents) (← Reduction.inits p i)) then return false
  let axes := Reduction.dimensions p i
  if !(← allOf (inputFits p extents axes) (← Reduction.inputs p i)) then return false
  allOf (sel.bufferFits p extents) (p.op i).operands

def firstLegal (sel : Selector) (i : OpId) : List (List Int) → Except Fault (Option (List Int))
  | [] => .ok none
  | extents :: rest => do
    Workgroup.checkExtents extents
    if ← sel.isLegal p i extents then return some extents else firstLegal sel i rest

def select (sel : Selector) (i : OpId) : Except Fault (Option (List Int)) :=
  sel.firstLegal p i sel.candidates

def selectFor (sel : Selector) (i : OpId) : Except Fault (Option (List Int)) :=
  if (p.op i).name = Reduction.reduceName then sel.select p i else .ok none

def isLegalFor (sel : Selector) (i : OpId) (extents : List Int) : Except Fault Bool :=
  if (p.op i).name = Reduction.reduceName then sel.isLegal p i extents else .error .crash

end Selector

end Legality

/-! ## Candidates as text -/

inductive CandidateError where
  | extents (part : String)
  | empty (text : String)
  deriving DecidableEq, Repr

def CandidateError.message : CandidateError → String
  | extents part =>
    "invalid workgroup shape " ++ Text.quote part ++
      ": extents must be positive integers separated by \"x\""
  | empty text => "no workgroup shape in " ++ Text.quote text

def parseExtents (part : List Char) : Option (List Int) :=
  (Text.split 'x' part).mapM fun extent =>
    match Text.parseInt (Text.trim extent) with
    | .ok n => if 0 < n then some n else none
    | .error _ => none

def parseParts : List (List Char) → Except CandidateError (List (List Int))
  | [] => .ok []
  | part :: rest =>
    let part := Text.trim part
    if part.isEmpty then parseParts rest
    else
      match parseExtents part with
      | none => .error (.extents (String.ofList part))
      | some extents => do return extents :: (← parseParts rest)

def parseCandidates (text : String) : Except CandidateError (List (List Int)) := do
  match ← parseParts (Text.split ',' text.toList) with
  | [] => throw (.empty text)
  | candidates => return candidates

def renderCandidates (candidates : List (List Int)) : String := ",".intercalate (candidates.map renderDims)

end Offload.Distribution
