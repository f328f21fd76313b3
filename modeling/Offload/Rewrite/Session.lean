import Offload.IR.Builder

/-!
# Rewriting sessions

Patterns change a program through a session, which counts the changes and remembers what was inserted and
erased. In a conversion erasure is deferred: operations are only marked, and `commit` removes them all at
the end. A session carries a state of its own for patterns that need one.
-/

namespace Offload.Rewrite

structure Session (σ : Type) where
  work : Construction
  deferred : Bool
  pending : List OpId := []
  erased : List OpId := []
  mutations : Nat := 0
  rewritten : Nat := 0
  extra : σ

structure Stats where
  rewritten : Nat := 0
  mutations : Nat := 0
  deriving DecidableEq, Repr, Inhabited

structure StillUsed where
  result : Nat
  name : String
  loc : String
  user : String
  userLoc : String
  deriving DecidableEq, Repr

def StillUsed.message (e : StillUsed) : String :=
  "result #" ++ toString e.result ++ " of erased " ++ e.name ++ " at " ++ e.loc ++ " is still used by " ++
    e.user ++ " at " ++ e.userLoc ++ ": conversion failed"

abbrev Rewriting (σ : Type) := EStateM Fault (Session σ)

namespace Rewriting

variable {σ : Type}

def build {α : Type} (x : Build α) : Rewriting σ α :=
  fun ⟨work, deferred, pending, erased, mutations, rewritten, extra⟩ =>
    let before := work.created.length
    match x work with
    | .ok a work =>
      .ok a ⟨work, deferred, pending, erased, mutations + (work.created.length - before), rewritten, extra⟩
    | .error e work =>
      .error e ⟨work, deferred, pending, erased, mutations + (work.created.length - before), rewritten, extra⟩

instance : MonadLift Build (Rewriting σ) := ⟨build⟩

def edit {α : Type} (x : Edit α) : Rewriting σ α := build (Build.edit x)

instance : MonadLift Edit (Rewriting σ) := ⟨edit⟩

def fail {α : Type} : Except Fault α → Rewriting σ α
  | .ok a => pure a
  | .error e => throw e

instance : MonadLift (Except Fault) (Rewriting σ) := ⟨fail⟩

def program : Rewriting σ Program := return (← get).work.program

def stats : Rewriting σ Stats := do
  let s ← get
  return ⟨s.rewritten, s.mutations⟩

def countMutation : Rewriting σ Unit := modify fun s => { s with mutations := s.mutations + 1 }

def countRewrite : Rewriting σ Unit := modify fun s => { s with rewritten := s.rewritten + 1 }

def takeInserted : Rewriting σ (List OpId) := do
  let inserted := (← get).work.created
  modify fun s => { s with work := { s.work with created := [] } }
  return inserted

def isErased (i : OpId) : Rewriting σ Bool := do
  let s ← get
  return (s.work.program.enclosing i).any s.erased.contains

def replaceAllUses (v w : Slot) : Rewriting σ Unit := do
  if w = v then return
  countMutation
  match v with
  | none => throw .crash
  | some v => edit (Edit.replaceAllUses v w)

def eraseOp (i : OpId) : Rewriting σ Unit := do
  let s ← get
  if s.erased.contains i then
    let o := s.work.program.op i
    throw (.erasedTwice o.name o.loc)
  countMutation
  modify fun s => { s with erased := i :: s.erased }
  if s.deferred then modify fun s => { s with pending := s.pending ++ [i] }
  else edit (Edit.erase i)

def replaceOp (i : OpId) (values : List Slot) : Rewriting σ Unit := do
  let o := (← program).op i
  unless values.length = o.results.length do
    throw (.replacementCount o.name o.loc values.length o.results.length)
  (o.results.zip values).forM fun (r, v) => replaceAllUses (some r) v
  eraseOp i

def modifyInPlace (x : Edit Unit) : Rewriting σ Unit := do
  countMutation
  edit x

/-! ## Commit -/

def pendingRoots : Rewriting σ (List OpId) := do
  let s ← get
  s.pending.filterM fun i =>
    match s.work.program.parent? i with
    | none => return true
    | some q => return !(← isErased q)

def firstStillUsed : List OpId → Rewriting σ (Option StillUsed)
  | [] => return none
  | i :: rest => do
    let p ← program
    let uses := (p.op i).results.flatMap fun r => (p.users r).map fun u => (r, u)
    match ← uses.findM? fun (_, u) => return !(← isErased u) with
    | some (r, u) =>
      return some ⟨p.placeOf r, (p.op i).name, (p.op i).loc, (p.op u).name, (p.op u).loc⟩
    | none => firstStillUsed rest

def sweep : List OpId → Rewriting σ (List OpId)
  | [] => return []
  | i :: rest => do
    if (← program).hasUses i then return i :: (← sweep rest)
    else
      edit (Edit.erase i)
      sweep rest

/-- Sweeps until nothing is left. Each round has to remove something. -/
def sweepAll : Nat → List OpId → Rewriting σ Unit
  | _, [] => return
  | 0, is => throw (.cyclicUses is.length)
  | fuel + 1, is => do
    let rest ← sweep is
    if rest.length = is.length then throw (.cyclicUses is.length) else sweepAll fuel rest

/-- Removes the operations whose erasure was deferred, users first. Nothing is removed if a result is
still used. -/
def commit : Rewriting σ (Option StillUsed) := do
  let roots ← pendingRoots
  match ← firstStillUsed roots with
  | some e => return some e
  | none =>
    sweepAll roots.length roots
    modify fun s => { s with pending := [] }
    return none

end Rewriting

/-! ## Patterns -/

inductive PatternError where
  | splitSize (needed : Int) (handles : Nat)
  | registerSize (role : String) (handles : Nat)
  | custom (message : String)
  deriving Repr

def PatternError.message : PatternError → String
  | splitSize needed handles =>
    "split needs " ++ toString needed ++ " qubits, register has " ++ toString handles ++ " handles"
  | registerSize role handles =>
    (if role.isEmpty then "" else role ++ ": ") ++ "expected a single qubit, got a register of " ++
      toString handles
  | custom message => message

inductive Outcome where
  | applied
  | noMatch
  | failed (cause : PatternError)

/-- A rewrite for the operations with one name. A pattern that does not match changes nothing. -/
structure Pattern (σ : Type) where
  kind : String
  rewrite : OpId → Rewriting σ Outcome

namespace Rewriting

variable {σ : Type}

def tryPatterns (i : OpId) : List (Pattern σ) → Rewriting σ Outcome
  | [] => return .noMatch
  | pattern :: rest => do
    build (Build.setLoc ((← program).op i).loc)
    match ← pattern.rewrite i with
    | .noMatch => tryPatterns i rest
    | outcome => return outcome

def applyPatterns (patterns : List (Pattern σ)) (i : OpId) : Rewriting σ Outcome := do
  let name := ((← program).op i).name
  tryPatterns i (patterns.filter (·.kind = name))

end Rewriting

def start {σ α : Type} (deferred : Bool) (extra : σ) (x : Rewriting σ α) (p : Program) :
    EStateM.Result Fault (Session σ) α :=
  x { work := { program := p }, deferred, extra }

def asEdit {α : Type} (deferred : Bool) (x : Rewriting Unit α) : Edit α := fun p =>
  match start deferred () x p with
  | .ok a s => .ok a s.work.program
  | .error e s => .error e s.work.program

end Offload.Rewrite
