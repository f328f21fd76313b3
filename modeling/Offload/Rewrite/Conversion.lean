import Offload.Rewrite.Legality
import Offload.Rewrite.Session

/-!
# Conversion

Operations that are not legal for a target are rewritten one after the other in program order, and what a
rewrite inserts is looked at next. A full conversion has to make everything legal, a partial one only has
to get rid of what is illegal by a rule. Erased operations are removed at the very end.
-/

namespace Offload.Rewrite

inductive Mode where
  | full
  | partly
  deriving DecidableEq, Repr

inductive ConversionError where
  | pattern (name loc : String) (cause : PatternError)
  | notLegalized (name loc : String)
  | stillIllegal (name loc : String)
  | stillUsed (cause : StillUsed)
  | fault (pass : String) (cause : Fault)

def ConversionError.message : ConversionError → String
  | pattern name loc cause => name ++ " at " ++ loc ++ ": " ++ cause.message ++ ": conversion failed"
  | notLegalized name loc => "failed to legalize " ++ name ++ " at " ++ loc ++ ": conversion failed"
  | stillIllegal name loc =>
    name ++ " at " ++ loc ++ " is still illegal after its rewrite: conversion failed"
  | stillUsed cause => cause.message
  | fault pass cause => pass ++ ": " ++ cause.message ++ ": conversion failed"

section

variable {σ : Type} (mode : Mode) (root : OpId) (target : Target) (patterns : List (Pattern σ))

def insideOf (p : Program) (i : OpId) : List OpId :=
  let descend := fun j => !target.isRecursivelyLegal p j
  if descend i then p.preorder descend i else []

inductive Step where
  | finished
  | failed (cause : ConversionError)
  /-- One operation was rewritten, and these are left to do. -/
  | rewrote (rest : List OpId)

def step : List OpId → Rewriting σ Step
  | [] => return .finished
  | i :: rest => do
    if (← Rewriting.isErased i) || target.isInside (← Rewriting.program) i root then step rest
    else
      let legality ← Rewriting.fail (target.legality (← Rewriting.program) i)
      if target.accepts legality then step rest
      else
        Rewriting.build (Build.toBefore i)
        let o := (← Rewriting.program).op i
        match ← Rewriting.applyPatterns patterns i with
        | .failed cause => return .failed (.pattern o.name o.loc cause)
        | .noMatch =>
          if mode = .partly ∧ legality ≠ .illegal then step rest
          else return .failed (.notLegalized o.name o.loc)
        | .applied =>
          Rewriting.countRewrite
          if !(← Rewriting.isErased i) && !(← Rewriting.fail (target.isLegal (← Rewriting.program) i)) then
            return .failed (.stillIllegal o.name o.loc)
          let inserted ← Rewriting.takeInserted
          let p ← Rewriting.program
          return .rewrote ((inserted.flatMap fun j => j :: insideOf target p j).eraseDups ++ rest)

def steps : Nat → List OpId → Rewriting σ (Option ConversionError)
  | limit, worklist => do
    match ← step mode root target patterns worklist with
    | .finished => return none
    | .failed cause => return some cause
    | .rewrote rest =>
      match limit with
      | 0 => throw .rewriteLimit
      | limit + 1 => steps limit rest

def convert (limit : Nat) : Rewriting σ (Stats × Option ConversionError) := do
  let p ← Rewriting.program
  let error ← steps mode root target patterns limit
    (p.preorder (fun j => !target.isRecursivelyLegal p j) root)
  match error with
  | some e => return (← Rewriting.stats, some e)
  | none =>
    let stillUsed ← Rewriting.commit
    return (← Rewriting.stats, stillUsed.map .stillUsed)

end

end Offload.Rewrite
