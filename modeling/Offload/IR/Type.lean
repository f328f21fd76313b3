import Offload.Shape

/-!
# Types of values

Tensors are immutable, memrefs are memory. A buffer is one memref for each worker of a workgroup. A
register is a row of qubits passed along as a value, while `qubit` and `outcome` are handles to one
physical qubit and to the place of one measurement. A type may also be absent, where one is given or
inside the type of a function: there is then nothing to compare and nothing to print.
-/

namespace Offload

inductive Ty where
  | tensor (shape : Shape)
  | memref (shape : Shape)
  | scalar (element : ElementType)
  | index
  | workgroup (extents : List Int)
  | buffer (perWorker : Shape) (extents : List Int) (level : Int)
  | token
  | register (size : Int)
  | qubit
  | outcome
  | function (inputs results : List Ty)
  | absent
  deriving Repr, Inhabited

namespace Ty

mutual

def same : Ty → Ty → Bool
  | tensor s, tensor t => s == t
  | memref s, memref t => s == t
  | scalar e, scalar f => e == f
  | index, index => true
  | workgroup xs, workgroup ys => xs == ys
  | buffer s xs m, buffer t ys n => s == t && xs == ys && m == n
  | token, token => true
  | register m, register n => m == n
  | qubit, qubit => true
  | outcome, outcome => true
  | function is rs, function js ss => sameAll is js && sameAll rs ss
  | absent, absent => true
  | _, _ => false

def sameAll : List Ty → List Ty → Bool
  | [], [] => true
  | t :: ts, u :: us => same t u && sameAll ts us
  | _, _ => false

end

mutual

theorem same_iff : (t u : Ty) → (same t u = true ↔ t = u)
  | function is rs, u => by
    cases u <;> simp [same, sameAll_iff is, sameAll_iff rs]
  | tensor _, u | memref _, u | scalar _, u | index, u | workgroup _, u | buffer _ _ _, u | token, u
  | register _, u | qubit, u | outcome, u | absent, u => by
    cases u <;> simp [same, and_assoc]

theorem sameAll_iff : (ts us : List Ty) → (sameAll ts us = true ↔ ts = us)
  | [], us => by cases us <;> simp [sameAll]
  | t :: ts, us => by cases us <;> simp [sameAll, same_iff t, sameAll_iff ts]

end

end Ty

instance : DecidableEq Ty := fun t u => decidable_of_iff _ (Ty.same_iff t u)

namespace Ty

mutual

/-- Whether two types are the same. The first type is asked, which has to be there, and asks its parts. -/
def compare? : Ty → Ty → Option Bool
  | absent, _ => none
  | function is rs, function js ss =>
    match compareAll? is js with
    | some true => compareAll? rs ss
    | answer => answer
  | t, u => some (same t u)

/-- Lists are compared from the left up to the first difference, unless their lengths differ. -/
def compareAll? : List Ty → List Ty → Option Bool
  | t :: ts, u :: us =>
    if ts.length = us.length then
      match compare? t u with
      | some true => compareAll? ts us
      | answer => answer
    else some false
  | ts, us => some (ts.isEmpty && us.isEmpty)

/-- No type is absent in it. -/
def whole : Ty → Bool
  | absent => false
  | function inputs results => wholeAll inputs && wholeAll results
  | _ => true

def wholeAll : List Ty → Bool
  | [] => true
  | t :: ts => whole t && wholeAll ts

end

mutual

theorem eq_of_compare? : (t u : Ty) → t.compare? u = some true → t = u
  | function is rs, u, h => by
    cases u with
    | function js ss =>
      rw [compare?] at h
      split at h
      · rename_i hi
        rw [eq_of_compareAll? is js hi, eq_of_compareAll? rs ss h]
      · rename_i hne
        exact absurd h hne
    | _ => cases h
  | absent, _, h => by cases h
  | tensor _, u, h | memref _, u, h | scalar _, u, h | index, u, h | workgroup _, u, h | buffer _ _ _, u, h
  | token, u, h | register _, u, h | qubit, u, h | outcome, u, h => by
    exact (same_iff _ u).mp (by cases u <;> exact Option.some.inj h)

theorem eq_of_compareAll? : (ts us : List Ty) → compareAll? ts us = some true → ts = us
  | [], us, h => by cases us <;> first | rfl | cases h
  | _ :: _, [], h => by cases h
  | t :: ts, u :: us, h => by
    rw [compareAll?] at h
    split at h
    · split at h
      · rename_i ht
        rw [eq_of_compare? t u ht, eq_of_compareAll? ts us h]
      · rename_i hne
        exact absurd h hne
    · cases h

end

mutual

theorem compare?_whole : (t u : Ty) → t.whole = true → (t.compare? u).isSome = true
  | function is rs, u, h => by
    rw [whole, Bool.and_eq_true] at h
    cases u with
    | function js ss =>
      rw [compare?]
      split
      · exact compareAll?_whole rs ss h.2
      · exact compareAll?_whole is js h.1
    | _ => rfl
  | tensor _, u, _ | memref _, u, _ | scalar _, u, _ | index, u, _ | workgroup _, u, _ | buffer _ _ _, u, _
  | token, u, _ | register _, u, _ | qubit, u, _ | outcome, u, _ => by cases u <;> rfl

theorem compareAll?_whole : (ts us : List Ty) → wholeAll ts = true → (compareAll? ts us).isSome = true
  | [], us, _ => by cases us <;> rfl
  | t :: ts, [], _ => rfl
  | t :: ts, u :: us, h => by
    rw [wholeAll, Bool.and_eq_true] at h
    rw [compareAll?]
    split
    · split
      · exact compareAll?_whole ts us h.2
      · exact compare?_whole t u h.1
    · rfl

end

/-- Asks for the same types; without an answer there is no error to report. -/
def demand {ε : Type} (ts us : List Ty) (flaw : ε) : Except (Option ε) Unit :=
  match compareAll? ts us with
  | some true => .ok ()
  | some false => .error (some flaw)
  | none => .error none

theorem eq_of_demand {ε : Type} {ts us : List Ty} {flaw : ε} (h : demand ts us flaw = .ok ()) : ts = us := by
  rw [demand] at h
  split at h
  · rename_i hsame
    exact eq_of_compareAll? ts us hsame
  · cases h
  · cases h

end Ty

def Shape.renderInType (s : Shape) : String :=
  if s.dims.isEmpty then s.element.shortName else renderDims s.dims ++ "x" ++ s.element.shortName

namespace Ty

mutual

def draw : Ty → String
  | tensor s => "tensor<" ++ s.renderInType ++ ">"
  | memref s => "memref<" ++ s.renderInType ++ ">"
  | scalar e => e.shortName
  | index => "index"
  | workgroup extents => "!cnm.workgroup<" ++ renderDims extents ++ ">"
  | buffer s extents level =>
    "!cnm.buffer<" ++ (if s.isScalar then "" else renderDims s.dims ++ "x") ++ s.element.shortName ++ " on " ++
      renderDims extents ++ ", level " ++ toString level ++ ">"
  | token => "!cnm.gather_token"
  | register size => "!quantum.qubit<" ++ toString size ++ ">"
  | qubit => "!qir.qubit"
  | outcome => "!qir.result"
  | function inputs results => "(" ++ drawAll inputs ++ ") -> (" ++ drawAll results ++ ")"
  | absent => "%!s(<nil>)"

def drawAll : List Ty → String
  | [] => ""
  | [t] => t.draw
  | t :: rest => t.draw ++ ", " ++ drawAll rest

end

def unprintable : String :=
  "%!s(PANIC=String method: runtime error: invalid memory address or nil pointer dereference)"

/-- The text of a type within a message. -/
def render (t : Ty) : String := if t.whole || t = absent then t.draw else unprintable

def present? : Ty → Option Ty
  | absent => none
  | t => some t

def shape? : Ty → Option Shape
  | tensor s | memref s | buffer s _ _ => some s
  | _ => none

def element? : Ty → Option ElementType
  | scalar e => some e
  | t => t.shape?.map Shape.element

def isTensor : Ty → Bool
  | tensor _ => true
  | _ => false

def qubits : Ty → Int
  | register n => n
  | _ => 0

end Ty

end Offload
