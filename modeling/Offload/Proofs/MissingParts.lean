import Offload.Proofs.Bookkeeping
import Offload.Proofs.CheckedReductions

/-!
# Checks that read what is not there

Whatever a program looks like, its check ends with success or with the first thing that is wrong, with two kinds of
exceptions. The checks of functions, reductions and launches look into the first region without asking whether there is
one; and where types are compared, a type that is absent within the type of a function, or left out of the elements of a
constant, gives no answer.
-/

namespace Offload

open Program List Reduction

variable {c : Construction} {name : String} {p : Program} {α ε : Type}

section
variable (p : Program) (i : OpId)

def Functions.Declared : Prop := symbol (p.op i) ≠ "" ∧ (signature? (p.op i)).isSome

def Reduction.Declared : Prop := ∃ m n axes, ((p.op i).attr? segmentsAttr).bind Attr.ints? = some [m, n] ∧
  (1 ≤ m ∧ 1 ≤ n ∧ Word.add m n = ((p.op i).operands.filterMap p.slotType?).length) ∧
  ((p.op i).attr? dimensionsAttr).bind Attr.ints? = some axes ∧
  checkTypes ((p.op i).operands.filterMap p.slotType?) (p.resultTypes i) m.toNat axes = .ok ()

def Workgroup.Declared : Prop := ∃ extents params, operandTypes p i = .workgroup extents :: params

/-- An operation that has no region, although its check looks for a body and finds nothing wrong before. -/
def Bodiless : Prop := (p.op i).regions = [] ∧
  ((p.op i).name = Functions.funcName ∧ Functions.Declared p i ∨
    (p.op i).name = reduceName ∧ Reduction.Declared p i ∨
    (p.op i).name = Workgroup.launchName ∧ Workgroup.Declared p i)

def Arith.Untyped : Prop := (p.op i).operands = [] ∧
  ∃ s values, p.resultTypes i = [.tensor s] ∧ (p.op i).attr? valueAttr = some (.dense none values)

def Arith.Unanswered : Prop := ∃ x y t, (p.op i).operands.filterMap p.slotType? = [x, y] ∧ p.resultTypes i = [t] ∧
  Ty.compareAll? [x, x] [y, t] = none

def Functions.EntryUnanswered : Prop := symbol (p.op i) ≠ "" ∧ ∃ signature entry rest others,
  signature? (p.op i) = some signature ∧ (p.op i).regions = (entry :: rest) :: others ∧
  Ty.compareAll? (p.argTypes entry) signature.1 = none

def Functions.ReturnUnanswered : Prop := ∃ f signature, p.parent? i = some f ∧ (p.op f).name = funcName ∧
  signature? (p.op f) = some signature ∧
  Ty.compareAll? ((p.op i).operands.filterMap p.slotType?) signature.2 = none

/-- An operation whose check asks a type that is absent before it finds a difference. -/
def Unanswered : Prop :=
  (p.op i).name = Arith.constantName ∧ Arith.Untyped p i ∨
  (∃ b : Arith.Binary, (p.op i).name = b.name) ∧ Arith.Unanswered p i ∨
  (p.op i).name = Functions.funcName ∧ Functions.EntryUnanswered p i ∨
  (p.op i).name = Functions.returnName ∧ Functions.ReturnUnanswered p i

/-- What the check of an operation has found in order when it reads what is not there. -/
structure Breaks (root : OpId) : Prop where
  visible : ∀ s ∈ (p.op i).operands, ∃ v, s = some v ∧ p.visible catalogue root i v = .ok ()
  last : catalogue.isTerminator (p.op i) = true → p.isLast i = true
  missing : Bodiless p i ∨ Unanswered p i

end

section
variable {p : Program} {i : OpId} {root : OpId}

end

/-! ## Assembled programs -/

/-- What calls that build and change programs lead to, with attributes set in between. -/
inductive Assembled : Construction → Prop
  | start : Assembled { program := {} }
  | call {c d : Construction} (x : Call) : Assembled c → x.Fits c.program → x.run c = .ok () d → Assembled d
  | setAttr {c d : Construction} (i : OpId) (name : String) (a : Attr) : Assembled c → c.program.HasOp i →
    Build.edit (Edit.setAttr i name a) c = .ok () d → Assembled d

theorem setAttr_kept {p q : Program} {i : OpId} {a : Attr} (hp : p.Consistent)
    (h : Edit.setAttr i name a p = .ok () q) : Edit.Kept p q := by
  obtain rfl := Edit.modifyOp_ok.mp h
  have hop (j : OpId) : ((p.withOp i (·.setAttr name a)).op j).operands = (p.op j).operands ∧
      ((p.withOp i (·.setAttr name a)).op j).block = (p.op j).block := by
    rw [op_withOp]
    split <;> simp [Op.setAttr]
  refine ⟨⟨fun v u => ?_, fun j b => ?_, hp.once⟩, by simp [withOp], Nat.le_refl _, Nat.le_refl _⟩
  · rw [(hop u.op).1]
    exact hp.uses v u
  · rw [(hop j).2]
    exact hp.listed j b

theorem Assembled.standing (h : Assembled c) : Standing c := by
  induction h with
  | start => exact Reached.start.standing
  | call x _ hx hrun ih => exact ih.call hx hrun
  | setAttr i name a _ _ hrun ih => exact ih.edit (fun _ => setAttr_kept ih.consistent) hrun

end Offload
