import Offload.Proofs.Outcome

/-!
# What an update changes

The elementary updates of a program as functions, and what operations, blocks and values look like after
them. An update of something that is not there changes nothing.
-/

namespace Offload

@[simp] theorem Op.operands_default : (default : Op).operands = [] := rfl
@[simp] theorem Op.results_default : (default : Op).results = [] := rfl
@[simp] theorem Op.regions_default : (default : Op).regions = [] := rfl
@[simp] theorem Op.block_default : (default : Op).block = none := rfl
@[simp] theorem Block.args_default : (default : Block).args = [] := rfl
@[simp] theorem Block.ops_default : (default : Block).ops = [] := rfl
@[simp] theorem Value.uses_default : (default : Value).uses = [] := rfl

namespace Program

variable (p : Program) (i j : OpId) (b c : BlockId) (v w : ValueId)

def withOp (f : Op → Op) : Program := ⟨p.ops.modify i.index f, p.blocks, p.values⟩

def withBlock (f : Block → Block) : Program := ⟨p.ops, p.blocks.modify b.index f, p.values⟩

def withValue (f : Value → Value) : Program := ⟨p.ops, p.blocks, p.values.modify v.index f⟩

def addOp (o : Op) : Program := ⟨p.ops.push o, p.blocks, p.values⟩

def addBlock (x : Block) : Program := ⟨p.ops, p.blocks.push x, p.values⟩

def addValue (x : Value) : Program := ⟨p.ops, p.blocks, p.values.push x⟩

def HasOp : Prop := i.index < p.ops.size

def HasBlock : Prop := b.index < p.blocks.size

def HasValue : Prop := v.index < p.values.size

instance : Decidable (p.HasOp i) := inferInstanceAs (Decidable (_ < _))

instance : Decidable (p.HasBlock b) := inferInstanceAs (Decidable (_ < _))

instance : Decidable (p.HasValue v) := inferInstanceAs (Decidable (_ < _))

theorem op_of_not_hasOp {p : Program} {i : OpId} (h : ¬ p.HasOp i) : p.op i = default := by
  unfold HasOp at h
  simp [op, Array.getD_eq_getD_getElem?, Array.getElem?_eq_none (Nat.le_of_not_lt h)]

theorem block_of_not_hasBlock {p : Program} {b : BlockId} (h : ¬ p.HasBlock b) : p.block b = default := by
  unfold HasBlock at h
  simp [block, Array.getD_eq_getD_getElem?, Array.getElem?_eq_none (Nat.le_of_not_lt h)]

theorem value_of_not_hasValue {p : Program} {v : ValueId} (h : ¬ p.HasValue v) : p.value v = default := by
  unfold HasValue at h
  simp [value, Array.getD_eq_getD_getElem?, Array.getElem?_eq_none (Nat.le_of_not_lt h)]

theorem value_mem {p : Program} {v : ValueId} (h : p.HasValue v) : p.value v ∈ p.values := by
  rw [value, Array.getD_eq_getD_getElem?, Array.getElem?_eq_getElem h]
  exact Array.getElem_mem h

private theorem getD_modify {α : Type} [Inhabited α] (xs : Array α) (m n : Nat) (f : α → α) :
    (xs.modify m f).getD n default = if n = m ∧ m < xs.size then f (xs.getD n default) else xs.getD n default := by
  simp only [Array.getD_eq_getD_getElem?, Array.getElem?_modify]
  by_cases h : m = n
  · subst h
    by_cases hm : m < xs.size
    · simp [hm]
    · simp [hm]
  · simp [h, Ne.symm h]

private theorem getD_push {α : Type} [Inhabited α] (xs : Array α) (n : Nat) (x : α) :
    (xs.push x).getD n default = if n = xs.size then x else xs.getD n default := by
  simp only [Array.getD_eq_getD_getElem?, Array.getElem?_push]
  split <;> simp

theorem op_withOp (f : Op → Op) :
    (p.withOp i f).op j = if j = i ∧ p.HasOp i then f (p.op j) else p.op j := by
  have := getD_modify p.ops i.index j.index f
  simp only [op, withOp, HasOp, this]
  cases i; cases j; simp

theorem block_withBlock (f : Block → Block) :
    (p.withBlock b f).block c = if c = b ∧ p.HasBlock b then f (p.block c) else p.block c := by
  have := getD_modify p.blocks b.index c.index f
  simp only [block, withBlock, HasBlock, this]
  cases b; cases c; simp

theorem value_withValue (f : Value → Value) :
    (p.withValue v f).value w = if w = v ∧ p.HasValue v then f (p.value w) else p.value w := by
  have := getD_modify p.values v.index w.index f
  simp only [value, withValue, HasValue, this]
  cases v; cases w; simp

theorem op_addOp (o : Op) : (p.addOp o).op j = if j = ⟨p.ops.size⟩ then o else p.op j := by
  have := getD_push p.ops j.index o
  simp only [op, addOp, this]
  cases j; simp

theorem block_addBlock (x : Block) :
    (p.addBlock x).block c = if c = ⟨p.blocks.size⟩ then x else p.block c := by
  have := getD_push p.blocks c.index x
  simp only [block, addBlock, this]
  cases c; simp

theorem value_addValue (x : Value) :
    (p.addValue x).value w = if w = ⟨p.values.size⟩ then x else p.value w := by
  have := getD_push p.values w.index x
  simp only [value, addValue, this]
  cases w; simp

section
variable (f : Op → Op) (g : Block → Block) (h : Value → Value) (o : Op) (x : Block) (y : Value)

@[simp] theorem block_withOp : (p.withOp i f).block c = p.block c := rfl
@[simp] theorem value_withOp : (p.withOp i f).value w = p.value w := rfl
@[simp] theorem op_withBlock : (p.withBlock b g).op j = p.op j := rfl
@[simp] theorem value_withBlock : (p.withBlock b g).value w = p.value w := rfl
@[simp] theorem op_withValue : (p.withValue v h).op j = p.op j := rfl
@[simp] theorem block_withValue : (p.withValue v h).block c = p.block c := rfl
@[simp] theorem block_addOp : (p.addOp o).block c = p.block c := rfl
@[simp] theorem value_addOp : (p.addOp o).value w = p.value w := rfl
@[simp] theorem op_addBlock : (p.addBlock x).op j = p.op j := rfl
@[simp] theorem value_addBlock : (p.addBlock x).value w = p.value w := rfl
@[simp] theorem op_addValue : (p.addValue y).op j = p.op j := rfl
@[simp] theorem block_addValue : (p.addValue y).block c = p.block c := rfl

@[simp] theorem hasOp_withOp : (p.withOp i f).HasOp j ↔ p.HasOp j := by simp [HasOp, withOp]
@[simp] theorem hasOp_withBlock : (p.withBlock b g).HasOp j ↔ p.HasOp j := Iff.rfl
@[simp] theorem hasOp_withValue : (p.withValue v h).HasOp j ↔ p.HasOp j := Iff.rfl
@[simp] theorem hasOp_addBlock : (p.addBlock x).HasOp j ↔ p.HasOp j := Iff.rfl
@[simp] theorem hasOp_addValue : (p.addValue y).HasOp j ↔ p.HasOp j := Iff.rfl
@[simp] theorem hasBlock_withOp : (p.withOp i f).HasBlock c ↔ p.HasBlock c := Iff.rfl
@[simp] theorem hasBlock_withBlock : (p.withBlock b g).HasBlock c ↔ p.HasBlock c := by simp [HasBlock, withBlock]
@[simp] theorem hasBlock_withValue : (p.withValue v h).HasBlock c ↔ p.HasBlock c := Iff.rfl
@[simp] theorem hasBlock_addOp : (p.addOp o).HasBlock c ↔ p.HasBlock c := Iff.rfl
@[simp] theorem hasBlock_addValue : (p.addValue y).HasBlock c ↔ p.HasBlock c := Iff.rfl
@[simp] theorem hasValue_withOp : (p.withOp i f).HasValue w ↔ p.HasValue w := Iff.rfl
@[simp] theorem hasValue_withBlock : (p.withBlock b g).HasValue w ↔ p.HasValue w := Iff.rfl
@[simp] theorem hasValue_withValue : (p.withValue v h).HasValue w ↔ p.HasValue w := by simp [HasValue, withValue]
@[simp] theorem hasValue_addOp : (p.addOp o).HasValue w ↔ p.HasValue w := Iff.rfl
@[simp] theorem hasValue_addBlock : (p.addBlock x).HasValue w ↔ p.HasValue w := Iff.rfl

theorem hasOp_addOp : (p.addOp o).HasOp j ↔ p.HasOp j ∨ j = ⟨p.ops.size⟩ := by
  cases j; simp [HasOp, addOp]; omega

theorem hasValue_addValue : (p.addValue y).HasValue w ↔ p.HasValue w ∨ w = ⟨p.values.size⟩ := by
  cases w; simp [HasValue, addValue]; omega

end

end Program

namespace Edit

variable {p q : Program}

@[simp] theorem modifyOp_ok {i : OpId} {f : Op → Op} {a : Unit} :
    modifyOp i f p = .ok a q ↔ q = p.withOp i f := by
  simp [modifyOp, Program.withOp]

@[simp] theorem modifyBlock_ok {b : BlockId} {f : Block → Block} {a : Unit} :
    modifyBlock b f p = .ok a q ↔ q = p.withBlock b f := by
  simp [modifyBlock, Program.withBlock]

@[simp] theorem modifyValue_ok {v : ValueId} {f : Value → Value} {a : Unit} :
    modifyValue v f p = .ok a q ↔ q = p.withValue v f := by
  simp [modifyValue, Program.withValue]

@[simp] theorem getOp_ok {i : OpId} {o : Op} : getOp i p = .ok o q ↔ o = p.op i ∧ q = p := by
  simp [getOp]; grind

@[simp] theorem getBlock_ok {b : BlockId} {x : Block} : getBlock b p = .ok x q ↔ x = p.block b ∧ q = p := by
  simp [getBlock]; grind

@[simp] theorem getValue_ok {v : ValueId} {x : Value} : getValue v p = .ok x q ↔ x = p.value v ∧ q = p := by
  simp [getValue]; grind

@[simp] theorem pushOp_ok {o : Op} {i : OpId} : pushOp o p = .ok i q ↔ i = ⟨p.ops.size⟩ ∧ q = p.addOp o := by
  simp [pushOp, Program.addOp]; grind

@[simp] theorem pushBlock_ok {x : Block} {b : BlockId} :
    pushBlock x p = .ok b q ↔ b = ⟨p.blocks.size⟩ ∧ q = p.addBlock x := by
  simp [pushBlock, Program.addBlock]; grind

@[simp] theorem pushValue_ok {x : Value} {v : ValueId} :
    pushValue x p = .ok v q ↔ v = ⟨p.values.size⟩ ∧ q = p.addValue x := by
  simp [pushValue, Program.addValue]; grind

end Edit

/-! ## Operations without their place -/

structure Instr where
  name : String
  attrs : List (String × Attr) := []
  operands : List Slot := []
  results : List (ValueId × Ty) := []

def instr (p : Program) (i : OpId) : Instr :=
  { name := (p.op i).name
    attrs := (p.op i).attrs
    operands := (p.op i).operands
    results := (p.op i).results.map fun v => (v, p.typeOf v) }

def Edit.Spec.code (s : Edit.Spec) (results : List (ValueId × Ty)) : Instr :=
  { name := s.name, attrs := s.attrs, operands := s.operands, results }

theorem instr_congr {p q : Program} {j : OpId} (ho : q.op j = p.op j)
    (ht : ∀ v ∈ (p.op j).results, q.typeOf v = p.typeOf v) : instr q j = instr p j := by
  simp only [instr, ho]
  congr 1
  exact List.map_congr_left fun v hv => by rw [ht v hv]

end Offload
