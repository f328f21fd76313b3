import Offload.Proofs.Operands

/-!
# Checking that a program is well formed

`isWellFormed` looks at every operation, block and value once. What it accepts is well formed.
-/

namespace Offload.Program

open List

variable (p : Program)

def checkOp (i : OpId) : Bool :=
  (p.op i).operands.zipIdx.all (fun x => x.1.all fun v => decide (⟨i, x.2⟩ ∈ (p.value v).uses)) &&
  (p.op i).block.all (fun b => decide (i ∈ (p.block b).ops)) &&
  (p.op i).regions.zipIdx.all (fun x => decide x.1.Nodup &&
    x.1.all fun b => decide (p.HasBlock b ∧ (p.block b).owner = i ∧ (p.block b).region = x.2)) &&
  (p.op i).results.zipIdx.all (fun x => decide (p.HasValue x.1 ∧ (p.value x.1).source = .result i x.2)) &&
  (p.parent? i).all fun q => decide ((p.enclosing q).length < (p.enclosing i).length)

def checkBlock (b : BlockId) : Bool :=
  decide (p.block b).ops.Nodup &&
  (p.block b).ops.all (fun i => decide ((p.op i).block = some b)) &&
  (p.op (p.block b).owner).regions[(p.block b).region]?.any (·.contains b) &&
  (p.block b).args.zipIdx.all fun x => decide (p.HasValue x.1 ∧ (p.value x.1).source = .argument b x.2)

def checkValue (v : ValueId) : Bool :=
  decide (p.value v).uses.Nodup &&
  (p.value v).uses.all (fun u => decide ((p.op u.op).operands[u.index]? = some (some v))) &&
  match (p.value v).source with
  | .result i k => decide ((p.op i).results[k]? = some v)
  | .argument b k => decide ((p.block b).args[k]? = some v)

def isWellFormed : Bool :=
  (List.range p.ops.size).all (fun i => p.checkOp ⟨i⟩) &&
  (List.range p.blocks.size).all (fun b => p.checkBlock ⟨b⟩) &&
  (List.range p.values.size).all fun v => p.checkValue ⟨v⟩

variable {p}

private theorem of_all_zipIdx {α : Type} {l : List α} {f : α × Nat → Bool} (h : l.zipIdx.all f = true) {k : Nat}
    {a : α} (hk : l[k]? = some a) : f (a, k) = true :=
  all_eq_true.mp h _ (mem_zipIdx_iff_getElem?.mpr hk)

theorem WellFormed.of_check (h : p.isWellFormed = true) : p.WellFormed := by
  simp only [isWellFormed, Bool.and_eq_true, all_eq_true, mem_range] at h
  obtain ⟨⟨hop, hblock⟩, hvalue⟩ := h
  have operand : ∀ {i k v}, (p.op i).operands[k]? = some (some v) → ⟨i, k⟩ ∈ (p.value v).uses := by
    intro i k v hk
    by_cases hi : p.HasOp i
    · have := hop i.index hi
      simp only [checkOp, Bool.and_eq_true] at this
      simpa using of_all_zipIdx this.1.1.1.1 hk
    · simp [op_of_not_hasOp hi] at hk
  have used : ∀ v, (p.value v).uses.Nodup ∧
      ∀ u ∈ (p.value v).uses, (p.op u.op).operands[u.index]? = some (some v) := by
    intro v
    by_cases hv : p.HasValue v
    · have := hvalue v.index hv
      simp only [checkValue, Bool.and_eq_true, decide_eq_true_eq, all_eq_true] at this
      exact this.1
    · simp [value_of_not_hasValue hv]
  constructor
  · intro v u
    split
    · rename_i hu
      exact count_eq_one_of_mem (used v).1 (operand hu)
    · rename_i hu
      exact count_eq_zero.mpr fun hm => hu ((used v).2 u hm)
  · intro i b
    constructor
    · intro hb
      have := hop i.index (hasOp_of_block hb)
      simp only [checkOp, Bool.and_eq_true] at this
      simpa [hb] using this.1.1.1.2
    · intro hi
      have := hblock b.index (hasBlock_of_mem_ops hi)
      simp only [checkBlock, Bool.and_eq_true, all_eq_true, decide_eq_true_eq] at this
      exact this.1.1.2 i hi
  · intro b
    by_cases hb : p.HasBlock b
    · have := hblock b.index hb
      simp only [checkBlock, Bool.and_eq_true, decide_eq_true_eq] at this
      exact this.1.1.1
    · simp [block_of_not_hasBlock hb]
  · intro i k b
    constructor
    · rintro ⟨bs, hbs, hb⟩
      by_cases hi : p.HasOp i
      · have := hop i.index hi
        simp only [checkOp, Bool.and_eq_true] at this
        have := of_all_zipIdx this.1.1.2 hbs
        simp only [Bool.and_eq_true, all_eq_true, decide_eq_true_eq] at this
        exact this.2 b hb
      · simp [op_of_not_hasOp hi] at hbs
    · rintro ⟨hb, rfl, rfl⟩
      have := hblock b.index hb
      simp only [checkBlock, Bool.and_eq_true] at this
      have := this.1.2
      cases hr : (p.op (p.block b).owner).regions[(p.block b).region]? with
      | none => simp [hr] at this
      | some bs => exact ⟨bs, rfl, by simpa [hr] using this⟩
  · intro i bs hbs
    obtain ⟨k, hk⟩ := getElem?_of_mem hbs
    by_cases hi : p.HasOp i
    · have := hop i.index hi
      simp only [checkOp, Bool.and_eq_true] at this
      have := of_all_zipIdx this.1.1.2 hk
      simp only [Bool.and_eq_true, decide_eq_true_eq] at this
      exact this.1
    · simp [op_of_not_hasOp hi] at hk
  · intro i k v
    constructor
    · intro hk
      by_cases hi : p.HasOp i
      · have := hop i.index hi
        simp only [checkOp, Bool.and_eq_true] at this
        simpa using of_all_zipIdx this.1.2 hk
      · simp [op_of_not_hasOp hi] at hk
    · rintro ⟨hv, hs⟩
      have := hvalue v.index hv
      simp only [checkValue, Bool.and_eq_true] at this
      simpa [hs] using this.2
  · intro b k v
    constructor
    · intro hk
      by_cases hb : p.HasBlock b
      · have := hblock b.index hb
        simp only [checkBlock, Bool.and_eq_true] at this
        simpa using of_all_zipIdx this.2 hk
      · simp [block_of_not_hasBlock hb] at hk
    · rintro ⟨hv, hs⟩
      have := hvalue v.index hv
      simp only [checkValue, Bool.and_eq_true] at this
      simpa [hs] using this.2
  · refine ⟨fun i => (p.enclosing i).length, fun i q hp => ?_⟩
    have := hop i.index (hasOp_of_parent hp)
    simp only [checkOp, Bool.and_eq_true] at this
    simpa [hp] using this.2

end Offload.Program
