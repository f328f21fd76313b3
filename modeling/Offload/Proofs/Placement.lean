import Offload.Proofs.Creation
import Offload.Proofs.Operands

/-!
# Operations in blocks

Listing a detached operation in a block keeps a program well formed, unless the block is inside of the
operation. Building at an insertion point is creating and listing.
-/

namespace Offload

open Program List

namespace Edit

variable {p q : Program} {i : OpId} {b : BlockId} {place : Nat}

structure Inserted (b : BlockId) (place : Nat) (i : OpId) (p q : Program) : Prop where
  detached : (p.op i).block = none
  le : place ≤ (p.block b).ops.length
  ops : q.ops.size = p.ops.size
  blocks : q.blocks.size = p.blocks.size
  values : q.values = p.values
  self : q.op i = { p.op i with block := some b }
  other : ∀ j, j ≠ i → q.op j = p.op j
  here : q.block b = { p.block b with ops := (p.block b).ops.insertIdx place i }
  away : ∀ c, c ≠ b → q.block c = p.block c

theorem insertAt_ok (hi : p.HasOp i) (hb : p.HasBlock b) (h : insertAt b place i p = .ok () q) :
    Inserted b place i p q := by
  simp only [insertAt, bind_ok, getOp_ok] at h
  obtain ⟨_, p, ⟨rfl, rfl⟩, h⟩ := h
  cases hbl : (p.op i).block with
  | some c => simp [hbl] at h
  | none =>
    simp only [hbl, Option.isSome_none, Bool.false_eq_true, if_false, bind_ok, getBlock_ok] at h
    obtain ⟨_, p, ⟨rfl, rfl⟩, h⟩ := h
    by_cases hlt : (p.block b).ops.length < place
    · simp [hlt] at h
    · simp only [hlt, if_false, bind_ok, modifyBlock_ok, modifyOp_ok] at h
      obtain ⟨_, _, rfl, rfl⟩ := h
      refine ⟨hbl, Nat.le_of_not_lt hlt, by simp [withOp, withBlock], by simp [withOp, withBlock], rfl,
        ?_, ?_, ?_, ?_⟩
      · rw [op_withOp, if_pos ⟨rfl, by simpa using hi⟩, op_withBlock]
      · intro j hj
        rw [op_withOp, if_neg fun h => hj h.1, op_withBlock]
      · rw [block_withOp, block_withBlock, if_pos ⟨rfl, hb⟩]
      · intro c hc
        rw [block_withOp, block_withBlock, if_neg fun h => hc h.1]

namespace Inserted

variable (h : Inserted b place i p q)
include h

theorem owner (c : BlockId) : (q.block c).owner = (p.block c).owner := by
  by_cases hc : c = b
  · subst hc; rw [h.here]
  · rw [h.away c hc]

theorem args (c : BlockId) : (q.block c).args = (p.block c).args := by
  by_cases hc : c = b
  · subst hc; rw [h.here]
  · rw [h.away c hc]

theorem value (v : ValueId) : q.value v = p.value v := by
  rw [Program.value, Program.value, h.values]

theorem op_eq (j : OpId) : q.op j = { p.op j with block := (q.op j).block } := by
  by_cases hj : j = i
  · subst hj; rw [h.self]
  · rw [h.other j hj]

theorem grown (V : ValueId → Prop) : Grown V p q where
  unused v _ hu j := by
    rw [h.op_eq j]
    exact hu j
  creatable hp := by
    have hO : q.HasOp = p.HasOp := by unfold HasOp; rw [h.ops]
    have hV : q.HasValue = p.HasValue := by unfold HasValue; rw [h.values]
    refine ⟨fun j hj => ?_, fun j hj => ?_, fun v hv => ?_⟩
    · rw [h.op_eq j]
      exact hp.named j (hO ▸ hj)
    · rw [h.op_eq j]
      exact hp.room j (hO ▸ hj)
    · rw [Program.typeOf, h.value]
      exact hp.typed v (hV ▸ hv)

theorem parent_self : q.parent? i = some (p.block b).owner := by
  rw [parent?, h.self]
  simp [h.owner]

theorem parent_other {j : OpId} (hj : j ≠ i) : q.parent? j = p.parent? j := by
  rw [parent?, parent?, h.other j hj]
  cases (p.op j).block with
  | none => rfl
  | some c => simp [h.owner]

theorem consistent (hp : p.Consistent) : q.Consistent := by
  have hfresh : ∀ c, i ∉ (p.block c).ops := by
    intro c hc
    have := (hp.listed i c).mpr hc
    rw [h.detached] at this
    cases this
  constructor
  · intro v u
    rw [h.value, hp.uses, h.op_eq u.op]
  · intro j c
    by_cases hj : j = i
    · subst hj
      rw [h.self]
      by_cases hc : c = b
      · subst hc
        rw [h.here]
        simpa using (mem_insertIdx h.le).mpr (.inl rfl)
      · rw [h.away c hc]
        simp [Ne.symm hc, hfresh c]
    · rw [h.other j hj, hp.listed]
      by_cases hc : c = b
      · subst hc
        rw [h.here, mem_insertIdx h.le]
        simp [hj]
      · rw [h.away c hc]
  · intro c
    by_cases hc : c = b
    · subst hc
      rw [h.here]
      exact (perm_insertIdx i _ h.le).nodup_iff.mpr (nodup_cons.mpr ⟨hfresh c, hp.once c⟩)
    · rw [h.away c hc]
      exact hp.once c

theorem wellFormed (wf : p.WellFormed) (hn : ¬ p.Within i (p.block b).owner) : q.WellFormed := by
  have hB : q.HasBlock = p.HasBlock := by unfold HasBlock; rw [h.blocks]
  have hV : q.HasValue = p.HasValue := by unfold HasValue; rw [h.values]
  have hregion : ∀ c, (q.block c).region = (p.block c).region := by
    intro c
    by_cases hc : c = b
    · subst hc; rw [h.here]
    · rw [h.away c hc]
  have hq := h.consistent wf.consistent
  refine ⟨hq.uses, hq.listed, hq.once, ?_, ?_, ?_, ?_, ?_⟩
  · intro j k c
    rw [h.op_eq j, hB, h.owner, hregion]
    exact wf.region j k c
  · intro j bs hbs
    rw [h.op_eq j] at hbs
    exact wf.regionOnce j bs hbs
  · intro j k v
    rw [h.op_eq j, hV, h.value]
    exact wf.result j k v
  · intro c k v
    rw [h.args, hV, h.value]
    exact wf.argument c k v
  · -- what is inside of `i` moves down below the owner of its new block
    classical
    obtain ⟨depth, hd⟩ := wf.nesting
    refine ⟨fun j => if p.Within i j then depth j + depth (p.block b).owner + 1 else depth j, fun j m hp => ?_⟩
    by_cases hj : j = i
    · subst hj
      rw [h.parent_self] at hp
      cases hp
      simp only [hn, if_false, Within.refl, if_true]
      omega
    · rw [h.parent_other hj] at hp
      have hlt := hd j m hp
      have : p.Within i j ↔ p.Within i m :=
        ⟨fun hw => by
          obtain ⟨m', hm', hw'⟩ := hw.of_ne (Ne.symm hj)
          rw [hp] at hm'
          cases hm'
          exact hw', .step hp⟩
      by_cases hw : p.Within i m
      · simp only [this.mpr hw, hw, if_true]
        omega
      · simp only [mt this.mp hw, hw, if_false]
        exact hlt

end Inserted

end Edit

namespace Build

variable {α : Type} {c c' : Construction} {a : α}

@[simp] theorem edit_ok {x : Edit α} :
    Build.edit x c = .ok a c' ↔ ∃ q, x c.program = .ok a q ∧ c' = { c with program := q } := by
  obtain ⟨p, b, l⟩ := c
  simp only [Build.edit]
  cases x p with
  | ok a q => simp; grind
  | error e q => simp

@[simp] theorem liftEdit_ok {x : Edit α} :
    (liftM x : Build α) c = .ok a c' ↔ ∃ q, x c.program = .ok a q ∧ c' = { c with program := q } := edit_ok

@[simp] theorem ofExcept_ok {x : Except Fault α} : ofExcept x c = .ok a c' ↔ x = .ok a ∧ c' = c := by
  cases x <;> simp [ofExcept, eq_comm]

@[simp] theorem liftExcept_ok {x : Except Fault α} :
    (liftM x : Build α) c = .ok a c' ↔ x = .ok a ∧ c' = c := ofExcept_ok

@[simp] theorem program_ok {p : Program} : Build.program c = .ok p c' ↔ p = c.program ∧ c' = c := by
  simp [Build.program]; grind

@[simp] theorem setBuilder_ok {b : Builder} {a : Unit} :
    setBuilder b c = .ok a c' ↔ c' = { c with builder := b } := by
  simp [setBuilder]

@[simp] theorem setPoint_ok {b : BlockId} {place : Nat} {a : Unit} :
    setPoint b place c = .ok a c' ↔ c' = { c with builder := { c.builder with block := some b, place } } := by
  simp [setPoint]

@[simp] theorem setLoc_ok {loc : String} {a : Unit} :
    setLoc loc c = .ok a c' ↔ c' = { c with builder := { c.builder with loc } } := by
  simp [setLoc]

theorem typeOf_ok {s : Slot} {t : Ty} :
    Build.typeOf s c = .ok t c' ↔ c.program.slotType? s = some t ∧ c' = c := by
  simp only [Build.typeOf, bind_ok, program_ok]
  constructor
  · rintro ⟨_, c, ⟨rfl, rfl⟩, h⟩
    cases ht : c.program.slotType? s with
    | none => simp [ht] at h
    | some u =>
      simp only [ht, pure_ok] at h
      exact ⟨by rw [h.1], h.2.symm⟩
  · rintro ⟨h, rfl⟩
    exact ⟨_, _, ⟨rfl, rfl⟩, by simp [h]⟩

theorem resultOf_ok {i : OpId} {k : Nat} {v : ValueId} :
    Build.resultOf i k c = .ok v c' ↔ (c.program.op i).results[k]? = some v ∧ c' = c := by
  simp only [Build.resultOf, bind_ok, liftEdit_ok, Edit.getOp_ok]
  constructor
  · rintro ⟨_, _, ⟨_, ⟨rfl, rfl⟩, rfl⟩, h⟩
    cases hv : (c.program.op i).results[k]? with
    | none => simp [hv] at h
    | some u =>
      simp only [hv, pure_ok] at h
      exact ⟨by rw [h.1], h.2.symm⟩
  · rintro ⟨h, rfl⟩
    exact ⟨_, _, ⟨_, ⟨rfl, rfl⟩, rfl⟩, by simp [h]⟩

theorem create_ok {s : Edit.Spec} {i : OpId} {b : BlockId} (hb : c.builder.block = some b) :
    Build.create s c = .ok i c' ↔
      ∃ m q, Edit.newOp { s with loc := if s.loc.isEmpty then c.builder.loc else s.loc } c.program = .ok i m ∧
        Edit.insertAt b c.builder.place i m = .ok () q ∧
        c' = { program := q, builder := { c.builder with place := c.builder.place + 1 },
               created := c.created ++ [i] } := by
  simp only [Build.create, Build.insert, bind_ok, get_ok, liftEdit_ok, pure_ok]
  constructor
  · rintro ⟨_, _, ⟨rfl, rfl⟩, _, _, ⟨m, hm, rfl⟩, _, _, ⟨_, _, ⟨rfl, rfl⟩, h⟩, rfl, rfl⟩
    simp only [hb, bind_ok, liftEdit_ok, setPoint_ok, modify_ok] at h
    obtain ⟨_, _, ⟨q, hq, rfl⟩, _, _, rfl, rfl⟩ := h
    exact ⟨m, q, hm, hq, by simp [hb]⟩
  · rintro ⟨m, q, hm, hq, rfl⟩
    refine ⟨_, _, ⟨rfl, rfl⟩, _, _, ⟨m, hm, rfl⟩, (), _, ⟨_, _, ⟨rfl, rfl⟩, ?_⟩, rfl, rfl⟩
    simp only [hb, bind_ok, liftEdit_ok, setPoint_ok, modify_ok]
    exact ⟨(), _, ⟨q, hq, rfl⟩, (), _, rfl, by simp⟩

end Build

end Offload
