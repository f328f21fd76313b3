import Offload.Proofs.Substitutions

/-!
# The lists stay in step

As long as the calls that build and change a program succeed, use lists agree with operands and block lists with
homes. Nesting need not end anywhere here: an operation can be put into its own region.
-/

namespace Offload

open Program List

namespace Edit

variable {p m q : Program} {i : OpId} {b : BlockId} {v : ValueId}

structure Kept (p q : Program) : Prop where
  consistent : q.Consistent
  ops : p.ops.size ≤ q.ops.size
  blocks : p.blocks.size ≤ q.blocks.size
  values : p.values.size ≤ q.values.size

namespace Kept

theorem refl (hp : p.Consistent) : Kept p p := ⟨hp, Nat.le_refl _, Nat.le_refl _, Nat.le_refl _⟩

theorem trans (h : Kept p m) (h' : Kept m q) : Kept p q :=
  ⟨h'.consistent, Nat.le_trans h.ops h'.ops, Nat.le_trans h.blocks h'.blocks, Nat.le_trans h.values h'.values⟩

theorem of_sameShape (h : SameShape p q) (hq : q.Consistent) : Kept p q :=
  ⟨hq, Nat.le_of_eq h.ops.symm, Nat.le_of_eq (by rw [h.blocks]), Nat.le_of_eq h.values.symm⟩

variable (h : Kept p q)
include h

theorem hasOp (hi : p.HasOp i) : q.HasOp i := Nat.lt_of_lt_of_le hi h.ops

theorem hasBlock (hb : p.HasBlock b) : q.HasBlock b := Nat.lt_of_lt_of_le hb h.blocks

theorem hasValue (hv : p.HasValue v) : q.HasValue v := Nat.lt_of_lt_of_le hv h.values

end Kept

/-! ## Single edits -/

section
variable (hp : p.Consistent)
include hp

theorem newOp_kept {s : Spec} (hs : ∀ v, some v ∈ s.operands → p.HasValue v) (h : newOp s p = .ok i q) :
    Kept p q ∧ q.HasOp i ∧ ∀ v ∈ (q.op i).results, q.HasValue v := by
  obtain ⟨ts, n, -, -, -, -, hn⟩ := newOp_ok hs h
  refine ⟨⟨hn.consistent hp, ?_, ?_, ?_⟩, ?_, fun v hv => ?_⟩
  · rw [hn.ops]; exact Nat.le_succ _
  · exact Nat.le_of_eq (by rw [hn.blocks])
  · rw [hn.values]; exact Nat.le_add_right ..
  · rw [HasOp, hn.ops, hn.id]; exact Nat.lt_succ_self _
  · rw [hn.self] at hv
    obtain ⟨k, hk⟩ := getElem?_of_mem hv
    obtain ⟨hlt, rfl⟩ := getElem?_freshValues.mp hk
    exact hn.hasValue.mpr (.inr ⟨k, hlt, rfl⟩)

theorem insertAt_kept {place : Nat} (hi : p.HasOp i) (hb : p.HasBlock b) (h : insertAt b place i p = .ok () q) :
    Kept p q :=
  have hins := insertAt_ok hi hb h
  ⟨hins.consistent hp, Nat.le_of_eq hins.ops.symm, Nat.le_of_eq hins.blocks.symm,
    Nat.le_of_eq (by rw [hins.values])⟩

theorem append_kept (hi : p.HasOp i) (hb : p.HasBlock b) (h : append b i p = .ok () q) : Kept p q := by
  simp only [append, bind_ok, getBlock_ok] at h
  obtain ⟨_, p, ⟨rfl, rfl⟩, h⟩ := h
  exact insertAt_kept hp hi hb h

theorem addArgument_kept {t : Option Ty} (h : addArgument b t p = .ok v q) : Kept p q ∧ q.HasValue v := by
  rw [addArgument] at h
  cases ht : t.bind Ty.present? with
  | none => simp only [ht, throw_ok] at h
  | some t =>
    simp only [ht, bind_ok, getBlock_ok, pushValue_ok, modifyBlock_ok, pure_ok] at h
    obtain ⟨_, p, ⟨rfl, rfl⟩, _, _, ⟨rfl, rfl⟩, _, _, rfl, rfl, rfl⟩ := h
    have hlist : ∀ c, (((p.addValue ⟨t, .argument b (p.block b).args.length, []⟩).withBlock b
        fun x => { x with args := x.args ++ [⟨p.values.size⟩] }).block c).ops = (p.block c).ops := by
      intro c
      rw [block_withBlock, block_addValue]
      split <;> rfl
    refine ⟨⟨⟨fun w u => ?_, fun j c => ?_, fun c => ?_⟩, Nat.le_refl _, ?_, ?_⟩, ?_⟩
    · -- the new value has no uses, and nothing can have had it as an operand
      rw [value_withBlock, value_addValue, op_withBlock, op_addValue]
      by_cases hw : w = ⟨p.values.size⟩
      · have hnot : (p.op u.op).operands[u.index]? ≠ some (some w) := fun hu => by
          have := hp.hasValue_operand (mem_of_getElem? hu)
          simp [HasValue, hw] at this
        rw [if_pos hw, if_neg hnot]
        rfl
      · rw [if_neg hw, hp.uses]
    · rw [hlist]
      exact hp.listed j c
    · rw [hlist]
      exact hp.once c
    · simp [withBlock, addValue]
    · simp [withBlock, addValue]
    · rw [hasValue_withBlock, hasValue_addValue]
      exact .inr rfl

theorem newBlock_kept {region : Nat} {ts : List (Option Ty)} (hi : p.HasOp i) (h : newBlock i region ts p = .ok b q) :
    Kept p q ∧ q.HasBlock b := by
  obtain ⟨ts, -, hn⟩ := newBlock_ok hi h
  refine ⟨⟨hn.consistent hp, Nat.le_of_eq hn.ops.symm, ?_, ?_⟩, hn.hasBlock.mpr (.inr rfl)⟩
  · rw [hn.blocks]; exact Nat.le_succ _
  · rw [hn.values]; exact Nat.le_add_right ..

theorem setOperand_kept {k : Int} {s : Slot} (hs : ∀ v, s = some v → p.HasValue v)
    (h : setOperand i k s p = .ok () q) : Kept p q :=
  have hr := (setOperand_ok hp hs h).2
  .of_sameShape hr.same hr.consistent

theorem replaceAllUses_kept {s : Slot} (hs : ∀ v, s = some v → p.HasValue v)
    (h : replaceAllUses v s p = .ok () q) : Kept p q := by
  cases s with
  | none => simp [replaceAllUses] at h
  | some w =>
    have hr := replaceAllUses_ok hp (hs w rfl) h
    exact .of_sameShape hr.same hr.consistent

theorem detach_kept (h : detach i p = .ok () q) : Kept p q :=
  have hd := detach_ok hp h
  ⟨hd.consistent hp, Nat.le_of_eq hd.ops.symm, Nat.le_of_eq hd.blocks.symm, Nat.le_of_eq (by rw [hd.values])⟩

theorem moveBefore_kept {other : OpId} (hi : p.HasOp i) (h : moveBefore i other p = .ok () q) : Kept p q := by
  simp only [moveBefore, bind_ok, getOp_ok] at h
  obtain ⟨_, _, hm, _, m, ⟨rfl, rfl⟩, h⟩ := h
  have hd := detach_kept hp hm
  cases hb : (m.op other).block with
  | none => simp [hb] at h
  | some b =>
    simp only [hb, bind_ok, placeIn_ok] at h
    obtain ⟨n, m, ⟨-, rfl⟩, h⟩ := h
    exact hd.trans (insertAt_kept hd.consistent (hd.hasOp hi) (hd.consistent.hasBlock_of_block hb) h)

theorem erase_kept (h : erase i p = .ok () q) : Kept p q := by
  simp only [erase, bind_ok, get_ok] at h
  obtain ⟨_, _, ⟨rfl, rfl⟩, _, p, ⟨rfl, rfl⟩, h⟩ := h
  cases hf : p.firstUsed? i with
  | some x => simp [hf] at h
  | none =>
    simp only [hf, bind_ok] at h
    obtain ⟨_, m, hm, h⟩ := h
    refine forM_keeps (P := Kept p) (fun j s t hs ht => ?_) _ m q (detach_kept hp hm) h
    have hd := dropOperands_ok hs.consistent ht
    exact hs.trans (.of_sameShape hd.same hd.consistent)

end

end Edit

/-! ## Copies -/

namespace Cloning

open Edit

variable {p q q' : Program} {m m' : Substitution} {dest : OpId} {region : Nat} {b c : BlockId}

def Images (m : Substitution) (p : Program) : Prop := ∀ v w, m.value? v = some w → p.HasValue w

theorem Images.mono (h : Images m p) (hk : Kept p q) : Images m q := fun v w hv => hk.hasValue (h v w hv)

theorem Images.addValue {v w : ValueId} (h : Images m p) (hw : p.HasValue w) : Images (m.addValue v w) p := by
  intro x y hx
  rw [Substitution.value?_addValue] at hx
  split at hx
  · exact Option.some.inj hx ▸ hw
  · exact h x y hx

theorem Images.addAll : ∀ {l : List (ValueId × ValueId)} {m : Substitution}, Images m p →
    (∀ x ∈ l, p.HasValue x.2) → Images (m.addAll l) p
  | [], _, h, _ => h
  | _ :: _, _, h, hl =>
    (h.addValue (hl _ (mem_cons_self ..))).addAll fun y hy => hl y (mem_cons_of_mem _ hy)

theorem Images.apply (h : Images m p) {v : ValueId} (hv : p.HasValue v) : p.HasValue (m.apply v) := by
  rw [Substitution.apply]
  cases hm : m.value? v with
  | none => exact hv
  | some w => exact h v w hm

def Grown (p : Program) (m : Substitution) (q : Program) : Prop := Kept p q ∧ Images m q

theorem Grown.trans (h : Grown p m q) (h' : Grown q m' q') : Grown p m' q' := ⟨h.1.trans h'.1, h'.2⟩

theorem cloneBlock_grown (hg : Grown p m q) (hd : q.HasOp dest) :
    Makes False (fun c m' q' => Grown p m' q' ∧ q'.HasBlock c) (cloneBlock dest region b) m q := by
  rw [cloneBlock]
  refine (Makes.lift ⟨fun _ _ => newBlock_kept hg.1.consistent hd, False.elim⟩).bind fun c n t h => ?_
  obtain ⟨rfl, hk, hcb⟩ := h
  refine .read (getBlock_ok.mpr ⟨rfl, rfl⟩) ?_
  refine (Makes.forIn (P := fun _ n u => Grown p n u ∧ u.HasBlock c) ?_
    _ ⟨hg.trans ⟨hk, hg.2.mono hk⟩, hcb⟩).bind
    fun _ _ _ h => .change (.pure h)
  rintro arg l n u ⟨hu, hcu⟩
  refine .read (getValue_ok.mpr ⟨rfl, rfl⟩) ?_
  refine (Makes.lift ⟨fun _ _ => addArgument_kept hu.1.consistent, False.elim⟩).bind fun w n u' h => ?_
  obtain ⟨rfl, ha, hw⟩ := h
  exact .change (.pure ⟨rfl, hu.trans ⟨ha, (hu.2.mono ha).addValue hw⟩, ha.hasBlock hcu⟩)

theorem openBlocks_grown : ∀ {bs : List BlockId} {m : Substitution} {p q : Program}, Grown p m q → q.HasOp dest →
    Makes False (fun cs m' q' => Grown p m' q' ∧ ∀ c ∈ cs, q'.HasBlock c) (bs.mapM (cloneBlock dest region)) m q
  | [], m, p, q, hg, _ => by
    rw [mapM_nil]
    exact .pure ⟨hg, by simp⟩
  | b :: bs, m, p, q, hg, hd => by
    rw [mapM_cons]
    refine (cloneBlock_grown ⟨.refl hg.1.consistent, hg.2⟩ hd).bind fun c m1 q1 h => ?_
    obtain ⟨h1, hc1⟩ := h
    refine (openBlocks_grown ⟨.refl h1.1.consistent, h1.2⟩ (h1.1.hasOp hd)).bind fun cs m' q' h => ?_
    obtain ⟨h2, hcs2⟩ := h
    refine .pure ⟨(hg.trans h1).trans h2, fun c' hc' => ?_⟩
    rcases mem_cons.mp hc' with rfl | hc'
    · exact h2.1.hasBlock hc1
    · exact hcs2 c' hc'

def Grows (g : OpId → Cloning OpId) : Prop :=
  ∀ x p m q, Grown p m q → Makes False (fun k m' q' => Grown p m' q' ∧ q'.HasOp k) (g x) m q

theorem cloneBlocks_grown {g : OpId → Cloning OpId} (hg : Grows g) {a : OpId} {k : Nat} (hm : Grown p m q)
    (hd : q.HasOp dest) : Makes False (fun _ m' q' => Grown p m' q') (cloneBlocks g a k dest region) m q := by
  have hblocks : ∀ m q, Makes False (fun _ m' q' => m' = m ∧ q' = q) (blocksOf a k) m q := fun m q =>
    ⟨fun _ _ h => (blocksOf_ok.mp h).2, False.elim⟩
  rw [cloneBlocks]
  refine (hblocks m q).bind fun bs m q h => ?_
  obtain ⟨rfl, rfl⟩ := h
  refine (openBlocks_grown hm hd).bind fun cs m1 q1 h => (hblocks m1 q1).bind fun bs' m1 q1 h' => ?_
  obtain ⟨rfl, rfl⟩ := h'
  -- both loops only append copies to the blocks that were just made
  refine (Makes.forIn (P := fun _ n u => Grown p n u ∧ ∀ c ∈ cs, u.HasBlock c) ?_ _ h).bind fun _ _ _ h =>
    .pure h.1
  rintro ⟨b, index⟩ l n u hP
  refine .read (getBlock_ok.mpr ⟨rfl, rfl⟩) ?_
  refine (Makes.forIn (P := fun _ n u => Grown p n u ∧ ∀ c ∈ cs, u.HasBlock c) ?_ _ hP).bind fun _ _ _ h =>
    .pure ⟨rfl, h⟩
  rintro x l n u ⟨hu, hcu⟩
  refine (hg x u n u ⟨.refl hu.1.consistent, hu.2⟩).bind fun k n1 t h => ?_
  obtain ⟨ht, hkt⟩ := h
  cases hc : cs[index]? with
  | none => exact (Makes.stop (Q := fun _ _ _ => False) id).bind fun _ _ _ h => h.elim
  | some c =>
    refine (Makes.lift ⟨fun _ _ => append_kept ht.1.consistent hkt
      (ht.1.hasBlock (hcu c (mem_of_getElem? hc))), False.elim⟩).bind fun _ n2 u' h => ?_
    obtain ⟨rfl, ha⟩ := h
    exact .pure ⟨rfl, (hu.trans ht).trans ⟨ha, ht.2.mono ha⟩,
      fun c hc => ha.hasBlock (ht.1.hasBlock (hcu c hc))⟩

theorem cloneFrom_grown : ∀ n, Grows (cloneFrom n)
  | 0 => fun _ _ _ _ _ => by
    rw [cloneFrom]
    exact .stop id
  | n + 1 => by
    intro x p m q hm
    rw [cloneFrom]
    refine .read (getOp_ok.mpr ⟨rfl, rfl⟩) (.step (current_ok.mpr ⟨rfl, rfl, rfl⟩)
      (.read (getThe_ok.mpr ⟨rfl, rfl⟩) ?_))
    refine (Makes.lift ⟨fun _ _ => newOp_kept hm.1.consistent fun w hw => ?_, False.elim⟩).bind fun k m t h => ?_
    · obtain ⟨s, hs, hsw⟩ := mem_map.mp hw
      obtain ⟨v, rfl, rfl⟩ := Option.map_eq_some_iff.mp hsw
      exact hm.2.apply (hm.1.consistent.hasValue_operand hs)
    obtain ⟨rfl, hk, hkt, hres⟩ := h
    refine .read (getOp_ok.mpr ⟨rfl, rfl⟩) (.change ?_)
    have hm1 : Images (m.addAll ((q.op x).results.zip (t.op k).results)) t :=
      (hm.2.mono hk).addAll fun y hy => hres _ (of_mem_zip hy).2
    refine (Makes.forIn (P := fun _ n u => Grown p n u ∧ u.HasOp k) ?_ _ ⟨hm.trans ⟨hk, hm1⟩, hkt⟩).bind
      fun _ _ _ h => .pure h
    rintro index l o u ⟨hu, hku⟩
    exact (cloneBlocks_grown (cloneFrom_grown n) ⟨.refl hu.1.consistent, hu.2⟩ hku).bind fun _ _ _ hc =>
      .pure ⟨rfl, hu.trans hc, hc.1.hasOp hku⟩

end Cloning

/-! ## Calls -/

/-- What can be called to build and change a program. Nothing is said about the order. -/
inductive Call where
  | stand (b : Builder)
  | create (s : Edit.Spec)
  | insert (i : OpId)
  | newOp (s : Edit.Spec)
  | append (b : BlockId) (i : OpId)
  | addArgument (b : BlockId) (t : Option Ty)
  | newBlock (i : OpId) (region : Nat) (args : List (Option Ty))
  | setOperand (i : OpId) (index : Int) (v : Slot)
  | replaceAllUses (v : ValueId) (w : Slot)
  | clone (i : OpId) (m : Substitution)
  | cloneRegion (source : OpId) (region : Nat) (dest : OpId) (destRegion : Nat) (m : Substitution)
  | moveBefore (i other : OpId)
  | erase (i : OpId)

namespace Call

def run : Call → Build Unit
  | stand b => Build.setBuilder b
  | create s => discard (Build.create s)
  | insert i => Build.insert i
  | newOp s => discard (Build.edit (Edit.newOp s))
  | append b i => Build.edit (Edit.append b i)
  | addArgument b t => discard (Build.edit (Edit.addArgument b t))
  | newBlock i region args => discard (Build.edit (Edit.newBlock i region args))
  | setOperand i index v => Build.edit (Edit.setOperand i index v)
  | replaceAllUses v w => Build.edit (Edit.replaceAllUses v w)
  | clone i m => discard (Build.edit (Edit.clone i m))
  | cloneRegion source region dest destRegion m =>
    discard (Build.edit (Edit.cloneRegion source region dest destRegion m))
  | moveBefore i other => Build.edit (Edit.moveBefore i other)
  | erase i => Build.edit (Edit.erase i)

def Fits (p : Program) : Call → Prop
  | stand b => ∀ x ∈ b.block, p.HasBlock x
  | create s | newOp s => ∀ x ∈ s.operands, ∀ v ∈ x, p.HasValue v
  | insert i | erase i => p.HasOp i
  | append b i => p.HasBlock b ∧ p.HasOp i
  | addArgument b _ => p.HasBlock b
  | newBlock i _ _ => p.HasOp i
  | setOperand i _ v => p.HasOp i ∧ ∀ w ∈ v, p.HasValue w
  | replaceAllUses v w => p.HasValue v ∧ ∀ x ∈ w, p.HasValue x
  | clone i m => p.HasOp i ∧ ∀ x ∈ m.values, p.HasValue x.2
  | cloneRegion source _ dest _ m => p.HasOp source ∧ p.HasOp dest ∧ ∀ x ∈ m.values, p.HasValue x.2
  | moveBefore i other => p.HasOp i ∧ p.HasOp other

instance (p : Program) (c : Call) : Decidable (c.Fits p) := by
  cases c <;> dsimp only [Fits] <;> infer_instance

end Call

/-- The programs and builders that successful calls lead to from nothing. -/
inductive Reached : Construction → Prop
  | start : Reached { program := {} }
  | call {c d : Construction} (x : Call) : Reached c → x.Fits c.program → x.run c = .ok () d → Reached d

/-- What successful calls keep: the lists agree, and the builder stands in a block that is there. -/
structure Standing (c : Construction) : Prop where
  consistent : c.program.Consistent
  block : ∀ b ∈ c.builder.block, c.program.HasBlock b

section
variable {c d : Construction}

theorem Standing.edit {α : Type} {x : Edit α} {a : α} (hc : Standing c)
    (hx : ∀ q, x c.program = .ok a q → Edit.Kept c.program q) (h : Build.edit x c = .ok a d) : Standing d := by
  obtain ⟨q, hq, rfl⟩ := Build.edit_ok.mp h
  exact ⟨(hx q hq).consistent, fun b hb => (hx q hq).hasBlock (hc.block b hb)⟩

theorem Standing.insert {i : OpId} (hc : Standing c) (hi : c.program.HasOp i) (h : Build.insert i c = .ok () d) :
    Standing d := by
  simp only [Build.insert, bind_ok, get_ok] at h
  obtain ⟨_, c, ⟨rfl, rfl⟩, h⟩ := h
  cases hb : c.builder.block with
  | none =>
    simp only [hb, modify_ok] at h
    subst h
    exact ⟨hc.consistent, hc.block⟩
  | some b =>
    simp only [hb, bind_ok, Build.liftEdit_ok, Build.setPoint_ok, modify_ok] at h
    obtain ⟨_, _, ⟨q, hq, rfl⟩, _, _, rfl, rfl⟩ := h
    have hB := hc.block b hb
    have hk := Edit.insertAt_kept hc.consistent hi hB hq
    refine ⟨hk.consistent, fun x hx => ?_⟩
    obtain rfl : b = x := by simpa using hx
    exact hk.hasBlock hB

theorem Standing.create {s : Edit.Spec} {i : OpId} (hc : Standing c)
    (hs : ∀ v, some v ∈ s.operands → c.program.HasValue v) (h : Build.create s c = .ok i d) : Standing d := by
  simp only [Build.create, bind_ok, get_ok, Build.liftEdit_ok, pure_ok] at h
  obtain ⟨_, c, ⟨rfl, rfl⟩, j, _, ⟨q, hq, rfl⟩, _, d, hins, rfl, rfl⟩ := h
  obtain ⟨hk, hj, -⟩ := Edit.newOp_kept hc.consistent (by exact hs) hq
  exact Standing.insert (c := { c with program := q })
    ⟨hk.consistent, fun b hb => hk.hasBlock (hc.block b hb)⟩ hj hins

theorem Cloning.images_of_values {m : Substitution} {p : Program} (h : ∀ x ∈ m.values, p.HasValue x.2) :
    Cloning.Images m p := fun v w hv => h (v, w) (mem_of_lookup hv)

theorem Standing.call {x : Call} (hc : Standing c) (hx : x.Fits c.program) (h : x.run c = .ok () d) :
    Standing d := by
  have hp := hc.consistent
  cases x with
  | stand b =>
    rw [Call.run, Build.setBuilder_ok] at h
    exact h ▸ ⟨hp, hx⟩
  | create s =>
    obtain ⟨i, h⟩ := discard_ok.mp h
    exact hc.create (fun v hv => hx _ hv v rfl) h
  | insert i => exact hc.insert hx h
  | newOp s =>
    obtain ⟨i, h⟩ := discard_ok.mp h
    exact hc.edit (fun q hq => (Edit.newOp_kept hp (fun v hv => hx _ hv v rfl) hq).1) h
  | append b i => exact hc.edit (fun q hq => Edit.append_kept hp hx.2 hx.1 hq) h
  | addArgument b t =>
    obtain ⟨v, h⟩ := discard_ok.mp h
    exact hc.edit (fun q hq => (Edit.addArgument_kept hp hq).1) h
  | newBlock i region args =>
    obtain ⟨b, h⟩ := discard_ok.mp h
    exact hc.edit (fun q hq => (Edit.newBlock_kept hp hx hq).1) h
  | setOperand i index v => exact hc.edit (fun q hq => Edit.setOperand_kept hp hx.2 hq) h
  | replaceAllUses v w => exact hc.edit (fun q hq => Edit.replaceAllUses_kept hp hx.2 hq) h
  | clone i m =>
    obtain ⟨a, h⟩ := discard_ok.mp h
    refine hc.edit (fun q hq => ?_) h
    simp only [Edit.clone, bind_ok, get_ok] at hq
    obtain ⟨_, _, ⟨rfl, rfl⟩, hq⟩ := hq
    exact ((Cloning.cloneFrom_grown _ i _ m _ ⟨.refl hp, Cloning.images_of_values hx.2⟩).ok a q hq).1.1
  | cloneRegion source region dest destRegion m =>
    obtain ⟨a, h⟩ := discard_ok.mp h
    refine hc.edit (fun q hq => ?_) h
    simp only [Edit.cloneRegion, bind_ok, get_ok, ite_ok, throw_ok, and_false, false_and, exists_false, false_or,
      pure_ok] at hq
    obtain ⟨_, _, ⟨rfl, rfl⟩, _, _, ⟨rfl, rfl⟩, -, ⟨_, n⟩, q, hq, rfl, rfl⟩ := hq
    exact ((Cloning.cloneBlocks_grown (Cloning.cloneFrom_grown _) ⟨.refl hp, Cloning.images_of_values hx.2.2⟩
      hx.2.1).ok _ q hq).1
  | moveBefore i other => exact hc.edit (fun q hq => Edit.moveBefore_kept hp hx.1 hq) h
  | erase i => exact hc.edit (fun q hq => Edit.erase_kept hp hq) h

theorem Reached.standing (h : Reached c) : Standing c := by
  induction h with
  | start =>
    refine ⟨⟨fun v u => ?_, fun i b => ?_, fun b => ?_⟩, by simp⟩
    · simp [value, op]
    · simp [op, block]
    · simp [block]
  | call x _ hx hrun ih => exact ih.call hx hrun

end

/-- After any successful calls, the slot number `k` of `o` is listed once among the uses of the value it holds
and nowhere else, and `o` is listed once in the block it is in and nowhere else. -/
theorem reached_lists_agree {c : Construction} (h : Reached c) (v : ValueId) (o : OpId) (k : Nat) (b : BlockId) :
    ((c.program.value v).uses.count ⟨o, k⟩ = if (c.program.op o).operands[k]? = some (some v) then 1 else 0) ∧
    ((c.program.block b).ops.count o = if (c.program.op o).block = some b then 1 else 0) :=
  have hp := h.standing.consistent
  ⟨hp.uses v ⟨o, k⟩, hp.count_ops b o⟩

def performAll : List Call → Construction → Option Construction
  | [], c => some c
  | x :: xs, c =>
    if x.Fits c.program then
      match x.run c with
      | .ok _ d => performAll xs d
      | .error _ _ => none
    else none

theorem reached_of_performAll : ∀ {xs : List Call} {c d : Construction}, Reached c → performAll xs c = some d →
    Reached d
  | [], c, d, hc, h => by
    rw [performAll, Option.some.injEq] at h
    exact h ▸ hc
  | x :: xs, c, d, hc, h => by
    rw [performAll] at h
    split at h
    · rename_i hx
      split at h
      · rename_i hrun
        exact reached_of_performAll (.call x hc hx hrun) h
      · cases h
    · cases h

/-- An operation that uses a value twice is copied, moved and erased, after the value was replaced. -/
def rewiring : List Call := [
  .newOp { name := "builtin.module", regions := 1 },
  .newBlock 0 0 [some .index],
  .stand { block := some 0 },
  .create { name := "test.pure", results := [some .index] },
  .create { name := "test.two", operands := [some 1, some 1] },
  .replaceAllUses 1 (some 0),
  .clone 2 { values := [(0, 1)] },
  .append 0 3,
  .setOperand 3 1 (some 0),
  .moveBefore 3 2,
  .erase 2]

theorem reached_lists_agree_rewiring : ∃ c, performAll rewiring { program := {} } = some c ∧
    (c.program.value 0).uses = [⟨3, 1⟩] ∧ (c.program.block 0).ops = [1, 3] ∧
    ∀ v o k b,
      ((c.program.value v).uses.count ⟨o, k⟩ = if (c.program.op o).operands[k]? = some (some v) then 1 else 0) ∧
      ((c.program.block b).ops.count o = if (c.program.op o).block = some b then 1 else 0) := by
  obtain ⟨c, hc⟩ := Option.isSome_iff_exists.mp
    (show (performAll rewiring { program := {} }).isSome from by decide +kernel)
  refine ⟨c, hc, ?_, ?_, reached_lists_agree (reached_of_performAll .start hc)⟩
  · have h : (performAll rewiring { program := {} }).map (fun c => (c.program.value 0).uses) =
      some [⟨3, 1⟩] := by decide +kernel
    simpa [hc] using h
  · have h : (performAll rewiring { program := {} }).map (fun c => (c.program.block 0).ops) =
      some [1, 3] := by decide +kernel
    simpa [hc] using h

end Offload
