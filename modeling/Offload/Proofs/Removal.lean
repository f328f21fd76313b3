import Offload.Proofs.Operands

/-!
# Erasing operations

An erased operation leaves the list of its block, and every operand slot inside of it is emptied. It is
still there under its number, but nothing leads to it.
-/

namespace Offload

open Program List

namespace Edit

variable {p q : Program} {i : OpId} {b : BlockId}

theorem placeIn_ok {n : Nat} : placeIn b i p = .ok n q ↔ (p.block b).ops.idxOf? i = some n ∧ q = p := by
  simp only [placeIn, bind_ok, getBlock_ok]
  constructor
  · rintro ⟨_, p, ⟨rfl, rfl⟩, h⟩
    cases hn : (p.block b).ops.idxOf? i with
    | none => simp [hn] at h
    | some m =>
      simp only [hn, pure_ok] at h
      exact ⟨by rw [h.1], h.2.symm⟩
  · rintro ⟨h, rfl⟩
    exact ⟨_, _, ⟨rfl, rfl⟩, by simp [h]⟩

structure Detached (i : OpId) (p q : Program) : Prop where
  ops : q.ops.size = p.ops.size
  blocks : q.blocks.size = p.blocks.size
  values : q.values = p.values
  self : q.op i = { p.op i with block := none }
  other : ∀ j, j ≠ i → q.op j = p.op j
  block : ∀ c, q.block c = { p.block c with ops := (p.block c).ops.filter (· ≠ i) }

private theorem filter_ne_of_not_mem {α : Type} [DecidableEq α] {a : α} {l : List α} (h : a ∉ l) :
    l.filter (· ≠ a) = l :=
  filter_eq_self.mpr fun x hx => by simpa using fun hxa : x = a => h (hxa ▸ hx)

theorem detach_ok (hp : p.Consistent) (h : detach i p = .ok () q) : Detached i p q := by
  simp only [detach, bind_ok, getOp_ok] at h
  obtain ⟨_, p, ⟨rfl, rfl⟩, h⟩ := h
  have away : ∀ c, (p.op i).block ≠ some c → (p.block c).ops.filter (· ≠ i) = (p.block c).ops :=
    fun c hc => filter_ne_of_not_mem fun hm => hc ((hp.listed i c).mpr hm)
  cases hb : (p.op i).block with
  | none =>
    simp only [hb, pure_ok] at h
    obtain ⟨_, rfl⟩ := h
    refine ⟨rfl, rfl, rfl, ?_, fun _ _ => rfl, fun c => ?_⟩
    · rw [← hb]
    · rw [away c (by simp [hb])]
  | some b =>
    simp only [hb, bind_ok, placeIn_ok, modifyBlock_ok, modifyOp_ok] at h
    obtain ⟨n, p, ⟨hn, rfl⟩, _, _, rfl, rfl⟩ := h
    have hB := hp.hasBlock_of_block hb
    have hn' : (p.block b).ops.eraseIdx n = (p.block b).ops.filter (· ≠ i) := by
      have hidx : (p.block b).ops.idxOf i = n := (findIdx?_eq_some_iff_findIdx_eq.mp hn).2
      rw [← hidx, eraseIdx_idxOf_eq_erase, (hp.once b).erase_eq_filter]
      exact filter_congr fun x _ => by by_cases hx : x = i <;> simp [hx]
    refine ⟨by simp [withOp, withBlock], by simp [withOp, withBlock], rfl, ?_, ?_, ?_⟩
    · rw [op_withOp, if_pos ⟨rfl, by simpa using hasOp_of_block hb⟩, op_withBlock]
    · intro j hj
      rw [op_withOp, if_neg fun h => hj h.1, op_withBlock]
    · intro c
      rw [block_withOp, block_withBlock]
      by_cases hc : c = b
      · subst hc
        rw [if_pos ⟨rfl, hB⟩, hn']
      · rw [if_neg fun h => hc h.1, away c (by simp [hb, Ne.symm hc])]

namespace Detached

variable (h : Detached i p q)
include h

theorem op_eq (j : OpId) : q.op j = { p.op j with block := (q.op j).block } := by
  by_cases hj : j = i
  · subst hj; rw [h.self]
  · rw [h.other j hj]

theorem value (v : ValueId) : q.value v = p.value v := by
  rw [Program.value, Program.value, h.values]

theorem parent_of_parent {j m : OpId} (hp : q.parent? j = some m) : p.parent? j = some m := by
  obtain ⟨c, hc, ho⟩ := parent?_eq_some.mp hp
  rw [h.block] at ho
  refine parent?_eq_some.mpr ⟨c, ?_, ho⟩
  by_cases hj : j = i
  · subst hj
    rw [h.self] at hc
    cases hc
  · rwa [h.other j hj] at hc

theorem consistent (hp : p.Consistent) : q.Consistent := by
  constructor
  · intro v u
    rw [h.value, hp.uses, h.op_eq u.op]
  · intro j c
    rw [h.block]
    by_cases hj : j = i
    · subst hj
      simp [h.self]
    · simp [h.other j hj, hp.listed, hj]
  · intro c
    rw [h.block]
    exact (hp.once c).filter _

theorem wellFormed (wf : p.WellFormed) : q.WellFormed := by
  have hB : q.HasBlock = p.HasBlock := by unfold HasBlock; rw [h.blocks]
  have hV : q.HasValue = p.HasValue := by unfold HasValue; rw [h.values]
  have hq := h.consistent wf.consistent
  refine ⟨hq.uses, hq.listed, hq.once, ?_, ?_, ?_, ?_, ?_⟩
  · intro j k c
    rw [h.op_eq j, hB, h.block]
    exact wf.region j k c
  · intro j bs hbs
    rw [h.op_eq j] at hbs
    exact wf.regionOnce j bs hbs
  · intro j k v
    rw [h.op_eq j, hV, h.value]
    exact wf.result j k v
  · intro c k v
    rw [h.block, hV, h.value]
    exact wf.argument c k v
  · obtain ⟨depth, hd⟩ := wf.nesting
    exact ⟨depth, fun j m hp => hd j m (h.parent_of_parent hp)⟩

end Detached

structure Erased (i : OpId) (p q : Program) : Prop where
  ops : q.ops.size = p.ops.size
  blocks : q.blocks.size = p.blocks.size
  values : q.values.size = p.values.size
  unused : ∀ r ∈ (p.op i).results, (p.value r).uses = []
  inside : ∀ j, p.Within i j → q.op j =
    { p.op j with operands := (p.op j).operands.map fun _ => none, block := if j = i then none else (p.op j).block }
  outside : ∀ j, ¬ p.Within i j → q.op j = p.op j
  block : ∀ c, q.block c = { p.block c with ops := (p.block c).ops.filter (· ≠ i) }
  value : ∀ v, q.value v = { p.value v with uses := (q.value v).uses }
  wellFormed : q.WellFormed

private theorem dropAll : ∀ (l : List OpId) {p q : Program}, p.Consistent → l.Nodup →
    l.forM dropOperands p = .ok () q →
      SameShape p q ∧ q.Consistent ∧ (∀ j ∈ l, (q.op j).operands = (p.op j).operands.map fun _ => none) ∧
        ∀ j, j ∉ l → q.op j = p.op j
  | [], p, q, hp, _, h => by
    simp only [forM_eq_forM, forM_nil, pure_ok] at h
    obtain ⟨_, rfl⟩ := h
    exact ⟨.refl p, hp, by simp, fun _ _ => rfl⟩
  | i :: l, p, q, hp, hl, h => by
    obtain ⟨m, hm, h⟩ := forM_cons_ok.mp h
    obtain ⟨hi, hl⟩ := nodup_cons.mp hl
    have hd := dropOperands_ok hp hm
    obtain ⟨hs, hq, hin, hout⟩ := dropAll l hd.consistent hl h
    refine ⟨hd.same.trans hs, hq, fun j hj => ?_, fun j hj => ?_⟩
    · rcases mem_cons.mp hj with rfl | hj
      · rw [hout j hi, hd.self]
      · rw [hin j hj, hd.other j fun h => hi (h ▸ hj)]
    · rw [mem_cons, not_or] at hj
      rw [hout j hj.2, hd.other j hj.1]

theorem erase_ok (wf : p.WellFormed) (h : erase i p = .ok () q) : Erased i p q := by
  simp only [erase, bind_ok, get_ok] at h
  obtain ⟨_, _, ⟨rfl, rfl⟩, _, p, ⟨rfl, rfl⟩, h⟩ := h
  cases hf : p.firstUsed? i with
  | some x => simp [hf] at h
  | none =>
    simp only [hf, bind_ok] at h
    obtain ⟨_, m, hm, h⟩ := h
    have hd := detach_ok wf.consistent hm
    obtain ⟨hs, hq, hin, hout⟩ := dropAll _ (hd.consistent wf.consistent) (wf.nodup_nested i) h
    refine ⟨hs.ops.trans hd.ops, ?_, ?_, ?_, ?_, ?_, ?_, ?_, hs.wellFormed (hd.wellFormed wf) hq⟩
    · rw [hs.blocks, hd.blocks]
    · rw [hs.values, hd.values]
    · intro r hr
      rw [firstUsed?, Option.map_eq_none_iff, List.find?_eq_none] at hf
      simpa using hf r hr
    · intro j hj
      have ho := hin j (wf.mem_nested.mpr hj)
      have hq := hs.op j
      rw [ho] at hq
      rw [hq, hd.op_eq j]
      by_cases hji : j = i
      · subst hji
        simp [hd.self]
      · simp [hd.other j hji, hji]
    · intro j hj
      rw [hout j fun h => hj (wf.mem_nested.mp h), hd.other j fun h => hj (h ▸ .refl)]
    · intro c
      rw [hs.block, hd.block]
    · intro v
      rw [hs.value v, hd.value]

end Edit

end Offload
