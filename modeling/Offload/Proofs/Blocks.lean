import Offload.Proofs.Writing

/-!
# New blocks

A new block stands at the end of a region, without operations, and its arguments are new values.
-/

namespace Offload

open Program List

variable {c : BlockId} {s : Option Ty} {v : ValueId}

namespace Edit

variable {p m q : Program} {i : OpId} {region : Nat} {b : BlockId} {ts : List Ty} {t : Ty}

structure NewBlock (i : OpId) (region : Nat) (ts : List Ty) (b : BlockId) (p q : Program) : Prop where
  id : b = ⟨p.blocks.size⟩
  ops : q.ops.size = p.ops.size
  blocks : q.blocks.size = p.blocks.size + 1
  values : q.values.size = p.values.size + ts.length
  room : region < (p.op i).regions.length
  self : q.op i = { p.op i with regions := (p.op i).regions.modify region (· ++ [b]) }
  other : ∀ j, j ≠ i → q.op j = p.op j
  here : q.block b = { owner := i, region, args := freshValues p ts.length }
  away : ∀ c, c ≠ b → q.block c = p.block c
  old : ∀ v, p.HasValue v → q.value v = p.value v
  new : ∀ k t, ts[k]? = some t → q.value ⟨p.values.size + k⟩ = ⟨t, .argument b k, []⟩
  present : .absent ∉ ts

namespace NewBlock

variable (h : NewBlock i region ts b p q)
include h

theorem not_hasBlock : ¬ p.HasBlock b := by
  rw [h.id]
  exact Nat.lt_irrefl _

theorem hasBlock : q.HasBlock c ↔ p.HasBlock c ∨ c = b := by
  obtain ⟨k⟩ := c
  rw [h.id]
  simp only [HasBlock, h.blocks, BlockId.mk.injEq]
  omega

theorem hasValue : q.HasValue v ↔ p.HasValue v ∨ ∃ k < ts.length, v = ⟨p.values.size + k⟩ := by
  obtain ⟨n⟩ := v
  simp only [HasValue, h.values, ValueId.mk.injEq]
  constructor
  · intro hn
    by_cases hp : n < p.values.size
    · exact .inl hp
    · exact .inr ⟨n - p.values.size, by omega, by omega⟩
  · rintro (hn | ⟨k, hk, rfl⟩) <;> omega

theorem op_eq (j : OpId) : q.op j = { p.op j with regions := (q.op j).regions } := by
  by_cases hj : j = i
  · subst hj; rw [h.self]
  · rw [h.other j hj]

theorem list (c : BlockId) : (q.block c).ops = (p.block c).ops := by
  by_cases hc : c = b
  · subst hc
    rw [h.here, block_of_not_hasBlock h.not_hasBlock]
    rfl
  · rw [h.away c hc]

theorem later : Later (· = i) (fun _ => False) p q where
  ops := Nat.le_of_eq h.ops.symm
  blocks := by rw [h.blocks]; exact Nat.le_succ _
  values := by rw [h.values]; exact Nat.le_add_right ..
  op j _ hj := h.other j hj
  list c _ _ := h.list c
  block c hc := by rw [h.away c fun hcb => h.not_hasBlock (hcb ▸ hc)]
  value v hv := by rw [h.old v hv]; exact ⟨rfl, rfl⟩

theorem grown (V : ValueId → Prop) : Grown V p q where
  unused v _ hu j := by
    rw [h.op_eq j]
    exact hu j
  creatable hp := by
    have hO : q.HasOp = p.HasOp := by unfold HasOp; rw [h.ops]
    have hlen : ∀ j, (q.op j).regions.length = (p.op j).regions.length := by
      intro j
      by_cases hj : j = i
      · rw [hj, h.self, length_modify]
      · rw [h.other j hj]
    refine ⟨fun j hj => ?_, fun j hj => ?_, fun v hv => ?_⟩
    · rw [h.op_eq j]
      exact hp.named j (hO ▸ hj)
    · rw [hlen]
      exact hp.room j (hO ▸ hj)
    · rcases h.hasValue.mp hv with hv | ⟨k, hk, rfl⟩
      · rw [typeOf, h.old v hv]
        exact hp.typed v hv
      · have hget := getElem?_eq_getElem hk
        rw [typeOf, h.new k _ hget]
        exact fun habs => h.present (mem_of_getElem? (hget.trans (congrArg some habs)))

theorem argTypes : q.argTypes b = ts := by
  rw [Program.argTypes, h.here]
  refine ext_getElem? fun k => ?_
  rw [getElem?_map]
  cases hk : ts[k]? with
  | none =>
    rw [List.getElem?_eq_none_iff] at hk
    rw [getElem?_eq_none (by simpa using hk)]
    rfl
  | some t =>
    rw [getElem?_freshValues.mpr ⟨(List.getElem?_eq_some_iff.mp hk).1, rfl⟩, Option.map_some, Program.typeOf,
      h.new k t hk]

theorem regions {j : OpId} {k : Nat} :
    (∃ bs, (q.op j).regions[k]? = some bs ∧ c ∈ bs) ↔
      (∃ bs, (p.op j).regions[k]? = some bs ∧ c ∈ bs) ∨ (j = i ∧ k = region ∧ c = b) := by
  by_cases hj : j = i
  · subst hj
    rw [h.self]
    simp only [getElem?_modify, true_and]
    by_cases hk : region = k
    · subst hk
      simp [getElem?_eq_getElem h.room]
    · cases (p.op j).regions[k]? <;> simp [hk, Ne.symm hk]
  · simp [h.other j hj, hj]

theorem consistent (hp : p.Consistent) : q.Consistent := by
  have hnew : ∀ v, ¬ p.HasValue v → (q.value v).uses = [] := by
    intro v hv
    by_cases hq : q.HasValue v
    · obtain ⟨k, hk, rfl⟩ := (h.hasValue.mp hq).resolve_left hv
      rw [h.new k _ (getElem?_eq_getElem hk)]
    · rw [value_of_not_hasValue hq]
      rfl
  constructor
  · intro v u
    rw [h.op_eq]
    by_cases hv : p.HasValue v
    · rw [h.old v hv, hp.uses]
    · rw [hnew v hv, if_neg fun hu => hv (hp.hasValue_operand (mem_of_getElem? hu))]
      rfl
  · intro j c
    rw [h.op_eq, h.list]
    exact hp.listed j c
  · intro c
    rw [h.list]
    exact hp.once c

theorem wellFormed (wf : p.WellFormed) : q.WellFormed := by
  have hq := h.consistent wf.consistent
  refine ⟨hq.uses, hq.listed, hq.once, ?_, ?_, ?_, ?_, ?_⟩
  · intro j k c
    rw [h.regions, wf.region, h.hasBlock]
    by_cases hc : c = b
    · subst hc
      simp [h.not_hasBlock, h.here, eq_comm]
    · simp [hc, h.away c hc]
  · intro j bs hbs
    by_cases hj : j = i
    · subst hj
      rw [h.self] at hbs
      obtain ⟨k, hk⟩ := getElem?_of_mem hbs
      rw [getElem?_modify] at hk
      by_cases hr : region = k
      · subst hr
        simp only [getElem?_eq_getElem h.room, if_true, Option.map_eq_map, Option.map_some,
          Option.some.injEq] at hk
        have hmem := getElem_mem h.room
        subst hk
        refine nodup_append.mpr ⟨wf.regionOnce j _ hmem, by simp, fun c hc d hd hcd => ?_⟩
        obtain rfl := mem_singleton.mp hd
        exact h.not_hasBlock (hcd ▸ ((wf.region j _ c).mp ⟨_, getElem?_eq_getElem h.room, hc⟩).1)
      · simp only [hr, if_false] at hk
        cases hp : (p.op j).regions[k]? with
        | none => simp [hp] at hk
        | some cs =>
          simp only [hp, Option.map_eq_map, Option.map_some, Option.some.injEq] at hk
          exact hk ▸ wf.regionOnce j cs (mem_of_getElem? hp)
    · rw [h.other j hj] at hbs
      exact wf.regionOnce j bs hbs
  · intro j k v
    rw [h.op_eq, wf.result]
    by_cases hv : p.HasValue v
    · simp [hv, h.hasValue, h.old v hv]
    · simp only [hv, false_and, false_iff, not_and]
      intro hq
      obtain ⟨k, hk, rfl⟩ := (h.hasValue.mp hq).resolve_left hv
      rw [h.new k _ (getElem?_eq_getElem hk)]
      simp
  · intro c k v
    by_cases hv : p.HasValue v
    · rw [h.old v hv]
      by_cases hc : c = b
      · subst hc
        rw [h.here, getElem?_freshValues]
        constructor
        · rintro ⟨hk, rfl⟩
          exact absurd hv (by simp [HasValue])
        · rintro ⟨_, hs⟩
          have := (wf.argument c k v).mpr ⟨hv, hs⟩
          rw [block_of_not_hasBlock h.not_hasBlock] at this
          cases this
      · rw [h.away c hc, wf.argument]
        simp [hv, h.hasValue]
    · rw [h.hasValue]
      simp only [hv, false_or]
      by_cases hc : c = b
      · subst hc
        rw [h.here, getElem?_freshValues]
        constructor
        · rintro ⟨hk, rfl⟩
          exact ⟨⟨k, hk, rfl⟩, by rw [h.new k _ (getElem?_eq_getElem hk)]⟩
        · rintro ⟨⟨l, hl, rfl⟩, hs⟩
          rw [h.new l _ (getElem?_eq_getElem hl)] at hs
          cases hs
          exact ⟨hl, rfl⟩
      · rw [h.away c hc, wf.argument]
        simp only [hv, false_and, false_iff]
        rintro ⟨⟨l, hl, rfl⟩, hs⟩
        rw [h.new l _ (getElem?_eq_getElem hl)] at hs
        cases hs
        exact hc rfl
  · obtain ⟨depth, hd⟩ := wf.nesting
    refine ⟨depth, fun j a hp => hd j a ?_⟩
    obtain ⟨c, hc, ho⟩ := parent?_eq_some.mp hp
    rw [h.op_eq] at hc
    have hcb : c ≠ b := by
      rintro rfl
      exact h.not_hasBlock (wf.hasBlock_of_block hc)
    rw [h.away c hcb] at ho
    exact parent?_eq_some.mpr ⟨c, hc, ho⟩

end NewBlock

theorem addArgument_ok (h : NewBlock i region ts b p m) (ha : addArgument b s m = .ok v q) :
    ∃ t, s = some t ∧ v = ⟨p.values.size + ts.length⟩ ∧ NewBlock i region (ts ++ [t]) b p q := by
  rw [addArgument] at ha
  cases hs : s.bind Ty.present? with
  | none =>
    simp only [hs, throw_ok] at ha
  | some t =>
    obtain ⟨u, rfl, hu⟩ := Option.bind_eq_some_iff.mp hs
    obtain ⟨rfl, hpres⟩ := present?_eq_some.mp hu
    simp only [hs, bind_ok, getBlock_ok, pushValue_ok, modifyBlock_ok, pure_ok] at ha
    obtain ⟨_, m, ⟨rfl, rfl⟩, _, _, ⟨rfl, rfl⟩, _, _, rfl, rfl, rfl⟩ := ha
    have hb : m.HasBlock b := h.hasBlock.mpr (.inr rfl)
    refine ⟨u, rfl, by rw [h.values], h.id, h.ops, by simpa [withBlock, addValue] using h.blocks, ?_, h.room, h.self,
      h.other, ?_, ?_, ?_, ?_, by simp [h.present, Ne.symm hpres]⟩
    · simp only [withBlock, addValue, Array.size_push, h.values, length_append, length_singleton]
      omega
    · rw [block_withBlock, if_pos ⟨rfl, by simpa using hb⟩]
      simp only [block_addValue, h.here, length_append, length_singleton, h.values, freshValues_snoc]
    · intro c hc
      rw [block_withBlock, if_neg fun hcb => hc hcb.1]
      exact h.away c hc
    · intro v hv
      rw [value_withBlock, value_addValue, if_neg]
      · exact h.old v hv
      · rintro rfl
        simp only [HasValue, h.values] at hv
        omega
    · intro k t hk
      rw [value_withBlock, value_addValue, h.values]
      by_cases hlt : k < ts.length
      · rw [getElem?_append_left hlt] at hk
        rw [if_neg (by simp; omega)]
        exact h.new k t hk
      · have hk' := (List.getElem?_eq_some_iff.mp hk).1
        rw [length_append, length_singleton] at hk'
        obtain rfl : k = ts.length := by omega
        obtain rfl : t = u := by simpa [eq_comm] using hk
        rw [if_pos rfl, h.here, length_freshValues]

theorem addArguments_ok : ∀ {us : List (Option Ty)} {ts : List Ty} {m : Program}, NewBlock i region ts b p m →
    (us.forM fun u => discard (addArgument b u)) m = .ok () q →
      ∃ vs, us = vs.map some ∧ NewBlock i region (ts ++ vs) b p q
  | [], ts, m, h, ha => by
    simp only [forM_eq_forM, forM_nil, pure_ok] at ha
    exact ⟨[], rfl, by simpa [← ha.2] using h⟩
  | u :: us, ts, m, h, ha => by
    simp only [forM_eq_forM, forM_cons, bind_ok, discard_ok] at ha
    obtain ⟨_, m', ⟨v, ha⟩, hs⟩ := ha
    obtain ⟨t, rfl, -, h'⟩ := addArgument_ok h ha
    obtain ⟨vs, rfl, hv⟩ := addArguments_ok h' hs
    exact ⟨t :: vs, rfl, by simpa using hv⟩

private theorem addArgument_withOp (f : Op → Op) (h : addArgument b s m = .ok v q) :
    addArgument b s (m.withOp i f) = .ok v (q.withOp i f) := by
  rw [addArgument] at h ⊢
  cases hs : s.bind Ty.present? with
  | none => simp only [hs, throw_ok] at h
  | some t =>
    simp only [hs, bind_ok, getBlock_ok, pushValue_ok, modifyBlock_ok, pure_ok] at h ⊢
    obtain ⟨_, m, ⟨rfl, rfl⟩, _, _, ⟨rfl, rfl⟩, _, _, rfl, rfl, rfl⟩ := h
    exact ⟨_, _, ⟨rfl, rfl⟩, _, _, ⟨rfl, rfl⟩, (), _, rfl, rfl, rfl⟩

private theorem addArguments_withOp (f : Op → Op) : ∀ {us : List (Option Ty)} {m : Program},
    (us.forM fun u => discard (addArgument b u)) m = .ok () q →
      (us.forM fun u => discard (addArgument b u)) (m.withOp i f) = .ok () (q.withOp i f)
  | [], m, h => by
    simp only [forM_eq_forM, forM_nil, pure_ok, true_and] at h ⊢
    rw [h]
  | u :: us, m, h => by
    simp only [forM_eq_forM, forM_cons, bind_ok, discard_ok] at h ⊢
    obtain ⟨_, m', ⟨v, ha⟩, hs⟩ := h
    exact ⟨(), _, ⟨v, addArgument_withOp f ha⟩, addArguments_withOp f hs⟩

theorem newBlock_ok {us : List (Option Ty)} (hi : p.HasOp i) (h : newBlock i region us p = .ok b q) :
    ∃ ts, us = ts.map some ∧ NewBlock i region ts b p q := by
  simp only [newBlock, bind_ok, getOp_ok, ite_ok, throw_ok, false_and, exists_false, and_false, false_or,
    pushBlock_ok, modifyOp_ok, pure_ok] at h
  obtain ⟨_, p, ⟨rfl, rfl⟩, hlt, b, _, ⟨hb, rfl⟩, _, m, hm, _, _, rfl, rfl, rfl⟩ := h
  have hstart : NewBlock i region [] b p ((p.addBlock { owner := i, region }).withOp i
      fun o => { o with regions := o.regions.modify region (· ++ [b]) }) := by
    subst hb
    refine ⟨rfl, by simp [withOp, addBlock], by simp [withOp, addBlock], rfl, by
      omega, ?_, ?_, ?_, ?_, ?_, ?_, by simp⟩
    · rw [op_withOp, if_pos ⟨rfl, by simpa using hi⟩]
      rfl
    · intro j hj
      rw [op_withOp, if_neg fun h => hj h.1]
      rfl
    · rw [block_withOp, block_addBlock, if_pos rfl]
      rfl
    · intro c hc
      rw [block_withOp, block_addBlock, if_neg hc]
    · intro v _
      rfl
    · intro k t hk
      cases hk
  obtain ⟨ts, rfl, h⟩ := addArguments_ok hstart (addArguments_withOp _ hm)
  exact ⟨ts, rfl, h⟩

end Edit

end Offload
