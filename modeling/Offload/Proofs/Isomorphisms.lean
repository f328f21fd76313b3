import Offload.Proofs.Counterparts

/-!
# Copies are isomorphic

`clone` makes a detached operation that is the same tree as the original. Operands that are defined inside are
replaced by their copies, the others by what the substitution says. Nothing of the original changes but the use
lists of what the copy uses.
-/

namespace Offload

open Program List

variable {In : Border} {v : ValueId}

namespace Program

def slotsOf (p : Program) (y : OpId) (v : ValueId) : List Use :=
  ((List.range (p.op y).operands.length).filter fun n => (p.op y).operands[n]? = some (some v)).map (Use.mk y)

theorem mem_slotsOf {p : Program} {y : OpId} {u : Use} :
    u ∈ p.slotsOf y v ↔ u.op = y ∧ (p.op y).operands[u.index]? = some (some v) := by
  simp only [slotsOf, mem_map, mem_filter, mem_range, decide_eq_true_eq]
  constructor
  · rintro ⟨n, ⟨-, hn⟩, rfl⟩
    exact ⟨rfl, hn⟩
  · rintro ⟨rfl, hn⟩
    exact ⟨u.index, ⟨(List.getElem?_eq_some_iff.mp hn).1, hn⟩, rfl⟩

theorem nodup_slotsOf (p : Program) (y : OpId) (v : ValueId) : (p.slotsOf y v).Nodup :=
  (nodup_range.filter _).map fun _ _ h => congrArg Use.index h

end Program

/-- `k` in `q` is a copy of `i` in `p`, along functions that say what stands for what. -/
structure IsCopy (p : Program) (i : OpId) (m : Substitution) (q : Program) (k : OpId) (onOp : OpId → OpId)
    (onBlock : BlockId → BlockId) (onValue : ValueId → ValueId) : Prop where
  wellFormed : q.WellFormed
  top : onOp i = k
  op : ∀ x, p.Within i x → q.HasOp (onOp x) ∧ ¬ p.HasOp (onOp x) ∧ q.op (onOp x) = { p.op x with
    operands := (p.op x).operands.map (Option.map onValue)
    results := (p.op x).results.map onValue
    regions := (p.op x).regions.map (List.map onBlock)
    block := if x = i then none else (p.op x).block.map onBlock }
  block : ∀ b, p.HasBlock b → p.Within i (p.block b).owner → q.HasBlock (onBlock b) ∧
    ¬ p.HasBlock (onBlock b) ∧ q.block (onBlock b) = {
      owner := onOp (p.block b).owner
      region := (p.block b).region
      args := (p.block b).args.map onValue
      ops := (p.block b).ops.map onOp }
  value : ∀ v, p.Defines i v → q.HasValue (onValue v) ∧ ¬ p.HasValue (onValue v) ∧
    q.typeOf (onValue v) = p.typeOf v
  /-- Values from outside are replaced as the substitution says. -/
  outside : ∀ v, ¬ p.Defines i v → onValue v = m.apply v
  /-- Different things have different copies. -/
  opInj : ∀ x y, p.Within i x → p.Within i y → onOp x = onOp y → x = y
  blockInj : ∀ b c, p.HasBlock b → p.HasBlock c → p.Within i (p.block b).owner →
    p.Within i (p.block c).owner → onBlock b = onBlock c → b = c
  valueInj : ∀ v w, p.Defines i v → p.Defines i w → onValue v = onValue w → v = w
  /-- The original is unchanged, and so is everything else but the use lists. -/
  original : Later (fun _ => False) (fun _ => False) p q
  /-- What was there gains the uses in the copy and no others. -/
  uses : ∀ v, p.HasValue v → (q.value v).uses.Perm ((p.value v).uses ++ (q.nested k).flatMap fun y => q.slotsOf y v)

namespace IsCopy

variable {p q : Program} {i k : OpId} {m : Substitution} {onOp : OpId → OpId} {onBlock : BlockId → BlockId}
  {onValue : ValueId → ValueId} {x : OpId} {b : BlockId}

theorem member (wf : p.WellFormed) (hx : p.Within i x) {bs : List BlockId} (hbs : bs ∈ (p.op x).regions)
    (hb : b ∈ bs) : p.HasBlock b ∧ p.Within i (p.block b).owner := by
  obtain ⟨hB, rfl⟩ := wf.owner_of_mem hbs hb
  exact ⟨hB, hx⟩

end IsCopy

namespace Cloning

variable {p q : Program} {i k : OpId} {m m' : Substitution} {n : Nat}

theorem Cloned.within_of_new (h : Cloned p (fun _ => False) In n i k m p m' q) {j : OpId} (hj : q.HasOp j)
    (hn : ¬ p.HasOp j) (wf : p.WellFormed) : q.Within k j := by
  have wfq := h.copying.wellFormed
  obtain ⟨depth, hd⟩ := wfq.nesting
  -- from a new operation upwards: its block is new, and so is the owner of the block
  induction hdj : depth j using Nat.strongRecOn generalizing j with
  | ind d ih =>
    cases hb : (q.op j).block with
    | none =>
      rcases h.loose j ⟨hj, hb⟩ with rfl | hold
      · exact .refl
      · exact absurd hold.1 hn
    | some c =>
      have hmem := (wfq.listed j c).mp hb
      have hc : ¬ p.HasBlock c := by
        intro hc
        rw [h.later.list c hc id] at hmem
        exact hn (hasOp_of_block ((wf.listed j c).mpr hmem))
      have hp : q.parent? j = some (q.block c).owner := parent?_eq_some.mpr ⟨c, hb, rfl⟩
      have ho : ¬ p.HasOp (q.block c).owner := by
        intro ho
        obtain ⟨cs, hcs, hcm⟩ := (wfq.region _ _ c).mpr ⟨wfq.hasBlock_of_block hb, rfl, rfl⟩
        rw [h.later.op _ ho id] at hcs
        exact hc ((wf.region _ _ c).mp ⟨cs, hcs, hcm⟩).1
      exact .step hp (ih _ (hdj ▸ hd j _ hp) (wfq.hasOp_parent hp) ho rfl)

theorem Cloned.uses (h : Cloned p (fun _ => False) In n i k m p m' q) (wf : p.WellFormed) :
    (q.value v).uses.Perm ((p.value v).uses ++ (q.nested k).flatMap fun y => q.slotsOf y v) := by
  have wfq := h.copying.wellFormed
  have hnew : ∀ j, q.Within k j → ¬ p.HasOp j := fun j hw hj =>
    not_within_new wf h.later (fun j hj => by rw [h.later.op j hj id]) h.new hj hw
  refine perm_iff_count.mpr fun u => ?_
  have hnodup : ((q.nested k).flatMap fun y => q.slotsOf y v).Nodup := by
    refine nodup_flatMap.mpr ⟨fun y _ => q.nodup_slotsOf y v, (wfq.nodup_nested k).imp fun hne u hu hu' => ?_⟩
    exact hne ((mem_slotsOf.mp hu).1.symm.trans (mem_slotsOf.mp hu').1)
  have hmem : u ∈ ((q.nested k).flatMap fun y => q.slotsOf y v) ↔
      q.Within k u.op ∧ (q.op u.op).operands[u.index]? = some (some v) := by
    simp only [mem_flatMap, mem_slotsOf, wfq.mem_nested]
    constructor
    · rintro ⟨y, hy, rfl, hs⟩
      exact ⟨hy, hs⟩
    · rintro ⟨hy, hs⟩
      exact ⟨_, hy, rfl, hs⟩
  rw [count_append, wfq.uses, wf.uses]
  by_cases ho : p.HasOp u.op
  · rw [count_eq_zero.mpr fun hu => hnew _ (hmem.mp hu).1 ho, h.later.op _ ho id, Nat.add_zero]
  · have hnone : (p.op u.op).operands[u.index]? ≠ some (some v) := by simp [op_of_not_hasOp ho]
    rw [if_neg hnone, Nat.zero_add]
    split
    · rename_i hheld
      have hq : q.HasOp u.op := by
        by_contra hq
        simp [op_of_not_hasOp hq] at hheld
      exact (count_eq_one_of_mem hnodup (hmem.mpr ⟨h.within_of_new hq ho wf, hheld⟩)).symm
    · rename_i hheld
      exact (count_eq_zero.mpr fun hu => hheld (hmem.mp hu).2).symm

structure Follows (p q : Program) (i k : OpId) (onOp : OpId → OpId) (onBlock : BlockId → BlockId) : Prop where
  op : ∀ {x y}, Counterpart p q i k x y → y = onOp x
  block : ∀ {b c}, BlockCounterpart p q i k b c → c = onBlock b

section
variable {φ : ValueId → ValueId} {lo hi : Nat} {onOp : OpId → OpId} {onBlock : BlockId → BlockId}
    {x : OpId} {b : BlockId}
  (hcop : Copied (fun v w => w = φ v) p q lo hi n i k) (wf : p.WellFormed)
include hcop wf

theorem Copied.exists_follows : ∃ onOp onBlock, Follows p q i k onOp onBlock := by
  choose onOp hop using fun x => (show ∃ y, p.Within i x → Counterpart p q i k x y by
    by_cases hx : p.Within i x
    · obtain ⟨y, hy⟩ := hcop.exists_counterpart wf hx
      exact ⟨y, fun _ => hy⟩
    · exact ⟨x, fun hx' => absurd hx' hx⟩)
  choose onBlock hblock using fun b => (show ∃ c, p.HasBlock b → p.Within i (p.block b).owner →
      BlockCounterpart p q i k b c by
    by_cases hb : p.HasBlock b ∧ p.Within i (p.block b).owner
    · obtain ⟨c, hc⟩ := hcop.exists_block wf (hcop.exists_counterpart wf hb.2) hb.1
      exact ⟨c, fun _ _ => hc⟩
    · exact ⟨b, fun h1 h2 => absurd ⟨h1, h2⟩ hb⟩)
  refine ⟨onOp, onBlock, fun hxy => hxy.unique wf (hop _ (hxy.within wf)), fun hbc => ?_⟩
  obtain ⟨hB, hw, -⟩ := hbc.owner wf
  exact hbc.unique wf (hblock _ hB hw)

variable (hf : Follows p q i k onOp onBlock)
include hf

theorem Copied.counterpart_onOp (hx : p.Within i x) : Counterpart p q i k x (onOp x) := by
  obtain ⟨y, hy⟩ := hcop.exists_counterpart wf hx
  exact hf.op hy ▸ hy

theorem Copied.counterpart_onBlock (hB : p.HasBlock b) (hw : p.Within i (p.block b).owner) :
    BlockCounterpart p q i k b (onBlock b) := by
  obtain ⟨c, hc⟩ := hcop.exists_block wf (hcop.exists_counterpart wf hw) hB
  exact hf.block hc ▸ hc

variable (wfq : q.WellFormed)
include wfq

theorem Copied.op_eq (hd : (q.op k).block = none) (hx : p.Within i x) (hloc : (p.op x).loc ≠ "") :
    lo ≤ (onOp x).index ∧ q.HasOp (onOp x) ∧ q.op (onOp x) = { p.op x with
      operands := (p.op x).operands.map (Option.map φ)
      results := (p.op x).results.map φ
      regions := (p.op x).regions.map (List.map onBlock)
      block := if x = i then none else (p.op x).block.map onBlock } := by
  have hxy := hcop.counterpart_onOp wf hf hx
  obtain ⟨l, hnew, hk, hcopy, hregions⟩ := hcop.counterpart hxy
  have operands : (q.op (onOp x)).operands = (p.op x).operands.map (Option.map φ) := by
    refine eq_map_of_alongside hcopy.operands.length_eq fun s t hst => ?_
    cases hst.rel hcopy.operands with
    | some h => rw [h, Option.map_some]
    | none => rfl
  have results : (q.op (onOp x)).results = (p.op x).results.map φ :=
    eq_map_of_alongside hcopy.results.length_eq fun v w hvw => hvw.rel hcopy.results
  have regions : (q.op (onOp x)).regions = (p.op x).regions.map (List.map onBlock) :=
    eq_map_of_alongside hregions.length_eq fun bs cs hr =>
      eq_map_of_alongside (hr.rel hregions).length_eq fun b c hb => hf.block ⟨x, _, bs, cs, hxy, hr, hb⟩
  have block : (q.op (onOp x)).block = if x = i then none else (p.op x).block.map onBlock := by
    split
    · rename_i hxi
      rw [hxi, ← hf.op .top, hd]
    · rename_i hxi
      cases hxy with
      | top => exact absurd rfl hxi
      | under hae hr hb hlist =>
        rw [(wf.listed _ _).mpr hlist.mem.1, (wfq.listed _ _).mpr hlist.mem.2, Option.map_some,
          hf.block ⟨_, _, _, _, hae, hr, hb⟩]
  refine ⟨hnew, hk, ?_⟩
  rw [← operands, ← results, ← regions, ← block]
  dsimp only
  rw [← hcopy.name, ← hcopy.loc hloc, ← hcopy.attrs]

theorem Copied.block_eq (hB : p.HasBlock b) (hw : p.Within i (p.block b).owner) :
    hi ≤ (onBlock b).index ∧ q.HasBlock (onBlock b) ∧ q.block (onBlock b) = {
      owner := onOp (p.block b).owner
      region := (p.block b).region
      args := (p.block b).args.map φ
      ops := (p.block b).ops.map onOp } := by
  have hbc := hcop.counterpart_onBlock wf hf hB hw
  obtain ⟨l, hnew, hc, hargs, hops⟩ := hcop.blockCounterpart hbc
  have args : (q.block (onBlock b)).args = (p.block b).args.map φ :=
    eq_map_of_alongside hargs.length_eq fun v w hvw => hvw.rel hargs
  have ops : (q.block (onBlock b)).ops = (p.block b).ops.map onOp :=
    eq_map_of_alongside hops.length_eq fun x y hxy => hf.op (.under_block hbc hxy)
  obtain ⟨a, e, bs, cs, hae, ⟨j, hj, hj'⟩, hb'⟩ := hbc
  obtain ⟨-, rfl, hreg⟩ := (wf.region a j b).mp ⟨bs, hj, hb'.mem.1⟩
  obtain ⟨-, howner, hreg'⟩ := (wfq.region e j (onBlock b)).mp ⟨cs, hj', hb'.mem.2⟩
  refine ⟨hnew, hc, ?_⟩
  rw [← args, ← ops, ← hf.op hae, ← howner, hreg, ← hreg']

end

theorem Cloned.isCopy (wf : p.WellFormed) (hloc : ∀ x, p.Within i x → (p.op x).loc ≠ "")
    (h : Cloned p (fun _ => False) ⟨p.Defines i, m.apply⟩ n i k m p m' q) :
    ∃ onOp onBlock, IsCopy p i m q k onOp onBlock m'.apply := by
  have wfq := h.copying.wellFormed
  have hsome : ∀ v, p.Defines i v → m'.value? v = some (m'.apply v) := by
    intro v hv
    obtain ⟨w, hw⟩ := Option.isSome_iff_exists.mp (h.added.add v hv)
    simp [Substitution.apply, hw]
  have hcop : Copied (fun v w => w = m'.apply v) p q p.ops.size p.blocks.size n i k := by
    refine Copied.mono ?_ (Nat.le_refl _) (Nat.le_refl _) (.refl _ _ _) n i k h.copied
    rintro v w (⟨-, hv⟩ | ⟨hv, rfl⟩)
    · simp [Substitution.apply, hv]
    · exact (h.copying.outside v hv).symm
  obtain ⟨onOp, onBlock, hf⟩ := hcop.exists_follows wf
  refine ⟨onOp, onBlock, wfq, (hf.op .top).symm, fun x hx => ?_, fun b hB hw => ?_, fun v hv => ?_,
    fun v hv => h.copying.outside v hv, fun x y hx hy heq => ?_, fun b c hb hc hbw hcw heq => ?_,
    fun v w hv hw heq => ?_, h.later, fun v _ => h.uses wf⟩
  · obtain ⟨hnew, hk, heq⟩ := hcop.op_eq wf hf wfq h.detached hx (hloc x hx)
    exact ⟨hk, Nat.not_lt.mpr hnew, heq⟩
  · obtain ⟨hnew, hc, heq⟩ := hcop.block_eq wf hf wfq hB hw
    exact ⟨hc, Nat.not_lt.mpr hnew, heq⟩
  · obtain ⟨hnew, hq, htype⟩ := h.copying.new v _ hv (hsome v hv)
    exact ⟨hq, hnew, htype⟩
  · exact (hcop.counterpart_onOp wf hf hx).swap.unique wfq (heq ▸ (hcop.counterpart_onOp wf hf hy).swap)
  · exact (hcop.counterpart_onBlock wf hf hb hbw).swap.unique wfq
      (heq ▸ (hcop.counterpart_onBlock wf hf hc hcw).swap)
  · exact h.copying.inj v w _ hv hw (hsome v hv) (heq ▸ hsome w hw)

end Cloning

end Offload
