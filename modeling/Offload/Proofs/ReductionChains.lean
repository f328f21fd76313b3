import Offload.Proofs.Scopes

/-!
# Distributions one after the other

A run of the distribution replaces one reduction after the other. What it keeps follows from what one exchange
keeps, by induction on the chain of exchanges.
-/

namespace Offload

open Program List Reduction

variable {e : OpId} {p q : Program} {v : ValueId}

theorem Frame.outside_iff (h : Frame p q) (wf : p.WellFormed) {shut : String → Bool} {root j : OpId}
    (hj : p.HasOp j) : q.Outside shut root j ↔ p.Outside shut root j := by
  constructor
  · intro ho
    refine ho.congr fun k a hk hp => ?_
    have hkp := wf.within_hasOp ((h.within_iff wf hj).mp hk) hj
    rw [h.parent? wf hkp] at hp
    exact ⟨hp, by rw [h.op a (wf.hasOp_parent hp)]⟩
  · intro ho
    refine ho.congr fun k a hk hp => ?_
    exact ⟨by rw [h.parent? wf (wf.within_hasOp hk hj), hp], by rw [h.op a (wf.hasOp_parent hp)]⟩

theorem Frame.inBody_iff (h : Frame p q) (wf : p.WellFormed) (wfq : q.WellFormed) {a x : OpId}
    (ha : p.HasOp a) (hold : ∀ j, q.Within a j → p.HasOp j) : q.InBody a x ↔ p.InBody a x := by
  have hregions : (q.op a).regions = (p.op a).regions := by rw [h.op a ha]
  have hlisted : ∀ {y b}, p.HasOp y → (y ∈ (q.block b).ops ↔ y ∈ (p.block b).ops) := fun {y b} hy => by
    rw [← wfq.listed, ← wf.listed, h.op y hy]
  constructor
  · intro hx
    have hxq := hx.within wfq
    obtain ⟨bs, hbs, b, hb, y, hy, hw⟩ := hx
    have hyp : p.HasOp y := hold y (InBody.within ⟨bs, hbs, b, hb, y, hy, .refl⟩ wfq)
    exact ⟨bs, by rwa [← hregions], b, hb, y, (hlisted hyp).mp hy, (h.within_iff wf (hold x hxq)).mp hw⟩
  · rintro ⟨bs, hbs, b, hb, y, hy, hw⟩
    have hyp : p.HasOp y := hasOp_of_block ((wf.listed y b).mpr hy)
    have hxp : p.HasOp x := by
      cases hw with
      | refl => exact hyp
      | step hp _ => exact hasOp_of_parent hp
    exact ⟨bs, by rwa [hregions], b, hb, y, (hlisted hyp).mpr hy, (h.within_iff wf hxp).mpr hw⟩

namespace Distribution

open Rewrite

variable {sel : Selector} {root i j a : OpId} {p t m q : Program} {es : List OpId} {b : BlockId} {place : Nat}
  {extents : List Int} {x : Lowering} {f : ValueId → ValueId}

namespace Unchanged

theorem refl (j : OpId) (p : Program) : Unchanged j p p := ⟨rfl, rfl, rfl⟩

theorem trans (h : Unchanged j p t) (h' : Unchanged j t q) : Unchanged j p q :=
  ⟨h'.attrs.trans h.attrs, h'.loc.trans h.loc, h'.operands.trans h.operands⟩

end Unchanged

/-! ## Where new things are -/

theorem Lowered.within_of_new (h : Lowered i b place extents x t m) (wf : t.WellFormed) (hi : Spot t b place i)
    (ha : t.HasOp a) (hw : m.Within a j) (hj : ¬ t.HasOp j) : t.Within a i ∧ a ≠ i := by
  have hframe := h.later.frame
  have hb := hi.block wf
  have howner : (m.block b).owner = (t.block b).owner := h.later.owner (wf.hasBlock_of_block hb)
  have hpi : t.parent? i = some (t.block b).owner := parent?_eq_some.mpr ⟨b, hb, rfl⟩
  have hbefore : ∀ k ∈ x.ops, m.Within a k → t.Within a i ∧ a ≠ i := by
    intro k hk hw
    have hpk : m.parent? k = some (t.block b).owner := parent?_eq_some.mpr ⟨b, h.block_of_mem hi hk, howner⟩
    have hne : a ≠ k := fun heq => h.new k (mem_append_left _ hk) (heq ▸ ha)
    obtain ⟨q, hq, hw⟩ := hw.of_ne hne
    obtain rfl := Option.mem_unique hpk hq
    have hw := (hframe.within_iff wf (wf.hasOp_parent hpi)).mp hw
    exact ⟨.step hpi hw, fun heq => wf.not_within_of_parent hpi (heq ▸ hw)⟩
  have hlaunch : x.launch ∈ x.ops := by simp [Lowering.ops]
  have hbody : ∀ k ∈ x.body.ops, m.Within a k → t.Within a i ∧ a ≠ i := by
    intro k hk hw
    have hne : a ≠ k := fun heq => h.new k (mem_append_right _ hk) (heq ▸ ha)
    obtain ⟨q, hq, hw⟩ := hw.of_ne hne
    obtain rfl := Option.some.inj ((h.parent_of_body hk).2.symm.trans hq)
    exact hbefore _ hlaunch hw
  have hinner : x.body.inner ∈ x.body.ops := by simp [Body.ops]
  rcases h.new_cases wf hi ha hw hj with hmem | hmem | ⟨hin, -⟩
  · exact hbefore j hmem hw
  · exact hbody j hmem hw
  · rcases hin.total hw with hin | hw
    · -- nothing old is in the copy
      have hold := wf.within_hasOp ((hframe.within_iff wf ha).mp hin) ha
      exact absurd hold (h.new _ (mem_append_right _ hinner))
    · exact hbody _ hinner hw

theorem Exchanged.within_of_new (h : Exchanged i b place extents x f t m q) (ha : t.HasOp a) (hw : q.Within a j)
    (hj : ¬ t.HasOp j) : t.Within a i ∧ a ≠ i := by
  refine h.lowered.within_of_new h.wf h.spot ha ?_ hj
  obtain ⟨c, hc, -⟩ := hw.of_ne fun heq => hj (heq ▸ ha)
  have hjm : m.HasOp j := (h.rewired.same.hasOp j).mp (hasOp_of_parent hc)
  exact (h.rewired.frame.within_iff h.lowered.wellFormed hjm).mp hw

theorem Exchanged.within_anchor (h : Exchanged i b place extents x f t m q) (ha : t.HasOp a) (hai : a ≠ i)
    (hv : t.HasValue v) : q.Within a (q.anchorOf (f v)) ↔ t.Within a (t.anchorOf v) := by
  rcases h.rename v with ⟨hres, g, hg, -, hf⟩ | ⟨-, hf⟩
  · obtain ⟨j, hj, hgj, -, -⟩ := h.lowered.gathered h.wf hg
    have hgq : g.value ∈ (q.op j).results := by rwa [h.rewired.same.op j]
    have hib := h.spot.block h.wf
    have howner : (q.block b).owner = (t.block b).owner := h.frame.owner (h.wf.hasBlock_of_block hib)
    have hpi : t.parent? i = some (t.block b).owner := parent?_eq_some.mpr ⟨b, hib, rfl⟩
    have hpj : q.parent? j = some (t.block b).owner := by
      refine parent?_eq_some.mpr ⟨b, ?_, howner⟩
      rw [h.rewired.same.op j]
      exact h.lowered.block_of_mem h.spot hj
    have haj : a ≠ j := fun heq => h.lowered.new j (mem_append_left _ hj) (heq ▸ ha)
    have hup := h.frame.within_iff h.wf (a := a) (h.wf.hasOp_parent hpi)
    rw [hf, h.wellFormed.anchorOf_result hgq, h.wf.anchorOf_result hres]
    constructor
    · intro hw
      obtain ⟨c, hc, hw⟩ := hw.of_ne haj
      obtain rfl := Option.mem_unique hpj hc
      exact .step hpi (hup.mp hw)
    · intro hw
      obtain ⟨c, hc, hw⟩ := hw.of_ne hai
      obtain rfl := Option.mem_unique hpi hc
      exact .step hpj (hup.mpr hw)
  · rw [hf, h.frame.anchorOf h.wf hv]
    exact h.frame.within_iff h.wf (h.wf.hasOp_anchor hv)

theorem Exchanged.closed_iff (h : Exchanged i b place extents x f t m q) (ha : t.HasOp a) (hi : ¬ t.Within a i) :
    q.Closed a ↔ t.Closed a := by
  have hai : a ≠ i := fun heq => hi (heq ▸ .refl)
  have hold : ∀ j, q.Within a j → t.HasOp j := fun j hw => by
    by_contra hj
    exact hi (h.within_of_new ha hw hj).1
  have hbody := fun y => h.frame.inBody_iff h.wf h.wellFormed ha hold (x := y)
  constructor
  · intro hcl y hy v hv
    have hyt := hold y (((hbody y).mpr hy).within h.wellFormed)
    refine (h.within_anchor ha hai (h.wf.hasValue_operand hv)).mp (hcl y ((hbody y).mpr hy) (f v) ?_)
    rw [h.operands hyt]
    exact mem_map.mpr ⟨some v, hv, rfl⟩
  · intro hcl y hy v hv
    rw [h.operands (hold y (hy.within h.wellFormed)), mem_map] at hv
    obtain ⟨s, hs, heq⟩ := hv
    obtain ⟨w, rfl, rfl⟩ := Option.map_eq_some_iff.mp heq
    exact (h.within_anchor ha hai (h.wf.hasValue_operand hs)).mpr (hcl y ((hbody y).mp hy) w hs)

/-! ## Chains -/

inductive Chain (sel : Selector) (root : OpId) (p : Program) : List OpId → Program → Prop
  | start : Chain sel root p [] p
  | step {es : List OpId} {t m q : Program} {i : OpId} {b : BlockId} {place : Nat} {extents : List Int} {x : Lowering}
      {f : ValueId → ValueId} : Chain sel root p es t → t.Outside isLaunch root i →
      (t.op i).name = reduceName → sel.select t i = .ok (some extents) →
      (∀ e ∈ es, ¬ t.Within e i ∧ ¬ t.Within i e) → Exchanged i b place extents x f t m q →
      Chain sel root p (i :: es) q

namespace Chain

section
variable (h : Chain sel root p es t) (wf : p.WellFormed)
include h wf

theorem wellFormed : t.WellFormed := by
  cases h with
  | start => exact wf
  | step _ _ _ _ _ hx => exact hx.wellFormed

omit wf in
theorem frame : Frame p t := by
  induction h with
  | start => exact .refl p
  | step _ _ _ _ _ hx ih => exact ih.trans hx.frame

omit wf in
theorem unchanged (hj : p.HasOp j) : Unchanged j p t := by
  induction h with
  | start => exact .refl j p
  | step hc _ _ _ _ hx ih => exact ih.trans (hx.unchanged (hc.frame.hasOp hj))

omit wf in
theorem creatable (hc : p.Creatable) : t.Creatable := by
  induction h with
  | start => exact hc
  | step _ _ _ _ _ hx ih => exact hx.creatable ih

omit wf in
theorem hasOp_reduce (hr : p.HasOp root) (ho : t.Outside isLaunch root j) (hn : (t.op j).name = reduceName) :
    p.HasOp j := by
  induction h generalizing j with
  | start =>
    cases ho with
    | child hp => exact hasOp_of_parent hp
    | deeper hp _ _ => exact hasOp_of_parent hp
  | @step es t m q i b place extents x f hc _ _ _ _ hx ih =>
    by_cases hold : t.HasOp j
    · exact ih ((hx.frame.outside_iff hx.wf hold).mp ho) (by rw [hx.frame.op j hold] at hn; exact hn)
    · exact absurd hn (hx.new_outside (hc.frame.hasOp hr) ho hold)

theorem of_mem (hr : p.HasOp root) (he : e ∈ es) : p.HasOp e ∧ p.Outside isLaunch root e ∧
    (p.op e).name = reduceName ∧ ∃ extents, sel.select p e = .ok (some extents) := by
  induction h with
  | start => cases he
  | @step es t m q i b place extents x f hc ho hn hs _ hx ih =>
    rcases mem_cons.mp he with rfl | he
    · have hold := hc.hasOp_reduce hr ho hn
      refine ⟨hold, (hc.frame.outside_iff wf hold).mp ho, ?_, extents, ?_⟩
      · rwa [hc.frame.op e hold] at hn
      · rw [← hs, (hc.unchanged hold).select]
    · exact ih he

omit wf in
theorem nodup : es.Nodup := by
  induction h with
  | start => exact .nil
  | step _ _ _ _ hapart _ ih => exact nodup_cons.mpr ⟨fun hi => (hapart _ hi).1 .refl, ih⟩

theorem unused (hr : p.HasOp root) (he : e ∈ es) (hv : v ∈ (p.op e).results) : t.Unused v := by
  induction h with
  | start => cases he
  | @step es t m q i b place extents x f hc ho hn hs _ hx ih =>
    have hvt := hc.frame.hasValue (wf.hasValue_result hv)
    rcases mem_cons.mp he with rfl | he
    · refine hx.unused hvt (.inl ?_)
      rwa [hc.frame.op e (hc.hasOp_reduce hr ho hn)]
    · exact hx.unused hvt (.inr (ih he))

theorem hasOp_of_within (ha : p.HasOp a) (hout : ∀ e ∈ es, ¬ p.Within a e) (hw : t.Within a j) : p.HasOp j := by
  induction h generalizing j with
  | start =>
    by_cases hne : a = j
    · exact hne ▸ ha
    · obtain ⟨q, hq, -⟩ := hw.of_ne hne
      exact hasOp_of_parent hq
  | @step es t m q i b place extents x f hc ho hn hs _ hx ih =>
    have hat := hc.frame.hasOp ha
    have hi : ¬ t.Within a i := fun hai => hout i mem_cons_self <| by
      exact (hc.frame.within_iff wf (ih (fun e he => hout e (mem_cons_of_mem _ he)) hai)).mp hai
    by_cases hold : t.HasOp j
    · exact ih (fun e he => hout e (mem_cons_of_mem _ he)) ((hx.frame.within_iff hx.wf hold).mp hw)
    · exact absurd (hx.within_of_new hat hw hold).1 hi

theorem closed_iff (ha : p.HasOp a) (hout : ∀ e ∈ es, ¬ p.Within a e) : t.Closed a ↔ p.Closed a := by
  induction h with
  | start => exact Iff.rfl
  | @step es t m q i b place extents x f hc ho hn hs happart hx ih =>
    have hrest : ∀ e ∈ es, ¬ p.Within a e := fun e he => hout e (mem_cons_of_mem _ he)
    have hi : ¬ t.Within a i := fun hai => hout i mem_cons_self <| by
      exact (hc.frame.within_iff wf (hc.hasOp_of_within wf ha hrest hai)).mp hai
    exact (hx.closed_iff (hc.frame.hasOp ha) hi).trans (ih hrest)

theorem sees {r : Registry} (hr : p.HasOp root)
    (hregion : ∀ j, p.Outside isLaunch root j → (p.op j).name = reduceName →
      ∃ bs, (p.op j).regions[0]? = some bs)
    (hreduce : (r.traits reduceName).isolated = false)
    (hclosed : (r.traits Workgroup.launchName).isolated = false ∨ ∀ e ∈ es, p.Closed e) (hs : p.Sees r root) :
    t.Sees r root := by
  induction h with
  | start => exact hs
  | @step es t m q i b place extents x f hc ho hn hsel happart hx ih =>
    have hold := hc.hasOp_reduce hr ho hn
    have hname : (p.op i).name = reduceName := by rwa [hc.frame.op i hold] at hn
    obtain ⟨bs, hbs⟩ := hregion i ((hc.frame.outside_iff wf hold).mp ho) hname
    have hbt : (t.op i).regions[0]? = some bs := by rwa [hc.frame.op i hold]
    have hclosedt : (r.traits Workgroup.launchName).isolated = false ∨ t.Closed i := by
      refine hclosed.imp_right fun hcl => (hc.closed_iff wf hold fun e he hw => ?_).mpr (hcl i mem_cons_self)
      exact (happart e he).2 ((hc.frame.within_iff wf (hc.of_mem wf hr he).1).mpr hw)
    have hst := ih (hclosed.imp_right fun hcl e he => hcl e (mem_cons_of_mem _ he))
    exact hx.sees (hx.lowered.sees hx.wf hx.spot (hc.frame.hasOp hr) ho.within hbt hreduce hclosedt hst)

end

end Chain

end Distribution

end Offload
