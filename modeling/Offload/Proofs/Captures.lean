import Offload.Proofs.ReductionRuns

/-!
# Values captured by a launch

A reduction whose body uses a value from outside brings this use into the launch, where the value cannot be seen.
No later step makes up for it.
-/

namespace Offload

open Program List

theorem Program.Visible.within_isolated {r : Registry} {p : Program} {root l i : OpId} {v : ValueId}
    (h : Visible r p root v i) (hl : r.isIsolated (p.op l) = true) (hw : p.Within l i) (hne : i ≠ l) :
    p.Within l (p.anchorOf v) := by
  induction h with
  | @here i b hb hh _ =>
    obtain ⟨a, ha, hla⟩ := hw.of_ne hne.symm
    obtain ⟨c, hc, ho⟩ := parent?_eq_some.mp ha
    obtain rfl : c = b := Option.mem_unique hc hb
    cases hs : (p.value v).source with
    | argument d k =>
      simp only [homeOf, hs] at hh
      obtain rfl := Option.some.inj hh
      rw [← ho] at hla
      rwa [anchorOf, hs]
    | result d k =>
      simp only [homeOf, hs] at hh
      rw [anchorOf, hs]
      exact .step (parent?_eq_some.mpr ⟨c, hh, ho⟩) hla
  | @up i a hp _ hiso _ ih =>
    obtain ⟨c, hc, hw⟩ := hw.of_ne hne.symm
    obtain rfl := Option.mem_unique hc hp
    refine ih hw fun heq => ?_
    rw [heq, hl] at hiso
    cases hiso

/-! ## Copies of what looks out -/

namespace Mirrored

variable {depth n : Nat} {φ : ValueId → ValueId} {i inner x y : OpId} {bs cs : List BlockId} {t m : Program}
  (h : Mirrored depth φ i inner bs cs t m)
include h

theorem exists_copy (hbs : (t.op i).regions[0]? = some bs) (hx : t.InBody i x) :
    ∃ n y, Pair t m bs cs depth n x y := by
  obtain ⟨_, heq, b, hb, z, hz, hw⟩ := hx
  obtain rfl := Option.mem_unique hbs heq
  induction hw with
  | refl =>
    obtain ⟨c, hbc⟩ := exists_alongside h.copied.blocks.length_eq hb
    obtain ⟨y, hy⟩ := exists_alongside (h.block_top hbc).2.2.2.length_eq hz
    exact ⟨depth, y, .top hbc hy⟩
  | @step x a hp hw ih =>
    obtain ⟨n, k, hak⟩ := ih
    obtain ⟨d, hd, ho⟩ := parent?_eq_some.mp hp
    obtain ⟨ds, hds, hdm⟩ := (h.source.region a _ d).mpr ⟨h.source.hasBlock_of_block hd, ho, rfl⟩
    have hcop := h.copied_of_pair hak
    cases n with
    | zero => exact hcop.elim
    | succ n =>
      obtain ⟨es, hr⟩ := exists_alongside hcop.2.2.2.length_eq (mem_of_getElem? hds)
      have hblocks := hr.rel hcop.2.2.2
      obtain ⟨e, hde⟩ := exists_alongside hblocks.length_eq hdm
      obtain ⟨y, hy⟩ := exists_alongside (hde.rel hblocks).2.2.2.length_eq ((h.source.listed x d).mp hd)
      exact ⟨n, y, .deeper hak hr hde hy⟩

theorem within_of_pair (hp : Pair t m bs cs depth n x y) : m.Within inner y := by
  induction hp with
  | @top b c x y hbc hxy =>
    have ho := (h.wellFormed.owner_of_mem (by rw [h.copies]; simp) hbc.mem.2).2
    exact .single (parent?_eq_some.mpr ⟨c, (h.wellFormed.listed y c).mpr hxy.mem.2, ho⟩)
  | @deeper n a k ds es b c x y _ hr hbc hxy ih =>
    have ho := (h.wellFormed.owner_of_mem hr.mem.2 hbc.mem.2).2
    exact .step (parent?_eq_some.mpr ⟨c, (h.wellFormed.listed y c).mpr hxy.mem.2, ho⟩) ih

end Mirrored

namespace Distribution

variable {sel : Selector} {root i e l y : OpId} {p t m q : Program} {es fs : List OpId} {b : BlockId} {place : Nat}
  {extents : List Int} {x : Lowering} {f : ValueId → ValueId} {v : ValueId}

/-- Next to `e` there is a launch that was not in `p`, and something in it uses a value from outside. -/
structure Capture (p t : Program) (e l y : OpId) (v : ValueId) : Prop where
  launch : (t.op l).name = Workgroup.launchName
  new : ¬ p.HasOp l
  beside : t.parent? l = t.parent? e
  inside : t.Within l y
  ne : y ≠ l
  uses : some v ∈ (t.op y).operands
  outside : ¬ t.Within l (t.anchorOf v)

theorem Exchanged.capture (h : Exchanged i b place extents x f t m q) {bs : List BlockId}
    (hbs : (t.op i).regions[0]? = some bs) (hopen : ¬ t.Closed i) : ∃ y v, Capture t q i x.launch y v := by
  have hl := h.lowered
  obtain ⟨z, hz, v, hv, hout⟩ : ∃ z, t.InBody i z ∧ ∃ v, some v ∈ (t.op z).operands ∧
    ¬ t.Within i (t.anchorOf v) := by
    simpa [Closed] using hopen
  have hmir := hl.mirrored h.wf hbs
  have hval := h.wf.hasValue_operand hv
  obtain ⟨n, y, hp⟩ := hmir.exists_copy hbs hz
  -- the copy uses the value itself
  have hkeep : x.body.rename v = v := hmir.copied.old v hval fun c hc hheld => by
    obtain ⟨-, hown⟩ := Cloning.defines_of_holds h.wf hheld
    rw [(h.wf.owner_of_mem (mem_of_getElem? hbs) hc).2] at hown
    exact hout hown
  have hfv : f v = v := by
    rcases h.rename v with ⟨hres, -⟩ | ⟨-, hf⟩
    · rw [h.wf.anchorOf_result hres] at hout
      exact absurd .refl hout
    · exact hf
  have huse : some v ∈ (m.op y).operands := by
    obtain ⟨k, hk⟩ := getElem?_of_mem hv
    have hrel := (hmir.opCopied hp).operands
    obtain ⟨hlt, -⟩ := List.getElem?_eq_some_iff.mp hk
    have hlt' : k < (m.op y).operands.length := hrel.length_eq ▸ hlt
    have hpair := (show Alongside _ _ (some v) (m.op y).operands[k] from
      ⟨k, hk, getElem?_eq_getElem hlt'⟩).rel hrel
    generalize hs : (m.op y).operands[k] = s at hpair
    cases hpair with
    | some heq =>
      rw [heq, hkeep] at hs
      exact hs ▸ getElem_mem hlt'
  have hinner : x.body.inner ∈ x.body.ops := by simp [Body.ops]
  have hlaunch : x.launch ∈ x.ops := by simp [Lowering.ops]
  have hnew := hl.new x.launch (mem_append_left _ hlaunch)
  have hwithin : m.Within x.launch y := (Within.single (hl.parent_of_body hinner).2).trans (hmir.within_of_pair hp)
  have hym : m.HasOp y := (hmir.new_of_pair hp).2
  refine ⟨y, v, ?_, hnew, ?_, (h.rewired.frame.within_iff hl.wellFormed hym).mpr hwithin, fun heq => ?_,
    ?_, fun hw => ?_⟩
  · rw [h.rewired.same.op x.launch]
    exact congrArg Instr.name hl.launch
  · have hib := h.spot.block h.wf
    have hpi : t.parent? i = some (t.block b).owner := parent?_eq_some.mpr ⟨b, hib, rfl⟩
    rw [h.frame.parent? h.wf h.hasOp, hpi, h.rewired.same.parent?]
    exact parent?_eq_some.mpr ⟨b, hl.block_of_mem h.spot hlaunch, hl.later.owner (h.wf.hasBlock_of_block hib)⟩
  · have hw := hmir.within_of_pair hp
    rw [heq] at hw
    exact hl.wellFormed.not_within_of_parent (hl.parent_of_body hinner).2 hw
  · rw [h.rewired.operands]
    exact mem_map.mpr ⟨some v, huse, by rw [Option.map_some, hfv]⟩
  · have hold := h.wf.hasOp_anchor hval
    rw [h.frame.anchorOf h.wf hval] at hw
    exact hnew (h.wf.within_hasOp ((h.frame.within_iff h.wf hold).mp hw) hold)

theorem Capture.exchanged (hc : Capture p t e l y v) (h : Exchanged i b place extents x f t m q)
    (hi : p.HasOp i) (he : t.HasOp e) (hl : t.HasOp l) : Capture p q e l y (f v) := by
  have hy : t.HasOp y := hasOp_of_operand hc.uses
  have hval := h.wf.hasValue_operand hc.uses
  have hli : l ≠ i := fun heq => hc.new (heq ▸ hi)
  refine ⟨by rw [h.frame.op l hl]; exact hc.launch, hc.new, ?_, (h.frame.within_iff h.wf hy).mpr hc.inside,
    hc.ne, ?_, ?_⟩
  · rw [h.frame.parent? h.wf hl, h.frame.parent? h.wf he, hc.beside]
  · rw [h.operands hy]
    exact mem_map.mpr ⟨some v, hc.uses, rfl⟩
  · rw [h.within_anchor hl hli hval]
    exact hc.outside

namespace Chain

variable (h : Chain sel root p es t) (wf : p.WellFormed) (hr : p.HasOp root)
include h wf hr

theorem apart {e' : OpId} (he : e ∈ es) (he' : e' ∈ es) (hw : t.Within e e') : e = e' := by
  induction h with
  | start => cases he
  | @step es t m q i b place extents x f hc ho hn hs happart hx ih =>
    have hold : t.HasOp e' := by
      rcases mem_cons.mp he' with rfl | he'
      · exact hx.hasOp
      · exact hc.frame.hasOp (hc.of_mem wf hr he').1
    have hw := (hx.frame.within_iff hx.wf hold).mp hw
    rcases mem_cons.mp he with rfl | hin <;> rcases mem_cons.mp he' with rfl | hin'
    · rfl
    · exact absurd hw (happart e' hin').2
    · exact absurd hw (happart e hin).1
    · exact ih hin hin' hw

theorem capture (hregion : ∀ j, p.Outside isLaunch root j → (p.op j).name = Reduction.reduceName →
      ∃ bs, (p.op j).regions[0]? = some bs) (he : e ∈ es) (hopen : ¬ p.Closed e) : ∃ l y v,
        Capture p t e l y v := by
  induction h with
  | start => cases he
  | @step es t m q i b place extents x f hc ho hn hs happart hx ih =>
    have hold := hc.hasOp_reduce hr ho hn
    rcases mem_cons.mp he with rfl | he
    · have hopent : ¬ t.Closed e := fun hcl => hopen <| (hc.closed_iff wf hold fun e' he' hw => by
        exact (happart e' he').2 ((hc.frame.within_iff wf (hc.of_mem wf hr he').1).mpr hw)).mp hcl
      have hop := hc.frame.op e hold
      obtain ⟨bs, hbs⟩ := hregion e ((hc.frame.outside_iff wf hold).mp ho) (by rwa [hop] at hn)
      obtain ⟨y, v, hcap⟩ := hx.capture (by rw [hop]; exact hbs) hopent
      exact ⟨_, y, v, hcap.launch, fun hp => hcap.new (hc.frame.hasOp hp), hcap.beside, hcap.inside,
        hcap.ne, hcap.uses, hcap.outside⟩
    · obtain ⟨l, y, v, hcap⟩ := ih he
      obtain ⟨hep, hout, -⟩ := hc.of_mem wf hr he
      obtain ⟨a, ha, -⟩ := hout.within.of_ne (hout.ne_root wf).symm
      have hlp : t.parent? l = some a := by rw [hcap.beside, hc.frame.parent? wf hep, ha]
      exact ⟨l, y, f v, hcap.exchanged hx hold (hc.frame.hasOp hep) (hasOp_of_parent hlp)⟩

end Chain

end Distribution

end Offload
