import Mathlib.Tactic.IntervalCases
import Offload.Proofs.ReductionRuns

/-!
# Every run of a distribution ends

On a verified program whose reductions are on tensors that can be stored, the pass comes to an end without an
error. No reduction is left that it could distribute, so that a second run does nothing.
-/

namespace Offload.Distribution

open Program Rewrite Rewriting Reduction List

variable {n : Nat} {σ : Type}
variable {sel : Selector} {root i : OpId} {p q : Program} {rest worklist : List OpId} {b : BlockId} {place : Nat}
  {s s' t : Session Unit}

/-! ## Reductions on tensors -/

theorem Reduces.congr {dims axes : List Int} (h : Reduces sel.storage p i n dims axes) (hu : Unchanged i p q)
    (hres : q.resultTypes i = p.resultTypes i) (hreg : (q.op i).regions = (p.op i).regions) :
    Reduces sel.storage q i n dims axes where
  count := hu.inputCount.trans h.count
  some_inputs := h.some_inputs
  dimensions := hu.dimensions.trans h.dimensions
  fit := h.fit
  inputs s hs := by
    obtain ⟨s', hs', heq⟩ := exists_of_map_eq (hu.inputs n) hs
    rw [heq]
    exact h.inputs s' hs'
  inits s hs := by
    obtain ⟨s', hs', heq⟩ := exists_of_map_eq (hu.inits n) hs
    rw [heq]
    exact h.inits s' hs'
  results := by rw [hres, h.results, hu.inits]
  region := by rw [hreg]; exact h.region
  positive := h.positive
  small := h.small

theorem onTensors_go : ∀ {l : List (Option Ty)}, (∀ o ∈ l, ∃ s, o = some (.tensor s)) →
    onTensors.go l = .ok true
  | [], _ => rfl
  | o :: l, h => by
    obtain ⟨s, rfl⟩ := h o mem_cons_self
    rw [onTensors.go, if_pos (show (Ty.tensor s).isTensor = true from rfl)]
    exact onTensors_go fun o' ho => h o' (mem_cons_of_mem _ ho)

theorem Reduces.onTensors {dims axes : List Int} (h : Reduces sel.storage p i n dims axes) :
    onTensors p i = .ok true := by
  refine onTensors_go fun o ho => ?_
  obtain ⟨s, hs, rfl⟩ := mem_map.mp ho
  rw [← take_append_drop n (p.op i).operands] at hs
  rcases mem_append.mp hs with hs | hs
  · obtain ⟨e, he, -⟩ := h.inputs s hs
    exact ⟨_, he⟩
  · obtain ⟨e, he, -⟩ := h.inits s hs
    exact ⟨_, he⟩

structure Prepared (sel : Selector) (root : OpId) (p : Program) : Prop extends Ground root p where
  candidates : ∀ extents ∈ sel.candidates, Countable extents
  creatable : p.Creatable
  reduces : ∀ j, p.Outside isLaunch root j → (p.op j).name = reduceName →
    ∃ n dims axes, Reduces sel.storage p j n dims axes

theorem Chain.reduces {es : List OpId} {t : Program} (h : Chain sel root p es t) (hp : Prepared sel root p)
    (ho : t.Outside isLaunch root i) (hn : (t.op i).name = reduceName) :
    ∃ n dims axes, Reduces sel.storage t i n dims axes := by
  have hold := h.hasOp_reduce hp.hasRoot ho hn
  have hop := h.frame.op i hold
  obtain ⟨n, dims, axes, hr⟩ := hp.reduces i ((h.frame.outside_iff hp.wellFormed hold).mp ho) (by rwa [hop] at hn)
  refine ⟨n, dims, axes, hr.congr (h.unchanged hold) ?_ (by rw [hop])⟩
  have hresults : (t.op i).results = (p.op i).results := by rw [hop]
  rw [resultTypes, resultTypes, hresults]
  exact map_congr_left fun v hv => h.frame.typeOf (hp.wellFormed.hasValue_result hv)

/-! ## The driver gets on -/

theorem isInside_of_not_skipped (h : ¬ Skipped root (target sel) s i) :
    (target sel).isInside s.work.program i root = false := by
  by_contra hin
  exact h (.inr (.inl (by simpa using hin)))

theorem Underway.spot (h : Underway sel root p (i :: rest) s) :
    ∃ b place, (s.work.program.op i).block = some b ∧ (s.work.program.block b).ops.idxOf? i = some place := by
  obtain ⟨hw, hne⟩ := h.listed i mem_cons_self
  obtain ⟨a, ha, -⟩ := hw.of_ne hne.symm
  obtain ⟨b, hb, -⟩ := parent?_eq_some.mp ha
  obtain ⟨place, hplace⟩ :=
    Option.isSome_iff_exists.mp (isSome_idxOf?.mpr ((h.wellFormed.listed i b).mp hb))
  exact ⟨b, place, hb, hplace⟩

theorem drives_underway (hp : Prepared sel root p) :
    Drives root (target sel) (patterns sel) (Underway sel root p) where
  toKeeps := keeps_underway hp.toGround
  legality i rest s h _ hin := by
    by_cases hn : (s.work.program.op i).name = reduceName
    · obtain ⟨n, dims, axes, hr⟩ := h.chain.reduces hp (h.outside mem_cons_self hin) hn
      obtain ⟨o, ho, -⟩ := hr.select_total hp.candidates
      exact ⟨_, by rw [legality_reduce hn, ho]; rfl⟩
    · exact ⟨_, legality_other hn⟩
  place _ _ _ h _ := h.spot
  applied i rest s b place s' hand hat := by
    obtain ⟨pattern, hmem, -, hok⟩ := applyPatterns_ok (quiet_patterns sel) hat
    obtain rfl := mem_singleton.mp hmem
    obtain ⟨hn, extents, hsel⟩ := of_illegal hand.illegal
    have hin := isInside_of_not_skipped hand.notSkipped
    obtain ⟨bs, hwork⟩ := hand.inv.workable hp.toGround hin hn hand.block hand.idxOf? (s.work.program.op i).loc
    obtain ⟨extents', x, f, m, ha⟩ := hwork.applied hok
    have hi : s.work.program.HasOp i := hasOp_of_block hand.block
    refine ⟨ha.rewritten, ?_, .illegal, ?_⟩
    · refine (erasedAt_iff ha.exchanged.wellFormed).mpr ⟨i, ?_, .refl⟩
      rw [ha.erased]
      exact mem_cons_self
    · have hname : (s'.work.program.op i).name = (s.work.program.op i).name := by
        rw [ha.exchanged.frame.op i hi]
        rfl
      rw [legality_congr hname (ha.exchanged.unchanged hi)]
      exact hand.illegal

theorem attempt_applied (hn : (s.work.program.op i).name = reduceName)
    (h : distributeReduction sel i (placed s b place (s.work.program.op i).loc) = .ok .applied s') :
    attempt (patterns sel) i s b place = .ok .applied s' := by
  have hfilter : (patterns sel).filter (·.kind = (s.work.program.op i).name) = patterns sel := by
    simp [patterns, hn]
  have hloc : build (Build.setLoc ((placed s b place s.work.builder.loc).work.program.op i).loc)
      (placed s b place s.work.builder.loc) =
      .ok () (placed s b place (s.work.program.op i).loc) := setLoc_eq ..
  rw [attempt, applyPatterns, program_bind]
  change tryPatterns i ((patterns sel).filter (·.kind = (s.work.program.op i).name)) _ = _
  rw [hfilter, patterns, tryPatterns, program_bind, bind_of_ok hloc, bind_of_ok h]
  rfl

theorem not_stuck (hp : Prepared sel root p) : ¬ Stuck root (target sel) (patterns sel) (Underway sel root p) t := by
  rintro ⟨i, rest, s, b, place, hand, hno, -⟩
  obtain ⟨hn, extents, hsel⟩ := of_illegal hand.illegal
  have hin := isInside_of_not_skipped hand.notSkipped
  obtain ⟨bs, hwork⟩ := hand.inv.workable hp.toGround hin hn hand.block hand.idxOf? (s.work.program.op i).loc
  obtain ⟨n, dims, axes, hr⟩ := hand.inv.chain.reduces hp (hand.inv.outside mem_cons_self hin) hn
  have hfresh : i ∉ s.erased := fun hi =>
    hand.notSkipped (.inl ((erasedAt_iff hand.inv.wellFormed).mpr ⟨i, hi, .refl⟩))
  obtain ⟨s', hs'⟩ := hwork.distributes (hand.inv.chain.creatable hp.creatable) hp.candidates hr hfresh
    (fun hnone => nomatch hsel.symm.trans hnone)
  exact hno s' (attempt_applied hn hs')

theorem Underway.rewritten_le (h : Underway sel root p worklist s) (hp : Ground root p) :
    s.rewritten ≤ p.ops.size := by
  rw [h.counted]
  have hsub : s.erased ⊆ (List.range p.ops.size).map OpId.mk := by
    intro e he
    exact mem_map.mpr ⟨e.index, mem_range.mpr (h.chain.of_mem hp.wellFormed hp.hasRoot he).1, rfl⟩
  simpa using (subperm_of_subset h.chain.nodup hsub).length_le

theorem Underway.commits (h : Underway sel root p [] s) (hp : Ground root p) :
    ∃ t, (commit : Rewriting Unit _) s = .ok none t := by
  have hunused : ∀ e ∈ roots s, ∀ v ∈ (s.work.program.op e).results, (s.work.program.value v).uses = [] := by
    intro e he v hv
    have hes := (h.pending e).mpr (mem_filter.mp he).1
    have hep := (h.chain.of_mem hp.wellFormed hp.hasRoot hes).1
    rw [h.chain.frame.op e hep] at hv
    refine eq_nil_iff_forall_not_mem.mpr fun u hu => ?_
    exact h.chain.unused hp.wellFormed hp.hasRoot hes hv u.op
      (mem_of_getElem? (h.wellFormed.consistent.mem_uses.mp hu))
  rcases commit_total h.wellFormed fun _ => ⟨fun _ => 0, fun e he v hv u hu => by
    rw [hunused e he v hv] at hu
    cases hu⟩ with ⟨e, -, hno⟩ | ⟨t, ht, -⟩
  · refine absurd (fun e he v hv u hu => ?_) hno
    rw [users, hunused e he v hv] at hu
    cases hu
  · exact ⟨t, ht⟩

theorem run_succeeds (hp : Prepared sel root p) : ∃ stats s, run sel root p = .ok (stats, none) s := by
  rcases steps_total rfl (quiet_patterns sel) (drives_underway hp) .full (fun _ _ h => h.rewritten_le hp.toGround)
    p.ops.size _ (Underway.start hp.toGround) (Nat.le_add_left ..) with ⟨t, ht, hend⟩ | ⟨t, hstuck, -⟩
  · obtain ⟨u, hu⟩ := hend.commits hp.toGround
    have hrun := convert_of_commit (s := { work := { program := p }, deferred := true, extra := () }) ht hu
    rw [Option.map_none] at hrun
    exact ⟨_, u, hrun⟩
  · exact absurd hstuck (not_stuck hp)

/-! ## Nothing to do -/

theorem step_finished (mode : Mode) {target : Target} (patterns : List (Pattern σ)) {s : Session σ} :
    ∀ {worklist : List OpId}, (∀ j ∈ worklist, Skipped root target s j) →
      step mode root target patterns worklist s = .ok .finished s
  | [], _ => rfl
  | j :: rest, h => by
    have hrest := step_finished mode patterns fun k hk => h k (mem_cons_of_mem _ hk)
    rw [step, isErased_bind, program_bind]
    by_cases hc : ((s.work.program.enclosing j).any s.erased.contains || target.isInside s.work.program j root) = true
    · rw [if_pos hc, hrest]
    · obtain ⟨her, hin⟩ := Bool.or_eq_false_iff.mp (Bool.eq_false_of_not_eq_true hc)
      obtain her' | hin' | ⟨l, hl, ha⟩ := h j mem_cons_self
      · rw [her] at her'
        cases her'
      · rw [hin] at hin'
        cases hin'
      · rw [if_neg hc, program_bind, bind_of_ok (fail_ok.mpr ⟨hl, rfl⟩), if_pos ha, hrest]

theorem steps_finished (mode : Mode) {target : Target} (patterns : List (Pattern σ)) {s : Session σ}
    (limit : Nat) (h : ∀ j ∈ worklist, Skipped root target s j) :
    steps mode root target patterns limit worklist s = .ok none s := by
  cases limit <;> rw [steps, bind_of_ok (step_finished mode patterns h)] <;> rfl

theorem distribute_idle (wf : p.WellFormed) (hmem : ∀ j, p.Outside isLaunch root j →
      (p.op j).name = reduceName → onTensors p j = .ok true ∧ sel.select p j = .ok none) :
    distribute sel root p = .ok ({}, none) p := by
  have hskip : ∀ j ∈ p.preorder (fun j => !(target sel).isRecursivelyLegal p j) root,
      Skipped root (target sel) ({ work := { program := p }, deferred := true, extra := () } : Session Unit) j := by
    intro j hj
    have hout : p.Outside (target sel).shut root j := wf.mem_preorder.mp hj
    rw [shut_target] at hout
    obtain ⟨l, hl, ha⟩ : Settled .full (target sel) p j := settled_iff.mpr fun hn => (hmem j hout hn).2
    exact .inr (.inr ⟨l, hl, ha.resolve_right fun h => nomatch h.1⟩)
  refine distribute_ok.mpr ⟨firstOnMemory_eq_none.mpr fun j hj hn => (hmem j ((mem_outside wf).mp hj) hn).1, ?_⟩
  have hsteps := steps_finished .full (patterns sel) p.ops.size hskip
  have hrun := convert_of_commit (s := { work := { program := p }, deferred := true, extra := () }) hsteps rfl
  exact ⟨_, hrun, rfl⟩

/-! ## The whole pass -/

/-- The reductions outside of launches are on tensors that can be stored, and count their operands in words. -/
def OnTensors (storage : Storage) (root : OpId) (p : Program) : Prop :=
  ∀ i, p.Outside isLaunch root i → (p.op i).name = reduceName →
    (∀ s ∈ (p.op i).operands, ∃ t, p.slotType? s = some t ∧ Storable storage t) ∧
      ∀ ns, ((p.op i).attr? segmentsAttr).bind Attr.ints? = some ns → ∀ n ∈ ns, Word.InRange n

theorem prepared_of_verify (hc : ∀ extents ∈ sel.candidates, Countable extents) (wf : p.WellFormed)
    (hcr : p.Creatable) (hr : p.HasOp root) (hv : p.verify catalogue root = .ok ())
    (ht : OnTensors sel.storage root p) :
    Prepared sel root p where
  toGround := ground_of_verify wf hr hv
  candidates := hc
  creatable := hcr
  reduces j hj hn := by
    obtain ⟨htypes, hwords⟩ := ht j hj hn
    obtain ⟨m, n, axes, shapes, b, hchecked⟩ :=
      checked_of_checkReduce (checkReduce_of_verify hv wf hj.within hn)
    have hranges := hwords _ hchecked.segments
    exact ⟨_, _, _, reduces_of_checked hchecked htypes
      (inputs_le_operands hchecked htypes (hranges m (by simp)) (hranges n (by simp)))⟩

/-- The pass ends without an error, leaves no reduction outside of launches that has a workgroup, and does
nothing when it is run again. -/
theorem distribute_exhaustive (sel : Selector) (hc : ∀ extents ∈ sel.candidates, Countable extents)
    (wf : p.WellFormed) (hcr : p.Creatable) (hr : p.HasOp root)
    (hv : p.verify catalogue root = .ok ()) (ht : OnTensors sel.storage root p) :
    ∃ stats q, distribute sel root p = .ok (stats, none) q ∧
      (∀ i, q.Outside isLaunch root i → (q.op i).name = reduceName → sel.select q i = .ok none) ∧
      distribute sel root q = .ok ({}, none) q := by
  have hp := prepared_of_verify hc wf hcr hr hv ht
  obtain ⟨stats, s, hs⟩ := run_succeeds hp
  have hfirst : distribute sel root p = .ok (stats, none) s.work.program := by
    refine distribute_ok.mpr ⟨firstOnMemory_eq_none.mpr fun j hj hn => ?_, s, hs, rfl⟩
    obtain ⟨n, dims, axes, hred⟩ := hp.reduces j ((mem_outside wf).mp hj) hn
    exact hred.onTensors
  obtain ⟨es, fs, t, hend⟩ := finished_of_distribute hp.toGround hfirst
  refine ⟨stats, _, hfirst, hend.legal, distribute_idle hend.cleared.wellFormed fun j hj hn =>
    ⟨?_, hend.legal j hj hn⟩⟩
  have hstays : ∀ e ∈ fs, ¬ t.Within e j := fun e he => hend.kept j hj.within e (hend.subset e he)
  obtain ⟨n, dims, axes, hred⟩ := hend.chain.reduces hp (hend.cleared.outside hj)
    (by rwa [← hend.cleared.stays j hstays])
  rw [onTensors, (unchanged_of_cleared hend.cleared hstays).operands]
  exact hred.onTensors

/-- A function with a reduction of one tensor along some axes. -/
def reducer (e : ElementType) (dims axes : List Int) : Program :=
  let input := Ty.tensor ⟨e, dims⟩
  let output := Ty.tensor ⟨e, keptDims dims axes⟩
  { ops := #[
      { name := "builtin.module", regions := [[0]] },
      { name := "func.func", regions := [[1]], block := some 0
        attrs := [("sym_name", .str "main"), ("function_type", .type (.function [input, output] [output]))] },
      { name := "linalg.reduce", operands := [some 0, some 1], results := [2], regions := [[2]]
        block := some 1, attrs := [("dimensions", .ints axes), ("operand_segment_sizes", .ints [1, 1])] },
      { name := "linalg.yield", operands := [some 3], block := some 2 },
      { name := "func.return", operands := [some 2], block := some 1 }]
    blocks := #[
      { owner := 0, ops := [1] },
      { owner := 1, args := [0, 1], ops := [2, 4] },
      { owner := 2, args := [3, 4], ops := [3] }]
    values := #[
      ⟨input, .argument 1 0, [⟨2, 0⟩]⟩,
      ⟨output, .argument 1 1, [⟨2, 1⟩]⟩,
      ⟨output, .result 2 0, [⟨4, 0⟩]⟩,
      ⟨.scalar e, .argument 2 0, [⟨3, 0⟩]⟩,
      ⟨.scalar e, .argument 2 1, []⟩] }

/-- A reduction of a tensor with four elements that keeps them all. -/
def keeper (e : ElementType) : Program := reducer e [4] []

theorem creatable_keeper : (keeper .float32).Creatable where
  named := by
    rintro ⟨j⟩ hj
    have hj : j < 5 := hj
    interval_cases j <;> decide +kernel
  room := by
    rintro ⟨j⟩ hj
    have hj : j < 5 := hj
    interval_cases j <;> exact if_pos ⟨by decide, by decide⟩
  typed := by
    rintro ⟨v⟩ hv
    have hv : v < 5 := hv
    interval_cases v <;> exact fun h => nomatch h

theorem reduce_keeper (ho : (keeper .float32).Outside isLaunch 0 i)
    (hn : ((keeper .float32).op i).name = reduceName) : i = ⟨2⟩ := by
  obtain ⟨j⟩ := i
  have hj : j < 5 := by
    cases ho with
    | child hp => exact hasOp_of_parent hp
    | deeper hp _ _ => exact hasOp_of_parent hp
  revert hn
  interval_cases j <;> decide

theorem onTensors_keeper : OnTensors ElementType.bytes? 0 (keeper .float32) := by
  rintro j ho hn
  obtain rfl := reduce_keeper ho hn
  refine ⟨fun slot hslot => ⟨.tensor ⟨.float32, [4]⟩, ?_, _, rfl, rfl, by decide, by decide⟩, ?_⟩
  · have hslot : slot = some 0 ∨ slot = some 1 := by simpa [keeper, reducer, Program.op] using hslot
    rcases hslot with rfl | rfl <;> rfl
  · intro ns hns
    obtain rfl : [1, 1] = ns := Option.some.inj hns
    simp [Word.InRange]

def byTwo : Selector := { candidates := [[2]] }

theorem countable_pair : ∀ extents ∈ byTwo.candidates, Countable extents := by
  intro extents hmem
  obtain rfl : extents = [2] := by simpa [byTwo] using hmem
  exact ⟨⟨by decide, by decide, by decide⟩, by decide⟩

theorem distribute_exhaustive_keeper : ∃ stats q, distribute byTwo 0 (keeper .float32) = .ok (stats, none) q ∧
    (∀ i, q.Outside isLaunch 0 i → (q.op i).name = reduceName →
      Selector.select q byTwo i = .ok none) ∧ distribute byTwo 0 q = .ok ({}, none) q :=
  distribute_exhaustive byTwo countable_pair (.of_check (by decide)) creatable_keeper (by decide)
    (by decide) onTensors_keeper

/-- If the elements have no size, the choice of a workgroup fails. -/
theorem distribute_unstored : (keeper .f8e5m2).WellFormed ∧ (keeper .f8e5m2).verify catalogue 0 = .ok () ∧
    ∀ storage : Storage, storage .f8e5m2 = none → ∃ q,
      distribute { candidates := [[2]], storage } 0 (keeper .f8e5m2) = .error (.shape (.noStorage .f8e5m2)) q := by
  refine ⟨.of_check (by decide +kernel), by decide +kernel, fun storage h => ⟨keeper .f8e5m2, ?_⟩⟩
  have hupdate : Function.update storage .f8e5m2 none = storage := by rw [← h, Function.update_eq_self]
  rw [← hupdate]
  unfold distribute convert steps
  rfl

end Offload.Distribution
