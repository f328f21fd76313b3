import Offload.Execution.Run
import Offload.Proofs.Captures
import Offload.Proofs.DistributedChecks
import Offload.Proofs.ReductionEndings

/-!
# When a distribution keeps a program valid

A launch is isolated from above, a reduction is not. The result of the pass is valid exactly if no reduction that it
distributes uses a value from outside in its body.
-/

namespace Offload.Distribution

open Program Rewrite List Reduction

variable {sel : Selector} {root a e i l y : OpId} {p t q : Program} {es fs : List OpId} {v : ValueId}

/-! ## What is distributed -/

/-- A reduction outside of launches for which there is a workgroup. -/
structure Selected (sel : Selector) (root : OpId) (p : Program) (i : OpId) : Prop where
  outside : p.Outside isLaunch root i
  reduce : (p.op i).name = reduceName
  chosen : ∃ extents, sel.select p i = .ok (some extents)

/-- Of reductions inside of one another the outermost is distributed. -/
def Distributed (sel : Selector) (root : OpId) (p : Program) (i : OpId) : Prop :=
  Selected sel root p i ∧ ∀ a, Selected sel root p a → p.Within a i → a = i

namespace Finished

variable (h : Finished sel root p es fs t q) (wf : p.WellFormed) (hr : p.HasOp root)
include h

theorem within_of_kept (hi : t.Within a i) (hkept : ∀ e ∈ es, ¬ t.Within e i) : q.Within a i := by
  refine (h.cleared.still_within hi).resolve_right ?_
  rintro ⟨e, he, hw⟩
  exact hkept e (h.subset e he) (h.cleared.within hw)

theorem anchorOf (v : ValueId) : q.anchorOf v = t.anchorOf v := by
  cases hs : (t.value v).source with
  | argument c k => simp only [Program.anchorOf, h.cleared.source, hs, h.cleared.block]
  | result d k => simp only [Program.anchorOf, h.cleared.source, hs]

include wf

theorem covered (ha : Selected sel root p a) : ∃ e ∈ es, t.Within e a := by
  by_contra hno
  have hkept : ∀ e ∈ es, ¬ t.Within e a := fun e he hw => hno ⟨e, he, hw⟩
  have hold : p.HasOp a := by
    obtain ⟨c, hc, -⟩ := ha.outside.within.of_ne (ha.outside.ne_root wf).symm
    exact hasOp_of_parent hc
  have hout : q.Outside isLaunch root a := by
    refine ((h.chain.frame.outside_iff wf hold).mpr ha.outside).congr fun j c hj hp => ⟨?_, h.cleared.name c⟩
    rw [h.cleared.parent, if_neg fun hmem => hkept j (h.subset j hmem) hj, hp]
  have hname : (q.op a).name = reduceName := by
    rw [h.cleared.name, h.chain.frame.op a hold]
    exact ha.reduce
  obtain ⟨extents, hs⟩ := ha.chosen
  have hnone := h.legal a hout hname
  rw [(unchanged_of_cleared h.cleared fun e he => hkept e (h.subset e he)).select,
    (h.chain.unchanged hold).select, hs] at hnone
  cases hnone

include hr

theorem selected (he : e ∈ es) : Selected sel root p e := by
  obtain ⟨-, ho, hn, hs⟩ := h.chain.of_mem wf hr he
  exact ⟨ho, hn, hs⟩

theorem mem_iff : e ∈ es ↔ Distributed sel root p e := by
  constructor
  · intro he
    refine ⟨h.selected wf hr he, fun a ha hw => ?_⟩
    obtain ⟨e', he', hw'⟩ := h.covered wf ha
    have hep := (h.chain.of_mem wf hr he).1
    have hwt := (h.chain.frame.within_iff wf hep).mpr hw
    obtain rfl := h.chain.apart wf hr he' he (hw'.trans hwt)
    exact (h.chain.wellFormed wf).within_antisymm hwt hw'
  · rintro ⟨hsel, houter⟩
    obtain ⟨e', he', hw⟩ := h.covered wf hsel
    obtain ⟨c, hc, -⟩ := hsel.outside.within.of_ne (hsel.outside.ne_root wf).symm
    have hw := (h.chain.frame.within_iff wf (hasOp_of_parent hc)).mp hw
    exact houter e' (h.selected wf hr he') hw ▸ he'

/-! ## Valid results -/

theorem sees (hs : t.Sees catalogue root) : q.Sees catalogue root := by
  intro y hy s hmem
  have hkept : ∀ e ∈ fs, ¬ t.Within e y := fun e he => h.kept y hy e (h.subset e he)
  rw [h.cleared.stays y hkept] at hmem
  obtain ⟨v, rfl, hvis⟩ := hs y (h.cleared.within hy) s hmem
  have wft := h.chain.wellFormed wf
  refine ⟨v, rfl, h.cleared.visible wft (wft.hasValue_operand hmem) (fun e he hv => ?_) hvis hkept⟩
  have hes := h.subset e he
  rw [h.chain.frame.op e (h.chain.of_mem wf hr hes).1] at hv
  exact h.chain.unused wf hr hes hv y hmem

theorem verify_of_closed (hc : ∀ extents ∈ sel.candidates, Countable extents)
    (hv : p.verify catalogue root = .ok ())
    (hm : ∀ i, p.Outside isLaunch root i → (p.op i).name = reduceName → Measured p i)
    (hclosed : ∀ e ∈ es, p.Closed e) : q.verify catalogue root = .ok () := by
  obtain ⟨hs, hpass⟩ := wf.verify_iff.mp hv
  have hst := h.chain.sees wf hr (ground_of_verify wf hr hv).region rfl (.inr hclosed) hs
  have hpt := h.chain.passing wf hr hc hm hpass
  refine h.cleared.wellFormed.verify_iff.mpr ⟨h.sees wf hr hst, fun y hy => ?_⟩
  refine h.cleared.passing (h.chain.wellFormed wf) hpt (fun e he => ?_) (h.cleared.within hy) fun e he =>
    h.kept y hy e (h.subset e he)
  obtain ⟨hep, -, hn, -⟩ := h.chain.of_mem wf hr (h.subset e he)
  rw [Registry.isTerminator, h.chain.frame.op e hep]
  show (catalogue.traits (p.op e).name).terminator = false
  rw [hn]
  rfl

/-! ## Invalid results -/

theorem capture_kept (he : e ∈ es) (hcap : Capture p t e l y v) : ∀ e' ∈ es, ¬ t.Within e' y := by
  intro e' he' hw
  have wft := h.chain.wellFormed wf
  have hep := (h.chain.of_mem wf hr he').1
  rcases hw.total hcap.inside with hel | hle
  · -- the launch is next to `e`, which is in no other of them
    obtain ⟨c, hc, hec⟩ := hel.of_ne fun heq => hcap.new (heq ▸ hep)
    have hpe : t.parent? e = some c := by rw [← hcap.beside, hc]
    obtain rfl := h.chain.apart wf hr he' he (.step hpe hec)
    exact wft.not_within_of_parent hpe hec
  · exact hcap.new (wf.within_hasOp ((h.chain.frame.within_iff wf hep).mp hle) hep)

theorem closed_of_verify (hv : p.verify catalogue root = .ok ()) (hq : q.verify catalogue root = .ok ())
    (he : e ∈ es) : p.Closed e := by
  by_contra hopen
  obtain ⟨l, y, v, hcap⟩ := h.chain.capture wf hr (ground_of_verify wf hr hv).region he hopen
  have hkept := h.capture_kept wf hr he hcap
  have hin : q.Within l y := h.within_of_kept hcap.inside hkept
  have hroot : t.Within root l := by
    obtain ⟨hep, hout, -⟩ := h.chain.of_mem wf hr he
    obtain ⟨c, hc, hw⟩ := hout.within.of_ne (hout.ne_root wf).symm
    have hlc : t.parent? l = some c := by rw [hcap.beside, h.chain.frame.parent? wf hep, hc]
    exact .step hlc ((h.chain.frame.within_iff wf (wf.hasOp_parent hc)).mpr hw)
  have hy : q.Within root y := h.within_of_kept (hroot.trans hcap.inside) hkept
  have huse : some v ∈ (q.op y).operands := by
    rw [h.cleared.stays y fun e' he' => hkept e' (h.subset e' he')]
    exact hcap.uses
  obtain ⟨w, heq, hvis⟩ := (h.cleared.wellFormed.verify_iff.mp hq).1 y hy _ huse
  obtain rfl := Option.some.inj heq
  have hiso : catalogue.isIsolated (q.op l) = true := by
    rw [Registry.isIsolated, h.cleared.name, hcap.launch]
    rfl
  have hw := hvis.within_isolated hiso hin hcap.ne
  rw [h.anchorOf] at hw
  exact hcap.outside (h.cleared.within hw)

end Finished

/-! ## The whole pass -/

/-- What the pass leaves is valid exactly if the reductions that it distributes use nothing from outside. -/
theorem distribute_valid_iff (sel : Selector) (hc : ∀ extents ∈ sel.candidates, Countable extents)
    (wf : p.WellFormed) (hr : p.HasOp root) (hv : p.verify catalogue root = .ok ())
    (hm : ∀ i, p.Outside isLaunch root i → (p.op i).name = reduceName → Measured p i) {stats : Stats}
    (h : distribute sel root p = .ok (stats, none) q) :
    q.verify catalogue root = .ok () ↔ ∀ i, Distributed sel root p i → p.Closed i := by
  obtain ⟨es, fs, t, hend⟩ := finished_of_distribute (ground_of_verify wf hr hv) h
  constructor
  · intro hq i hi
    exact hend.closed_of_verify wf hr hv hq ((hend.mem_iff wf hr).mpr hi)
  · intro hclosed
    exact hend.verify_of_closed wf hr hc hv hm fun e he => hclosed e ((hend.mem_iff wf hr).mp he)

theorem OnTensors.measured {storage : Storage} (h : OnTensors storage root p) (ho : p.Outside isLaunch root i)
    (hn : (p.op i).name = reduceName) : Measured p i := by
  obtain ⟨htypes, hwords⟩ := h i ho hn
  refine ⟨fun s hs shape hshape => ?_, hwords⟩
  obtain ⟨ty, hty, shape', rfl, -, hpos, hsmall⟩ := htypes s hs
  obtain rfl : shape' = shape := by simpa [hty] using hshape
  exact ⟨hpos, hsmall⟩

theorem closed_keeper : (keeper .float32).Closed 2 := by
  rintro x ⟨bs, hbs, b, hb, y, hy, hw⟩ v hv
  obtain rfl : [2] = bs := Option.some.inj hbs
  obtain rfl := mem_singleton.mp hb
  obtain rfl : y = 3 := mem_singleton.mp hy
  have wf : (keeper .float32).WellFormed := .of_check (by decide)
  have hx := wf.mem_nested.mpr hw
  rw [show (keeper .float32).nested 3 = [3] by decide, mem_singleton] at hx
  subst hx
  obtain rfl : v = 3 := Option.some.inj (mem_singleton.mp hv)
  exact .refl

theorem distribute_valid_iff_keeper : ∃ stats q, distribute byTwo 0 (keeper .float32) = .ok (stats, none) q ∧
    q.verify catalogue 0 = .ok () := by
  have hrun : (converted? (distribute byTwo 0 (keeper .float32))).any (fun _ => true) = true := by decide +kernel
  obtain ⟨stats, q, h, -⟩ := of_converted? hrun
  refine ⟨stats, q, h, (distribute_valid_iff byTwo countable_pair (.of_check (by decide)) (by decide)
    (by decide) (fun _ => onTensors_keeper.measured) h).mpr fun i hi => ?_⟩
  obtain rfl := reduce_keeper hi.1.outside hi.1.reduce
  exact closed_keeper

/-- The reduction of a tensor with four elements that puts a constant from outside for each. -/
def overwriting : Program :=
  { ops := #[
      { name := "builtin.module", regions := [[0]] },
      { name := "func.func", regions := [[1]], block := some 0
        attrs := [("sym_name", .str "main"),
          ("function_type", .type (.function [.tensor ⟨.float32, [4]⟩,
            .tensor ⟨.float32, [4]⟩] [.tensor ⟨.float32, [4]⟩]))] },
      { name := "arith.constant", results := [5], block := some 1, attrs := [("value", .float 2)] },
      { name := "linalg.reduce", operands := [some 0, some 1], results := [2], regions := [[2]]
        block := some 1, attrs := [("dimensions", .ints []), ("operand_segment_sizes", .ints [1, 1])] },
      { name := "linalg.yield", operands := [some 5], block := some 2 },
      { name := "func.return", operands := [some 2], block := some 1 }]
    blocks := #[
      { owner := 0, ops := [1] },
      { owner := 1, args := [0, 1], ops := [2, 3, 5] },
      { owner := 3, args := [3, 4], ops := [4] }]
    values := #[
      ⟨.tensor ⟨.float32, [4]⟩, .argument 1 0, [⟨3, 0⟩]⟩,
      ⟨.tensor ⟨.float32, [4]⟩, .argument 1 1, [⟨3, 1⟩]⟩,
      ⟨.tensor ⟨.float32, [4]⟩, .result 3 0, [⟨5, 0⟩]⟩,
      ⟨.scalar .float32, .argument 2 0, []⟩,
      ⟨.scalar .float32, .argument 2 1, []⟩,
      ⟨.scalar .float32, .result 2 0, [⟨4, 0⟩]⟩] }

/-- A constant from outside is captured by the launch. -/
theorem distribute_captures : overwriting.WellFormed ∧ overwriting.verify catalogue 0 = .ok () ∧
    ∃ stats q, distribute byTwo 0 overwriting = .ok (stats, none) q ∧ q.verify catalogue 0 ≠ .ok () := by
  have hrun : (converted? (distribute byTwo 0 overwriting)).any
      (fun r => !(r.2.verify catalogue 0).isOk) = true := by decide +kernel
  obtain ⟨stats, q, h, hbad⟩ := of_converted? hrun
  refine ⟨.of_check (by decide), by decide, stats, q, h, fun hok => ?_⟩
  simp [hok, Except.isOk, Except.toBool] at hbad

/-- A reduction that keeps its elements, whose body reads them as a tensor of truth values. -/
def narrowing : Program :=
  { ops := #[
      { name := "builtin.module", regions := [[0]] },
      { name := "func.func", regions := [[1]], block := some 0
        attrs := [("sym_name", .str "main"), ("function_type", .type (.function
          [.tensor ⟨.float64, [1, 2]⟩, .tensor ⟨.float64, [2]⟩] [.tensor ⟨.float64, [2]⟩]))] },
      { name := "linalg.reduce", operands := [some 0, some 1], results := [2], regions := [[2]]
        block := some 1, attrs := [("dimensions", .ints [0]), ("operand_segment_sizes", .ints [1, 1])] },
      { name := "func.return", operands := [some 2], block := some 1 },
      { name := "arith.constant", results := [5], block := some 2
        attrs := [("value", .dense (some ⟨.float64, [1]⟩) [0])] },
      { name := "linalg.reduce", operands := [some 3, some 5], results := [6], regions := [[3]]
        block := some 2, attrs := [("dimensions", .ints []), ("operand_segment_sizes", .ints [1, 1])] },
      { name := "linalg.yield", operands := [some 6], block := some 2 },
      { name := "linalg.yield", operands := [some 7], block := some 3 }]
    blocks := #[
      { owner := 0, ops := [1] },
      { owner := 1, args := [0, 1], ops := [2, 3] },
      { owner := 2, args := [3, 4], ops := [4, 5, 6] },
      { owner := 5, args := [7, 8], ops := [7] }]
    values := #[
      ⟨.tensor ⟨.float64, [1, 2]⟩, .argument 1 0, [⟨2, 0⟩]⟩,
      ⟨.tensor ⟨.float64, [2]⟩, .argument 1 1, [⟨2, 1⟩]⟩,
      ⟨.tensor ⟨.float64, [2]⟩, .result 2 0, [⟨3, 0⟩]⟩,
      ⟨.tensor ⟨.bool, [1]⟩, .argument 2 0, [⟨5, 0⟩]⟩,
      ⟨.scalar .float64, .argument 2 1, []⟩,
      ⟨.tensor ⟨.float64, [1]⟩, .result 4 0, [⟨5, 1⟩]⟩,
      ⟨.tensor ⟨.float64, [1]⟩, .result 5 0, [⟨6, 0⟩]⟩,
      ⟨.scalar .bool, .argument 3 0, [⟨7, 0⟩]⟩,
      ⟨.scalar .float64, .argument 3 1, []⟩] }

def answers (p : Program) : Option (List (Option (Array Float))) :=
  match Execution.call p catalogue 0 "main" [⟨⟨.float64, [1, 2]⟩, 0⟩,
    ⟨⟨.float64, [2]⟩, 1⟩] ⟨#[#[2, 3], #[0, 0]]⟩ with
  | .ok ⟨results, none, s⟩ => some (results.map fun r => s.cells[r.cell]?)
  | _ => none

/-- An element is handed to the body as it is. The buffers of a distributed reduction in there round it to the type that
the body takes it for. -/
theorem distribute_rounds : narrowing.WellFormed ∧ narrowing.verify catalogue 0 = .ok () ∧
    answers narrowing = some [some #[2, 3]] ∧
    ∃ stats q, distribute { candidates := [[1]] } 0 narrowing = .ok (stats, none) q ∧
      answers q = some [some #[1, 1]] := by
  have hrun : (converted? (distribute { candidates := [[1]] } 0 narrowing)).any
      (fun r => decide (answers r.2 = some [some #[1, 1]])) = true := by decide +kernel
  obtain ⟨stats, q, h, hbad⟩ := of_converted? hrun
  exact ⟨.of_check (by decide +kernel), by decide +kernel, by decide +kernel, stats, q, h, of_decide_eq_true hbad⟩

end Offload.Distribution
