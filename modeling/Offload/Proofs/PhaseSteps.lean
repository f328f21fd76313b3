import Offload.Proofs.Fixpoints
import Offload.Proofs.Passing
import Offload.Qubits.PhaseGates

/-!
# Taking out phase gates one by one

The pass takes out one operation at a time: a pure one that is not used, or a phase gate whose result is only
measured. Each time the verifier accepts what is left, so that the pass never fails.
-/

namespace Offload

open Program Rewrite Rewriting Register List

variable {a : OpId} {c : Bool} {l : List OpId} {n : Nat} {s : Session Unit}

theorem Rewired.within_iff {p m : Program} {f : ValueId → ValueId} {a i : OpId} (h : Rewired f p m) :
    m.Within a i ↔ p.Within a i := by
  constructor
  all_goals
    intro hw
    induction hw with
    | refl => exact .refl
    | @step i _ hp _ ih => exact .step (by simpa [h.same.parent? i] using hp) ih

namespace Qubits

variable {p q m : Program} {root i j : OpId} {f : ValueId → ValueId} {v w : ValueId}

def IsPhase (p : Program) (i : OpId) : Prop := ∃ g ∈ Register.phaseGates, (p.op i).name = Register.gateName g

def bypass (y x v : ValueId) : ValueId := if v = y then x else v

inductive Ripe (p : Program) (i : OpId) : (ValueId → ValueId) → Prop
  | dead : isDead catalogue p i = true → Ripe p i id
  | measured {x y : ValueId} {u : Use} : IsPhase p i → (p.op i).operands = [some x] → (p.op i).results = [y] →
      (p.value y).uses = [u] → (p.op u.op).name = Register.measureName → Ripe p i (bypass y x)

structure Valid (root : OpId) (p : Program) : Prop where
  wellFormed : p.WellFormed
  sees : p.Sees catalogue root
  passing : ∀ i, p.Within root i → Passing p i

theorem valid_iff (wf : p.WellFormed) : Valid root p ↔ p.verify catalogue root = .ok () := by
  rw [wf.verify_iff]
  exact ⟨fun h => ⟨h.sees, h.passing⟩, fun h => ⟨wf, h.1, h.2⟩⟩

structure Takes (root : OpId) (p : Program) (i : OpId) (f : ValueId → ValueId) (q : Program) : Prop where
  inside : p.Within root i
  proper : i ≠ root
  ripe : Ripe p i f
  removed : ∃ m, Rewired f p m ∧ Edit.erase i m = .ok () q

/-! ## Kinds -/

theorem traits_of_isPhase (h : IsPhase p i) : catalogue.traits (p.op i).name = {} := by
  obtain ⟨g, hg, hn⟩ := h
  rw [hn]
  exact (by decide +kernel : ∀ g ∈ phaseGates, catalogue.traits (gateName g) = {}) g hg

theorem Ripe.not_terminator (h : Ripe p i f) : catalogue.isTerminator (p.op i) = false := by
  cases h with
  | dead h =>
    simp only [isDead, Bool.and_eq_true] at h
    have himpure : ∀ name ∈ terminatorNames, (catalogue.traits name).pure ≠ true := by decide +kernel
    exact isTerminator_eq_false fun hm => himpure _ hm h.1.1.1
  | measured h => rw [Registry.isTerminator, traits_of_isPhase h]

theorem hasUses_of_dead (h : isDead catalogue p i = true) : p.hasUses i = false := by
  simp only [isDead, Bool.and_eq_true, Bool.not_eq_true'] at h
  exact h.1.2

theorem unused_of_dead (h : isDead catalogue p i = true) (hv : v ∈ (p.op i).results) : (p.value v).uses = [] := by
  simpa using any_eq_false.mp (hasUses_of_dead h) v hv

namespace Valid

variable (hv : Valid root p)
include hv

theorem gate_shape (hi : p.Within root i) (h : IsPhase p i) : ∃ x y, (p.op i).operands = [some x] ∧
    (p.op i).results = [y] ∧ p.typeOf x = p.typeOf y ∧ (p.typeOf y).qubits ≠ 0 := by
  obtain ⟨g, hg, hn⟩ := h
  have hg : g ∈ gates := (by decide : ∀ g ∈ phaseGates, g ∈ gates) g hg
  obtain ⟨t, hop, hres, h0⟩ := gate_checked (hv.passing i hi).check hg hn
  obtain ⟨y, hy, rfl⟩ := map_eq_singleton_iff.mp hres
  -- no slot is empty, so there is only one
  have hslots : operands p i = ((p.op i).operands.filterMap id).map p.typeOf := by
    rw [operands, map_filterMap]
    rfl
  rw [hslots, map_eq_singleton_iff] at hop
  obtain ⟨x, hx, hxy⟩ := hop
  have hall : ((p.op i).operands.filterMap id).map some = (p.op i).operands := by
    rw [map_filterMap]
    conv_rhs => rw [← filterMap_some (l := (p.op i).operands)]
    refine filterMap_congr fun s hs => ?_
    obtain ⟨v, rfl, -⟩ := hv.sees i hi s hs
    rfl
  exact ⟨x, y, by rw [← hall, hx]; rfl, hy, hxy, h0⟩

theorem visible_operand (hi : p.Within root i) (h : some v ∈ (p.op i).operands) : Visible catalogue p root v i := by
  obtain ⟨w, hw, hvis⟩ := hv.sees i hi _ h
  exact Option.some.inj hw ▸ hvis

theorem not_own (hi : p.Within root i) (hne : i ≠ root) (hr : v ∈ (p.op i).results) :
    some v ∉ (p.op i).operands := by
  intro h
  have hlt := hv.wellFormed.precedes_nested hr hi hne (hv.visible_operand hi h)
  exact Nat.lt_irrefl _ ((precedes_iff_idxOf (hv.wellFormed.nodup_nested root) hlt.mem.1).mp hlt).2

section
variable (hi : p.Within root i) (hne : i ≠ root) (h : Ripe p i f)
include hi h

theorem typeOf_eq : p.typeOf (f v) = p.typeOf v := by
  cases h with
  | dead => rfl
  | @measured x y u hph hop hres =>
    obtain ⟨x', y', hop', hres', ht, -⟩ := hv.gate_shape hi hph
    by_cases hvy : v = y
    · simp_all [bypass]
    · rw [bypass, if_neg hvy]

include hne

theorem visible_ripe (hvis : Visible catalogue p root v j) : Visible catalogue p root (f v) j := by
  cases h with
  | dead => exact hvis
  | @measured x y u hph hop hres =>
    by_cases hvy : v = y
    · rw [bypass, if_pos hvy]
      exact hv.wellFormed.visible_through hi hne (hv.visible_operand hi (by simp [hop])) (by simp [hres]) (hvy ▸ hvis)
    · rwa [bypass, if_neg hvy]

theorem redirected (hr : w ∈ (p.op i).results) (hu : some v ∈ (p.op j).operands) : f v ≠ w := by
  cases h with
  | dead h =>
    rintro rfl
    obtain ⟨k, hk⟩ := getElem?_of_mem hu
    have hmem : (⟨j, k⟩ : Use) ∈ (p.value v).uses := hv.wellFormed.consistent.mem_uses.mpr hk
    have hnil : (p.value v).uses = [] := unused_of_dead h hr
    simp [hnil] at hmem
  | @measured x y u hph hop hres =>
    obtain rfl : w = y := by simpa [hres] using hr
    by_cases hvy : v = w
    · rw [bypass, if_pos hvy]
      rintro rfl
      exact hv.not_own hi hne hr (by simp [hop])
    · rwa [bypass, if_neg hvy]

end

theorem hasValue_ripe (h : Ripe p i f) (hval : p.HasValue v) : p.HasValue (f v) := by
  cases h with
  | dead => exact hval
  | @measured x y u hph hop hres =>
    by_cases hvy : v = y
    · rw [bypass, if_pos hvy]
      exact hv.wellFormed.hasValue_operand (i := i) (by simp [hop])
    · rwa [bypass, if_neg hvy]

end Valid

/-! ## One step -/

namespace Takes

theorem hasOp (h : Takes root p i f q) : p.HasOp i := by
  obtain ⟨a, ha, -⟩ := h.inside.of_ne h.proper.symm
  exact hasOp_of_parent ha

structure Effect (p : Program) (i : OpId) (f : ValueId → ValueId) (q : Program) : Prop where
  wellFormed : q.WellFormed
  parent : ∀ j, q.parent? j = if j = i then none else p.parent? j
  op : ∀ j, ¬ p.Within i j → q.op j = { p.op j with operands := (p.op j).operands.map (Option.map f) }
  emptied : ∀ j, p.Within i j → ∀ v, some v ∉ (q.op j).operands
  name : ∀ j, (q.op j).name = (p.op j).name
  block : ∀ c, q.block c = { p.block c with ops := (p.block c).ops.filter (· ≠ i) }
  typeOf : ∀ v, q.typeOf v = p.typeOf v

theorem cleared (wf : p.WellFormed) (h : Takes root p i f q) :
    ∃ m, Rewired f p m ∧ m.WellFormed ∧ Cleared [i] m q ∧ Edit.Erased i m q := by
  obtain ⟨m, hm, hq⟩ := h.removed
  have wfm := hm.wellFormed wf
  refine ⟨m, hm, wfm, eraseAll_cleared wfm ?_, Edit.erase_ok wfm hq⟩
  simp only [forM_eq_forM, forM_cons, forM_nil, bind_ok, pure_ok, true_and]
  exact ⟨(), _, hq, rfl⟩

theorem effect (wf : p.WellFormed) (h : Takes root p i f q) : Effect p i f q := by
  obtain ⟨m, hm, -, hq, herased⟩ := h.cleared wf
  refine ⟨hq.wellFormed, fun j => ?_, fun j hj => ?_, fun j hj v => ?_, fun j => ?_, fun c => ?_, fun v => ?_⟩
  · simp only [hq.parent, mem_singleton, hm.same.parent?]
  · rw [herased.outside j (fun hw => hj (hm.within_iff.mp hw)), hm.same.op j, hm.operands]
  · rw [herased.inside j (hm.within_iff.mpr hj)]
    simp
  · rw [hq.name, hm.same.op j]
  · rw [herased.block, hm.same.block]
  · rw [hq.typeOf, hm.same.typeOf]

theorem outside (wf : p.WellFormed) (h : Takes root p i f q) (hj : q.Within root j) : ¬ p.Within i j := by
  intro hw
  obtain ⟨m, hm, -, hq, -⟩ := h.cleared wf
  have hroot := hq.within_root hj mem_cons_self (hm.within_iff.mpr hw)
  exact h.proper (wf.within_antisymm (hm.within_iff.mp hroot) h.inside)

theorem within (wf : p.WellFormed) (h : Takes root p i f q) (hw : q.Within a j) : p.Within a j := by
  obtain ⟨m, hm, -, hq, -⟩ := h.cleared wf
  exact hm.within_iff.mp (hq.within hw)

theorem valid (hv : Valid root p) (h : Takes root p i f q) : Valid root q := by
  have wf := hv.wellFormed
  obtain ⟨m, hm, wfm, hq, -⟩ := h.cleared wf
  have hkept : ∀ y, q.Within root y → ∀ e ∈ [i], ¬ m.Within e y := fun y hy e he hw =>
    h.outside wf hy (hm.within_iff.mp (mem_singleton.mp he ▸ hw))
  have hsees : m.Sees catalogue root := hm.sees wf (fun v y hval hy hvis => hm.frame.visible wf
    (fun c _ => by rw [hm.same.block c]) (hv.hasValue_ripe h.ripe hval) hy
    (hv.visible_ripe h.inside h.proper h.ripe hvis)) hv.sees
  have hpass : ∀ y, m.Within root y → Passing m y := fun y hy => by
    have hyp := hm.within_iff.mp hy
    exact hm.passing wf (fun v => hv.typeOf_eq h.inside h.ripe) (hyp.hasOp (wf.within_hasOp h.inside (h.hasOp)))
      (hv.passing y hyp)
  refine ⟨hq.wellFormed, fun y hy s hs => ?_, fun y hy => ?_⟩
  · rw [hq.stays y (hkept y hy)] at hs
    obtain ⟨v, rfl, hvis⟩ := hsees y (hq.within hy) s hs
    refine ⟨v, rfl, hq.visible wfm (wfm.hasValue_operand hs) (fun e he hr => ?_) hvis (hkept y hy)⟩
    -- every use of a result was redirected
    obtain rfl := mem_singleton.mp he
    rw [hm.operands, mem_map] at hs
    obtain ⟨s, hs, hsv⟩ := hs
    obtain ⟨w, rfl, rfl⟩ := Option.map_eq_some_iff.mp hsv
    rw [hm.same.op] at hr
    exact hv.redirected h.inside h.proper h.ripe hr hs rfl
  · refine hq.passing wfm hpass (fun e he => ?_) (hq.within hy) (hkept y hy)
    rw [mem_singleton.mp he, Registry.isTerminator, hm.same.op i]
    exact h.ripe.not_terminator

end Takes

/-! ## Runs -/

/-- One sweep over a list: what is ripe when its turn comes is taken out. The flag says whether anything was. -/
inductive Swept (root : OpId) : List OpId → Program → Program → Bool → Prop
  | nil {p : Program} : Swept root [] p p false
  | keep {p q : Program} {i : OpId} {l : List OpId} {c : Bool} : (p.Within root i → ∀ f, ¬ Ripe p i f) →
      Swept root l p q c → Swept root (i :: l) p q c
  | take {p m q : Program} {i : OpId} {f : ValueId → ValueId} {l : List OpId} {c : Bool} : Takes root p i f m →
      Swept root l m q c → Swept root (i :: l) p q true

/-- At most so many sweeps over all that is inside of the root. The flag says whether the last one changed nothing. -/
inductive Rounds (root : OpId) : Nat → Program → Program → Bool → Prop
  | spent {p : Program} : Rounds root 0 p p false
  | still {n : Nat} {p q : Program} : Swept root (p.preorder (fun _ => true) root) p q false →
      Rounds root (n + 1) p q true
  | again {n : Nat} {p m q : Program} {c : Bool} : Swept root (p.preorder (fun _ => true) root) p m true →
      Rounds root n m q c → Rounds root (n + 1) p q c

section
variable {σ : Type} {r : Registry} {patterns : List (Pattern σ)} {s t : Session σ} {c : Bool} {rest : List OpId}

theorem sweepOver_erased (he : erasedAt s i = true) :
    sweepOver r patterns c (i :: rest) s = sweepOver r patterns c rest s := by
  rw [sweepOver, isErased_bind]
  exact congrFun (if_pos he) s

variable (he : erasedAt s i = false)
include he

theorem sweepOver_dead (hd : isDead r s.work.program i = true) (ht : eraseOp i s = .ok () t) :
    sweepOver r patterns c (i :: rest) s = sweepOver r patterns true rest t := by
  rw [sweepOver, isErased_bind]
  refine (congrFun (if_neg (Bool.eq_false_iff.mp he)) s).trans ?_
  rw [program_bind, if_pos hd, bind_of_ok ht]

variable {b : BlockId} {place : Nat} (hd : ¬ isDead r s.work.program i = true)
  (hb : (s.work.program.op i).block = some b) (hplace : (s.work.program.block b).ops.idxOf? i = some place)
include hd hb hplace

theorem sweepOver_noMatch (ho : applyPatterns patterns i (placed s b place s.work.builder.loc) = .ok .noMatch t) :
    sweepOver r patterns c (i :: rest) s = sweepOver r patterns c rest t := by
  rw [sweepOver, isErased_bind]
  refine (congrFun (if_neg (Bool.eq_false_iff.mp he)) s).trans ?_
  rw [program_bind, if_neg hd, bind_of_ok ((toBefore_ok (u := ())).mpr ⟨b, place, hb, hplace, rfl⟩),
    program_bind, bind_of_ok ho]

theorem sweepOver_applied (ho : applyPatterns patterns i (placed s b place s.work.builder.loc) = .ok .applied t) :
    sweepOver r patterns c (i :: rest) s = sweepOver r patterns true rest { t with rewritten := t.rewritten + 1 } := by
  rw [sweepOver, isErased_bind]
  refine (congrFun (if_neg (Bool.eq_false_iff.mp he)) s).trans ?_
  rw [program_bind, if_neg hd, bind_of_ok ((toBefore_ok (u := ())).mpr ⟨b, place, hb, hplace, rfl⟩),
    program_bind, bind_of_ok ho]
  exact bind_of_ok ((countRewrite_ok (u := ())).mpr rfl)

end

theorem isOnlyMeasured_iff : isOnlyMeasured p v = true ↔
    ∃ u, (p.value v).uses = [u] ∧ (p.op u.op).name = measureName := by
  unfold isOnlyMeasured
  split
  · simp_all
  · rename_i h
    exact ⟨fun h => absurd h Bool.false_ne_true, fun ⟨u, hu, _⟩ => absurd hu (h u)⟩

theorem applyPatterns_phase {s t : Session Unit} {o : Outcome} (h : IsPhase s.work.program i)
    (ht : dropPhaseGate i { s with work := { s.work with
      builder := { s.work.builder with loc := (s.work.program.op i).loc } } } =
      .ok o t) : applyPatterns phasePatterns i s = .ok o t := by
  obtain ⟨g, hg, hn⟩ := h
  have hself : ∀ g ∈ phaseGates, phaseGates.filter (fun g' => gateName g' = gateName g) = [g] := by decide
  have hone : phasePatterns.filter (fun x => x.kind = gateName g) = [⟨gateName g, dropPhaseGate⟩] := by
    rw [phasePatterns, filter_map]
    exact congrArg _ (hself g hg)
  rw [applyPatterns, program_bind, hn, hone, tryPatterns,
    program_bind, bind_of_ok ((build_ok (a := ())).mpr ⟨_, Build.setLoc_ok.mpr rfl, rfl⟩)]
  simp only [Nat.sub_self, Nat.add_zero]
  rw [bind_of_ok ht]
  cases o <;> rfl

theorem applyPatterns_other (h : ¬ IsPhase s.work.program i) :
    applyPatterns phasePatterns i s = .ok .noMatch s := by
  rw [applyPatterns, program_bind, filter_eq_nil_iff.mpr fun pattern hmem => ?_]
  · rfl
  · obtain ⟨g, hg, rfl⟩ := mem_map.mp hmem
    exact fun hk => h ⟨g, hg, (of_decide_eq_true hk).symm⟩

theorem dropPhaseGate_noMatch (hres : (s.work.program.op i).results = [v])
    (hm : ¬ isOnlyMeasured s.work.program v = true) : dropPhaseGate i s = .ok .noMatch s := by
  rw [dropPhaseGate, program_bind]
  simp only [hres, head?_cons, hm]
  rfl

theorem dropPhaseGate_applied (hs : Tidy s) (hv : Valid root s.work.program)
    (hi : s.work.program.Within root i) (hne : i ≠ root) (hfresh : i ∉ s.erased) (hph : IsPhase s.work.program i)
    (hop : (s.work.program.op i).operands = [some w]) (hres : (s.work.program.op i).results = [v])
    (hm : isOnlyMeasured s.work.program v = true) : ∃ t, dropPhaseGate i s = .ok .applied t ∧ Tidy t ∧
      Takes root s.work.program i (bypass v w) t.work.program ∧ t.erased = i :: s.erased := by
  have wf := hs.wellFormed
  obtain ⟨u, hu, hn⟩ := isOnlyMeasured_iff.mp hm
  have hripe : Ripe s.work.program i (bypass v w) := .measured hph hop hres hu hn
  have hwv : w ≠ v := fun heq => hv.not_own hi hne (v := v) (by simp [hres]) (by simp [hop, heq])
  have hw : s.work.program.HasValue w := wf.hasValue_operand (i := i) (by simp [hop])
  obtain ⟨_, m, hm'⟩ := Edit.replaceAllUses_succeeds (v := v) wf.consistent hw
  have hrewired := Rewired.of_replaced (Edit.replaceAllUses_ok wf.consistent hw hm')
  have hunused : m.hasUses i = false := by
    have hres' : (m.op i).results = [v] := by rw [hrewired.same.op i, hres]
    simp only [hasUses, hres', any_cons, any_nil, Bool.or_false, Bool.not_eq_false',
      List.isEmpty_iff, eq_nil_iff_forall_not_mem]
    intro u hu
    have hu := mem_of_getElem? (hrewired.consistent.mem_uses.mp hu)
    rw [hrewired.operands, mem_map] at hu
    obtain ⟨slot, hslot, he⟩ := hu
    obtain ⟨v', rfl, hv'⟩ := Option.map_eq_some_iff.mp he
    exact hv.redirected (w := v) hi hne hripe (by simp [hres]) hslot hv'
  obtain ⟨_, q, hq⟩ := Edit.erase_succeeds hrewired.consistent hunused
  have hreplace := (replaceAllUses_ok (s := s) (u := ()) hwv).mpr ⟨m, hm', rfl⟩
  have htidy := hs.replaceAllUses (fun y hy => Option.some.inj hy ▸ hw) hreplace
  have herase := (eraseOp_now (i := i) (x := ()) htidy.deferred).mpr ⟨hfresh, q, hq, rfl⟩
  have htakes : Takes root s.work.program i (bypass v w) q := ⟨hi, hne, hripe, m, hrewired, hq⟩
  have hthere : m.HasOp i := (hrewired.same.hasOp i).mpr htakes.hasOp
  refine ⟨_, ?_, htidy.eraseOp hthere herase, htakes, rfl⟩
  rw [dropPhaseGate, program_bind]
  simp only [hres, head?_cons, hm, if_true, hop]
  refine bind_of_ok (a := ()) ?_
  rw [replaceOp, program_bind]
  simp only [hres, length_singleton, if_true, zip_cons_cons, zip_nil_left, forM_eq_forM,
    forM_cons, forM_nil]
  exact (bind_of_ok (bind_of_ok hreplace)).trans herase

def Steps (root : OpId) : Program → Program → Prop := Relation.ReflTransGen fun p q => ∃ i f, Takes root p i f q

theorem Swept.steps (h : Swept root l p q c) : Steps root p q := by
  induction h with
  | nil => exact .refl
  | keep _ _ ih => exact ih
  | take ht _ ih => exact .head ⟨_, _, ht⟩ ih

theorem Rounds.steps (h : Rounds root n p q c) : Steps root p q := by
  induction h with
  | spent => exact .refl
  | still h => exact h.steps
  | again h _ ih => exact h.steps.trans ih

theorem Steps.valid (h : Steps root p q) (hv : Valid root p) : Valid root q := by
  induction h with
  | refl => exact hv
  | tail _ ht ih =>
    obtain ⟨_, _, ht⟩ := ht
    exact ht.valid ih

theorem Steps.within (h : Steps root p q) (hv : Valid root p) (hw : q.Within root j) : p.Within root j := by
  induction h with
  | refl => exact hw
  | tail h ht ih =>
    obtain ⟨_, _, ht⟩ := ht
    exact ih (ht.within (Steps.valid h hv).wellFormed hw)

def Settled (root : OpId) (p : Program) : Prop := ∀ i, p.Within root i → i ≠ root → ∀ f, ¬ Ripe p i f

theorem mem_preorder (wf : p.WellFormed) : i ∈ p.preorder (fun _ => true) root ↔ p.Within root i ∧
    i ≠ root := by
  have hnodup := wf.nodup_nested root
  rw [← wf.mem_nested, wf.nested_eq_preorder, mem_cons]
  rw [wf.nested_eq_preorder] at hnodup
  constructor
  · exact fun hi => ⟨.inr hi, fun heq => (nodup_cons.mp hnodup).1 (heq ▸ hi)⟩
  · exact fun ⟨hi, hne⟩ => hi.resolve_left hne

theorem Swept.unchanged (h : Swept root l p q c) (hc : c = false) :
    q = p ∧ ∀ i ∈ l, p.Within root i → ∀ f, ¬ Ripe p i f := by
  induction h with
  | nil => exact ⟨rfl, fun _ hi => absurd hi not_mem_nil⟩
  | keep hkeep _ ih =>
    obtain ⟨rfl, hrest⟩ := ih hc
    exact ⟨rfl, forall_mem_cons.mpr ⟨hkeep, hrest⟩⟩
  | take => cases hc

theorem Rounds.settled (h : Rounds root n p q c) (hv : Valid root p) (hc : c = true) : Settled root q := by
  induction h with
  | spent => cases hc
  | still h =>
    obtain ⟨rfl, hall⟩ := h.unchanged rfl
    exact fun i hi hne => hall i ((mem_preorder hv.wellFormed).mpr ⟨hi, hne⟩) hi
  | again h _ ih => exact ih (h.steps.valid hv) hc

structure Ongoing (root : OpId) (s : Session Unit) : Prop extends Tidy s where
  valid : Valid root s.work.program
  root : erasedAt s root = false

def Reachable (root : OpId) (s : Session Unit) (i : OpId) : Prop :=
  s.work.program.Within root i ∨ erasedAt s i = true

namespace Ongoing

variable {s t : Session Unit}

theorem take (hs : Ongoing root s) (h : Takes root s.work.program i f t.work.program) (ht : Tidy t)
    (he : t.erased = i :: s.erased) : Ongoing root t ∧ ∀ j, Reachable root s j → Reachable root t j := by
  have wf := hs.wellFormed
  obtain ⟨m, hm, wfm, hq, -⟩ := h.cleared wf
  have hstill : ∀ a j, s.work.program.Within a j → t.work.program.Within a j ∨ erasedAt t j = true := by
    intro a j hw
    refine (hq.still_within (hm.within_iff.mpr hw)).imp_right fun ⟨k, hk, hw⟩ => ?_
    exact (erasedAt_iff ht.wellFormed).mpr ⟨k, by simp_all, hw⟩
  refine ⟨⟨ht, h.valid hs.valid, ?_⟩, fun j hj => ?_⟩
  · rw [Bool.eq_false_iff, ne_eq, erasedAt_iff ht.wellFormed, he]
    rintro ⟨a, ha, hw⟩
    have hw := h.within wf hw
    rcases mem_cons.mp ha with rfl | ha
    · exact h.proper (wf.within_antisymm hw h.inside)
    · exact Bool.eq_false_iff.mp hs.root ((erasedAt_iff wf).mpr ⟨a, ha, hw⟩)
  · rcases hj with hj | hj
    · exact hstill root j hj
    · obtain ⟨a, ha, hw⟩ := (erasedAt_iff wf).mp hj
      refine .inr ((hstill a j hw).elim (fun hw => ?_) id)
      exact (erasedAt_iff ht.wellFormed).mpr ⟨a, he ▸ mem_cons_of_mem _ ha, hw⟩

theorem visit (hs : Ongoing root s) (hi : s.work.program.Within root i) (hne : i ≠ root) :
    (∀ f, ¬ Ripe s.work.program i f) ∧ (∃ t, t.work.program = s.work.program ∧ t.erased = s.erased ∧
      t.deferred = false ∧
      ∀ c rest, sweepOver catalogue phasePatterns c (i :: rest) s = sweepOver catalogue phasePatterns c rest t) ∨
    ∃ f t, Takes root s.work.program i f t.work.program ∧ Tidy t ∧ t.erased = i :: s.erased ∧
      ∀ c rest, sweepOver catalogue phasePatterns c (i :: rest) s =
        sweepOver catalogue phasePatterns true rest t := by
  have wf := hs.wellFormed
  have he : erasedAt s i = false := by
    by_contra he
    exact Bool.eq_false_iff.mp hs.root (hs.erasedAt_root hi (by simpa using he))
  have hfresh : i ∉ s.erased := fun hmem => Bool.eq_false_iff.mp he ((erasedAt_iff wf).mpr ⟨i, hmem, .refl⟩)
  obtain ⟨a, ha, -⟩ := hi.of_ne hne.symm
  obtain ⟨b, hb, -⟩ := parent?_eq_some.mp ha
  obtain ⟨place, hplace⟩ := Option.isSome_iff_exists.mp (isSome_idxOf?.mpr ((wf.listed i b).mp hb))
  by_cases hdead : isDead catalogue s.work.program i = true
  · right
    obtain ⟨u, q, hq⟩ := Edit.erase_succeeds wf.consistent (hasUses_of_dead hdead)
    have ht := (eraseOp_now (x := u) hs.deferred).mpr ⟨hfresh, q, hq, rfl⟩
    refine ⟨id, _, ⟨hi, hne, .dead hdead, _, .refl wf.consistent, hq⟩,
      hs.toTidy.eraseOp (hasOp_of_block hb) ht, rfl, fun c rest => ?_⟩
    exact sweepOver_dead he hdead ht
  by_cases hphase : IsPhase s.work.program i
  · obtain ⟨x, y, hop, hres, -⟩ := hs.valid.gate_shape hi hphase
    by_cases hm : isOnlyMeasured s.work.program y = true
    · right
      have hplaced : Tidy (placed s b place (s.work.program.op i).loc) := { hs.toTidy with }
      obtain ⟨t, ht, htidy, htakes, herased⟩ := dropPhaseGate_applied hplaced hs.valid hi hne hfresh
        hphase hop hres hm
      exact ⟨_, { t with rewritten := t.rewritten + 1 }, htakes, { htidy with }, herased, fun c rest =>
        sweepOver_applied he hdead hb hplace (applyPatterns_phase hphase ht)⟩
    · left
      refine ⟨fun f hf => ?_, placed s b place (s.work.program.op i).loc, rfl, rfl, hs.deferred, fun c rest =>
        sweepOver_noMatch he hdead hb hplace (applyPatterns_phase hphase ?_)⟩
      · cases hf with
        | dead h => exact hdead h
        | measured _ _ hres' hu hn =>
          obtain rfl : y = _ := singleton_inj.mp (hres.symm.trans hres')
          exact hm (isOnlyMeasured_iff.mpr ⟨_, hu, hn⟩)
      · exact dropPhaseGate_noMatch hres hm
  · refine .inl ⟨fun f hf => ?_, placed s b place s.work.builder.loc, rfl, rfl, hs.deferred, fun c rest =>
      sweepOver_noMatch he hdead hb hplace (applyPatterns_other hphase)⟩
    cases hf with
    | dead h => exact hdead h
    | measured h => exact hphase h

theorem of_same (hs : Ongoing root s) (hp : t.work.program = s.work.program) (he : t.erased = s.erased)
    (hd : t.deferred = false) : Ongoing root t ∧ ∀ i, erasedAt t i = erasedAt s i := by
  have herased : ∀ i, erasedAt t i = erasedAt s i := fun i => by rw [erasedAt, erasedAt, hp, he]
  refine ⟨⟨⟨hp ▸ hs.wellFormed, hd, fun e hmem => ?_⟩, hp ▸ hs.valid, (herased root).trans hs.root⟩,
    herased⟩
  rw [hp]
  exact hs.detached e (he ▸ hmem)

theorem sweep (hs : Ongoing root s) (hl : ∀ i ∈ l, i ≠ root ∧ Reachable root s i) (c : Bool) :
    ∃ t c', sweepOver catalogue phasePatterns c l s = .ok (.ok (c || c')) t ∧
      Swept root l s.work.program t.work.program c' ∧ Ongoing root t := by
  induction l generalizing s c with
  | nil => exact ⟨s, false, by rw [Bool.or_false]; rfl, .nil, hs⟩
  | cons i rest ih =>
    obtain ⟨⟨hne, hi⟩, hrest⟩ := forall_mem_cons.mp hl
    rcases hi with hi | he
    · rcases hs.visit hi hne with ⟨hkeep, m, hp, her, hd, hm⟩ | ⟨f, m, htakes, htidy, her, hm⟩
      · obtain ⟨hm', herased⟩ := hs.of_same hp her hd
        obtain ⟨t, c', ht, hswept, hongoing⟩ := ih hm' (fun j hj => ⟨(hrest j hj).1, by
          rw [Reachable, hp, herased]; exact (hrest j hj).2⟩) c
        exact ⟨t, c', (hm c rest).trans ht, .keep (fun _ => hkeep) (hp ▸ hswept), hongoing⟩
      · obtain ⟨hm', hreach⟩ := hs.take htakes htidy her
        obtain ⟨t, c', ht, hswept, hongoing⟩ := ih hm' (fun j hj =>
          ⟨(hrest j hj).1, hreach j (hrest j hj).2⟩) true
        exact ⟨t, true, by rw [hm, ht, Bool.or_true, Bool.true_or], .take htakes hswept, hongoing⟩
    · obtain ⟨t, c', ht, hswept, hongoing⟩ := ih hs hrest c
      refine ⟨t, c', (sweepOver_erased he).trans ht, .keep (fun hi => ?_) hswept, hongoing⟩
      exact absurd (hs.erasedAt_root hi he) (Bool.eq_false_iff.mp hs.root)

theorem rounds (hs : Ongoing root s) (total n : Nat) : ∃ e t,
    sweeps catalogue phasePatterns root total n s = .ok e t ∧
    Rounds root n s.work.program t.work.program e.isNone ∧ ∀ x, e = some x → x = .notConverged total := by
  induction n generalizing s with
  | zero => exact ⟨_, s, rfl, .spent, fun x hx => (Option.some.inj hx).symm⟩
  | succ n ih =>
    have hwalk : ∀ i ∈ s.work.program.preorder (fun _ => true) root, i ≠ root ∧ Reachable root s i := by
      intro i hi
      obtain ⟨hi, hne⟩ := (mem_preorder hs.wellFormed).mp hi
      exact ⟨hne, .inl hi⟩
    obtain ⟨t, c, ht, hswept, hongoing⟩ := hs.sweep hwalk false
    obtain ⟨hongoing, -⟩ := hongoing.of_same (t := { t with work := { t.work with created := [] } }) rfl rfl
      hongoing.deferred
    rw [sweeps, program_bind, bind_of_ok ht]
    simp only [bind_of_ok ((discard_ok (b := ())).mpr ⟨_, takeInserted_ok.mpr ⟨rfl, rfl⟩⟩)]
    cases c with
    | false => exact ⟨none, _, rfl, .still hswept, by simp⟩
    | true =>
      obtain ⟨e, u, hu, hrounds, he⟩ := ih hongoing
      exact ⟨e, u, hu, .again hswept hrounds, he⟩

end Ongoing

theorem drop_runs (hv : Valid root p) (maxSweeps : Int) : ∃ stats e q,
    dropPhaseGates catalogue maxSweeps root p = .ok (stats, e) q ∧
      Rounds root (if maxSweeps ≤ 0 then defaultSweeps else maxSweeps.toNat) p q e.isNone ∧
      ∀ x, e = some x → x = .notConverged (if maxSweeps ≤ 0 then defaultSweeps else maxSweeps.toNat) := by
  have hstart : Ongoing root ({ work := { program := p }, deferred := false, extra := () } : Session Unit) :=
    ⟨tidy_start () hv.wellFormed, hv, by simp [erasedAt]⟩
  obtain ⟨e, t, ht, hrounds, he⟩ := hstart.rounds (if maxSweeps ≤ 0 then defaultSweeps else maxSweeps.toNat)
    (if maxSweeps ≤ 0 then defaultSweeps else maxSweeps.toNat)
  refine ⟨⟨t.rewritten, t.mutations⟩, e, t.work.program, ?_, hrounds, he⟩
  have hrun := bind_of_ok (f := fun error => do return (← Rewriting.stats, error)) ht
  rw [dropPhaseGates, asEdit, start]
  simp only [greedily, hrun]
  rfl

end Qubits

end Offload
