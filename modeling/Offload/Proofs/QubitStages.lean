import Offload.Proofs.Aliasing
import Offload.Proofs.Likeness
import Offload.Proofs.QubitFlow

/-!
# Programs on the way to handles

While a program is lowered, operations on handles stand before the operations on registers that they were
built for; at the end they stand in their place. In both cases the verifier accepts the program.
-/

namespace Offload

open Program Handle List

variable {b : BlockId} {e : Event} {l o : Nat} {name : String}

/-! ## Operations on handles -/

namespace Handle

variable {p : Program} {k : OpId}

theorem accepted {check : Program → OpId → Except Flaw Unit} (hn : (p.op k).name = name) (hc : check p k = .ok ())
    (hm : { name, check := fun p i => (check p i).mapError (.violation ·.message) } ∈ registry) :
    catalogue.isTerminator (p.op k) = false ∧ p.checkKind catalogue k = .ok () := by
  have hcat := mem_append_right (Functions.registry ++ Arith.registry ++ Reduction.registry ++ Views.registry ++
    Workgroup.registry ++ Register.registry) hm
  have hplain : ∀ info ∈ registry, info.name ∉ terminatorNames := by decide
  exact ⟨isTerminator_eq_false (hn ▸ hplain _ hm), (checkKind_catalogue hcat hn).trans (mapError_ok.mpr hc)⟩

theorem checkAllocation_ok {v : ValueId} {t : Ty} (h : instr p k = { name, results := [(v, t)] }) :
    checkAllocation p k t = .ok () := by
  simp only [instr, Instr.mk.injEq] at h
  obtain ⟨_, _, hop, hr⟩ := h
  obtain ⟨w, hw, hwt⟩ := map_eq_singleton_iff.mp hr
  rw [checkAllocation, if_pos]
  rw [operands, hop, resultTypes, hw]
  exact ⟨rfl, by simp [(Prod.mk.inj hwt).2]⟩

theorem checkOperands_ok (vs : List ValueId) {attrs : List (String × Attr)}
    (h : instr p k = { name, attrs, operands := vs.map some }) : checkOperands p k (vs.map p.typeOf) = .ok () := by
  simp only [instr, Instr.mk.injEq] at h
  obtain ⟨_, _, hop, hr⟩ := h
  have hops : operands p k = vs.map p.typeOf := by
    rw [operands, hop, filterMap_map]
    exact congrFun filterMap_eq_map vs
  rw [checkOperands]
  simp only [hops, map_eq_nil_iff.mp hr, ne_eq, not_true_eq_false, or_self, if_false]
  have : ((vs.map p.typeOf).zip (vs.map p.typeOf)).zipIdx.find? (fun x => decide (x.1.1 ≠ x.1.2)) = none := by
    rw [List.find?_eq_none]
    intro x hx
    have hz := mem_of_getElem? (mem_zipIdx_iff_getElem?.mp hx)
    obtain ⟨n, hn⟩ := getElem?_of_mem hz
    obtain ⟨ha, hb⟩ := getElem?_zip_eq_some.mp hn
    simpa using Option.mem_unique ha hb
  rw [this]

theorem checkRead_ok {o b : ValueId} (ho : p.typeOf o = .outcome)
    (h : instr p k = { name, operands := [some o], results := [(b, .scalar .bool)] }) : checkRead p k = .ok () := by
  simp only [instr, Instr.mk.injEq] at h
  obtain ⟨_, _, hop, hr⟩ := h
  obtain ⟨w, hw, hwt⟩ := map_eq_singleton_iff.mp hr
  have hops : operands p k = [.outcome] := by simp [operands, hop, slotType?, ho]
  have hres : p.resultTypes k = [.scalar .bool] := by simp [resultTypes, hw, (Prod.mk.inj hwt).2]
  rw [checkRead, hops, hres]
  rfl

end Handle

namespace Qubits

theorem not_terminator {o : Op} (h : isQuantum o = true) : catalogue.isTerminator o = false := by
  have hother : ∀ name ∈ terminatorNames, isQuantum { name } ≠ true := by decide
  exact isTerminator_eq_false fun hm => hother _ hm h

/-! ## Stages -/

/-- The program `q` on the way from `p` to handles: the operations `done` were lowered, and the operations
`new i` were built for `i`. They stand right before `i`, or in its place. -/
structure Stage (p : Program) (root : OpId) (trace : List (OpId × List Event)) (m : Machine) (n : Naming)
    (new f : OpId → List OpId) (q : Program) : Prop where
  source : Sourced p root trace m
  inside : ∀ x ∈ trace, p.Within root x.1 ∧ x.1 ≠ root
  wellFormed : q.WellFormed
  place : ∀ j, f j = new j ++ [j] ∨ f j = new j ∧ isLowered p root j = true
  op : ∀ j, p.HasOp j → j ∈ f j →
    q.op j = { p.op j with operands := (p.op j).operands.map (Option.map (n.rename m)) }
  block : ∀ b, q.block b = { p.block b with ops := (p.block b).ops.flatMap f }
  value : ∀ v, p.HasValue v → q.typeOf v = p.typeOf v
  built : ∀ j, new j ≠ [] → ∃ x ∈ trace, x.1 = j
  fresh : ∀ j, ∀ k ∈ new j, ¬ p.HasOp k ∧ (q.op k).regions = []
  code : ∀ x ∈ trace, n.code x.2 = some ((new x.1).map (instr q))
  names : n.Fits m p q
  kept : ∀ j, p.HasOp j → j ∈ f j → ∀ v, some v ∈ (q.op j).operands →
    ∀ d, v ∈ (p.op d).results → d ∈ f d

variable {p q : Program} {root i j k : OpId} {trace : List (OpId × List Event)} {m : Machine} {n : Naming}
  {new f : OpId → List OpId} {v w : ValueId} {x : OpId × List Event}

theorem accepted (wf : p.WellFormed) (hv : p.verify catalogue root = .ok ()) (hi : p.Within root i) :
    (∀ s ∈ (p.op i).operands, ∃ v, s = some v ∧ Visible catalogue p root v i) ∧
      (catalogue.isTerminator (p.op i) = true → p.isLast i = true) ∧ p.checkKind catalogue i = .ok () := by
  have := verifyOp_ok.mp (verify_ok.mp hv i (wf.mem_nested.mpr hi))
  simpa only [wf.visible_ok] using this

namespace Stage

section
variable (wf : p.WellFormed) (flat : Flat p root) (h : Stage p root trace m n new f q)
include wf h

omit wf in
theorem block_of_trace (hx : x ∈ trace) : ∃ b, (p.op x.1).block = some b := by
  obtain ⟨hw, hne⟩ := h.inside x hx
  obtain ⟨a, hp, _⟩ := hw.of_ne (Ne.symm hne)
  obtain ⟨b, hb, _⟩ := parent?_eq_some.mp hp
  exact ⟨b, hb⟩

omit wf in
theorem new_subset (hk : k ∈ new j) : k ∈ f j := by
  rcases h.place j with hf | ⟨hf, _⟩
  · rw [hf]
    exact mem_append_left _ hk
  · rwa [hf]

omit wf in
theorem eq_or_new (hk : k ∈ f j) : k = j ∨ k ∈ new j := by
  rcases h.place j with hf | ⟨hf, _⟩
  · rw [hf, mem_append, mem_singleton] at hk
    exact hk.symm
  · exact .inr (hf ▸ hk)

include flat in
theorem mem_self_of_parent (hp : p.parent? i = some j) : j ∈ f j := by
  rcases h.place j with hf | ⟨_, hl⟩
  · simp [hf]
  · -- an operation that was lowered holds nothing
    rw [isLowered, Bool.and_eq_true, decide_eq_true_eq] at hl
    have hc := wf.mem_children.mpr hp
    rw [children, flat j hl.1 hl.2] at hc
    cases hc

include flat in
theorem spread : Spread catalogue p q f fun _ => True where
  wellFormed := h.wellFormed
  owner i b _ _ := by rw [h.block]
  ops i b _ _ := by rw [h.block]
  parent i a _ hp := by
    have ha := h.mem_self_of_parent wf flat hp
    refine ⟨trivial, ha, ?_⟩
    rw [h.op a (wf.hasOp_parent hp) ha]
    rfl
  new i k _ hk := (h.eq_or_new hk).imp_right fun hk => (h.fresh i k hk).1

theorem source_kept (hj : j ∈ f j) (hv : v ∈ (p.op j).results) :
    q.homeOf v = p.homeOf v ∧ q.definingOp? v = some j := by
  have hp : p.HasOp j := by
    by_contra hn
    rw [op_of_not_hasOp hn] at hv
    cases hv
  have hq := h.op j hp hj
  have hvq : v ∈ (q.op j).results := by rwa [hq]
  obtain ⟨_, hhome, hdef⟩ := h.wellFormed.source_result hvq
  refine ⟨?_, hdef⟩
  rw [hhome, (wf.source_result hv).2.1, hq]

include flat in
theorem visible_old (hroot : p.HasOp root) (hval : p.HasValue v) (hd : ∀ d, v ∈ (p.op d).results → d ∈ f d)
    (hv : Visible catalogue p root v i) (hk : k ∈ f i) : Visible catalogue q root v k := by
  cases hs : (p.value v).source with
  | result d l =>
    have hr : v ∈ (p.op d).results := mem_of_getElem? ((wf.result d l v).mpr ⟨hval, hs⟩)
    obtain ⟨hhome, hdef⟩ := h.source_kept wf (hd d hr) hr
    refine (h.spread wf flat).visible wf hroot hhome (fun x hx => ⟨d, (wf.source_result hr).2.2, ?_⟩) hv trivial hk
    rw [hdef] at hx
    cases hx
    exact hd d hr
  | argument b l =>
    have harg := (wf.argument b l v).mpr ⟨hval, hs⟩
    have hq : (q.block b).args[l]? = some v := by rwa [h.block]
    have hsq := ((h.wellFormed.argument b l v).mp hq).2
    refine (h.spread wf flat).visible wf hroot (by simp [homeOf, hs, hsq]) (fun x hx => ?_) hv trivial hk
    simp [definingOp?, hsq] at hx

include flat in
theorem visible_new (hroot : p.HasOp root) (hx : x ∈ trace) {y : OpId} (hy : y ∈ new x.1)
    (hw : w ∈ (q.op y).results)
    {r : ValueId} (hr : r ∈ (p.op x.1).results) (hv : Visible catalogue p root r i) (hk : k ∈ f i) :
    Visible catalogue q root w k := by
  obtain ⟨b, hb⟩ := h.block_of_trace hx
  obtain ⟨_, hhome, hdef⟩ := wf.source_result hr
  obtain ⟨_, hhome', hdef'⟩ := h.wellFormed.source_result hw
  have hs := h.spread wf flat
  refine hs.visible wf hroot ?_ (fun z hz => ⟨x.1, hdef, ?_⟩) hv trivial hk
  · rw [hhome', hhome, hb, hs.block wf trivial (h.new_subset hy) hb]
  · rw [hdef'] at hz
    cases hz
    exact h.new_subset hy

omit wf in
theorem instrs_of_event (hx : x ∈ trace) (he : e ∈ x.2) :
    ∃ ys, n.instrs e = some ys ∧ ∀ y ∈ ys, ∃ k ∈ new x.1, instr q k = y := by
  obtain ⟨ys, hy, hsub⟩ := Naming.code_of_mem (h.code x hx) he
  refine ⟨ys, hy, fun y hyy => ?_⟩
  obtain ⟨k, hk, rfl⟩ := mem_map.mp (hsub y hyy)
  exact ⟨k, hk, rfl⟩

omit wf in
theorem handle_built (hx : x ∈ trace) (he : .alloc l ∈ x.2) (hw : n.handles[l]? = some w) :
    (∃ y ∈ new x.1, w ∈ (q.op y).results) ∧ q.typeOf w = .qubit := by
  obtain ⟨ys, hy, hsub⟩ := h.instrs_of_event hx he
  simp only [Naming.instrs, hw, Option.pure_def, Option.bind_eq_bind, Option.bind_some, Option.some.injEq] at hy
  subst hy
  obtain ⟨y, hy, hi⟩ := hsub _ (mem_singleton.mpr rfl)
  simp only [instr, Instr.mk.injEq] at hi
  obtain ⟨u, hu, hut⟩ := map_eq_singleton_iff.mp hi.2.2.2
  obtain ⟨rfl, ht⟩ := Prod.mk.inj hut
  exact ⟨⟨y, hy, by simp [hu]⟩, ht⟩

include flat in
theorem handle_visible (hroot : p.HasOp root) (hx : x ∈ trace) (he : e ∈ x.2)
    (hl : l ∈ e.qubits) (hne : e ≠ .alloc l) (hw : n.handles[l]? = some w) (hk : k ∈ f x.1) :
    Visible catalogue q root w k ∧ q.typeOf w = .qubit := by
  obtain ⟨y, hy, hal, r, hr, hvis⟩ := (h.source.events x hx e he l hl).resolve_left hne
  obtain ⟨⟨z, hz, hwz⟩, ht⟩ := h.handle_built hy hal hw
  exact ⟨h.visible_new wf flat hroot hy hz hwz hr hvis hk, ht⟩

omit wf in
theorem measured (hx : x ∈ trace) (he : .measure l o ∈ x.2) :
    ∃ k1 k2 k3 w out bit, new x.1 = [k1, k2, k3] ∧ n.handles[l]? = some w ∧ n.outcomes[o]? = some out ∧
      n.reads[o]? = some bit ∧ instr q k1 = { name := outcomeAllocName, results := [(out, .outcome)] } ∧
      instr q k2 = { name := measureName, operands := [some w, some out] } ∧
      instr q k3 = { name := readName, operands := [some out], results := [(bit, .scalar .bool)] } := by
  have hcode := h.code x hx
  rw [h.source.measures x hx l o he] at hcode
  simp only [Naming.code, Naming.instrs, Option.pure_def, Option.bind_eq_bind, Option.bind_some] at hcode
  cases hh : n.handles[l]? with
  | none => simp [hh] at hcode
  | some w =>
    cases ho : n.outcomes[o]? with
    | none => simp [hh, ho] at hcode
    | some out =>
      cases hb : n.reads[o]? with
      | none => simp [hh, ho, hb] at hcode
      | some bit =>
        simp only [hh, ho, hb, Option.bind_some, append_nil, Option.some.injEq] at hcode
        obtain ⟨k1, rest, hnew, h1, hrest⟩ := map_eq_cons_iff.mp hcode.symm
        obtain ⟨k2, rest, rfl, h2, hrest⟩ := map_eq_cons_iff.mp hrest
        obtain ⟨k3, rfl, h3⟩ := map_eq_singleton_iff.mp hrest
        exact ⟨k1, k2, k3, w, out, bit, hnew, rfl, rfl, rfl, h1, h2, h3⟩

/-! ## What was built -/

include flat in
theorem measurement_accepted (hroot : p.HasOp root) (hx : x ∈ trace) (he : .measure l o ∈ x.2)
    (hk : k ∈ new x.1) : (∀ s ∈ (q.op k).operands, ∃ v, s = some v ∧ Visible catalogue q root v k) ∧
      catalogue.isTerminator (q.op k) = false ∧ q.checkKind catalogue k = .ok () := by
  obtain ⟨k1, k2, k3, w, out, bit, hnew, hw, ho, hb, h1, h2, h3⟩ := h.measured hx he
  obtain ⟨b, hbl⟩ := h.block_of_trace hx
  have hs := h.spread wf flat
  have hfirst : ∃ r, f x.1 = k1 :: k2 :: k3 :: r := by
    rcases h.place x.1 with hf | ⟨hf, _⟩
    · exact ⟨[x.1], by rw [hf, hnew]; rfl⟩
    · exact ⟨[], by rw [hf, hnew]⟩
  obtain ⟨r, hf⟩ := hfirst
  obtain ⟨hout, hoty⟩ : out ∈ (q.op k1).results ∧ q.typeOf out = .outcome := by
    simp only [instr, Instr.mk.injEq] at h1
    obtain ⟨u, hu, hut⟩ := map_eq_singleton_iff.mp h1.2.2.2
    obtain ⟨rfl, ht⟩ := Prod.mk.inj hut
    exact ⟨by simp [hu], ht⟩
  rw [hnew] at hk
  simp only [mem_cons, not_mem_nil, or_false] at hk
  rcases hk with rfl | rfl | rfl
  · refine ⟨?_, Handle.accepted (congrArg Instr.name h1) (Handle.checkAllocation_ok h1)
      (mem_append_left _ (by exact .tail _ (.head _)))⟩
    rw [show (q.op k).operands = [] from congrArg Instr.operands h1]
    simp
  · have hvis := h.handle_visible wf flat hroot hx he (mem_singleton.mpr rfl) (by simp) hw
      (k := k) (by simp [hf])
    have hchk := checkOperands_ok [w, out] h2
    rw [map_cons, map_cons, map_nil, hvis.2, hoty] at hchk
    refine ⟨?_, Handle.accepted (congrArg Instr.name h2) hchk
      (mem_append_left _ (by exact .tail _ (.tail _ (.tail _ (.head _)))))⟩
    rw [show (q.op k).operands = [some w, some out] from congrArg Instr.operands h2]
    simp only [forall_mem_cons, not_mem_nil, false_imp_iff, implies_true, and_true]
    exact ⟨⟨w, rfl, hvis.1⟩, out, rfl, hs.visible_before wf trivial hbl (l := []) (m := [])
      (n := k3 :: r) hf hout⟩
  · refine ⟨?_, Handle.accepted (congrArg Instr.name h3) (checkRead_ok hoty h3)
      (mem_append_left _ (by exact .tail _ (.tail _ (.tail _ (.tail _ (.head _))))))⟩
    rw [show (q.op k).operands = [some out] from congrArg Instr.operands h3]
    simp only [forall_mem_cons, not_mem_nil, false_imp_iff, implies_true, and_true]
    exact ⟨out, rfl, hs.visible_before wf trivial hbl (l := []) (m := [k2]) (n := r) hf hout⟩

include flat in
theorem new_accepted (hroot : p.HasOp root) (hx : x ∈ trace) (hk : k ∈ new x.1) :
    (∀ s ∈ (q.op k).operands, ∃ v, s = some v ∧ Visible catalogue q root v k) ∧
      catalogue.isTerminator (q.op k) = false ∧ q.checkKind catalogue k = .ok () := by
  obtain ⟨e, he, hb⟩ := Naming.builds_of_code (h.code x hx) (mem_map_of_mem hk)
  have handle : ∀ {l v}, l ∈ e.qubits → e ≠ .alloc l → n.handles[l]? = some v →
      Visible catalogue q root v k ∧ q.typeOf v = .qubit :=
    fun hl hne hv => h.handle_visible wf flat hroot hx he hl hne hv (h.new_subset hk)
  generalize hy : instr q k = y at hb
  have hops : (q.op k).operands = y.operands := congrArg Instr.operands hy
  cases hb with
  | alloc hv =>
    refine ⟨by simp [hops], Handle.accepted (congrArg Instr.name hy) (Handle.checkAllocation_ok hy)
      (mem_append_left _ (by exact .head _))⟩
  | @gate g attrs l v hv =>
    obtain ⟨hvis, hty⟩ := handle (mem_singleton.mpr rfl) (by simp) hv
    have hchk := checkOperands_ok [v] hy
    rw [map_cons, map_nil, hty] at hchk
    refine ⟨by simp [hops, hvis], Handle.accepted (congrArg Instr.name hy) hchk (mem_append_right _
      (mem_map.mpr ⟨g, h.source.gates x hx g attrs l he, rfl⟩))⟩
  | @cnot c t v w hv hw =>
    obtain ⟨hvis, hty⟩ := handle (mem_cons_self ..) (by simp) hv
    obtain ⟨hvis', hty'⟩ := handle (mem_cons_of_mem _ (mem_singleton.mpr rfl)) (by simp) hw
    have hchk := checkOperands_ok [v, w] hy
    rw [map_cons, map_cons, map_nil, hty, hty'] at hchk
    refine ⟨by simp [hops, hvis, hvis'], Handle.accepted (congrArg Instr.name hy) hchk
      (mem_append_left _ (by exact .tail _ (.tail _ (.head _))))⟩
  | outcome => exact h.measurement_accepted wf flat hroot hx he hk
  | measure => exact h.measurement_accepted wf flat hroot hx he hk
  | read => exact h.measurement_accepted wf flat hroot hx he hk
  | @release l v hv =>
    obtain ⟨hvis, hty⟩ := handle (mem_singleton.mpr rfl) (by simp) hv
    have hchk := checkOperands_ok [v] hy
    rw [map_cons, map_nil, hty] at hchk
    refine ⟨by simp [hops, hvis], Handle.accepted (congrArg Instr.name hy) hchk (mem_append_left _
      (by exact .tail _ (.tail _ (.tail _ (.tail _ (.tail _ (.head _)))))))⟩

/-! ## What was there before -/

omit wf in
theorem bit_built (hb : v ∈ m.bits) : ∃ x ∈ trace, (p.op x.1).name = Register.measureName ∧
    (p.op x.1).results[0]? = some v ∧ ∃ k ∈ new x.1, (q.op k).name = readName ∧
      (q.op k).results = [n.rename m v] ∧ q.typeOf (n.rename m v) = .scalar .bool := by
  obtain ⟨l, hl, hr⟩ := Naming.rename_getElem? h.names.reads hb
  obtain ⟨x, hx, hn, hres, o, he⟩ := h.source.bits l v hl
  obtain ⟨k1, k2, k3, w, out, bit, hnew, -, -, hbit, -, -, h3⟩ := h.measured hx (l := o) (o := l) (by simp [he])
  obtain rfl : n.rename m v = bit := Option.mem_unique hr hbit
  simp only [instr, Instr.mk.injEq] at h3
  obtain ⟨u, hu, hut⟩ := map_eq_singleton_iff.mp h3.2.2.2
  obtain ⟨rfl, ht⟩ := Prod.mk.inj hut
  exact ⟨x, hx, hn, hres, k3, by simp [hnew], h3.1, hu, ht⟩

section
variable (hv : p.verify catalogue root = .ok ()) (hi : p.Within root i)
include hv hi

include flat in
theorem operand_old (hroot : p.HasOp root) (hself : i ∈ f i) {u : ValueId} (hu : some u ∈ (p.op i).operands) :
    Visible catalogue q root (n.rename m u) i ∧ q.typeOf (n.rename m u) = p.typeOf u := by
  have hval := wf.hasValue_operand hu
  obtain ⟨_, hu', hvis⟩ := (accepted wf hv hi).1 _ hu
  obtain rfl := Option.some.inj hu'
  by_cases hb : u ∈ m.bits
  · obtain ⟨x, hx, hn, hres, k, hk, _, hkr, ht⟩ := h.bit_built hb
    refine ⟨h.visible_new wf flat hroot hx hk (by simp [hkr]) (mem_of_getElem? hres) hvis hself, ?_⟩
    obtain ⟨-, t, hts, _⟩ := Register.measure_checked (accepted wf hv (h.inside x hx).1).2.2 hn
    have htype := congrArg (·[0]?) hts
    simp only [resultTypes, getElem?_map, hres, Option.map_some, getElem?_cons_zero, Option.some.injEq] at htype
    rw [ht, htype]
  · rw [Naming.rename_of_not_mem hb]
    have hp : p.HasOp i := by
      by_contra hn
      rw [op_of_not_hasOp hn] at hu
      cases hu
    refine ⟨h.visible_old wf flat hroot hval (h.kept i hp hself u ?_) hvis hself, h.value u hval⟩
    rw [h.op i hp hself]
    exact mem_map.mpr ⟨some u, hu, by simp [Naming.rename_of_not_mem hb]⟩

omit flat in
theorem last_old (ht : catalogue.isTerminator (p.op i) = true) (hb : (p.op i).block = some b) :
    i ∈ f i ∧ p.last? b = some i ∧ q.last? b = some i := by
  have hplace : f i = new i ++ [i] := by
    refine (h.place i).resolve_right fun hl => ?_
    have hq : isQuantum (p.op i) = true := (Bool.and_eq_true_iff.mp hl.2).2
    rw [not_terminator hq] at ht
    cases ht
  have hlast : p.last? b = some i := by
    have := (accepted wf hv hi).2.1 ht
    simpa [isLast, hb] using this
  refine ⟨by simp [hplace], hlast, ?_⟩
  obtain ⟨l, hl⟩ := getLast?_eq_some_iff.mp hlast
  rw [last?, h.block, hl]
  simp [hplace]

end

include flat in
theorem ending_old (hv : p.verify catalogue root = .ok ()) (hroot : p.HasOp root)
    (hb : p.Within root (p.block b).owner) : ending q b = ending p b := by
  have inside : ∀ {k}, k ∈ (p.block b).ops → (p.op k).block = some b ∧ p.Within root k := fun hk =>
    have hkb := (wf.listed _ b).mpr hk
    ⟨hkb, .step (parent?_eq_some.mpr ⟨b, hkb, rfl⟩) hb⟩
  have same : ∀ {k}, p.HasOp k → k ∈ f k → catalogue.isTerminator (q.op k) =
    catalogue.isTerminator (p.op k) := by
    intro k hp hk
    rw [h.op k hp hk]
    rfl
  have hterm : catalogue.terminator? q b = catalogue.terminator? p b := by
    refine Option.ext fun k => ?_
    simp only [Registry.terminator?, Option.filter_eq_some_iff]
    constructor
    · rintro ⟨hl, ht⟩
      have hk : k ∈ (q.block b).ops := mem_of_getLast? hl
      rw [h.block, mem_flatMap] at hk
      obtain ⟨j, hj, hk⟩ := hk
      obtain ⟨hjb, hjw⟩ := inside hj
      rcases h.eq_or_new hk with rfl | hnew
      · rw [same (hasOp_of_block hjb) hk] at ht
        exact ⟨(h.last_old wf hv hjw ht hjb).2.1, ht⟩
      · obtain ⟨x, hx, rfl⟩ := h.built j (ne_nil_of_mem hnew)
        rw [(h.new_accepted wf flat hroot hx hnew).2.1] at ht
        cases ht
    · rintro ⟨hl, ht⟩
      obtain ⟨hkb, hkw⟩ := inside (mem_of_getLast? hl)
      obtain ⟨hk, _, hlq⟩ := h.last_old wf hv hkw ht hkb
      exact ⟨hlq, by rw [same (hasOp_of_block hkb) hk, ht]⟩
  rw [ending, ending, hterm]
  cases ht : catalogue.terminator? p b with
  | none => rfl
  | some k =>
    obtain ⟨hl, ht⟩ := Option.filter_eq_some_iff.mp ht
    obtain ⟨hkb, hkw⟩ := inside (mem_of_getLast? hl)
    rw [Option.map_some, Option.map_some, h.op k (hasOp_of_block hkb) (h.last_old wf hv hkw ht hkb).1]
    simp

include flat in
theorem alike_old (hv : p.verify catalogue root = .ok ()) (hroot : p.HasOp root) (hi : p.Within root i)
    (hp : p.HasOp i) (hself : i ∈ f i) : Alike p i q i := by
  have hop := h.op i hp hself
  refine ⟨by rw [hop], by rw [hop], ?_, ?_, ?_, ?_⟩
  · rw [hop]
    simp only [map_map]
    refine map_congr_left fun s hs => ?_
    cases s with
    | none => rfl
    | some u => simp [slotType?, (h.operand_old wf flat hv hi hroot hself hs).2]
  · rw [resultTypes, resultTypes, hop]
    exact map_congr_left fun r hr => h.value r (wf.hasValue_result hr)
  · rw [hop]
    refine forall₂_same.mpr fun bs hbs => forall₂_same.mpr fun b hb => ?_
    refine ⟨?_, h.ending_old wf flat hv hroot ((wf.owner_of_mem hbs hb).2 ▸ hi)⟩
    rw [argTypes, argTypes, h.block]
    exact map_congr_left fun a ha => h.value a (wf.hasValue_argument ha)
  · cases hpar : p.parent? i with
    | none =>
      have : (q.op i).block = none := by
        rw [hop]
        simpa [Program.parent?] using hpar
      rw [Program.parent?, this]
      exact .none
    | some a =>
      rw [(h.spread wf flat).parent? wf trivial hself hpar]
      refine .some ?_
      rw [AlikeAround, h.op a (wf.hasOp_parent hpar) (h.mem_self_of_parent wf flat hpar)]
      exact ⟨rfl, fun _ => rfl⟩

omit flat in
theorem within_old (hroot : p.HasOp root) (hk : q.Within root k) :
    ∃ i, p.Within root i ∧ p.HasOp i ∧ k ∈ f i := by
  have hself : root ∈ f root := by
    rcases h.place root with hf | ⟨_, hl⟩
    · simp [hf]
    · rw [isLowered, Bool.and_eq_true, decide_eq_true_eq] at hl
      exact absurd rfl (mem_walk wf hl.1).2.2
  induction hk with
  | refl => exact ⟨root, .refl, hroot, hself⟩
  | @step k a hp _ ih =>
    obtain ⟨j, hj, hpj, haj⟩ := ih
    obtain ⟨b, hb, ho⟩ := parent?_eq_some.mp hp
    have hkb := (h.wellFormed.listed k b).mp hb
    rw [h.block] at hkb ho
    obtain ⟨i, hib, hki⟩ := mem_flatMap.mp hkb
    have hbi := (wf.listed i b).mpr hib
    have hpi : p.parent? i = some a := parent?_eq_some.mpr ⟨b, hbi, ho⟩
    rcases h.eq_or_new haj with rfl | hn
    · exact ⟨i, .step hpi hj, hasOp_of_block hbi, hki⟩
    · exact absurd (wf.hasOp_parent hpi) (h.fresh j a hn).1

include flat in
theorem verify (hroot : p.HasOp root) (hv : p.verify catalogue root = .ok ()) :
    q.verify catalogue root = .ok () := by
  refine verify_ok.mpr fun k hk => verifyOp_ok.mpr ?_
  simp only [h.wellFormed.visible_ok]
  obtain ⟨i, hi, hp, hki⟩ := h.within_old wf hroot (h.wellFormed.mem_nested.mp hk)
  rcases h.eq_or_new hki with rfl | hnew
  · have halike := h.alike_old wf flat hv hroot hi hp hki
    have hop := h.op k hp hki
    refine ⟨fun s hs => ?_, fun ht => ?_, (checkKind_eq halike).trans (accepted wf hv hi).2.2⟩
    · rw [hop] at hs
      obtain ⟨t, ht, rfl⟩ := mem_map.mp hs
      obtain ⟨u, rfl, _⟩ := (accepted wf hv hi).1 t ht
      exact ⟨_, rfl, (h.operand_old wf flat hv hi hroot hki ht).1⟩
    · rw [show catalogue.isTerminator (q.op k) = catalogue.isTerminator (p.op k) by rw [hop]; rfl] at ht
      rw [isLast, hop]
      cases hb : (p.op k).block with
      | none => simp
      | some b => simp [(h.last_old wf hv hi ht hb).2.2]
  · obtain ⟨x, hx, rfl⟩ := h.built i (ne_nil_of_mem hnew)
    obtain ⟨hops, hterm, hkind⟩ := h.new_accepted wf flat hroot hx hnew
    exact ⟨hops, by simp [hterm], hkind⟩

end

end Stage

end Qubits

end Offload
