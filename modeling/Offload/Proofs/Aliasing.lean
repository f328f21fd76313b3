import Offload.Proofs.LinearRuns
import Offload.Proofs.QubitRefinement

/-!
# Handles are not aliased

What a run does to qubits, the lowered program does to their handles. So in the lowering of a linear program
registers that are still to be used have no handle in common, and a handle is not used after its release.
-/

namespace Offload.Qubits

open Program Handle List

variable {e : Event} {hs : List ValueId} {j : OpId} {k : Nat} {m' : Machine} {v : ValueId}
  {x : OpId × List Event}

namespace Naming

variable {n : Naming}

theorem handle_unique (hn : n.handles.Nodup) {k l : Nat} (hk : n.handles[k]? = some v)
    (hl : n.handles[l]? = some v) : k = l := by
  obtain ⟨hk, rfl⟩ := List.getElem?_eq_some_iff.mp hk
  obtain ⟨hl, he⟩ := List.getElem?_eq_some_iff.mp hl
  exact (hn.getElem_inj_iff.mp he).symm

theorem nodup_handlesOf (hn : n.handles.Nodup) : ∀ {qs : List Nat} {hs : List ValueId},
    n.handlesOf qs = some hs → qs.Nodup → hs.Nodup
  | [], hs, h, _ => by
    cases h
    exact nodup_nil
  | q :: qs, hs, h, hq => by
    obtain ⟨x, xs, hx, hxs, rfl⟩ := handlesOf_cons.mp h
    obtain ⟨hnot, hq⟩ := nodup_cons.mp hq
    refine nodup_cons.mpr ⟨fun hmem => ?_, nodup_handlesOf hn hxs hq⟩
    obtain ⟨k, hk, hxk⟩ := (mem_handlesOf hxs).mp hmem
    exact hnot (handle_unique hn hx hxk ▸ hk)

theorem disjoint_handlesOf (hn : n.handles.Nodup) {qs rs : List Nat} {hs ks : List ValueId}
    (hq : n.handlesOf qs = some hs) (hr : n.handlesOf rs = some ks) (hd : qs.Disjoint rs) : hs.Disjoint ks := by
  intro v hv hv'
  obtain ⟨k, hk, hvk⟩ := (mem_handlesOf hq).mp hv
  obtain ⟨l, hl, hvl⟩ := (mem_handlesOf hr).mp hv'
  exact hd hk (handle_unique hn hvk hvl ▸ hl)

theorem code_of_mem : ∀ {es : List Event} {xs : List Instr}, n.code es = some xs → e ∈ es →
    ∃ ys, n.instrs e = some ys ∧ ∀ y ∈ ys, y ∈ xs
  | e' :: es, xs, h, he => by
    obtain ⟨ys, zs, hy, hz, rfl⟩ := code_cons.mp h
    rcases mem_cons.mp he with rfl | he
    · exact ⟨ys, hy, fun y hy => mem_append_left _ hy⟩
    · obtain ⟨ys', hy', hsub⟩ := code_of_mem hz he
      exact ⟨ys', hy', fun y hy => mem_append_right _ (hsub y hy)⟩

namespace Builds

variable {e : Event} {y : Instr} (h : n.Builds e y)
include h

theorem qubit_of_operand (ha : ∀ v ∈ n.handles, v ∉ n.outcomes ∧ v ∉ n.reads)
    (hv : some v ∈ y.operands) (hh : v ∈ n.handles) : ∃ k ∈ e.qubits, n.handles[k]? = some v := by
  have hout : ∀ {k : Nat}, n.outcomes[k]? ≠ some v := fun hk => (ha v hh).1 (mem_of_getElem? hk)
  cases h <;> simp only [mem_cons, Option.some.injEq, not_mem_nil, or_false] at hv
  case gate q _ hw => exact ⟨q, by simp [Event.qubits], hv ▸ hw⟩
  case release q _ hw => exact ⟨q, by simp [Event.qubits], hv ▸ hw⟩
  case read ho => exact absurd (hv ▸ ho) hout
  case cnot c t _ _ hc ht =>
    rcases hv with rfl | rfl
    · exact ⟨c, by simp [Event.qubits], hc⟩
    · exact ⟨t, by simp [Event.qubits], ht⟩
  case measure q _ _ _ hw ho =>
    rcases hv with rfl | rfl
    · exact ⟨q, by simp [Event.qubits], hw⟩
    · exact absurd ho hout

theorem nodup_operands (hn : n.handles.Nodup) (ha : ∀ v ∈ n.handles, v ∉ n.outcomes ∧ v ∉ n.reads)
    (hc : ∀ c t, e = .cnot c t → c ≠ t) : y.operands.Nodup := by
  cases h with
  | cnot hv hw =>
    simp only [nodup_cons, mem_singleton, Option.some.injEq, not_mem_nil, not_false_eq_true,
      nodup_nil, and_self, and_true]
    rintro rfl
    exact hc _ _ rfl (handle_unique hn hv hw)
  | measure hv ho =>
    simp only [nodup_cons, mem_singleton, Option.some.injEq, not_mem_nil, not_false_eq_true,
      nodup_nil, and_self, and_true]
    rintro rfl
    exact (ha _ (mem_of_getElem? hv)).1 (mem_of_getElem? ho)
  | _ => simp

theorem release_of_name (hg : ∀ g attrs k, e = .gate g attrs k → g ∈ Register.gates)
    (hr : y.name = releaseName) : ∃ k, e = .release k := by
  have hgate : ∀ g ∈ Register.gates, gateName g ≠ releaseName := by decide
  cases h with
  | release => exact ⟨_, rfl⟩
  | gate => exact absurd hr (hgate _ (hg _ _ _ rfl))
  | _ =>
    simp [releaseName, allocName, cnotName, outcomeAllocName, measureName,
      readName] at hr

theorem mem_handles_of_release (he : e = .release k) (hv : some v ∈ y.operands) :
    v ∈ n.handles := by
  subst he
  cases h with
  | release hw =>
    rw [mem_singleton, Option.some.injEq] at hv
    exact hv ▸ mem_of_getElem? hw

end Builds

def Released (y y' : Instr) : Prop :=
  y.name = Handle.releaseName → ∀ v, some v ∈ y.operands → some v ∉ y'.operands

section
variable (hn : n.handles.Nodup) (ha : ∀ v ∈ n.handles, v ∉ n.outcomes ∧ v ∉ n.reads)
include hn ha

theorem Builds.released {e e' : Event} {y y' : Instr} (hy : n.Builds e y) (hy' : n.Builds e' y')
    (hg : ∀ g attrs k, e = .gate g attrs k → g ∈ Register.gates)
    (ho : ∀ k, e = .release k → k ∉ e'.qubits) :
    Released y y' := by
  intro hname v hv hv'
  obtain ⟨k, rfl⟩ := hy.release_of_name hg hname
  have hh := hy.mem_handles_of_release rfl hv
  obtain ⟨l, hl, hvl⟩ := hy.qubit_of_operand ha hv hh
  obtain ⟨l', hl', hvl'⟩ := hy'.qubit_of_operand ha hv' hh
  obtain rfl := mem_singleton.mp hl
  exact ho l rfl (handle_unique hn hvl hvl' ▸ hl')

theorem released_of_code : ∀ {es : List Event} {xs : List Instr}, n.code es = some xs →
    (∀ g attrs k, .gate g attrs k ∈ es → g ∈ Register.gates) →
    es.Pairwise (fun e e' => ∀ k, e = .release k → k ∉ e'.qubits) → xs.Pairwise Released
  | [], xs, h, _, _ => by
    cases h
    exact .nil
  | e :: es, xs, h, hg, ho => by
    obtain ⟨ys, zs, hy, hz, rfl⟩ := code_cons.mp h
    obtain ⟨hfirst, ho⟩ := pairwise_cons.mp ho
    have hge : ∀ g attrs k, e = .gate g attrs k → g ∈ Register.gates := fun g attrs k he =>
      hg g attrs k (he ▸ mem_cons_self ..)
    refine pairwise_append.mpr ⟨?_, ?_, fun y hy' z hz' => ?_⟩
    · -- a release is a single operation
      cases e with
      | release k =>
        simp only [instrs, Option.pure_def, Option.bind_eq_bind, Option.bind_eq_some_iff, Option.some.injEq] at hy
        obtain ⟨v, _, rfl⟩ := hy
        exact pairwise_singleton ..
      | _ =>
        refine pairwise_of_forall_mem_list fun y hy' z _ hname => ?_
        obtain ⟨k, hk⟩ := (builds_of_instrs hy hy').release_of_name hge hname
        cases hk
    · exact released_of_code hz (fun g attrs k hk => hg g attrs k (mem_cons_of_mem _ hk)) ho
    · obtain ⟨e', he', hb⟩ := builds_of_code hz hz'
      exact (builds_of_instrs hy hy').released hn ha hb hge (hfirst e' he')

end

end Naming

namespace Machine

variable {p : Program}

theorem exec_of_run : ∀ {l : List OpId} {m : Machine} {trace}, run p l m = some (trace, m') →
    ∀ x ∈ trace, ∀ e ∈ x.2, isQuantum (p.op x.1) = true ∧ ∃ m1 m2 : Machine, Runs p x.1 m1 x.2 m2
  | [], m, trace, h => by
    cases h
    simp
  | i :: l, m, trace, h => by
    obtain ⟨es, m1, t, hs, hr, rfl⟩ := run_cons h
    intro x hx e he
    rcases mem_cons.mp hx with rfl | hx
    · obtain ⟨hq, hrun⟩ | ⟨-, rfl, -⟩ := step_cases hs
      · exact ⟨hq, m, m1, hrun⟩
      · cases he
    · exact exec_of_run hr x hx e he

theorem gate_of_run {l : List OpId} {m m' : Machine} {trace} (h : run p l m = some (trace, m')) :
    ∀ x ∈ trace, ∀ g attrs k, .gate g attrs k ∈ x.2 → g ∈ Register.gates := by
  intro x hx g attrs k hg
  obtain ⟨_, m1, m2, he⟩ := exec_of_run h x hx _ hg
  generalize x.2 = es at he hg
  cases he with
  | gate hmem =>
    obtain ⟨_, _, ⟨⟩⟩ := mem_map.mp hg
    exact hmem
  | _ => simp at hg

end Machine

/-! ## The lowered program -/

section
variable {p q : Program} {root : OpId} {trace : List (OpId × List Event)} {m : Machine} {n : Naming}
  {new : OpId → List OpId} {e : QubitMap}

def Open (p : Program) (done : List OpId) (v : ValueId) : Prop :=
  (p.typeOf v).qubits ≠ 0 ∧ (∃ i ∈ done, v ∈ (p.op i).results) ∧
    ∀ i ∈ done, some v ∉ (p.op i).operands

theorem accepts_of_verify (wf : p.WellFormed) (hv : p.verify catalogue root = .ok ())
    (hlin : ∀ x ∈ p.values, x.type.qubits ≠ 0 → x.uses.length ≤ 1) : ∀ i ∈ walk p root, Accepts p i := by
  intro i hi
  have hmem : i ∈ p.nested root := by
    rw [wf.nested_eq_preorder]
    exact mem_cons_of_mem _ hi
  obtain ⟨hop, _, hk⟩ := verifyOp_ok.mp (verify_ok.mp hv i hmem)
  refine ⟨fun hnone => ?_, hk, fun v hv h0 => hlin _ (value_mem (wf.hasValue_operand hv)) h0⟩
  obtain ⟨v, hv, _⟩ := hop none hnone
  cases hv

namespace Refines

variable (h : Refines p root trace m n new e q)
include h

theorem qubits_le : m.qubits ≤ q.values.size := by
  have hsub : (n.handles.map ValueId.index) ⊆ List.range q.values.size := by
    intro k hk
    obtain ⟨v, hv, rfl⟩ := mem_map.mp hk
    exact mem_range.mpr (h.names.fresh v (.inl hv)).2
  have hnd : (n.handles.map ValueId.index).Nodup :=
    List.Nodup.map (fun a b hab => by cases a; cases b; simpa using hab) h.names.handlesNodup
  have := (subperm_of_subset hnd hsub).length_le
  rwa [length_map, length_range, h.names.qubits] at this

theorem mem_walk_of_trace (hx : x ∈ trace) : x.1 ∈ walk p root := by
  rw [← Machine.fst_run h.run]
  exact mem_map_of_mem hx

section
variable (hl : Linear p (walk p root) (trace.flatMap Prod.snd) m)
include hl

theorem qubits_of_find? (h0 : (p.typeOf v).qubits ≠ 0) (hf : e.find? v = some hs) :
    ∃ qs, m.registers v = some qs ∧ n.handlesOf qs = some hs := by
  rcases h.linked.known v (by rw [hf]; rfl) with hm | hb
  · obtain ⟨qs, hm⟩ := Option.isSome_iff_exists.mp hm
    obtain ⟨hs', hh, hf'⟩ := h.linked.register v qs hm
    rw [hf] at hf'
    cases hf'
    exact ⟨qs, hm, hh⟩
  · exact absurd (hl.bits v hb) h0

theorem isSome_find? (h0 : (p.typeOf v).qubits ≠ 0) : (e.find? v).isSome ↔
    ∃ i ∈ walk p root, isQuantum (p.op i) = true ∧ v ∈ (p.op i).results := by
  constructor
  · intro hf
    obtain ⟨hs, hf⟩ := Option.isSome_iff_exists.mp hf
    obtain ⟨qs, hm, _⟩ := h.qubits_of_find? hl h0 hf
    exact hl.bound v (by rw [hm]; rfl)
  · rintro ⟨i, hi, hq, hv⟩
    obtain ⟨qs, hm⟩ := Option.isSome_iff_exists.mp (hl.complete i hi hq v hv h0)
    obtain ⟨hs, _, hf⟩ := h.linked.register v qs hm
    rw [hf]
    rfl

theorem qubits_of_open (wf : p.WellFormed) {done : List OpId} {events : List Event} {m1 : Machine}
    (hl1 : Linear p done events m1) (hold : ∀ v qs, m1.registers v = some qs → m.registers v = some qs)
    (hv : Open p done v) (hf : e.find? v = some hs) :
    ∃ qs, m1.registers v = some qs ∧ n.handlesOf qs = some hs := by
  obtain ⟨h0, ⟨i, hi, hvi⟩, _⟩ := hv
  obtain ⟨qs, hm, hh⟩ := h.qubits_of_find? hl h0 hf
  obtain ⟨j, hj, hqj, hvj⟩ := hl.bound v (by rw [hm]; rfl)
  obtain rfl := wf.eq_of_mem_results hvi hvj
  obtain ⟨rs, hm1⟩ := Option.isSome_iff_exists.mp (hl1.complete i hi hqj v hvi h0)
  have := hold v rs hm1
  rw [hm] at this
  cases this
  exact ⟨qs, hm1, hh⟩

end

variable (wf : p.WellFormed)
include wf

theorem operand_of_kept {i : OpId} (hi : p.HasOp i) (hl : isLowered p root i = false)
    (hv : some v ∈ (q.op i).operands) : v ∉ n.handles := by
  intro hh
  rw [h.op i hi hl] at hv
  simp only [mem_map, Option.map_eq_some_iff] at hv
  obtain ⟨_, hu, u, rfl, rfl⟩ := hv
  by_cases hb : u ∈ m.bits
  · exact (h.names.apart _ hh).2 (Naming.rename_mem h.names.reads hb)
  · rw [Naming.rename_of_not_mem hb] at hh
    exact (h.names.fresh u (.inl hh)).1 (wf.hasValue_operand hu)

variable (hroot : p.HasOp root) (flat : Flat p root)
include hroot flat

theorem walk_eq_trace : walk q root = trace.flatMap fun x => inPlace p root new x.1 := by
  rw [h.walk_eq wf hroot flat, ← Machine.fst_run h.run, flatMap_map]

omit wf hroot flat in
theorem builds (hx : x ∈ trace) (hj : j ∈ new x.1) :
    ∃ ev ∈ x.2, n.Builds ev (instr q j) :=
  Naming.builds_of_code (h.code x hx) (mem_map_of_mem hj)

theorem built (hj : j ∈ walk q root) (hp : ¬ p.HasOp j) :
    ∃ x ∈ trace, j ∈ new x.1 := by
  rw [h.walk_eq_trace wf hroot flat, mem_flatMap] at hj
  obtain ⟨x, hx, hj⟩ := hj
  rw [inPlace] at hj
  split at hj
  · exact ⟨x, hx, hj⟩
  · rw [mem_singleton.mp hj] at hp
    exact absurd (mem_walk wf (h.mem_walk_of_trace hx)).1 hp

variable (hl : Linear p (walk p root) (trace.flatMap Prod.snd) m)
include hl

theorem alloc_of_handle (hv : v ∈ n.handles) :
    ∃ j ∈ walk q root, (q.op j).name = allocName ∧ (q.op j).results = [v] := by
  obtain ⟨k, hk, rfl⟩ := getElem_of_mem hv
  obtain ⟨x, hx, hk'⟩ := mem_flatMap.mp (hl.allocs k (h.names.qubits ▸ hk))
  obtain ⟨ys, hy, hsub⟩ := Naming.code_of_mem (h.code x hx) hk'
  simp only [Naming.instrs, getElem?_eq_getElem hk, Option.pure_def, Option.bind_eq_bind, Option.bind_some,
    Option.some.injEq] at hy
  subst hy
  obtain ⟨j, hj, hi⟩ := mem_map.mp (hsub _ (mem_singleton.mpr rfl))
  have hname : (q.op j).name = allocName := congrArg Instr.name hi
  have hres : (q.op j).results.map (fun u => (u, q.typeOf u)) = [(n.handles[k], .qubit)] := congrArg Instr.results hi
  refine ⟨j, ?_, hname, ?_⟩
  · rw [h.walk_eq_trace wf hroot flat]
    refine mem_flatMap.mpr ⟨x, hx, ?_⟩
    rw [inPlace, if_pos (by simp [isLowered, (Machine.exec_of_run h.run x hx _ hk').1, h.mem_walk_of_trace hx])]
    exact hj
  · have := congrArg (List.map Prod.fst) hres
    simpa using this

theorem nodup_operands (hj : j ∈ walk q root) (hp : ¬ p.HasOp j) : (q.op j).operands.Nodup := by
  obtain ⟨x, hx, hj⟩ := h.built wf hroot flat hj hp
  obtain ⟨ev, hev, hb⟩ := h.builds hx hj
  refine hb.nodup_operands h.names.handlesNodup h.names.apart ?_
  rintro c t rfl
  exact hl.cnots c t (mem_flatMap.mpr ⟨x, hx, hev⟩)

theorem released : (walk q root).Pairwise fun j k => ¬ p.HasOp j → (q.op j).name = releaseName →
    ∀ v, some v ∈ (q.op j).operands → some v ∉ (q.op k).operands := by
  have hg := Machine.gate_of_run h.run
  obtain ⟨hin, hcross⟩ := pairwise_flatMap.mp hl.ordered
  have hw : ∀ x ∈ trace, p.HasOp x.1 := fun x hx => (mem_walk wf (h.mem_walk_of_trace hx)).1
  rw [h.walk_eq_trace wf hroot flat, pairwise_flatMap]
  constructor
  · intro x hx
    rw [inPlace]
    split
    · have := Naming.released_of_code h.names.handlesNodup h.names.apart (h.code x hx) (hg x hx) (hin x hx)
      rw [pairwise_map] at this
      exact this.imp fun hr _ hname => hr hname
    · exact pairwise_singleton ..
  · refine hcross.imp_of_mem fun {x y} hx hy hxy j hj k hk hp hname v hv hv' => ?_
    rw [inPlace] at hj hk
    split at hj
    · obtain ⟨ev, hev, hb⟩ := h.builds hx hj
      have hge : ∀ g attrs k, ev = .gate g attrs k → g ∈ Register.gates := fun g attrs k he =>
        hg x hx g attrs k (he ▸ hev)
      split at hk
      · obtain ⟨ev', hev', hb'⟩ := h.builds hy hk
        exact hb.released h.names.handlesNodup h.names.apart hb' hge (hxy ev hev ev' hev') hname v hv hv'
      · rename_i hly
        rw [mem_singleton.mp hk] at hv'
        obtain ⟨l, hl⟩ := hb.release_of_name hge hname
        exact h.operand_of_kept wf (hw y hy) (by simpa using hly) hv' (hb.mem_handles_of_release hl hv)
    · exact absurd (mem_singleton.mp hj ▸ hw x hx) hp

end Refines

end

/-- In the lowering of an accepted linear program no qubit is aliased or used after its release. The map has
exactly the registers that operations on registers define, with as many different handles as they have
qubits, each from an allocation. Registers that are defined but not used yet have no handle in common. What
was built has different operands, and what it releases is not used later. -/
theorem lower_linear_unaliased {p q : Program} {root : OpId} {l : Lowered} (wf : p.WellFormed)
    (hroot : p.HasOp root) (hrange : ∀ x ∈ p.values, Word.InRange x.type.qubits)
    (flat : ∀ i ∈ p.preorder (fun _ => true) root, isQuantum (p.op i) = true → (p.op i).regions = [])
    (hverify : p.verify catalogue root = .ok ()) (hlin : ∀ x ∈ p.values, x.type.qubits ≠ 0 →
      x.uses.length ≤ 1)
    (h : lower root p = .ok l q) (he : l.error = none) (hsize : q.values.size < 9223372036854775808) :
    (∀ v, (p.typeOf v).qubits ≠ 0 → ((l.qubits.find? v).isSome ↔
      ∃ i ∈ p.preorder (fun _ => true) root, isQuantum (p.op i) = true ∧ v ∈ (p.op i).results)) ∧
    (∀ v hs, (p.typeOf v).qubits ≠ 0 → l.qubits.find? v = some hs →
      (hs.length : Int) = (p.typeOf v).qubits ∧ hs.Nodup ∧
      ∀ x ∈ hs, ∃ j ∈ q.preorder (fun _ => true) root, (q.op j).name = Handle.allocName ∧
        (q.op j).results = [x]) ∧
    (∀ done rest, p.preorder (fun _ => true) root = done ++ rest → ∀ v w hs ks, v ≠ w → Open p done v →
      Open p done w → l.qubits.find? v = some hs → l.qubits.find? w = some ks → hs.Disjoint ks) ∧
    (∀ j ∈ q.preorder (fun _ => true) root, ¬ p.HasOp j → (q.op j).operands.Nodup) ∧
    (q.preorder (fun _ => true) root).Pairwise fun j k => ¬ p.HasOp j → (q.op j).name = Handle.releaseName →
      ∀ x, some x ∈ (q.op j).operands → some x ∉ (q.op k).operands := by
  obtain ⟨trace, m, n, new, hr⟩ := refines_of_lower wf (inRange_typeOf hrange) flat h he
  have hlt : m.qubits < 9223372036854775808 := Nat.lt_of_le_of_lt hr.qubits_le hsize
  have hacc := accepts_of_verify wf hverify hlin
  have hl : Linear p (walk p root) (trace.flatMap Prod.snd) m :=
    ((Linear.start p).run wf hlt (nodup_walk wf root) hacc hr.run).1
  refine ⟨fun v => hr.isSome_find? hl, ?_, ?_, fun j => hr.nodup_operands wf hroot flat hl,
    hr.released wf hroot flat hl⟩
  · intro v hs h0 hf
    obtain ⟨qs, hm, hh⟩ := hr.qubits_of_find? hl h0 hf
    have hholds := hl.holds v qs hm
    refine ⟨?_, Naming.nodup_handlesOf hr.names.handlesNodup hh hholds.nodup, fun x hx => ?_⟩
    · rw [Naming.handlesOf_length hh, hholds.length]
    · obtain ⟨k, _, hk⟩ := (Naming.mem_handlesOf hh).mp hx
      exact hr.alloc_of_handle wf hroot flat hl (mem_of_getElem? hk)
  · intro done rest hw v w hs ks hne hv hw' hf hf'
    -- the state after the first part of the run
    have hrun := hr.run
    have hnd := nodup_walk wf root
    rw [show walk p root = _ from hw] at hrun hnd hacc
    obtain ⟨t1, m1, t2, h1, h2, rfl⟩ := Machine.run_split hrun
    have hlt1 := Nat.lt_of_le_of_lt (Machine.qubits_le_run h2) hlt
    obtain ⟨hl1, _⟩ := (Linear.start p).run wf hlt1 (nodup_append.mp hnd).1
      (fun i hi => hacc i (mem_append_left _ hi)) h1
    obtain ⟨_, hold⟩ := hl1.run wf hlt hnd (fun i hi => hacc i (mem_append_right _ hi)) h2
    obtain ⟨qs, hq, hh⟩ := hr.qubits_of_open hl wf hl1 hold hv hf
    obtain ⟨rs, hr', hh'⟩ := hr.qubits_of_open hl wf hl1 hold hw' hf'
    exact Naming.disjoint_handlesOf hr.names.handlesNodup hh hh' (hl1.disjoint v w qs rs hv.2.2 hw'.2.2 hne hq hr')

def valueCount : EStateM.Result Fault Program Lowered → Nat
  | .ok _ q | .error _ q => q.values.size

theorem lower_linear_unaliased_bell : ∃ l q, lower 0 bell = .ok l q ∧ l.error = none ∧
    (∀ v hs, (bell.typeOf v).qubits ≠ 0 → l.qubits.find? v = some hs →
      (hs.length : Int) = (bell.typeOf v).qubits ∧ hs.Nodup ∧
      ∀ x ∈ hs, ∃ j ∈ q.preorder (fun _ => true) 0, (q.op j).name = Handle.allocName ∧
        (q.op j).results = [x]) ∧
    (∀ j ∈ q.preorder (fun _ => true) 0, ¬ bell.HasOp j → (q.op j).operands.Nodup) ∧
    (q.preorder (fun _ => true) 0).Pairwise fun j k => ¬ bell.HasOp j → (q.op j).name = Handle.releaseName →
      ∀ x, some x ∈ (q.op j).operands → some x ∉ (q.op k).operands := by
  obtain ⟨l, q, h, he⟩ := lower_bell
  have hsize : q.values.size < 9223372036854775808 := by
    have hs : (valueCount (lower 0 bell)) < 9223372036854775808 := by decide +kernel
    rwa [h] at hs
  obtain ⟨_, h1, _, h2, h3⟩ := lower_linear_unaliased (.of_check (by decide +kernel)) (by decide)
    (by decide) (by decide) (by decide) (by decide) h he hsize
  exact ⟨l, q, h, he, h1, h2, h3⟩

/-- A function that is given a register, and works on a handle of its own. -/
def given : Program :=
  { ops := #[
      { name := "builtin.module", regions := [[0]] },
      { name := "func.func", attrs := [("sym_name", .str "main"),
          ("function_type", .type (.function [.register 2] []))], regions := [[1]], block := some 0 },
      { name := "qir.alloc", results := [1], block := some 1 },
      { name := "qir.cnot", operands := [some 1, some 1], block := some 1 },
      { name := "qir.release", operands := [some 1], block := some 1 },
      { name := "qir.release", operands := [some 1], block := some 1 },
      { name := "func.return", block := some 1 }]
    blocks := #[
      { owner := 0, ops := [1] },
      { owner := 1, args := [0], ops := [2, 3, 4, 5, 6] }]
    values := #[
      ⟨.register 2, .argument 1 0, []⟩,
      ⟨.qubit, .result 2 0, [⟨3, 0⟩, ⟨3, 1⟩, ⟨4, 0⟩, ⟨5, 0⟩]⟩] }

def isAsGiven : EStateM.Result Fault Program Lowered → Bool
  | .ok l q => l.error.isNone && decide (l.qubits.find? 0 = none ∧
      q.preorder (fun _ => true) 0 = [1, 2, 3, 4, 5, 6] ∧
      (q.op 3).name = Handle.cnotName ∧ (q.op 3).operands = [some 1, some 1] ∧
      (∀ j ∈ ([4, 5] : List OpId), (q.op j).name = Handle.releaseName ∧ (q.op j).operands = [some 1]))
  | .error _ _ => false

/-- A register that no operation on registers defines has no handles, and operations on handles that were
there before may name a handle twice and release it twice. -/
theorem lower_keeps_given : given.WellFormed ∧ given.verify catalogue 0 = .ok () ∧
    (∀ i ∈ given.preorder (fun _ => true) 0, isQuantum (given.op i) = true → (given.op i).regions = []) ∧
    (∀ x ∈ given.values, x.type.qubits ≠ 0 → x.uses.length ≤ 1) ∧
    ∃ l q, lower 0 given = .ok l q ∧ l.error = none ∧
      ((given.typeOf 0).qubits = 2 ∧ l.qubits.find? 0 = none) ∧
      q.preorder (fun _ => true) 0 = [1, 2, 3, 4, 5, 6] ∧
      ((q.op 3).name = Handle.cnotName ∧ (q.op 3).operands = [some 1, some 1]) ∧
      ∀ j ∈ ([4, 5] : List OpId), (q.op j).name = Handle.releaseName ∧ (q.op j).operands = [some 1] := by
  refine ⟨.of_check (by decide), by decide, by decide +kernel, by decide, ?_⟩
  have h : isAsGiven (lower 0 given) = true := by decide +kernel
  cases hl : lower 0 given with
  | error e q =>
    rw [hl] at h
    cases h
  | ok l q =>
    rw [hl, isAsGiven, Bool.and_eq_true, decide_eq_true_eq] at h
    obtain ⟨he, hf, hw, hn, ho, hr⟩ := h
    exact ⟨l, q, rfl, by simpa using he, ⟨by decide, hf⟩, hw, ⟨hn, ho⟩, hr⟩

end Offload.Qubits
