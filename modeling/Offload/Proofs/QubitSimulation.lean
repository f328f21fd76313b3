import Offload.Proofs.HandleCode
import Offload.Proofs.MachineRuns
import Offload.Proofs.Namings
import Offload.Qubits.Lowering

/-!
# Lowering simulates running

After every step of the lowering the allocation map tells the handles of the qubits of each register, and what was
built so far is the code of the events so far.
-/

namespace Offload.Qubits

open Program Build Rewrite List

variable {b : BlockId} {hs : List ValueId} {j : OpId} {m m' : Machine} {n : Naming} {p q q' : Program}
  {v : ValueId}

structure Naming.Fits (n : Naming) (m : Machine) (p q : Program) : Prop where
  qubits : n.handles.length = m.qubits
  outcomes : n.outcomes.length = m.bits.length
  reads : n.reads.length = m.bits.length
  handlesNodup : n.handles.Nodup
  outcomesNodup : n.outcomes.Nodup
  readsNodup : n.reads.Nodup
  apart : ∀ v ∈ n.handles, v ∉ n.outcomes ∧ v ∉ n.reads
  fresh : ∀ v, v ∈ n.handles ∨ v ∈ n.outcomes ∨ v ∈ n.reads → ¬ p.HasValue v ∧ q.HasValue v

theorem Naming.Fits.mono (h : n.Fits m p q)
    (hq : q.values.size ≤ q'.values.size) (hm : m'.qubits = m.qubits := by rfl)
    (hb : m'.bits = m.bits := by rfl) : n.Fits m' p q' where
  qubits := h.qubits.trans hm.symm
  outcomes := by rw [hb]; exact h.outcomes
  reads := by rw [hb]; exact h.reads
  handlesNodup := h.handlesNodup
  outcomesNodup := h.outcomesNodup
  readsNodup := h.readsNodup
  apart := h.apart
  fresh v hv := ⟨(h.fresh v hv).1, Nat.lt_of_lt_of_le (h.fresh v hv).2 hq⟩

theorem Naming.Fits.extend {n n' : Naming} (h : n.Fits m p q) (hs os rs : List ValueId)
    (hh : n'.handles = n.handles ++ hs) (ho : n'.outcomes = n.outcomes ++ os) (hr : n'.reads = n.reads ++ rs)
    (hnd : hs.Nodup ∧ os.Nodup ∧ rs.Nodup) (hapart : ∀ v ∈ hs, v ∉ os ∧ v ∉ rs)
    (hnew : ∀ v, v ∈ hs ∨ v ∈ os ∨ v ∈ rs → ¬ q.HasValue v ∧ q'.HasValue v)
    (hp : p.values.size ≤ q.values.size)
    (hq : q.values.size ≤ q'.values.size) (hm : m'.qubits = m.qubits + hs.length)
    (hb : m'.bits.length = m.bits.length + os.length) (hb' : rs.length = os.length) : n'.Fits m' p q' := by
  have hne : ∀ v w, v ∈ n.handles ∨ v ∈ n.outcomes ∨ v ∈ n.reads → w ∈ hs ∨ w ∈ os ∨
    w ∈ rs → v ≠ w := by
    rintro v _ hv hw rfl
    exact (hnew v hw).1 (h.fresh v hv).2
  refine ⟨by simp [hh, h.qubits, hm], by simp [ho, h.outcomes, hb], by simp [hr, h.reads, hb, hb'], ?_,
    ?_, ?_, ?_, ?_⟩
  · exact hh ▸ nodup_append.mpr ⟨h.handlesNodup, hnd.1, fun v hv w hw => hne v w (.inl hv) (.inl hw)⟩
  · exact ho ▸ nodup_append.mpr ⟨h.outcomesNodup, hnd.2.1, fun v hv w hw =>
      hne v w (.inr (.inl hv)) (.inr (.inl hw))⟩
  · exact hr ▸ nodup_append.mpr ⟨h.readsNodup, hnd.2.2, fun v hv w hw =>
      hne v w (.inr (.inr hv)) (.inr (.inr hw))⟩
  · have := h.apart
    grind
  · intro v hv
    have hold : v ∈ n.handles ∨ v ∈ n.outcomes ∨ v ∈ n.reads → ¬ p.HasValue v ∧
      q'.HasValue v := fun hv =>
      ⟨(h.fresh v hv).1, Nat.lt_of_lt_of_le (h.fresh v hv).2 hq⟩
    have hnew : v ∈ hs ∨ v ∈ os ∨ v ∈ rs → ¬ p.HasValue v ∧ q'.HasValue v := fun hv =>
      ⟨fun hpv => (hnew v hv).1 (Nat.lt_of_lt_of_le hpv hp), (hnew v hv).2⟩
    grind

structure Linked (n : Naming) (m : Machine) (e : QubitMap) : Prop where
  register : ∀ v qs, m.registers v = some qs → ∃ hs, n.handlesOf qs = some hs ∧ e.find? v = some hs
  known : ∀ v, (e.find? v).isSome → (m.registers v).isSome ∨ v ∈ m.bits

namespace Linked

variable {n n' : Naming} {m : Machine} {e : QubitMap} {v : ValueId}

theorem mono (hn : n.Extends n') (h : Linked n m e) : Linked n' m e where
  register v qs hv := by
    obtain ⟨hs, hh, hf⟩ := h.register v qs hv
    exact ⟨hs, Naming.handlesOf_mono hn hh, hf⟩
  known := h.known

theorem find?_eq_none (h : Linked n m e) (hr : m.registers v = none) (hb : v ∉ m.bits) : e.find? v = none := by
  by_contra hne
  rcases h.known v (Option.isSome_iff_ne_none.mpr hne) with h | h
  · simp [hr] at h
  · exact hb h

theorem bind {qs : List Nat} (h : Linked n m e) (hr : m.registers v = none) (hb : v ∉ m.bits)
    (hq : n.handlesOf qs = some hs) : Linked n (m.bind v qs) (e.allocate v hs) where
  register w rs hw := by
    rw [AllocationMap.find?_allocate]
    simp only [Machine.bind] at hw
    by_cases hwv : w = v
    · simp only [hwv, if_true, Option.some.injEq] at hw ⊢
      subst hw
      exact ⟨hs, hq, by rw [h.find?_eq_none hr hb]; rfl⟩
    · simp only [hwv, if_false] at hw ⊢
      exact h.register w rs hw
  known w hw := by
    rw [AllocationMap.find?_allocate] at hw
    by_cases hwv : w = v
    · simp [Machine.bind, hwv]
    · simp only [hwv, if_false] at hw
      simpa [Machine.bind, hwv] using h.known w hw

theorem bit (hs : List ValueId) (h : Linked n m e) (hr : m.registers v = none) :
    Linked n { m with bits := m.bits ++ [v] } (e.allocate v hs) where
  register w rs hw := by
    rw [AllocationMap.find?_allocate]
    have hwv : w ≠ v := by
      rintro rfl
      simp [hr] at hw
    simp only [hwv, if_false]
    exact h.register w rs hw
  known w hw := by
    rw [AllocationMap.find?_allocate] at hw
    by_cases hwv : w = v
    · simp [hwv]
    · simp only [hwv, if_false] at hw
      rcases h.known w hw with h | h
      · exact .inl h
      · exact .inr (mem_append_left _ h)

end Linked

/-- What holds when the operations in `done` have been dealt with: `m` is the machine that ran them, `n`
names what it knows, and `new` tells what was built before an operation. -/
structure Simulates (p : Program) (done : List OpId) (trace : List (OpId × List Event)) (m : Machine)
    (n : Naming) (new : OpId → List OpId) (s : Session QubitMap) : Prop where
  run : Machine.run p done {} = some (trace, m)
  wellFormed : s.work.program.WellFormed
  deferred : s.deferred = true
  created : s.work.created = []
  pending : s.pending = done.filter fun j => isQuantum (p.op j)
  erased : ∀ j, j ∈ s.erased ↔ j ∈ s.pending
  rewritten : s.rewritten = s.pending.length
  ops : p.ops.size ≤ s.work.program.ops.size
  op : ∀ j, p.HasOp j →
    s.work.program.op j = { p.op j with operands := (p.op j).operands.map (Option.map (n.rename m)) }
  blocks : s.work.program.blocks.size = p.blocks.size
  block : ∀ b, s.work.program.block b = { p.block b with ops := (p.block b).ops.flatMap fun j => new j ++ [j] }
  values : p.values.size ≤ s.work.program.values.size
  value : ∀ v, p.HasValue v → s.work.program.typeOf v = p.typeOf v
  built : ∀ j, new j ≠ [] → j ∈ done ∧ isQuantum (p.op j) = true
  fresh : ∀ j, ∀ k ∈ new j, ¬ p.HasOp k ∧ s.work.program.HasOp k ∧ (s.work.program.op k).regions = []
  all : ∀ k, s.work.program.HasOp k → p.HasOp k ∨ ∃ j, k ∈ new j
  code : ∀ x ∈ trace, n.code x.2 = some ((new x.1).map (instr s.work.program))
  bound : ∀ v, (m.registers v).isSome ∨ v ∈ m.bits → ∃ j ∈ done, v ∈ (p.op j).results
  linked : Linked n m s.extra
  names : n.Fits m p s.work.program

namespace Simulates

variable {p q : Program} {done : List OpId} {trace : List (OpId × List Event)} {m : Machine} {n : Naming}
  {new : OpId → List OpId} {s t : Session QubitMap} {i : OpId}

section
variable (h : Simulates p done trace m n new s)
include h

theorem hasOp (hj : p.HasOp j) : s.work.program.HasOp j := Nat.lt_of_lt_of_le hj h.ops

theorem hasValue (hv : p.HasValue v) : s.work.program.HasValue v := Nat.lt_of_lt_of_le hv h.values

theorem hasBlock : s.work.program.HasBlock b ↔ p.HasBlock b := by
  rw [HasBlock, HasBlock, h.blocks]

theorem operand_new {j k : OpId} (hk : k ∈ new j)
    (hv : some v ∈ (s.work.program.op k).operands) : ¬ p.HasValue v := by
  have hj := (h.built j (ne_nil_of_mem hk)).1
  rw [← Machine.fst_run h.run] at hj
  obtain ⟨x, hx, rfl⟩ := mem_map.mp hj
  have hi := (Naming.code_instr (h.code x hx) _ (mem_map_of_mem hk)).1 v hv
  exact (h.names.fresh v (hi.imp_right .inl)).1

theorem unbound (wf : p.WellFormed) (hi : i ∉ done) (hv : v ∈ (p.op i).results) :
    m.registers v = none ∧ v ∉ m.bits := by
  have hnot : ¬ ((m.registers v).isSome ∨ v ∈ m.bits) := by
    intro hb
    obtain ⟨j, hj, hv'⟩ := h.bound v hb
    exact hi (wf.eq_of_mem_results hv hv' ▸ hj)
  rw [not_or] at hnot
  exact ⟨by simpa using hnot.1, hnot.2⟩

theorem register_of_find? (wf : p.WellFormed) (hf : s.extra.find? (n.rename m v) = some hs) :
    ∃ qs, m.registers v = some qs ∧ n.handlesOf qs = some hs := by
  have hknown := h.linked.known _ (Option.isSome_of_eq_some hf)
  have hold : p.HasValue (n.rename m v) := by
    obtain ⟨j, _, hj⟩ := h.bound _ hknown
    exact wf.hasValue_result hj
  have hv : v ∉ m.bits := fun hv =>
    (h.names.fresh _ (.inr (.inr (Naming.rename_mem h.names.reads hv)))).1 hold
  rw [Naming.rename_of_not_mem hv] at hf hknown
  obtain ⟨qs, hqs⟩ := Option.isSome_iff_exists.mp (hknown.resolve_right hv)
  obtain ⟨hs', hh, hf'⟩ := h.linked.register v qs hqs
  rw [hf] at hf'
  cases hf'
  exact ⟨qs, hqs, hh⟩

end

theorem next (wf : p.WellFormed) (h : Simulates p done trace m n new s) (hi : i ∉ done) (hp : p.HasOp i)
    (hq : isQuantum (p.op i) = true) {place k : Nat} {loc : String} {js : List OpId}
    {xs : List Instr} {f : ValueId → ValueId} {e : QubitMap} (n' : Naming) (m' : Machine) (es : List Event)
    (he : Emits i js xs (Rewriting.placed s b place loc) t)
    (hx : Runs p i m es m') (hn : n.Extends n') (hc : n'.code es = some xs)
    (hs : Edit.SameShape t.work.program q) (wfq : q.WellFormed)
    (ho : ∀ j, (q.op j).operands = (t.work.program.op j).operands.map (Option.map f))
    (hold : ∀ v, p.HasValue v → f (n.rename m v) = n'.rename m' v) (hnew : ∀ v, ¬ p.HasValue v → f v = v)
    (hl : Linked n' m' e) (hf : n'.Fits m' p q) (hb : ∀ v, (m'.registers v).isSome ∨ v ∈ m'.bits →
      ((m.registers v).isSome ∨ v ∈ m.bits) ∨ v ∈ (p.op i).results)
    {s' : Session QubitMap} (hs' : s' = { t with work := { t.work with program := q }, extra := e, mutations := k,
                                                  erased := i :: t.erased, pending := t.pending ++ [i] }) :
    Simulates p (done ++ [i]) (trace ++ [(i, es)]) m' n' (fun j => if j = i then js else new j)
      (afterRewrite s') := by
  subst hs'
  obtain ⟨w, k', rfl⟩ := he.rest
  have hem : Emitted i js s.work.program w.program := he.emitted
  have hni : new i = [] := by
    by_contra hne
    exact hi (h.built i hne).1
  have hstable : ∀ {k}, w.program.HasOp k → (∀ v, some v ∈ (w.program.op k).operands → ¬ p.HasValue v) →
      instr q k = instr w.program k := by
    intro k hk hv
    refine instr_congr ?_ fun v _ => hs.typeOf v
    have : (q.op k).operands = (w.program.op k).operands := by
      rw [ho]
      refine (map_congr_left fun x hx => ?_).trans (map_id _)
      cases x with
      | none => rfl
      | some v => simp [hnew v (hv v hx)]
    rw [hs.op k, this]
  have hinstr : ∀ j, ∀ k ∈ new j, instr q k = instr s.work.program k := by
    intro j k hk
    have hf := h.fresh j k hk
    have hwk := hem.op k hf.2.1
    rw [hstable (hem.hasOp hf.2.1) fun v hv => h.operand_new hk (by rwa [hwk] at hv)]
    exact instr_congr hwk fun v hv => hem.typeOf (h.wellFormed.hasValue_result hv)
  refine ⟨?_, wfq, h.deferred, rfl, ?_, ?_, ?_, ?_, ?_, ?_, ?_, ?_, ?_, ?_, ?_, ?_, ?_, ?_, hl, hf⟩
  · exact Machine.run_snoc h.run (by simp [Machine.step, hq, exec_iff.mpr hx])
  · show s.pending ++ [i] = _
    simp [h.pending, hq]
  · intro j
    show j ∈ i :: s.erased ↔ j ∈ s.pending ++ [i]
    simp [h.erased, or_comm]
  · show s.rewritten + 1 = (s.pending ++ [i]).length
    simp [h.rewritten]
  · show p.ops.size ≤ q.ops.size
    rw [hs.ops]
    exact Nat.le_trans h.ops hem.ops
  · intro j hj
    show q.op j = _
    rw [hs.op j, ho, hem.op j (h.hasOp hj), h.op j hj]
    simp only [map_map, Op.mk.injEq, true_and, and_true]
    refine map_congr_left fun x hx => ?_
    cases x with
    | none => rfl
    | some v => simp [hold v (wf.hasValue_operand hx)]
  · show q.blocks.size = _
    rw [hs.blocks]
    exact he.blocks.trans h.blocks
  · intro c
    show q.block c = _
    rw [hs.block]
    by_cases hc : p.HasBlock c
    · rw [hem.block c (h.hasBlock.mpr hc), h.block]
      simp only [flatMap_assoc, Block.mk.injEq, true_and]
      refine flatMap_congr fun j hj => ?_
      by_cases hji : j = i
      · simp [hji, hni]
      · have hnot : i ∉ new j := fun hm => (h.fresh j i hm).1 hp
        simp [flatMap_before_of_not_mem _ hnot, hji]
    · have hw : ¬ w.program.HasBlock c := by
        rw [HasBlock, show w.program.blocks.size = _ from he.blocks.trans h.blocks]
        exact hc
      rw [block_of_not_hasBlock hw, block_of_not_hasBlock hc]
      rfl
  · show p.values.size ≤ q.values.size
    rw [hs.values]
    exact Nat.le_trans h.values hem.values
  · intro v hv
    show q.typeOf v = _
    rw [hs.typeOf, hem.typeOf (h.hasValue hv), h.value v hv]
  · intro j hj
    by_cases hji : j = i
    · simp [hji, hq]
    · simp only [hji, if_false] at hj
      exact ⟨mem_append_left _ (h.built j hj).1, (h.built j hj).2⟩
  · intro j k hk
    show ¬ p.HasOp k ∧ q.HasOp k ∧ (q.op k).regions = []
    rw [hs.hasOp, hs.op k]
    by_cases hji : j = i
    · simp only [hji, if_true] at hk
      exact ⟨fun hpk => hem.new k hk (h.hasOp hpk), he.regions k hk⟩
    · simp only [hji, if_false] at hk
      have := h.fresh j k hk
      exact ⟨this.1, hem.hasOp this.2.1, by simpa [hem.op k this.2.1] using this.2.2⟩
  · intro k hk
    rcases hem.all k ((hs.hasOp k).mp hk) with hk | hk
    · rcases h.all k hk with hk | ⟨j, hj⟩
      · exact .inl hk
      · refine .inr ⟨j, ?_⟩
        rwa [if_neg fun hji => by simp [hji, hni] at hj]
    · exact .inr ⟨i, by rwa [if_pos rfl]⟩
  · intro x hx
    show n'.code x.2 = some (_)
    rcases mem_append.mp hx with hx | hx
    · have hxi : x.1 ≠ i := by
        intro hxi
        have := mem_map_of_mem (f := Prod.fst) hx
        rw [Machine.fst_run h.run, hxi] at this
        exact hi this
      simp only [hxi, if_false]
      rw [Naming.code_mono hn (h.code x hx)]
      exact congrArg some (map_congr_left fun k hk => (hinstr x.1 k hk)).symm
    · obtain rfl := mem_singleton.mp hx
      simp only [if_true]
      rw [hc, ← he.code]
      refine congrArg some (map_congr_left fun k hk => hstable (he.regions k hk).1 fun v hv => ?_).symm
      have hin : instr w.program k ∈ xs := by
        rw [← he.code]
        exact mem_map_of_mem hk
      exact (hf.fresh v (((Naming.code_instr hc _ hin).1 v hv).imp_right .inl)).1
  · intro v hv
    rcases hb v hv with hv | hv
    · obtain ⟨j, hj, hv⟩ := h.bound v hv
      exact ⟨j, mem_append_left _ hj, hv⟩
    · exact ⟨i, by simp, hv⟩

end Simulates

end Offload.Qubits
