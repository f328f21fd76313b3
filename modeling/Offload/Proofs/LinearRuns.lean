import Offload.Proofs.LinearRegisters

/-!
# Runs of linear programs

The invariant of a run: registers that were bound but not used yet share no qubit, and none of their qubits
was released. Every operation keeps it, because the registers it takes the qubits from are used up by it.
-/

namespace Offload.Qubits

open Program List

variable {k : Nat} {m m' : Machine} {p : Program} {qs : List Nat} {v : ValueId}

def Live (p : Program) (done : List OpId) (v : ValueId) : Prop := ∀ j ∈ done, some v ∉ (p.op j).operands

/-- What holds when the operations in `done` ran, and `events` happened. -/
structure Linear (p : Program) (done : List OpId) (events : List Event) (m : Machine) : Prop where
  bound : ∀ v, (m.registers v).isSome → ∃ j ∈ done, isQuantum (p.op j) = true ∧ v ∈ (p.op j).results
  complete : ∀ j ∈ done, isQuantum (p.op j) = true → ∀ r ∈ (p.op j).results, (p.typeOf r).qubits ≠ 0 →
    (m.registers r).isSome
  bits : ∀ v ∈ m.bits, (p.typeOf v).qubits = 0
  holds : ∀ v qs, m.registers v = some qs → Holds p m v qs
  disjoint : ∀ v w qs rs, Live p done v → Live p done w → v ≠ w → m.registers v = some qs →
    m.registers w = some rs → qs.Disjoint rs
  allocs : ∀ k < m.qubits, .alloc k ∈ events
  released : ∀ k, .release k ∈ events → k < m.qubits ∧
    ∀ v qs, Live p done v → m.registers v = some qs → k ∉ qs
  ordered : events.Pairwise fun e e' => ∀ k, e = .release k → k ∉ e'.qubits
  cnots : ∀ c t, .cnot c t ∈ events → c ≠ t

theorem Linear.start (p : Program) : Linear p [] [] {} := by
  constructor <;> simp

structure Accepts (p : Program) (i : OpId) : Prop where
  filled : none ∉ (p.op i).operands
  kind : p.checkKind catalogue i = .ok ()
  once : ∀ v, some v ∈ (p.op i).operands → (p.typeOf v).qubits ≠ 0 → (p.value v).uses.length ≤ 1

theorem Holds.qubits_ne_zero (h : Holds p m v qs) :
    (p.typeOf v).qubits ≠ 0 := by
  have := length_pos_iff.mpr h.ne_nil
  have := h.length
  omega

theorem Holds.mono (h : Holds p m v qs) (hm : m.qubits ≤ m'.qubits) : Holds p m' v qs :=
  ⟨h.nodup, h.ne_nil, h.length, fun k hk => Nat.lt_of_lt_of_le (h.lt k hk) hm⟩

section
variable {p : Program} {done : List OpId} {events es : List Event} {m m' : Machine} {i : OpId}
  (wf : p.WellFormed)
include wf

theorem Accepts.use_unique (ha : Accepts p i) (h0 : (p.typeOf v).qubits ≠ 0) {j : OpId} {k l : Nat}
    (hk : (p.op i).operands[k]? = some (some v)) (hl : (p.op j).operands[l]? = some (some v)) : i = j ∧ k = l := by
  have h1 : (⟨i, k⟩ : Use) ∈ (p.value v).uses := wf.consistent.mem_uses.mpr hk
  have h2 : (⟨j, l⟩ : Use) ∈ (p.value v).uses := wf.consistent.mem_uses.mpr hl
  have hlen := ha.once v (mem_of_getElem? hk) h0
  match hu : (p.value v).uses, hlen with
  | [], _ => simp [hu] at h1
  | [u], _ =>
    rw [hu, mem_singleton] at h1 h2
    cases h1.trans h2.symm
    exact ⟨rfl, rfl⟩

variable (h : Linear p done events m) (hi : i ∉ done) (ha : Accepts p i)
include h hi

theorem Linear.unbound {r : ValueId} (hr : r ∈ (p.op i).results) : m.registers r = none := by
  cases hm : m.registers r with
  | none => rfl
  | some qs =>
    obtain ⟨j, hj, _, hrj⟩ := h.bound r (by rw [hm]; rfl)
    exact absurd (wf.eq_of_mem_results hr hrj ▸ hj) hi

include ha

theorem Linear.live_operand (hv : some v ∈ (p.op i).operands) (hm : m.registers v = some qs) : Live p done v := by
  intro j hj hvj
  obtain ⟨k, hk⟩ := getElem?_of_mem hv
  obtain ⟨l, hl⟩ := getElem?_of_mem hvj
  obtain ⟨rfl, _⟩ := ha.use_unique wf (h.holds v qs hm).qubits_ne_zero hk hl
  exact hi hj

theorem Linear.supplied : Supplied p i m where
  holds v qs _ hm := h.holds v qs hm
  disjoint v w qs rs hv hw hne hm hm' :=
    h.disjoint v w qs rs (h.live_operand wf hi ha hv hm) (h.live_operand wf hi ha hw hm') hne hm hm'
  once k l v hk hl hm := by
    obtain ⟨qs, hm⟩ := Option.isSome_iff_exists.mp hm
    exact (ha.use_unique wf (h.holds v qs hm).qubits_ne_zero hk hl).2
  filled := ha.filled
  unbound _ hr := h.unbound wf hi hr
  results := wf.nodup_results _
  kind := ha.kind

theorem Linear.not_mem_of_given (hg : Given p i m k)
    (hlive : Live p (done ++ [i]) v) (hm : m.registers v = some qs) : k ∉ qs := by
  intro hk
  rcases hg with hg | ⟨u, rs, hu, hmu, hku⟩
  · exact absurd ((h.holds v qs hm).lt k hk) (Nat.not_lt.mpr hg)
  · have hne : u ≠ v := by
      rintro rfl
      exact hlive i (by simp) hu
    have hlive' : Live p done v := fun j hj => hlive j (mem_append_left _ hj)
    exact h.disjoint u v rs qs (h.live_operand wf hi ha hu hmu) hlive' hne hmu hm hku hk

theorem Linear.not_given_of_released (hr : .release k ∈ events) : ¬ Given p i m k := by
  obtain ⟨hlt, hfree⟩ := h.released k hr
  rintro (hg | ⟨u, rs, hu, hmu, hku⟩)
  · exact absurd hlt (Nat.not_lt.mpr hg)
  · exact hfree u rs (h.live_operand wf hi ha hu hmu) hmu hku

theorem Linear.rebound (hr : Rebinds p i m es m') (hq : isQuantum (p.op i) = true) :
    Linear p (done ++ [i]) (events ++ es) m' := by
  have hlive : ∀ {v}, Live p (done ++ [i]) v → Live p done v := fun hv j hj => hv j (mem_append_left _ hj)
  refine ⟨?_, ?_, ?_, ?_, ?_, ?_, ?_, ?_, ?_⟩
  · intro v hv
    by_cases hvi : v ∈ (p.op i).results
    · exact ⟨i, by simp, hq, hvi⟩
    · rw [hr.old v hvi] at hv
      obtain ⟨j, hj, hqj⟩ := h.bound v hv
      exact ⟨j, mem_append_left _ hj, hqj⟩
  · intro j hj hqj r hrj h0
    rcases mem_append.mp hj with hj | hj
    · have hri : r ∉ (p.op i).results := fun hri => hi (wf.eq_of_mem_results hri hrj ▸ hj)
      rw [hr.old r hri]
      exact h.complete j hj hqj r hrj h0
    · obtain rfl := mem_singleton.mp hj
      exact hr.all r hrj h0
  · intro v hv
    exact (hr.bits v hv).elim (h.bits v) id
  · intro v qs hv
    by_cases hvi : v ∈ (p.op i).results
    · exact (hr.new v hvi qs hv).1
    · rw [hr.old v hvi] at hv
      exact (h.holds v qs hv).mono hr.grows
  · intro v w qs rs hlv hlw hne hv hw
    by_cases hvi : v ∈ (p.op i).results <;> by_cases hwi : w ∈ (p.op i).results
    · exact hr.apart v hvi w hwi hne qs rs hv hw
    · rw [hr.old w hwi] at hw
      exact fun k hk => h.not_mem_of_given wf hi ha ((hr.new v hvi qs hv).2 k hk) hlw hw
    · rw [hr.old v hvi] at hv
      exact fun k hk hk' => h.not_mem_of_given wf hi ha ((hr.new w hwi rs hw).2 k hk') hlv hv hk
    · rw [hr.old v hvi] at hv
      rw [hr.old w hwi] at hw
      exact h.disjoint v w qs rs (hlive hlv) (hlive hlw) hne hv hw
  · intro k hk
    by_cases hkm : k < m.qubits
    · exact mem_append_left _ (h.allocs k hkm)
    · exact mem_append_right _ (hr.allocs k (Nat.not_lt.mp hkm) hk)
  · intro k hk
    rcases mem_append.mp hk with hk | hk
    · refine ⟨Nat.lt_of_lt_of_le (h.released k hk).1 hr.grows, fun v qs hlv hv => ?_⟩
      by_cases hvi : v ∈ (p.op i).results
      · exact fun hkq => h.not_given_of_released wf hi ha hk ((hr.new v hvi qs hv).2 k hkq)
      · rw [hr.old v hvi] at hv
        exact (h.released k hk).2 v qs (hlive hlv) hv
    · -- an operation that releases has no results
      obtain ⟨hlt, hg⟩ := hr.events _ hk k (by simp [Event.qubits])
      refine ⟨hlt, fun v qs hlv hv => ?_⟩
      rw [hr.old v (by simp [hr.releases k hk])] at hv
      exact h.not_mem_of_given wf hi ha hg hlv hv
  · refine pairwise_append.mpr ⟨h.ordered, hr.ordered, ?_⟩
    rintro _ hk e' he' k rfl hk'
    exact h.not_given_of_released wf hi ha hk (hr.events e' he' k hk').2
  · intro c t hct
    exact (mem_append.mp hct).elim (h.cnots c t) (hr.cnots c t)

theorem Linear.step (hlt : m.qubits < 9223372036854775808) (hs : Machine.step p i m = some (es, m')) :
    Linear p (done ++ [i]) (events ++ es) m' ∧
      ∀ v qs, m.registers v = some qs → m'.registers v = some qs := by
  obtain ⟨hq, hrun⟩ | ⟨hq, rfl, rfl⟩ := Machine.step_cases hs
  · have hr := hrun.rebinds (h.supplied wf hi ha) hlt
    refine ⟨h.rebound wf hi ha hr hq, fun v qs hv => ?_⟩
    rw [hr.old v fun hvi => ?_, hv]
    simp [h.unbound wf hi hvi] at hv
  · rw [append_nil]
    have hlive : ∀ {v}, Live p (done ++ [i]) v → Live p done v := fun hv j hj => hv j (mem_append_left _ hj)
    refine ⟨⟨?_, ?_, h.bits, h.holds, ?_, h.allocs, ?_, h.ordered, h.cnots⟩, fun _ _ hv => hv⟩
    · intro v hv
      obtain ⟨j, hj, hqj⟩ := h.bound v hv
      exact ⟨j, mem_append_left _ hj, hqj⟩
    · intro j hj hqj
      rcases mem_append.mp hj with hj | hj
      · exact h.complete j hj hqj
      · cases hq.symm.trans (mem_singleton.mp hj ▸ hqj)
    · exact fun v w qs rs hlv hlw => h.disjoint v w qs rs (hlive hlv) (hlive hlw)
    · exact fun k hk => ⟨(h.released k hk).1, fun v qs hlv => (h.released k hk).2 v qs (hlive hlv)⟩

end

namespace Machine

variable {p : Program} {i : OpId} {m m' : Machine} {es : List Event}

theorem qubits_le_step (h : step p i m = some (es, m')) : m.qubits ≤ m'.qubits := by
  obtain ⟨-, hrun⟩ | ⟨-, -, rfl⟩ := step_cases h
  · cases hrun with
    | alloc => exact Nat.le_add_right _ _
    | split => exact Nat.le_of_eq bindAll_qubits.1.symm
    | _ => exact Nat.le_refl _
  · exact Nat.le_refl _

theorem qubits_le_run : ∀ {l : List OpId} {m : Machine} {t}, run p l m = some (t, m') → m.qubits ≤ m'.qubits
  | [], m, t, h => by
    cases h
    exact Nat.le_refl _
  | i :: l, m, t, h => by
    obtain ⟨es, m1, t, hs, hr, rfl⟩ := run_cons h
    exact Nat.le_trans (qubits_le_step hs) (qubits_le_run hr)

end Machine

theorem Linear.run (wf : p.WellFormed) (hlt : m'.qubits < 9223372036854775808) :
    ∀ {rest done : List OpId} {events : List Event} {m : Machine} {trace}, Linear p done events m →
      (done ++ rest).Nodup → (∀ i ∈ rest, Accepts p i) → Machine.run p rest m = some (trace, m') →
      Linear p (done ++ rest) (events ++ trace.flatMap Prod.snd) m' ∧
        ∀ v qs, m.registers v = some qs → m'.registers v = some qs
  | [], done, events, m, trace, h, _, _, hr => by
    cases hr
    simpa using h
  | i :: rest, done, events, m, trace, h, hnd, ha, hr => by
    obtain ⟨es, m1, t, hs, hrest, rfl⟩ := Machine.run_cons hr
    have hle := Nat.le_trans (Machine.qubits_le_step hs) (Machine.qubits_le_run hrest)
    have hi : i ∉ done := fun hi => (nodup_append.mp hnd).2.2 i hi i (mem_cons_self ..) rfl
    obtain ⟨h1, hold1⟩ := h.step wf hi (ha i (mem_cons_self ..)) (Nat.lt_of_le_of_lt hle hlt) hs
    rw [append_cons] at hnd
    obtain ⟨h2, hold2⟩ := h1.run wf hlt hnd (fun j hj => ha j (mem_cons_of_mem _ hj)) hrest
    refine ⟨?_, fun v qs hv => hold2 v qs (hold1 v qs hv)⟩
    rwa [append_cons, flatMap_cons, ← append_assoc]

end Offload.Qubits
