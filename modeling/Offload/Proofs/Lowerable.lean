import Mathlib.Algebra.BigOperators.Ring.Finset
import Mathlib.Algebra.Order.BigOperators.Group.List
import Mathlib.Algebra.Order.Ring.Int
import Offload.Proofs.QubitValidity

/-!
# The programs that can be lowered

A lowering succeeds if every operation on registers is of a known kind, registers come from operations on
registers and are only used by them, and there is room for the handles of every allocation.
-/

namespace Offload.Qubits

open Program Build Rewrite Lowering Register Machine List

variable {k : Nat} {t : Ty} {ts : List Ty}

def sizes (ts : List Ty) : Int := (ts.map Ty.qubits).sum

theorem sizes_nonneg (h : ∀ t ∈ ts, 0 ≤ t.qubits) : 0 ≤ sizes ts := by
  refine sum_nonneg fun n hn => ?_
  obtain ⟨t, ht, rfl⟩ := mem_map.mp hn
  exact h t ht

theorem le_sizes (h : ∀ t ∈ ts, 0 ≤ t.qubits) (ht : t ∈ ts) : t.qubits ≤ sizes ts := by
  refine single_le_sum (fun n hn => ?_) _ (mem_map_of_mem ht)
  obtain ⟨u, hu, rfl⟩ := mem_map.mp hn
  exact h u hu

theorem totalQubits_eq_sizes (h : ∀ t ∈ ts, 0 ≤ t.qubits) (hlt : sizes ts < 9223372036854775808) :
    totalQubits ts = sizes ts := by
  have add : ∀ (ts : List Ty) (n : Int), 0 ≤ n → (∀ t ∈ ts, 0 ≤ t.qubits) →
      n + sizes ts < 9223372036854775808 → ts.foldl (fun n t => Word.add n t.qubits) n = n + sizes ts := by
    intro ts
    induction ts with
    | nil => intro n _ _ _; simp [sizes]
    | cons t ts ih =>
      intro n hn h hlt
      have ht := h t (mem_cons_self ..)
      have hts := sizes_nonneg fun u hu => h u (mem_cons_of_mem _ hu)
      have hcons : sizes (t :: ts) = t.qubits + sizes ts := by simp [sizes]
      rw [hcons] at hlt ⊢
      have hadd : Word.add n t.qubits = n + t.qubits := by
        rw [Word.add, Word.wrap_of_inRange]
        constructor <;> omega
      rw [foldl_cons, hadd, ih _ (by omega) (fun u hu => h u (mem_cons_of_mem _ hu)) (by omega)]
      omega
  rw [totalQubits, add ts 0 (Int.le_refl 0) h (by omega), Int.zero_add]

/-! ## Registers have the size of their type -/

structure Regular (p : Program) (i : OpId) : Prop where
  filled : none ∉ (p.op i).operands
  kind : p.checkKind catalogue i = .ok ()
  nonneg : ∀ v, 0 ≤ (p.typeOf v).qubits
  operands : sizes (Register.operands p i) < 9223372036854775808
  results : sizes (p.resultTypes i) < 9223372036854775808

variable {p q : Program} {root i : OpId} {m m' : Machine} {es : List Event} {v : ValueId}

namespace Regular

variable (hr : Regular p i)
include hr

theorem operandTypes_nonneg : ∀ t ∈ Register.operands p i, 0 ≤ t.qubits := by
  obtain ⟨vs, _, hts⟩ := values_of_filled hr.filled
  rw [hts]
  intro t ht
  obtain ⟨v, _, rfl⟩ := mem_map.mp ht
  exact hr.nonneg v

theorem resultTypes_nonneg : ∀ t ∈ p.resultTypes i, 0 ≤ t.qubits := by
  intro t ht
  obtain ⟨v, _, rfl⟩ := mem_map.mp ht
  exact hr.nonneg v

theorem operand (ht : (Register.operands p i)[k]? = some t) :
    ∃ v, (p.op i).operands[k]? = some (some v) ∧ p.typeOf v = t := by
  obtain ⟨vs, hvs, hts⟩ := values_of_filled hr.filled
  rw [hts, getElem?_map, Option.map_eq_some_iff] at ht
  obtain ⟨v, hv, rfl⟩ := ht
  exact ⟨v, by rw [hvs, getElem?_map, hv]; rfl, rfl⟩

theorem operandType (hv : (p.op i).operands[k]? = some (some v)) :
    (Register.operands p i)[k]? = some (p.typeOf v) := by
  obtain ⟨vs, hvs, hts⟩ := values_of_filled hr.filled
  rw [hvs, getElem?_map, Option.map_eq_some_iff] at hv
  obtain ⟨w, hw, hwv⟩ := hv
  rw [hts, getElem?_map, hw, ← Option.some.inj hwv]
  rfl

theorem split_size (hn : (p.op i).name = splitName) :
    ∃ t, Register.operands p i = [t] ∧ t.qubits = sizes (p.resultTypes i) ∧ 0 < t.qubits := by
  obtain ⟨⟨t, ht, htotal⟩, h0, hne⟩ := split_checked hr.kind hn
  rw [totalQubits_eq_sizes hr.resultTypes_nonneg hr.results] at htotal
  refine ⟨t, ht, htotal.symm, ?_⟩
  obtain ⟨u, hu⟩ := exists_mem_of_ne_nil _ hne
  have := le_sizes hr.resultTypes_nonneg hu
  have := hr.resultTypes_nonneg u hu
  have := h0 u hu
  omega

theorem merge_size (hn : (p.op i).name = mergeName) :
    ∃ u, p.resultTypes i = [u] ∧ u.qubits = sizes (Register.operands p i) ∧ 0 < u.qubits := by
  obtain ⟨h0, hne, u, hu, htotal⟩ := merge_checked hr.kind hn
  rw [totalQubits_eq_sizes hr.operandTypes_nonneg hr.operands] at htotal
  refine ⟨u, hu, htotal.symm, ?_⟩
  obtain ⟨t, ht⟩ := exists_mem_of_ne_nil _ hne
  have := le_sizes hr.operandTypes_nonneg ht
  have := hr.operandTypes_nonneg t ht
  have := h0 t ht
  omega

end Regular

namespace Runs

theorem keeps (h : Runs p i m es m') :
    ((m.registers v).isSome → (m'.registers v).isSome) ∧ (v ∈ m.bits → v ∈ m'.bits) := by
  cases h with
  | alloc => exact ⟨fun h => isSome_bind.mpr (.inl h), id⟩
  | dealloc => exact ⟨id, id⟩
  | split => exact ⟨fun h => isSome_bindAll.mpr (.inl h), fun h => by rwa [bindAll_qubits.2]⟩
  | merge => exact ⟨fun h => isSome_bind.mpr (.inl h), id⟩
  | cnot => exact ⟨fun h => isSome_bind.mpr (.inl (isSome_bind.mpr (.inl h))), id⟩
  | measure => exact ⟨fun h => isSome_bind.mpr (.inl h), mem_append_left _⟩
  | gate => exact ⟨fun h => isSome_bind.mpr (.inl h), id⟩

theorem binds (hr : Regular p i) (h : Runs p i m es m') (hv : v ∈ (p.op i).results) :
    v ∈ m'.bits ∨ (p.typeOf v).qubits ≠ 0 ∧ (m'.registers v).isSome := by
  cases h with
  | alloc hn hres =>
    obtain ⟨_, t, ht, h0⟩ := alloc_checked hr.kind hn
    obtain ⟨hrs, rfl⟩ := results_of_types ht hres
    rw [hrs, mem_singleton] at hv
    subst hv
    exact .inr ⟨h0, isSome_bind.mpr (.inr rfl)⟩
  | dealloc hn =>
    have := (dealloc_checked hr.kind hn).2
    rw [resultTypes, map_eq_nil_iff] at this
    simp [this] at hv
  | split hn _ hc =>
    refine .inr ⟨(split_checked hr.kind hn).2.1 _ (mem_map_of_mem hv), isSome_bindAll.mpr (.inr ?_)⟩
    have hlen := congrArg List.length (cut_eq_some hc).1
    rw [map_fst_zip (by simpa using Nat.le_of_eq hlen.symm)]
    exact hv
  | merge hn _ hres =>
    obtain ⟨u, hu, _, hpos⟩ := hr.merge_size hn
    obtain ⟨hrs, rfl⟩ := results_of_types hu hres
    rw [hrs, mem_singleton] at hv
    subst hv
    exact .inr ⟨by omega, isSome_bind.mpr (.inr rfl)⟩
  | cnot hn _ _ hres hres' =>
    obtain ⟨-, _, _, hct, hc, ht⟩ := cnot_checked hr.kind hn
    obtain ⟨hrs, rfl, rfl⟩ := pair_of_types hct hres hres'
    rw [hrs] at hv
    rcases mem_cons.mp hv with rfl | hv
    · exact .inr ⟨by omega, isSome_bind.mpr (.inl (isSome_bind.mpr (.inr rfl)))⟩
    · obtain rfl := mem_singleton.mp hv
      exact .inr ⟨by omega, isSome_bind.mpr (.inr rfl)⟩
  | measure hn _ hres hres' =>
    obtain ⟨-, _, hct, ht⟩ := measure_checked hr.kind hn
    obtain ⟨hrs, _, rfl⟩ := pair_of_types hct hres hres'
    rw [hrs] at hv
    rcases mem_cons.mp hv with rfl | hv
    · exact .inl (by simp)
    · obtain rfl := mem_singleton.mp hv
      exact .inr ⟨by omega, isSome_bind.mpr (.inr rfl)⟩
  | gate hg hn _ hres =>
    obtain ⟨t, _, ht, h0⟩ := gate_checked hr.kind hg hn
    obtain ⟨hrs, rfl⟩ := results_of_types ht hres
    rw [hrs, mem_singleton] at hv
    subst hv
    exact .inr ⟨h0, isSome_bind.mpr (.inr rfl)⟩

theorem sized (hr : Regular p i) (h : Runs p i m es m')
    (hm : ∀ v qs, m.registers v = some qs → (qs.length : Int) = (p.typeOf v).qubits) {qs : List Nat}
    (hv : m'.registers v = some qs) : (qs.length : Int) = (p.typeOf v).qubits := by
  cases h with
  | alloc hn hres hpos =>
    rcases bind_eq_some (m := m) hv with hv | ⟨rfl, rfl⟩
    · exact hm v qs hv
    · rw [length_range', Int.toNat_of_nonneg hpos]
  | dealloc => exact hm v qs hv
  | split hn _ hc =>
    rcases bindAll_eq_some hv with hv | hv
    · exact hm v qs hv
    · exact length_of_mem_zip (cut_eq_some hc).1 hv
  | merge hn hq hres =>
    rcases bind_eq_some hv with hv | ⟨rfl, rfl⟩
    · exact hm v qs hv
    · obtain ⟨u, hu, hsize, _⟩ := hr.merge_size hn
      obtain ⟨hrs, rfl⟩ := results_of_types hu hres
      obtain ⟨vs, hvs, hts⟩ := values_of_filled hr.filled
      rw [hvs] at hq
      obtain ⟨hbound, rfl⟩ := mapM_slot_eq_some hq
      rw [hsize, hts, sizes, length_flatten, map_map, map_map, Nat.cast_list_sum, map_map]
      congr 1
      exact map_congr_left fun w hw => hm w _ (hbound w hw)
  | cnot hn _ _ hres hres' =>
    obtain ⟨-, _, _, hct, hc, ht⟩ := cnot_checked hr.kind hn
    obtain ⟨_, rfl, rfl⟩ := pair_of_types hct hres hres'
    rcases bind_eq_some hv with hv | ⟨rfl, rfl⟩
    · rcases bind_eq_some hv with hv | ⟨rfl, rfl⟩
      · exact hm v qs hv
      · simpa using hc.symm
    · simpa using ht.symm
  | measure hn _ hres hres' =>
    obtain ⟨-, _, hct, ht⟩ := measure_checked hr.kind hn
    obtain ⟨_, _, rfl⟩ := pair_of_types hct hres hres'
    rcases bind_eq_some (m := m) hv with hv | ⟨rfl, rfl⟩
    · exact hm v qs hv
    · simpa using ht.symm
  | gate hg hn hq hres =>
    obtain ⟨t, ht, hrt, _⟩ := gate_checked hr.kind hg hn
    obtain ⟨hrs, rfl⟩ := results_of_types hrt hres
    rcases bind_eq_some hv with hv | ⟨rfl, rfl⟩
    · exact hm v _ hv
    · obtain ⟨w, hw, hreg⟩ := operand_eq_some hq
      have htype := hr.operandType hw
      rw [ht, getElem?_cons_zero, Option.some.injEq] at htype
      rw [htype]
      exact hm w _ hreg

end Runs

structure Filled (p : Program) (done : List OpId) (m : Machine) : Prop where
  binds : ∀ j ∈ done, isQuantum (p.op j) = true → ∀ r ∈ (p.op j).results,
    r ∈ m.bits ∨ (p.typeOf r).qubits ≠ 0 ∧ (m.registers r).isSome
  sized : ∀ v qs, m.registers v = some qs → (qs.length : Int) = (p.typeOf v).qubits

variable {done : List OpId}

theorem Filled.step (h : Filled p done m) (hi : isQuantum (p.op i) = true → Regular p i)
    (hs : Machine.step p i m = some (es, m')) : Filled p (done ++ [i]) m' := by
  obtain ⟨hq, hrun⟩ | ⟨hq, rfl, rfl⟩ := step_cases hs
  · have hr := hi hq
    refine ⟨fun j hj hq r hres => ?_, fun v qs hv => hrun.sized hr h.sized hv⟩
    rcases mem_append.mp hj with hj | hj
    · exact (h.binds j hj hq r hres).imp hrun.keeps.2 (And.imp_right hrun.keeps.1)
    · obtain rfl := mem_singleton.mp hj
      exact hrun.binds hr hres
  · refine ⟨fun j hj hqj => ?_, h.sized⟩
    rcases mem_append.mp hj with hj | hj
    · exact h.binds j hj hqj
    · obtain rfl := mem_singleton.mp hj
      cases hq.symm.trans hqj

theorem Filled.run : ∀ {l done : List OpId} {m m' : Machine} {t}, Filled p done m →
    (∀ i ∈ l, isQuantum (p.op i) = true → Regular p i) → Machine.run p l m = some (t, m') →
      Filled p (done ++ l) m'
  | [], done, m, m', t, h, _, hr => by
    cases hr
    rwa [append_nil]
  | i :: l, done, m, m', t, h, hl, hr => by
    obtain ⟨es, m1, t, hs, hrest, rfl⟩ := Machine.run_cons hr
    rw [append_cons]
    exact (h.step (hl i (mem_cons_self ..)) hs).run (fun j hj => hl j (mem_cons_of_mem _ hj)) hrest

/-! ## Every pattern applies -/

section
variable {rest : List OpId} {trace : List (OpId × List Event)} {n : Naming} {new : OpId → List OpId}
  {s : Session QubitMap}

theorem done_of_visible (wf : p.WellFormed) (hw : walk p root = done ++ i :: rest) {d : OpId} (hd : d ∈ walk p root)
    (hv : v ∈ (p.op d).results) (hvis : Visible catalogue p root v i) : d ∈ done := by
  obtain ⟨_, hwd, hne⟩ := mem_walk wf hd
  have hpre := wf.precedes_nested hv hwd hne hvis
  have hnd := wf.nodup_nested root
  have hnested : p.nested root = (root :: done) ++ i :: rest := by
    rw [wf.nested_eq_preorder, cons_append, ← hw]
    rfl
  rw [hnested] at hpre hnd
  rcases mem_cons.mp (hpre.mem_before hnd) with rfl | h
  · exact absurd rfl hne
  · exact h

theorem bit_qubits (wf : p.WellFormed) (hv : p.verify catalogue root = .ok ()) (hd : ∀ j ∈ done, j ∈ walk p root)
    (h : Simulates p done trace m n new s) (hb : v ∈ m.bits) : (p.typeOf v).qubits = 0 := by
  obtain ⟨k, hk⟩ := getElem?_of_mem hb
  obtain ⟨x, hx, hn, hres, _⟩ := (h.sourced wf hv hd).bits k v hk
  obtain ⟨_, hw, _⟩ := mem_walk wf (hd _ (h.mem_done.mpr ⟨x, hx, rfl⟩))
  obtain ⟨-, t, hts, _⟩ := measure_checked (accepted wf hv hw).2.2 hn
  have htype := congrArg (·[0]?) hts
  simp only [resultTypes, getElem?_map, hres, Option.map_some, getElem?_cons_zero, Option.some.injEq] at htype
  rw [htype]
  rfl

theorem Simulates.finds (wf : p.WellFormed) (hv : p.verify catalogue root = .ok ())
    (hw : walk p root = done ++ i :: rest) (h : Simulates p done trace m n new s) (hf : Filled p done m)
    (hsrc : ∀ v, some v ∈ (p.op i).operands → (p.typeOf v).qubits ≠ 0 →
      ∃ d ∈ walk p root, isQuantum (p.op d) = true ∧ v ∈ (p.op d).results)
    (ho : (p.op i).operands[k]? = some (some v)) (h0 : (p.typeOf v).qubits ≠ 0) :
    (s.work.program.op i).operands[k]? = some (some v) ∧
      ∃ hs, s.extra.find? v = some hs ∧ (hs.length : Int) = (p.typeOf v).qubits := by
  have hd : ∀ j ∈ done, j ∈ walk p root := fun j hj => by rw [hw]; simp [hj]
  have hiw : i ∈ walk p root := by simp [hw]
  obtain ⟨hp, hwi, _⟩ := mem_walk wf hiw
  have hmem := mem_of_getElem? ho
  have hb : v ∉ m.bits := fun hb => h0 (bit_qubits wf hv hd h hb)
  constructor
  · rw [h.op i hp, getElem?_map, ho, Option.map_some, Option.map_some, Naming.rename_of_not_mem hb]
  · obtain ⟨d, hdw, hq, hres⟩ := hsrc v hmem h0
    obtain ⟨_, heq, hvis⟩ := (accepted wf hv hwi).1 _ hmem
    obtain rfl := Option.some.inj heq
    have hdone := done_of_visible wf hw hdw hres hvis
    obtain ⟨_, hreg⟩ := (hf.binds d hdone hq v hres).resolve_left hb
    obtain ⟨qs, hqs⟩ := Option.isSome_iff_exists.mp hreg
    obtain ⟨hs, hh, hfind⟩ := h.linked.register v qs hqs
    exact ⟨hs, hfind, by rw [Naming.handlesOf_length hh, hf.sized v qs hqs]⟩

theorem cutHandles_succeeds {hs : List ValueId} (hlt : (hs.length : Int) < 9223372036854775808) :
    ∀ (rs : List ValueId) {offset : Int} {s : Session QubitMap}, 0 ≤ offset →
      (∀ t ∈ rs.map s.work.program.typeOf, 0 ≤ t.qubits) →
      offset + sizes (rs.map s.work.program.typeOf) = hs.length → ∃ t, cutHandles hs offset rs s = .ok none t
  | [], offset, s, _, _, _ => ⟨s, rfl⟩
  | r :: rs, offset, s, hoff, hpos, hsum => by
    rw [map_cons] at hpos hsum
    have hr := hpos _ (mem_cons_self ..)
    have hrs : ∀ t ∈ rs.map s.work.program.typeOf, 0 ≤ t.qubits := fun t ht => hpos t (mem_cons_of_mem _ ht)
    have hrest := sizes_nonneg hrs
    have hcons : sizes (s.work.program.typeOf r :: rs.map s.work.program.typeOf) =
        (s.work.program.typeOf r).qubits + sizes (rs.map s.work.program.typeOf) := by
      simp [sizes]
    rw [hcons] at hsum
    have hadd : Word.add offset (s.work.program.typeOf r).qubits = offset + (s.work.program.typeOf r).qubits := by
      rw [Word.add, Word.wrap_of_inRange]
      constructor <;> omega
    rw [cutHandles, Rewriting.program_bind]
    simp only [hadd]
    rw [if_neg (by omega), if_neg (by omega), bind_of_ok (allocate_ok (u := ()).mpr rfl)]
    exact cutHandles_succeeds hlt rs (by omega) hrs (by simp only; omega)

theorem mapM_handles_succeeds : ∀ sls : List Slot, (∀ sl ∈ sls, ∃ hs v, sl = some v ∧
    s.extra.find? v = some hs) → ∃ hss, sls.mapM handles s = .ok hss s
  | [], _ => ⟨[], rfl⟩
  | sl :: sls, h => by
    obtain ⟨hs, hh⟩ := h sl (mem_cons_self ..)
    obtain ⟨hss, hhss⟩ := mapM_handles_succeeds sls fun x hx => h x (mem_cons_of_mem _ hx)
    refine ⟨hs :: hss, ?_⟩
    rw [mapM_cons, bind_of_ok (handles_ok.mpr ⟨hh, rfl⟩), bind_of_ok hhss]
    rfl

theorem pattern_applies (wf : p.WellFormed) (hv : p.verify catalogue root = .ok ())
    (hrange : ∀ v, Word.InRange (p.typeOf v).qubits) (hw : walk p root = done ++ i :: rest)
    (h : Simulates p done trace m n new s) (hq : isQuantum (p.op i) = true) (hf : Filled p done m)
    (hsrc : ∀ v, some v ∈ (p.op i).operands → (p.typeOf v).qubits ≠ 0 →
      ∃ d ∈ walk p root, isQuantum (p.op d) = true ∧ v ∈ (p.op d).results)
    (hr : Regular p i) (halloc : (p.op i).name = allocName → Allocatable p i)
    {b : BlockId} {place : Nat} {loc : String} (hb : (s.work.program.op i).block = some b)
    (hidx : (s.work.program.block b).ops.idxOf? i = some place) {pattern : Pattern QubitMap}
    (hpat : pattern ∈ patterns) (hkind : pattern.kind = (p.op i).name) :
    Applies (pattern.rewrite i) (Rewriting.placed s b place loc) := by
  obtain ⟨hi, hp⟩ := walk_next wf hw
  -- an operand of a register type, with its handles
  have finds : ∀ {k : Nat} {t : Ty}, (Register.operands p i)[k]? = some t → t.qubits ≠ 0 →
      ∃ hs, Known s i k hs ∧ (hs.length : Int) = t.qubits := by
    intro k t ht h0
    obtain ⟨v, ho, rfl⟩ := hr.operand ht
    obtain ⟨ho', hs, hfind, hlen⟩ := h.finds wf hv hw hf hsrc ho h0
    exact ⟨hs, ⟨v, ho', hfind⟩, hlen⟩
  have single : ∀ {k : Nat} {t : Ty}, (Register.operands p i)[k]? = some t → t.qubits = 1 →
    ∃ x, Known s i k [x] := by
    intro k t ht h1
    obtain ⟨hs, hknown, hlen⟩ := finds ht (by omega)
    obtain ⟨x, rfl⟩ := length_eq_one_iff.mp (show hs.length = 1 by omega)
    exact ⟨x, hknown⟩
  simp only [patterns, mem_append, mem_cons, not_mem_nil, or_false, mem_map] at hpat
  rcases hpat with (rfl | rfl | rfl | rfl | rfl | rfl) | ⟨g, hg, rfl⟩
  · obtain ⟨_, t, ht, _⟩ := alloc_checked hr.kind hkind.symm
    exact (lowerAlloc_acts (K := True) wf h hi hp hq hb hidx hkind.symm (fun _ => exists_result ht (by simp))
      fun _ r hres => ⟨_, if_pos ⟨hr.nonneg r, halloc hkind.symm r (mem_of_getElem? hres)⟩⟩).applies
        trivial trivial
  · obtain ⟨⟨t, ht, h0⟩, -⟩ := dealloc_checked hr.kind hkind.symm
    obtain ⟨hs, hknown, _⟩ := finds (k := 0) (by rw [ht]; rfl) h0
    exact (lowerDealloc_acts (V := True) (K := True) wf h hi hp hq hb hidx hkind.symm fun _ => ⟨hs, hknown⟩).applies
      trivial trivial
  · obtain ⟨t, ht, hsize, hpos⟩ := hr.split_size hkind.symm
    obtain ⟨hs, hknown, hlen⟩ := finds (k := 0) (by rw [ht]; rfl) (by omega)
    have htypes : (p.op i).results.map (Rewriting.placed s b place loc).work.program.typeOf = p.resultTypes i :=
      map_congr_left fun r hres => h.value r (wf.hasValue_result hres)
    have hlt := hr.results
    have hcut := cutHandles_succeeds (s := Rewriting.placed s b place loc) (show (hs.length : Int) < _ by omega)
      (p.op i).results (Int.le_refl 0) (by rw [htypes]; exact hr.resultTypes_nonneg) (by rw [htypes]; omega)
    exact (lowerSplit_acts (V := True) (K := True) wf h hi hp hq hb hidx hrange hkind.symm
      fun _ => ⟨hs, hknown, hcut⟩).applies trivial trivial
  · obtain ⟨u, hu, _⟩ := hr.merge_size hkind.symm
    have h0 := (merge_checked hr.kind hkind.symm).1
    refine (lowerMerge_acts (K := True) wf h hi hp hq hb hidx hkind.symm (fun _ => exists_result hu (by simp)) fun _ =>
      mapM_handles_succeeds (s := Rewriting.placed s b place loc) _ fun sl hsl => ?_).applies trivial trivial
    obtain ⟨k, hk⟩ := getElem?_of_mem hsl
    have hlt : k < (Register.operands p i).length := by
      obtain ⟨vs, hvs, hts⟩ := values_of_filled hr.filled
      have := (List.getElem?_eq_some_iff.mp hk).1
      rw [h.op i hp, length_map, hvs, length_map] at this
      rwa [hts, length_map]
    obtain ⟨hs, ⟨v, ho, hfind⟩, _⟩ := finds (getElem?_eq_getElem hlt) (h0 _ (getElem_mem hlt))
    exact ⟨hs, v, Option.mem_unique hk ho, hfind⟩
  · obtain ⟨⟨c, t, hct, hc, ht⟩, _, _, hres, _⟩ := cnot_checked hr.kind hkind.symm
    exact (lowerCnot_acts (K := True) wf h hi hp hq hb hidx hkind.symm
      (fun _ => ⟨exists_result hres (by simp), exists_result hres (by simp)⟩) fun _ =>
        ⟨single (by rw [hct]; rfl) hc, single (by rw [hct]; rfl) ht⟩).applies trivial trivial
  · obtain ⟨⟨t, ht, h1⟩, _, hres, _⟩ := measure_checked hr.kind hkind.symm
    exact (lowerMeasure_acts (K := True) wf h hi hp hq hb hidx hkind.symm
      (fun _ => ⟨exists_result hres (by simp), exists_result hres (by simp)⟩) fun _ =>
        single (by rw [ht]; rfl) h1).applies trivial trivial
  · obtain ⟨t, ht, hres, h0⟩ := gate_checked hr.kind hg hkind.symm
    obtain ⟨hs, hknown, _⟩ := finds (k := 0) (by rw [ht]; rfl) h0
    exact (lowerGate_acts (K := True) wf h hi hp hq hb hidx hg hkind.symm (fun _ => exists_result hres (by simp))
      fun _ => ⟨hs, hknown⟩).applies trivial trivial

end

/-! ## When a lowering succeeds -/

def handled : List String :=
  [allocName, deallocName, splitName, mergeName, cnotName,
    measureName] ++ gates.map gateName

/-- What has to hold of a program so that its registers can be lowered. -/
structure Lowerable (p : Program) (root : OpId) : Prop where
  handled : ∀ i ∈ walk p root, isQuantum (p.op i) = true → (p.op i).name ∈ handled
  source : ∀ i ∈ walk p root, isQuantum (p.op i) = true → ∀ v, some v ∈ (p.op i).operands →
    (p.typeOf v).qubits ≠ 0 → ∃ d ∈ walk p root, isQuantum (p.op d) = true ∧ v ∈ (p.op d).results
  users : ∀ d ∈ walk p root, isQuantum (p.op d) = true → ∀ v ∈ (p.op d).results, (p.typeOf v).qubits ≠ 0 →
    ∀ u, p.HasOp u → some v ∈ (p.op u).operands → u ∈ walk p root ∧ isQuantum (p.op u) = true
  room : ∀ i ∈ walk p root, (p.op i).name = allocName → ∀ v ∈ (p.op i).results,
    (p.typeOf v).qubits < capacity

theorem exists_pattern (h : (p.op i).name ∈ handled) : ∃ pattern ∈ patterns, pattern.kind = (p.op i).name := by
  have : handled = patterns.map Pattern.kind := by decide
  rw [this] at h
  exact mem_map.mp h

theorem Runs.handled (h : Runs p i m es m') : (p.op i).name ∈ handled := by
  cases h with
  | gate hg hn => exact hn ▸ mem_append_right _ (mem_map_of_mem hg)
  | _ hn => simp [hn, Qubits.handled]

section
variable {trace : List (OpId × List Event)} {n : Naming} {new : OpId → List OpId} {s t : Session QubitMap}

theorem Simulates.ran (h : Simulates p (walk p root) trace m n new s) (hi : i ∈ walk p root)
    (hq : isQuantum (p.op i) = true) :
    ∃ l r t1 m1 es m2, walk p root = l ++ i :: r ∧ Machine.run p l {} = some (t1, m1) ∧ Runs p i m1 es m2 := by
  obtain ⟨l, r, hw⟩ := append_of_mem hi
  have hrun := h.run
  rw [hw] at hrun
  obtain ⟨t1, m1, t2, h1, h2, _⟩ := Machine.run_split hrun
  obtain ⟨es, m2, _, hs, _⟩ := Machine.run_cons h2
  rw [Machine.step, if_pos hq] at hs
  exact ⟨l, r, t1, m1, es, m2, hw, h1, exec_iff.mp hs⟩

theorem accepted_walk (wf : p.WellFormed) (hv : p.verify catalogue root = .ok ()) (hi : i ∈ walk p root) :
    none ∉ (p.op i).operands ∧ p.checkKind catalogue i = .ok () := by
  have hacc := accepted wf hv (mem_walk wf hi).2.1
  refine ⟨fun hn => ?_, hacc.2.2⟩
  obtain ⟨_, ⟨⟩, _⟩ := hacc.1 none hn

theorem Simulates.mem_pending (h : Simulates p (walk p root) trace m n new s) :
    i ∈ s.pending ↔ i ∈ walk p root ∧ isQuantum (p.op i) = true := by
  rw [h.pending, mem_filter]

theorem Simulates.lowerable (wf : p.WellFormed) (flat : Flat p root) (hv : p.verify catalogue root = .ok ())
    (h : Simulates p (walk p root) trace m n new s) (hr : Rewriting.Released s (Rewriting.roots s))
    (ha : ∀ i ∈ walk p root, (p.op i).name = allocName → Allocatable p i) : Lowerable p root where
  handled i hi hq := by
    obtain ⟨l, r, t1, m1, es, m2, _, _, hrun⟩ := h.ran hi hq
    exact hrun.handled
  source i hi hq v hvi _ := by
    obtain ⟨l, r, t1, m1, es, m2, hw, hl, hrun⟩ := h.ran hi hq
    obtain ⟨hfilled, hkind⟩ := accepted_walk wf hv hi
    have hd : ∀ j ∈ l, j ∈ walk p root := fun j hj => by rw [hw]; simp [hj]
    obtain ⟨x, hx, hxq, hres⟩ := (sourced_of_run wf hv hd hl).bound v (hrun.reads hfilled hkind hvi)
    refine ⟨x.1, hd _ ?_, hxq, hres⟩
    rw [← fst_run hl]
    exact mem_map_of_mem hx
  users d hd hq v hres h0 u hu huse := by
    have hold := (mem_walk wf hd).1
    have hb : v ∉ m.bits := fun hb => h0 (bit_qubits wf hv (fun _ hj => hj) h hb)
    obtain ⟨k, hk⟩ := getElem?_of_mem ((h.mem_operands hu (wf.hasValue_result hres)).mpr ⟨huse, hb⟩)
    have huses : (⟨u, k⟩ : Use) ∈ (s.work.program.value v).uses := h.wellFormed.consistent.mem_uses.mpr hk
    have her := hr d (by rw [h.roots_eq wf flat fun _ hj => hj]; exact h.mem_pending.mpr ⟨hd, hq⟩) v
      (by rw [h.op d hold]; exact hres) u (mem_eraseDups.mpr (mem_map.mpr ⟨_, huses, rfl⟩))
    exact h.mem_pending.mp ((h.erasedAt_iff wf flat fun _ hj => hj).mp her)
  room := ha

theorem Lowerable.released (hl : Lowerable p root) (wf : p.WellFormed) (flat : Flat p root)
    (h : Simulates p (walk p root) trace m n new s) (hf : Filled p (walk p root) m) :
    Rewriting.Released s (Rewriting.roots s) := by
  rw [h.roots_eq wf flat fun _ hj => hj]
  intro d hd v hres u hu
  obtain ⟨hdw, hq⟩ := h.mem_pending.mp hd
  rw [h.op d (mem_walk wf hdw).1] at hres
  have hval : p.HasValue v := wf.hasValue_result hres
  obtain ⟨x, hx, rfl⟩ := mem_map.mp (mem_eraseDups.mp hu)
  have huse := mem_of_getElem? (h.wellFormed.consistent.mem_uses.mp hx)
  have hop : s.work.program.HasOp x.op := by
    by_contra hn
    rw [op_of_not_hasOp hn] at huse
    cases huse
  rcases h.all x.op hop with hold | ⟨j, hj⟩
  · obtain ⟨hin, hb⟩ := (h.mem_operands hold hval).mp huse
    obtain ⟨h0, _⟩ := (hf.binds d hdw hq v hres).resolve_left hb
    exact (h.erasedAt_iff wf flat fun _ hj => hj).mpr (h.mem_pending.mpr (hl.users d hdw hq v hres h0 x.op hold hin))
  · exact absurd hval (h.operand_new hj huse)

theorem Refines.not_quantum (wf : p.WellFormed) (hroot : p.HasOp root) (flat : Flat p root) {e : QubitMap}
    (h : Refines p root trace m n new e q) (hi : i ∈ walk q root) : isQuantum (q.op i) = false := by
  rw [h.walk_eq wf hroot flat] at hi
  obtain ⟨j, hj, hi⟩ := mem_flatMap.mp hi
  rw [inPlace] at hi
  split at hi
  · rw [← fst_run h.run] at hj
    obtain ⟨x, hx, rfl⟩ := mem_map.mp hj
    rw [← (Naming.code_instr (h.code x hx) _ (mem_map_of_mem hi)).2]
    exact isQuantum_congr rfl
  · rename_i hl
    obtain rfl := mem_singleton.mp hi
    rw [h.op i (mem_walk wf hj).1 (Bool.eq_false_iff.mpr hl)]
    have hq : isQuantum (p.op i) = false := by simpa [isLowered, hj] using hl
    exact (isQuantum_congr rfl).trans hq

end

theorem regular_walk (wf : p.WellFormed) (hv : p.verify catalogue root = .ok ())
    (hsizes : ∀ x ∈ p.values, 0 ≤ x.type.qubits ∧ x.type.qubits < 9223372036854775808)
    (hsums : ∀ i ∈ walk p root, isQuantum (p.op i) = true →
      sizes (Register.operands p i) < 9223372036854775808 ∧ sizes (p.resultTypes i) < 9223372036854775808) :
    ∀ i ∈ walk p root, isQuantum (p.op i) = true → Regular p i := by
  intro i hi hq
  obtain ⟨hfilled, hkind⟩ := accepted_walk wf hv hi
  refine ⟨hfilled, hkind, fun v => ?_, (hsums i hi hq).1, (hsums i hi hq).2⟩
  by_cases hval : p.HasValue v
  · exact (hsizes _ (value_mem hval)).1
  · rw [Program.typeOf, value_of_not_hasValue hval]
    decide

/-- The lowering of a program that was accepted has no error exactly if the program is lowerable, and then no
operation on registers is left. -/
theorem lower_succeeds_iff (wf : p.WellFormed) (hroot : p.HasOp root)
    (hsizes : ∀ x ∈ p.values, 0 ≤ x.type.qubits ∧ x.type.qubits < 9223372036854775808)
    (flat : ∀ i ∈ p.preorder (fun _ => true) root, isQuantum (p.op i) = true → (p.op i).regions = [])
    (hsums : ∀ i ∈ p.preorder (fun _ => true) root, isQuantum (p.op i) = true →
      sizes (Register.operands p i) < 9223372036854775808 ∧ sizes (p.resultTypes i) < 9223372036854775808)
    (hv : p.verify catalogue root = .ok ()) :
    ∃ l q, lower root p = .ok l q ∧ (l.error = none ↔ Lowerable p root) ∧
      (l.error = none → ∀ i ∈ q.preorder (fun _ => true) root, isQuantum (q.op i) = false) := by
  have hrange : ∀ v, Word.InRange (p.typeOf v).qubits := inRange_typeOf fun x hx => by
    obtain ⟨h0, hlt⟩ := hsizes x hx
    constructor <;> omega
  have hreg := regular_walk wf hv hsizes hsums
  have hstart : Filled p [] {} := ⟨by simp, by simp⟩
  obtain ⟨l, q, h, hend⟩ := lower_ends wf hrange flat hv
  refine ⟨l, q, h, ?_⟩
  cases hend with
  | @stuck i _ done rest trace m n new s b place he hw hq sim hb hidx hna =>
    refine ⟨⟨fun h => absurd h he, fun hl => ?_⟩, fun h => absurd h he⟩
    have hi : i ∈ walk p root := by simp [hw]
    have hp := (mem_walk wf hi).1
    have hf := hstart.run (fun j hj => hreg j (by rw [hw]; simp [hj])) sim.run
    have hname : (s.work.program.op i).name = (p.op i).name := by rw [sim.op i hp]
    obtain ⟨t, ht⟩ := attempt_applies (s := s) b place
      (hname ▸ exists_pattern (hl.handled i hi hq)) fun pattern hpat hk =>
        pattern_applies wf hv hrange hw sim hq hf (hl.source i hi hq) (hreg i hi hq) (hl.room i hi) hb hidx hpat
          (hk.trans hname)
    exact absurd ht (hna t)
  | used he sim used =>
    refine ⟨⟨fun h => absurd h he, fun hl => ?_⟩, fun h => absurd h he⟩
    exact absurd (hl.released wf flat sim (hstart.run hreg sim.run)) used
  | lowered he sim released commit program ha =>
    subst program
    exact ⟨⟨fun _ => sim.lowerable wf flat hv released ha, fun _ => he⟩,
      fun _ i hi => (sim.commit wf flat commit).not_quantum wf hroot flat hi⟩

theorem lower_succeeds_iff_bell : Lowerable bell 0 ∧ ∃ l q, lower 0 bell = .ok l q ∧ l.error = none ∧
    ∀ i ∈ q.preorder (fun _ => true) 0, isQuantum (q.op i) = false := by
  obtain ⟨l, q, h, hiff, hnone⟩ := lower_succeeds_iff
    (.of_check (by decide)) (show bell.HasOp 0 by decide) (by decide) (by decide +kernel) (by decide +kernel)
    (by decide)
  obtain ⟨l', q', h', he⟩ := lower_bell
  obtain ⟨rfl, rfl⟩ : l = l' ∧ q = q' := by
    rw [h] at h'
    cases h'
    exact ⟨rfl, rfl⟩
  exact ⟨hiff.mp he, l, q, h, he, hnone he⟩

def passed : Program :=
  { ops := #[
      { name := "builtin.module", regions := [[0]] },
      { name := "func.func", attrs := [("sym_name", .str "main"),
          ("function_type", .type (.function [.register 1] [.register 1]))], regions := [[1]], block := some 0 },
      { name := "func.return", operands := [some 0], block := some 1 }]
    blocks := #[
      { owner := 0, ops := [1] },
      { owner := 1, args := [0], ops := [2] }]
    values := #[⟨.register 1, .argument 1 0, [⟨2, 0⟩]⟩] }

def vast : Program :=
  { ops := #[
      { name := "builtin.module", regions := [[0]] },
      { name := "quantum.alloc", results := [0], block := some 0 }]
    blocks := #[{ owner := 0, ops := [1] }]
    values := #[⟨.register 1125899906842624, .result 1 0, []⟩] }

/-- A register that no operation on registers made may be used by anything, and a register that nothing else
uses may still be too large. -/
theorem lower_passed_vast :
    (passed.WellFormed ∧ passed.verify catalogue 0 = .ok () ∧ succeeded (lower 0 passed) = true ∧
      isQuantum (passed.op 2) = false ∧ some 0 ∈ (passed.op 2).operands ∧ (passed.typeOf 0).qubits = 1) ∧
    (vast.WellFormed ∧ vast.verify catalogue 0 = .ok () ∧ succeeded (lower 0 vast) = false ∧
      (∀ i ∈ vast.preorder (fun _ => true) 0, isQuantum (vast.op i) = true → (vast.op i).name ∈ handled ∧
        (vast.op i).regions = [] ∧ (vast.op i).operands = []) ∧
      ∀ x ∈ vast.values, x.uses = [] ∧ x.type.qubits < 9223372036854775808) :=
  ⟨⟨.of_check (by decide), by decide, by decide +kernel, by decide, by decide, by decide⟩,
    .of_check (by decide), by decide +kernel, by decide +kernel, by decide +kernel, by decide⟩

end Offload.Qubits
