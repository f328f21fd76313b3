import Mathlib.Data.List.Pairwise
import Offload.Proofs.QubitPatterns

/-!
# Registers that are used once

In an accepted program whose registers have at most one use, running an operation moves qubits from its
operands to its results, so no two registers that are still to be used share a qubit.
-/

namespace Offload.Qubits

open Program Register List Machine

variable {k : Nat} {pieces : List (List Nat)} {qs : List Nat} {r : ValueId} {t : Ty}

def Event.qubits : Event → List Nat
  | .alloc q | .gate _ _ q | .measure q _ | .release q => [q]
  | .cnot c t => [c, t]

def Given (p : Program) (i : OpId) (m : Machine) (k : Nat) : Prop :=
  m.qubits ≤ k ∨ ∃ v qs, some v ∈ (p.op i).operands ∧ m.registers v = some qs ∧ k ∈ qs

structure Holds (p : Program) (m : Machine) (r : ValueId) (qs : List Nat) : Prop where
  nodup : qs.Nodup
  ne_nil : qs ≠ []
  length : (qs.length : Int) = (p.typeOf r).qubits
  lt : ∀ k ∈ qs, k < m.qubits

structure Rebinds (p : Program) (i : OpId) (m : Machine) (es : List Event) (m' : Machine) : Prop where
  grows : m.qubits ≤ m'.qubits
  allocs : ∀ k, m.qubits ≤ k → k < m'.qubits → .alloc k ∈ es
  bits : ∀ v ∈ m'.bits, v ∈ m.bits ∨ (p.typeOf v).qubits = 0
  old : ∀ v, v ∉ (p.op i).results → m'.registers v = m.registers v
  all : ∀ r ∈ (p.op i).results, (p.typeOf r).qubits ≠ 0 → (m'.registers r).isSome
  new : ∀ r ∈ (p.op i).results, ∀ qs, m'.registers r = some qs →
    Holds p m' r qs ∧ ∀ k ∈ qs, Given p i m k
  apart : ∀ r ∈ (p.op i).results, ∀ r' ∈ (p.op i).results, r ≠ r' → ∀ qs qs', m'.registers r = some qs →
    m'.registers r' = some qs' → qs.Disjoint qs'
  events : ∀ e ∈ es, ∀ k ∈ e.qubits, k < m'.qubits ∧ Given p i m k
  releases : ∀ k, .release k ∈ es → (p.op i).results = []
  ordered : es.Pairwise fun e e' => ∀ k, e = .release k → k ∉ e'.qubits
  cnots : ∀ c t, .cnot c t ∈ es → c ≠ t

structure Supplied (p : Program) (i : OpId) (m : Machine) : Prop where
  holds : ∀ v qs, some v ∈ (p.op i).operands → m.registers v = some qs → Holds p m v qs
  disjoint : ∀ v w qs rs, some v ∈ (p.op i).operands → some w ∈ (p.op i).operands → v ≠ w →
    m.registers v = some qs → m.registers w = some rs → qs.Disjoint rs
  once : ∀ (k l : Nat) (v : ValueId), (p.op i).operands[k]? = some (some v) →
    (p.op i).operands[l]? = some (some v) → (m.registers v).isSome → k = l
  filled : none ∉ (p.op i).operands
  unbound : ∀ r ∈ (p.op i).results, m.registers r = none
  results : (p.op i).results.Nodup
  kind : p.checkKind catalogue i = .ok ()

section
variable {p : Program} {i : OpId} {m m' : Machine} {es : List Event}

theorem operand_eq_some (h : m.operand (p.op i) k = some qs) :
    ∃ v, (p.op i).operands[k]? = some (some v) ∧ m.registers v = some qs := by
  rw [operand, Option.bind_eq_some_iff] at h
  obtain ⟨s, hs, h⟩ := h
  rw [slot, Option.bind_eq_some_iff] at h
  obtain ⟨v, rfl, h⟩ := h
  exact ⟨v, hs, h⟩

theorem values_of_filled (h : none ∉ (p.op i).operands) :
    ∃ vs : List ValueId, (p.op i).operands = vs.map some ∧ operands p i = vs.map p.typeOf := by
  obtain ⟨vs, hvs⟩ := exists_map_some fun s hs => Option.ne_none_iff_exists'.mp fun (hn : s = none) => h (hn ▸ hs)
  refine ⟨vs, hvs, ?_⟩
  rw [operands, hvs, filterMap_map]
  exact congrFun filterMap_eq_map vs

namespace Supplied
variable (hs : Supplied p i m)
include hs

theorem operand (h : m.operand (p.op i) k = some qs) :
    ∃ v, (p.op i).operands[k]? = some (some v) ∧ m.registers v = some qs ∧ Holds p m v qs ∧
      ∀ x ∈ qs, Given p i m x := by
  obtain ⟨v, hv, hq⟩ := operand_eq_some h
  have hmem := mem_of_getElem? hv
  exact ⟨v, hv, hq, hs.holds v qs hmem hq, fun x hx => .inr ⟨v, qs, hmem, hq, hx⟩⟩

end Supplied

theorem qubits_of_map {f : Nat → Event} (hf : ∀ k, (f k).qubits = [k]) :
    ∀ e ∈ qs.map f, ∀ k ∈ e.qubits, k ∈ qs := by
  intro e he k hk
  obtain ⟨x, hx, rfl⟩ := mem_map.mp he
  rw [hf, mem_singleton] at hk
  exact hk ▸ hx

theorem ordered_of_no_release (h : ∀ k, .release k ∉ es) :
    es.Pairwise fun e e' => ∀ k, e = .release k → k ∉ e'.qubits :=
  pairwise_of_forall_mem_list fun _ he _ _ k hk => absurd (hk ▸ he) (h k)

theorem Rebinds.of_bindAll {l : List (ValueId × List Nat)} (hs : Supplied p i m)
    (hreg : m'.registers = (m.bindAll l).registers) (hq : m.qubits ≤ m'.qubits)
    (ha : ∀ k, m.qubits ≤ k → k < m'.qubits → .alloc k ∈ es)
    (hb : ∀ v ∈ m'.bits, v ∈ m.bits ∨ (p.typeOf v).qubits = 0) (hkeys : (l.map Prod.fst).Nodup)
    (hsub : ∀ x ∈ l, x.1 ∈ (p.op i).results)
    (hall : ∀ r ∈ (p.op i).results, (p.typeOf r).qubits ≠ 0 → r ∈ l.map Prod.fst)
    (hh : ∀ x ∈ l, Holds p m' x.1 x.2 ∧ ∀ k ∈ x.2, Given p i m k)
    (hd : ∀ x ∈ l, ∀ y ∈ l, x.1 ≠ y.1 → x.2.Disjoint y.2)
    (he : ∀ e ∈ es, ∀ k ∈ e.qubits, k < m'.qubits ∧ Given p i m k)
    (hrel : ∀ k, .release k ∉ es) (hc : ∀ c t, .cnot c t ∈ es → c ≠ t) : Rebinds p i m es m' := by
  have bound : ∀ r ∈ (p.op i).results, ∀ qs, m'.registers r = some qs → (r, qs) ∈ l := by
    intro r hr qs h
    rw [hreg] at h
    by_cases hm : r ∈ l.map Prod.fst
    · obtain ⟨x, hx, rfl⟩ := mem_map.mp hm
      rw [bindAll_of_mem hkeys hx] at h
      cases h
      exact hx
    · rw [bindAll_of_not_mem hm, hs.unbound r hr] at h
      cases h
  refine ⟨hq, ha, hb, ?_, ?_, ?_, ?_, he, fun k hk => absurd hk (hrel k), ordered_of_no_release hrel, hc⟩
  · intro v hv
    rw [hreg, bindAll_of_not_mem]
    intro hm
    obtain ⟨x, hx, rfl⟩ := mem_map.mp hm
    exact hv (hsub x hx)
  · intro r hr h0
    obtain ⟨x, hx, rfl⟩ := mem_map.mp (hall r hr h0)
    rw [hreg, bindAll_of_mem hkeys hx]
    rfl
  · exact fun r hr qs h => hh _ (bound r hr qs h)
  · exact fun r hr r' hr' hne qs qs' h h' => hd _ (bound r hr qs h) _ (bound r' hr' qs' h') hne

theorem Rebinds.of_bind (hs : Supplied p i m) (hr : r ∈ (p.op i).results)
    (hreg : m'.registers = (m.bind r qs).registers) (hq : m.qubits ≤ m'.qubits)
    (ha : ∀ k, m.qubits ≤ k → k < m'.qubits → .alloc k ∈ es)
    (hb : ∀ v ∈ m'.bits, v ∈ m.bits ∨ (p.typeOf v).qubits = 0)
    (hall : ∀ u ∈ (p.op i).results, (p.typeOf u).qubits ≠ 0 → u = r) (hh : Holds p m' r qs)
    (hgiven : ∀ k ∈ qs, Given p i m k) (he : ∀ e ∈ es, ∀ k ∈ e.qubits, k ∈ qs)
    (hrel : ∀ k, .release k ∉ es)
    (hc : ∀ c t, .cnot c t ∉ es) : Rebinds p i m es m' :=
  .of_bindAll (l := [(r, qs)]) hs hreg hq ha hb (by simp) (by simpa) (by simpa)
    (forall_mem_singleton.mpr ⟨hh, hgiven⟩) (by simp)
    (fun e h k hk => ⟨hh.lt k (he e h k hk), hgiven k (he e h k hk)⟩) hrel fun c t h => absurd h (hc c t)

theorem results_of_types (h : p.resultTypes i = [t]) (hr : (p.op i).results[0]? = some r) :
    (p.op i).results = [r] ∧ p.typeOf r = t := by
  obtain ⟨x, hx, rfl⟩ := map_eq_singleton_iff.mp h
  rw [hx] at hr ⊢
  cases hr
  exact ⟨rfl, rfl⟩

theorem pair_of_types {t u : Ty} (h : p.resultTypes i = [t, u]) {r r' : ValueId}
    (hr : (p.op i).results[0]? = some r) (hr' : (p.op i).results[1]? = some r') :
    (p.op i).results = [r, r'] ∧ p.typeOf r = t ∧ p.typeOf r' = u := by
  obtain ⟨x, xs, hxs, rfl, hu⟩ := map_eq_cons_iff.mp h
  obtain ⟨y, rfl, rfl⟩ := map_eq_singleton_iff.mp hu
  rw [hxs] at hr hr' ⊢
  cases hr
  cases hr'
  exact ⟨rfl, rfl, rfl⟩

theorem cut_eq_some : ∀ {ns : List Int} {qs : List Nat} {pieces : List (List Nat)},
    cut qs ns = some pieces → pieces.map (fun l => (l.length : Int)) = ns ∧ pieces.flatten <+: qs
  | [], qs, pieces, h => by
    cases h
    exact ⟨rfl, List.nil_prefix⟩
  | n :: ns, qs, pieces, h => by
    rw [cut] at h
    split at h
    · rename_i hn
      simp only [Option.bind_eq_bind, Option.bind_eq_some_iff, Option.pure_def, Option.some.injEq] at h
      obtain ⟨rest, hrest, rfl⟩ := h
      obtain ⟨hsizes, hpre⟩ := cut_eq_some hrest
      constructor
      · rw [map_cons, hsizes, length_take]
        congr 1
        omega
      · rw [flatten_cons]
        calc qs.take n.toNat ++ rest.flatten
            <+: qs.take n.toNat ++ qs.drop n.toNat := (prefix_append_right_inj _).mpr hpre
          _ = qs := take_append_drop ..
    · cases h

theorem length_of_mem_zip {rs : List ValueId}
    (h : pieces.map (fun l => (l.length : Int)) = rs.map fun r => (p.typeOf r).qubits) {x : ValueId × List Nat}
    (hx : x ∈ rs.zip pieces) : (x.2.length : Int) = (p.typeOf x.1).qubits := by
  obtain ⟨k, hk, rfl⟩ := mem_iff_getElem.mp hx
  have hk' : k < rs.length ∧ k < pieces.length := by simpa [Nat.lt_min] using hk
  simpa [getElem?_eq_getElem hk'.1, getElem?_eq_getElem hk'.2] using congrArg (fun l => l[k]?) h

theorem mapM_slot_eq_some : ∀ {vs : List ValueId} {qss : List (List Nat)}, (vs.map some).mapM m.slot = some qss →
    (∀ v ∈ vs, m.registers v = some ((m.registers v).getD [])) ∧ qss = vs.map fun v => (m.registers v).getD []
  | [], qss, h => by
    cases h
    exact ⟨by simp, rfl⟩
  | v :: vs, qss, h => by
    simp only [map_cons, mapM_cons, slot, Option.bind_some, Option.bind_eq_bind,
      Option.bind_eq_some_iff, Option.pure_def, Option.some.injEq] at h
    obtain ⟨qs, hq, rest, hrest, rfl⟩ := h
    obtain ⟨hbound, rfl⟩ := mapM_slot_eq_some hrest
    refine ⟨?_, by simp [hq]⟩
    intro w hw
    rcases mem_cons.mp hw with rfl | hw
    · simp [hq]
    · exact hbound w hw

theorem totalQubits_eq {f : ValueId → List Nat} : ∀ {vs : List ValueId} {n : Int}, 0 ≤ n →
    (∀ v ∈ vs, ((f v).length : Int) = (p.typeOf v).qubits) → n + (vs.flatMap f).length < 9223372036854775808 →
    (vs.map p.typeOf).foldl (fun n t => Word.add n t.qubits) n = n + (vs.flatMap f).length
  | [], n, _, _, _ => by simp
  | v :: vs, n, hn, hv, hlt => by
    rw [flatMap_cons, length_append, Int.natCast_add] at hlt ⊢
    have hadd : Word.add n (p.typeOf v).qubits = n + (f v).length := by
      rw [← hv v (mem_cons_self ..), Word.add, Word.wrap_of_inRange]
      constructor <;> omega
    rw [map_cons, foldl_cons, hadd,
      totalQubits_eq (by omega) (fun w hw => hv w (mem_cons_of_mem _ hw)) (by omega)]
    omega

section
variable {c x : Nat} {qs : List Nat} {r r' : ValueId} (hs : Supplied p i m)
include hs

theorem rebinds_alloc (hn : (p.op i).name = allocName) (hr : (p.op i).results[0]? = some r)
    (hpos : 0 ≤ (p.typeOf r).qubits) (hqs : qs = List.range' m.qubits (p.typeOf r).qubits.toNat) :
    Rebinds p i m (qs.map .alloc) { m.bind r qs with qubits := m.qubits + qs.length } := by
  obtain ⟨_, t, ht, h0⟩ := alloc_checked hs.kind hn
  obtain ⟨hr, rfl⟩ := results_of_types ht hr
  have hlen : (qs.length : Int) = (p.typeOf r).qubits := by
    rw [hqs, length_range', Int.toNat_of_nonneg hpos]
  have hmem : ∀ k, k ∈ qs ↔ m.qubits ≤ k ∧ k < m.qubits + qs.length := by
    intro k
    rw [hqs, length_range', mem_range'_1]
  refine .of_bind hs (by simp [hr]) rfl (Nat.le_add_right _ _)
    (fun k h h' => mem_map_of_mem ((hmem k).mpr ⟨h, h'⟩)) (fun _ => .inl) (by simp [hr])
    ⟨hqs ▸ nodup_range', ?_, hlen, fun k hk => ((hmem k).mp hk).2⟩ (fun k hk => .inl ((hmem k).mp hk).1)
    (qubits_of_map fun _ => rfl) (by simp) (by simp)
  rintro rfl
  exact h0 hlen.symm

theorem rebinds_gate {g : String} (hg : g ∈ gates) (hn : (p.op i).name = gateName g)
    (hq : m.operand (p.op i) 0 = some qs) (hr : (p.op i).results[0]? = some r) :
    Rebinds p i m (qs.map (.gate g (p.op i).attrs)) (m.bind r qs) := by
  obtain ⟨t, hop, ht, h0⟩ := gate_checked hs.kind hg hn
  obtain ⟨v, hv, hreg, hh, hgiven⟩ := hs.operand hq
  obtain ⟨hr, rfl⟩ := results_of_types ht hr
  -- the operand has the type of the result
  have htype : p.typeOf v = p.typeOf r := by
    obtain ⟨vs, hvs, htypes⟩ := values_of_filled hs.filled
    rw [hvs, getElem?_map, Option.map_eq_some_iff] at hv
    obtain ⟨_, hv, ⟨⟩⟩ := hv
    rw [hop] at htypes
    obtain ⟨w, rfl, hw⟩ := map_eq_singleton_iff.mp htypes.symm
    simp only [getElem?_cons_zero, Option.some.injEq] at hv
    rw [← hv, hw]
  exact .of_bind hs (by simp [hr]) rfl (Nat.le_refl _) (fun _ h h' => absurd h' (Nat.not_lt.mpr h)) (fun _ => .inl)
    (by simp [hr]) ⟨hh.nodup, hh.ne_nil, htype ▸ hh.length, hh.lt⟩ hgiven (qubits_of_map fun _ => rfl)
      (by simp) (by simp)

theorem rebinds_dealloc (hn : (p.op i).name = deallocName) (hq : m.operand (p.op i) 0 = some qs) :
    Rebinds p i m (qs.map .release) m := by
  have hr : (p.op i).results = [] := map_eq_nil_iff.mp (dealloc_checked hs.kind hn).2
  obtain ⟨v, hv, hreg, hh, hgiven⟩ := hs.operand hq
  refine ⟨Nat.le_refl _, by omega, fun _ => .inl, fun _ _ => rfl, by simp [hr], by simp [hr], by
    simp [hr], ?_, fun _ _ => hr, ?_, by simp⟩
  · intro e he k hk
    have hk := qubits_of_map (fun _ => rfl) e he k hk
    exact ⟨hh.lt k hk, hgiven k hk⟩
  · rw [pairwise_map]
    refine hh.nodup.imp fun hne k hk => ?_
    cases hk
    simpa [Event.qubits] using hne

theorem rebinds_cnot (hn : (p.op i).name = cnotName) (hc : m.operand (p.op i) 0 = some [c])
    (hx : m.operand (p.op i) 1 = some [x]) (hr : (p.op i).results[0]? = some r) (hr' : (p.op i).results[1]? = some r') :
    Rebinds p i m [.cnot c x] ((m.bind r [c]).bind r' [x]) := by
  obtain ⟨-, t, t', ht, h1, h2⟩ := cnot_checked hs.kind hn
  obtain ⟨v, hv, hreg, hh, hgiven⟩ := hs.operand hc
  obtain ⟨w, hw, hreg', hh', hgiven'⟩ := hs.operand hx
  have hvw : v ≠ w := by
    rintro rfl
    exact absurd (hs.once 0 1 v hv hw (by simp [hreg])) (by decide)
  have hdis := hs.disjoint v w _ _ (mem_of_getElem? hv) (mem_of_getElem? hw) hvw hreg hreg'
  obtain ⟨hys, rfl, rfl⟩ := pair_of_types ht hr hr'
  refine .of_bindAll (l := [(r, [c]), (r', [x])]) hs rfl (Nat.le_refl _)
    (fun _ h h' => absurd h' (Nat.not_lt.mpr h)) (fun _ => .inl)
    (by simpa [hys] using hs.results) (by simp [hys])
    (by simp [hys]) ?_ ?_ ?_ (by simp) ?_
  · simp only [forall_mem_cons, not_mem_nil, false_imp_iff, implies_true, and_true]
    exact ⟨⟨⟨by simp, by simp, by simp [h1], hh.lt⟩, hgiven c (by simp)⟩,
      ⟨by simp, by simp, by simp [h2], hh'.lt⟩, hgiven' x (by simp)⟩
  · simp only [forall_mem_cons, not_mem_nil, false_imp_iff, implies_true, and_true]
    exact ⟨⟨fun h => absurd rfl h, fun _ => hdis⟩, fun _ _ h h' => hdis h' h, fun h => absurd rfl h⟩
  · intro e he k hk
    obtain rfl := mem_singleton.mp he
    simp only [Event.qubits, mem_cons, not_mem_nil, or_false] at hk
    rcases hk with rfl | rfl
    · exact ⟨hh.lt k (by simp), hgiven k (by simp)⟩
    · exact ⟨hh'.lt k (by simp), hgiven' k (by simp)⟩
  · intro a b hab hne
    simp only [mem_singleton, Event.cnot.injEq] at hab
    exact hdis (a := c) (by simp) (by simp [← hab.1, ← hab.2, hne])

theorem rebinds_measure (hn : (p.op i).name = measureName) (hq : m.operand (p.op i) 0 = some [x])
    (hr : (p.op i).results[0]? = some r) (hr' : (p.op i).results[1]? = some r') :
    Rebinds p i m [.measure x m.bits.length] { m.bind r' [x] with bits := m.bits ++ [r] } := by
  obtain ⟨-, t, ht, h1⟩ := measure_checked hs.kind hn
  obtain ⟨v, hv, hreg, hh, hgiven⟩ := hs.operand hq
  obtain ⟨hys, hbool, rfl⟩ := pair_of_types ht hr hr'
  refine .of_bind hs (by simp [hys]) rfl (Nat.le_refl _) (fun _ h h' => absurd h' (Nat.not_lt.mpr h)) (fun u hu => ?_)
    (fun u hu h0 => ?_) ⟨by simp, by simp, by simp [h1], hh.lt⟩ hgiven (by simp [Event.qubits]) (by simp) (by simp)
  · refine (mem_append.mp hu).imp_right fun hu => ?_
    rw [mem_singleton.mp hu, hbool]
    rfl
  · -- the bit is no register
    rw [hys] at hu
    rcases mem_cons.mp hu with rfl | hu
    · rw [hbool] at h0
      exact absurd rfl h0
    · exact mem_singleton.mp hu

theorem rebinds_split (hn : (p.op i).name = splitName) (hq : m.operand (p.op i) 0 = some qs)
    (hcut : cut qs ((p.op i).results.map fun r => (p.typeOf r).qubits) = some pieces) :
    Rebinds p i m [] (m.bindAll ((p.op i).results.zip pieces)) := by
  obtain ⟨-, h0, -⟩ := split_checked hs.kind hn
  obtain ⟨v, hv, hreg, hh, hgiven⟩ := hs.operand hq
  obtain ⟨hsizes, hpre⟩ := cut_eq_some hcut
  have hlen : (p.op i).results.length = pieces.length := by simpa using (congrArg List.length hsizes).symm
  have hfst : ((p.op i).results.zip pieces).map Prod.fst = (p.op i).results := map_fst_zip (Nat.le_of_eq hlen)
  obtain ⟨hnodup, hdis⟩ := nodup_flatten.mp (hh.nodup.sublist hpre.sublist)
  have hmem : ∀ x ∈ (p.op i).results.zip pieces, ∀ k ∈ x.2, k ∈ qs := fun x hx k hk =>
    hpre.sublist.subset (mem_flatten_of_mem (of_mem_zip hx).2 hk)
  refine .of_bindAll hs rfl (Nat.le_of_eq bindAll_qubits.1.symm)
    (by rw [bindAll_qubits.1]; omega) (by rw [bindAll_qubits.2]; exact fun _ => .inl)
      (by rw [hfst]; exact hs.results)
    (fun x hx => (of_mem_zip hx).1) (fun r hr _ => hfst.symm ▸ hr) ?_ ?_ (by simp) (by simp) (by simp)
  · intro x hx
    have hsize := length_of_mem_zip hsizes hx
    have hne := h0 _ (mem_map_of_mem (of_mem_zip hx).1)
    refine ⟨⟨hnodup _ (of_mem_zip hx).2, ?_, hsize, ?_⟩, fun k hk => hgiven k (hmem x hx k hk)⟩
    · intro hnil
      simp [hnil] at hsize
      omega
    · rw [bindAll_qubits.1]
      exact fun k hk => hh.lt k (hmem x hx k hk)
  · intro x hx y hy hxy
    have hpair : ((p.op i).results.zip pieces).Pairwise fun x y => x.2.Disjoint y.2 := by
      rw [← map_snd_zip (Nat.le_of_eq hlen.symm), pairwise_map] at hdis
      exact hdis
    have : Std.Symm fun x y : ValueId × List Nat => x.2.Disjoint y.2 := ⟨fun _ _ h _ ha hb => h hb ha⟩
    exact hpair.forall hx hy fun h => hxy (h ▸ rfl)

theorem rebinds_merge {qss : List (List Nat)} (hlt : m.qubits < 9223372036854775808)
    (hn : (p.op i).name = mergeName) (hq : (p.op i).operands.mapM m.slot = some qss)
    (hr : (p.op i).results[0]? = some r) : Rebinds p i m [] (m.bind r qss.flatten) := by
  obtain ⟨-, hne, u, hu, htotal⟩ := merge_checked hs.kind hn
  obtain ⟨hr, rfl⟩ := results_of_types hu hr
  obtain ⟨vs, hvs, htypes⟩ := values_of_filled hs.filled
  rw [hvs] at hq
  obtain ⟨hbound, rfl⟩ := mapM_slot_eq_some hq
  set f := fun v => (m.registers v).getD [] with hf
  have hmem : ∀ v ∈ vs, some v ∈ (p.op i).operands := fun v hv => hvs ▸ mem_map_of_mem hv
  have hholds : ∀ v ∈ vs, Holds p m v (f v) := fun v hv => hs.holds v _ (hmem v hv) (hbound v hv)
  have hnodup : (vs.flatMap f).Nodup := by
    refine nodup_flatMap.mpr ⟨fun v hv => (hholds v hv).nodup, pairwise_iff_getElem.mpr ?_⟩
    intro k l hk hl hkl
    have hvk := getElem_mem hk
    have hvl := getElem_mem hl
    refine hs.disjoint _ _ _ _ (hmem _ hvk) (hmem _ hvl) (fun heq => ?_) (hbound _ hvk) (hbound _ hvl)
    have := hs.once k l vs[k] (by simp [hvs, hk]) (by simp [hvs, hl, heq]) (by rw [hbound _ hvk]; rfl)
    omega
  have hlt' : ∀ k ∈ vs.flatMap f, k < m.qubits := by
    intro k hk
    obtain ⟨v, hv, hk⟩ := mem_flatMap.mp hk
    exact (hholds v hv).lt k hk
  have hcard : (vs.flatMap f).length ≤ m.qubits := by
    have := (subperm_of_subset hnodup fun k hk => mem_range.mpr (hlt' k hk)).length_le
    rwa [length_range] at this
  have hsize : ((vs.flatMap f).length : Int) = (p.typeOf r).qubits := by
    rw [← htotal, htypes, totalQubits,
      totalQubits_eq (Int.le_refl 0) (fun v hv => (hholds v hv).length) (by omega), Int.zero_add]
  rw [← flatMap_def]
  refine .of_bind hs (by simp [hr]) rfl (Nat.le_refl _) (fun _ h h' => absurd h' (Nat.not_lt.mpr h)) (fun _ => .inl)
    (by simp [hr]) ⟨hnodup, ?_, hsize, hlt'⟩ ?_ (by simp) (by simp) (by simp)
  · intro hnil
    cases vs with
    | nil => simp [htypes] at hne
    | cons v vs =>
      rw [flatMap_cons, append_eq_nil_iff] at hnil
      exact (hholds v (mem_cons_self ..)).ne_nil hnil.1
  · intro k hk
    obtain ⟨v, hv, hk⟩ := mem_flatMap.mp hk
    exact .inr ⟨v, _, hmem v hv, hbound v hv, hk⟩

theorem Runs.rebinds (h : Runs p i m es m') (hlt : m.qubits < 9223372036854775808) : Rebinds p i m es m' := by
  cases h with
  | alloc hn hr hpos => exact rebinds_alloc hs hn hr hpos rfl
  | dealloc hn hq => exact rebinds_dealloc hs hn hq
  | split hn hq hcut => exact rebinds_split hs hn hq hcut
  | merge hn hq hr => exact rebinds_merge hs hlt hn hq hr
  | cnot hn hc hx hr hr' => exact rebinds_cnot hs hn hc hx hr hr'
  | measure hn hq hb hr => exact rebinds_measure hs hn hq hb hr
  | gate hg hn hq hr => exact rebinds_gate hs hg hn hq hr

end

end

end Offload.Qubits
