import Offload.Proofs.Dominance
import Offload.Proofs.LinearRuns

/-!
# Where qubits come from

Going back from a register through the operations that
its qubits went through, one comes to the allocation of each of them, and whatever sees the register sees the
register of the allocation as well.
-/

namespace Offload.Qubits

open Program Register List Machine

variable {k : Nat} {qs : List Nat} {v : ValueId}
variable {p : Program} {i root : OpId} {m m' : Machine} {es : List Event}

def Reaches (p : Program) (i : OpId) (m : Machine) (k : Nat) : Prop :=
  ∃ v qs, some v ∈ (p.op i).operands ∧ m.registers v = some qs ∧ k ∈ qs

theorem reaches_operand {n : Nat} (h : m.operand (p.op i) n = some qs) (hk : k ∈ qs) :
    Reaches p i m k := by
  obtain ⟨v, hv, hq⟩ := operand_eq_some h
  exact ⟨v, qs, mem_of_getElem? hv, hq, hk⟩

theorem reaches_mapM : ∀ {ss : List Slot} {qss : List (List Nat)}, ss.mapM m.slot = some qss →
    ∀ k ∈ qss.flatten, ∃ v qs, some v ∈ ss ∧ m.registers v = some qs ∧ k ∈ qs
  | [], qss, h, k, hk => by
    cases h
    cases hk
  | s :: ss, qss, h, k, hk => by
    simp only [mapM_cons, Option.bind_eq_bind, Option.bind_eq_some_iff, Option.pure_def,
      Option.some.injEq] at h
    obtain ⟨qs, hs, rest, hrest, rfl⟩ := h
    rw [flatten_cons, mem_append] at hk
    rcases hk with hk | hk
    · obtain ⟨v, rfl, hv⟩ := Option.bind_eq_some_iff.mp hs
      exact ⟨v, qs, mem_cons_self .., hv, hk⟩
    · obtain ⟨v, qs, hv, hq, hk⟩ := reaches_mapM hrest k hk
      exact ⟨v, qs, mem_cons_of_mem _ hv, hq, hk⟩

namespace Runs

theorem registers (h : Runs p i m es m') (hv : m'.registers v = some qs) :
    m.registers v = some qs ∨
      v ∈ (p.op i).results ∧ ∀ k ∈ qs, .alloc k ∈ es ∨ Reaches p i m k := by
  cases h with
  | alloc _ hr _ =>
    rcases bind_eq_some (m := m) hv with hv | ⟨rfl, rfl⟩
    · exact .inl hv
    · exact .inr ⟨mem_of_getElem? hr, fun k hk => .inl (mem_map_of_mem hk)⟩
  | dealloc => exact .inl hv
  | split _ hq hc =>
    rcases bindAll_eq_some hv with hv | hv
    · exact .inl hv
    · obtain ⟨hr, hp⟩ := of_mem_zip hv
      refine .inr ⟨hr, fun k hk => .inr (reaches_operand hq ?_)⟩
      exact (cut_eq_some hc).2.subset (mem_flatten.mpr ⟨qs, hp, hk⟩)
  | merge _ hq hr =>
    rcases bind_eq_some hv with hv | ⟨rfl, rfl⟩
    · exact .inl hv
    · exact .inr ⟨mem_of_getElem? hr, fun k hk => .inr (reaches_mapM hq k hk)⟩
  | cnot _ hc ht hr hr' =>
    rcases bind_eq_some hv with hv | ⟨rfl, rfl⟩
    · rcases bind_eq_some hv with hv | ⟨rfl, rfl⟩
      · exact .inl hv
      · exact .inr ⟨mem_of_getElem? hr, fun k hk => .inr (reaches_operand hc hk)⟩
    · exact .inr ⟨mem_of_getElem? hr', fun k hk => .inr (reaches_operand ht hk)⟩
  | measure _ hq _ hr =>
    rcases bind_eq_some (m := m) hv with hv | ⟨rfl, rfl⟩
    · exact .inl hv
    · exact .inr ⟨mem_of_getElem? hr, fun k hk => .inr (reaches_operand hq hk)⟩
  | gate _ _ hq hr =>
    rcases bind_eq_some hv with hv | ⟨rfl, rfl⟩
    · exact .inl hv
    · exact .inr ⟨mem_of_getElem? hr, fun k hk => .inr (reaches_operand hq hk)⟩

theorem events (h : Runs p i m es m') {e : Event} (he : e ∈ es) (hk : k ∈ e.qubits) :
    e = .alloc k ∨ Reaches p i m k := by
  cases h with
  | alloc =>
    obtain ⟨x, _, rfl⟩ := mem_map.mp he
    obtain rfl := mem_singleton.mp hk
    exact .inl rfl
  | dealloc _ hq =>
    exact .inr (reaches_operand hq (qubits_of_map (fun _ => rfl) e he k hk))
  | split => cases he
  | merge => cases he
  | cnot _ hc ht =>
    obtain rfl := mem_singleton.mp he
    simp only [Event.qubits, mem_cons, not_mem_nil, or_false] at hk
    rcases hk with rfl | rfl
    · exact .inr (reaches_operand hc (by simp))
    · exact .inr (reaches_operand ht (by simp))
  | measure _ hq =>
    obtain rfl := mem_singleton.mp he
    exact .inr (reaches_operand hq hk)
  | gate _ _ hq =>
    exact .inr (reaches_operand hq (qubits_of_map (fun _ => rfl) e he k hk))

theorem gate_mem (h : Runs p i m es m') {g : String} {attrs : List (String × Attr)}
    (he : .gate g attrs k ∈ es) : g ∈ gates := by
  cases h with
  | gate hg =>
    obtain ⟨x, _, hx⟩ := mem_map.mp he
    cases hx
    exact hg
  | _ => simp at he

theorem bits (h : Runs p i m es m') :
    (m'.bits = m.bits ∧ ∀ q n, .measure q n ∉ es) ∨
      ∃ q bit, (p.op i).name = measureName ∧ (p.op i).results[0]? = some bit ∧
        m'.bits = m.bits ++ [bit] ∧ es = [.measure q m.bits.length] := by
  cases h with
  | measure hn _ hb _ => exact .inr ⟨_, _, hn, hb, rfl, rfl⟩
  | split => exact .inl ⟨bindAll_qubits.2, by simp⟩
  | _ => exact .inl ⟨rfl, by simp⟩

theorem reads (hf : none ∉ (p.op i).operands) (hk : p.checkKind catalogue i = .ok ()) (h : Runs p i m es m')
    (hv : some v ∈ (p.op i).operands) : (m.registers v).isSome := by
  obtain ⟨vs, hvs, hts⟩ := values_of_filled hf
  have single : ∀ {t : Ty} {qs : List Nat}, operands p i = [t] → m.operand (p.op i) 0 = some qs →
      (m.registers v).isSome := by
    intro t qs ht hq
    obtain ⟨w, hw, hreg⟩ := operand_eq_some hq
    obtain ⟨x, rfl, _⟩ := map_eq_singleton_iff.mp (hts.symm.trans ht)
    rw [hvs] at hv hw
    simp only [map_cons, map_nil, mem_singleton, Option.some.injEq, getElem?_cons_zero] at hv hw
    rw [hv, hw, hreg]
    rfl
  cases h with
  | alloc hn =>
    have := (alloc_checked hk hn).1
    rw [hts, map_eq_nil_iff] at this
    rw [hvs, this] at hv
    cases hv
  | dealloc hn hq =>
    obtain ⟨⟨t, ht, _⟩, -⟩ := dealloc_checked hk hn
    exact single ht hq
  | split hn hq =>
    obtain ⟨⟨t, ht, _⟩, _⟩ := split_checked hk hn
    exact single ht hq
  | merge hn hq =>
    rw [hvs] at hq hv
    obtain ⟨x, hx, hxv⟩ := mem_map.mp hv
    rw [← Option.some.inj hxv, (mapM_slot_eq_some hq).1 x hx]
    rfl
  | cnot hn hc ht =>
    obtain ⟨⟨c, t, hct, _⟩, -⟩ := cnot_checked hk hn
    obtain ⟨w, hw, hreg⟩ := operand_eq_some hc
    obtain ⟨w', hw', hreg'⟩ := operand_eq_some ht
    rw [hts] at hct
    obtain ⟨x, vs, rfl, -, hvs'⟩ := map_eq_cons_iff.mp hct
    obtain ⟨y, rfl, -⟩ := map_eq_singleton_iff.mp hvs'
    rw [hvs] at hv hw hw'
    simp only [map_cons, map_nil, mem_cons, Option.some.injEq, not_mem_nil, or_false,
      getElem?_cons_zero, getElem?_cons_succ] at hv hw hw'
    rcases hv with rfl | rfl
    · rw [hw, hreg]
      rfl
    · rw [hw', hreg']
      rfl
  | measure hn hq =>
    obtain ⟨⟨t, ht, _⟩, -⟩ := measure_checked hk hn
    exact single ht hq
  | gate hg hn hq =>
    obtain ⟨t, ht, _⟩ := gate_checked hk hg hn
    exact single ht hq

end Runs

/-! ## Runs of the machine -/

/-- Where everything comes from that a machine knows. -/
structure Sourced (p : Program) (root : OpId) (trace : List (OpId × List Event)) (m : Machine) : Prop where
  bound : ∀ v, (m.registers v).isSome → ∃ x ∈ trace, isQuantum (p.op x.1) = true ∧ v ∈ (p.op x.1).results
  stems : ∀ v qs, m.registers v = some qs → ∀ k ∈ qs, ∃ x ∈ trace, .alloc k ∈ x.2 ∧
    ∃ r ∈ (p.op x.1).results, ∀ i, Visible catalogue p root v i → Visible catalogue p root r i
  events : ∀ x ∈ trace, ∀ e ∈ x.2, ∀ k ∈ e.qubits, e = .alloc k ∨
    ∃ y ∈ trace, .alloc k ∈ y.2 ∧ ∃ r ∈ (p.op y.1).results, Visible catalogue p root r x.1
  gates : ∀ x ∈ trace, ∀ g attrs k, .gate g attrs k ∈ x.2 → g ∈ Register.gates
  bits : ∀ n b, m.bits[n]? = some b → ∃ x ∈ trace, (p.op x.1).name = Register.measureName ∧
    (p.op x.1).results[0]? = some b ∧ ∃ q, x.2 = [.measure q n]
  measures : ∀ x ∈ trace, ∀ q n, .measure q n ∈ x.2 → x.2 = [.measure q n]

namespace Sourced

variable {trace : List (OpId × List Event)}

theorem start (p : Program) (root : OpId) : Sourced p root [] {} := by
  constructor <;> simp

theorem pass (h : Sourced p root trace m) : Sourced p root (trace ++ [(i, [])]) m := by
  have old : ∀ {P : OpId × List Event → Prop}, (∃ x ∈ trace, P x) → ∃ x ∈ trace ++ [(i, [])], P x :=
    fun ⟨x, hx, hP⟩ => ⟨x, mem_append_left _ hx, hP⟩
  have back : ∀ {x : OpId × List Event} {e : Event}, x ∈ trace ++ [(i, [])] → e ∈ x.2 → x ∈ trace := by
    intro x e hx he
    rcases mem_append.mp hx with hx | hx
    · exact hx
    · rw [mem_singleton.mp hx] at he
      cases he
  exact ⟨fun v hv => old (h.bound v hv), fun v qs hv k hk => old (h.stems v qs hv k hk),
    fun x hx e he k hk => (h.events x (back hx he) e he k hk).imp_right old,
    fun x hx g attrs k he => h.gates x (back hx he) g attrs k he, fun n b hb => old (h.bits n b hb),
    fun x hx q n he => h.measures x (back hx he) q n he⟩

theorem exec (wf : p.WellFormed) (h : Sourced p root trace m) (hi : p.Within root i) (hne : i ≠ root)
    (hq : isQuantum (p.op i) = true) (hv : ∀ v, some v ∈ (p.op i).operands → Visible catalogue p root v i)
    (hr : Runs p i m es m') : Sourced p root (trace ++ [(i, es)]) m' := by
  have old : ∀ {P : OpId × List Event → Prop}, (∃ x ∈ trace, P x) → ∃ x ∈ trace ++ [(i, es)], P x :=
    fun ⟨x, hx, hP⟩ => ⟨x, mem_append_left _ hx, hP⟩
  have reach : ∀ {k}, Reaches p i m k → ∃ x ∈ trace, .alloc k ∈ x.2 ∧ ∃ r ∈ (p.op x.1).results,
      Visible catalogue p root r i := by
    rintro k ⟨v, qs, hvi, hreg, hk⟩
    obtain ⟨x, hx, hal, r, hr, hvis⟩ := h.stems v qs hreg k hk
    exact ⟨x, hx, hal, r, hr, hvis i (hv v hvi)⟩
  refine ⟨?_, ?_, ?_, ?_, ?_, ?_⟩
  · intro v hv'
    obtain ⟨qs, hqs⟩ := Option.isSome_iff_exists.mp hv'
    rcases hr.registers hqs with hold | ⟨hres, _⟩
    · exact old (h.bound v (by rw [hold]; rfl))
    · exact ⟨(i, es), by simp, hq, hres⟩
  · intro v qs hqs k hk
    rcases hr.registers hqs with hold | ⟨hres, hfrom⟩
    · exact old (h.stems v qs hold k hk)
    · rcases hfrom k hk with hal | hre
      · exact ⟨(i, es), by simp, hal, v, hres, fun _ => id⟩
      · obtain ⟨x, hx, hal, r, hr', hvis⟩ := reach hre
        exact ⟨x, mem_append_left _ hx, hal, r, hr', fun j hj => wf.visible_through hi hne hvis hres hj⟩
  · intro x hx e he k hk
    rcases mem_append.mp hx with hx | hx
    · exact (h.events x hx e he k hk).imp_right old
    · obtain rfl := mem_singleton.mp hx
      exact (hr.events he hk).imp_right fun hre => old (reach hre)
  · intro x hx g attrs k he
    rcases mem_append.mp hx with hx | hx
    · exact h.gates x hx g attrs k he
    · obtain rfl := mem_singleton.mp hx
      exact hr.gate_mem he
  · intro n b hb
    rcases hr.bits with ⟨hbits, _⟩ | ⟨q, bit, hn, hres, hbits, rfl⟩
    · exact old (h.bits n b (hbits ▸ hb))
    · rw [hbits, getElem?_append] at hb
      split at hb
      · exact old (h.bits n b hb)
      · rw [getElem?_singleton] at hb
        split at hb
        · cases hb
          obtain rfl : n = m.bits.length := by omega
          exact ⟨(i, [.measure q m.bits.length]), by simp, hn, hres, q, rfl⟩
        · cases hb
  · intro x hx q n he
    rcases mem_append.mp hx with hx | hx
    · exact h.measures x hx q n he
    · obtain rfl := mem_singleton.mp hx
      rcases hr.bits with ⟨_, hno⟩ | ⟨q', bit, _, _, _, rfl⟩
      · exact absurd he (hno q n)
      · rw [mem_singleton] at he
        rw [he]

theorem run (wf : p.WellFormed) : ∀ {l : List OpId} {m m' : Machine} {trace t}, Sourced p root trace m →
    (∀ i ∈ l, p.Within root i ∧ i ≠ root ∧ ∀ v, some v ∈ (p.op i).operands →
      Visible catalogue p root v i) →
    run p l m = some (t, m') → Sourced p root (trace ++ t) m'
  | [], m, m', trace, t, h, _, hr => by
    cases hr
    rwa [append_nil]
  | i :: l, m, m', trace, t, h, hl, hr => by
    obtain ⟨es, m1, t, hs, hrest, rfl⟩ := run_cons hr
    obtain ⟨hi, hne, hv⟩ := hl i (mem_cons_self ..)
    have h1 : Sourced p root (trace ++ [(i, es)]) m1 := by
      obtain ⟨hq, hrun⟩ | ⟨-, rfl, rfl⟩ := step_cases hs
      · exact h.exec wf hi hne hq hv hrun
      · exact h.pass
    rw [append_cons]
    exact h1.run wf (fun j hj => hl j (mem_cons_of_mem _ hj)) hrest

end Sourced

end Offload.Qubits
