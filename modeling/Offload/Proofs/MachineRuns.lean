import Offload.Proofs.Circuits

/-!
# How operations on registers run

One rule for each kind of operation says what the machine does with it. Everything else about runs follows from
these rules.
-/

namespace Offload.Qubits

open Register List Machine

variable {qs rs : List Nat} {v w : ValueId}

inductive Runs (p : Program) (i : OpId) (m : Machine) : List Event → Machine → Prop
  | alloc {r : ValueId} : (p.op i).name = allocName → (p.op i).results[0]? = some r →
      0 ≤ (p.typeOf r).qubits →
      Runs p i m ((List.range' m.qubits (p.typeOf r).qubits.toNat).map .alloc)
        { m.bind r (List.range' m.qubits (p.typeOf r).qubits.toNat) with
          qubits := m.qubits + (List.range' m.qubits (p.typeOf r).qubits.toNat).length }
  | dealloc {qs : List Nat} : (p.op i).name = deallocName → m.operand (p.op i) 0 = some qs →
      Runs p i m (qs.map .release) m
  | split {qs : List Nat} {pieces : List (List Nat)} : (p.op i).name = splitName →
      m.operand (p.op i) 0 = some qs →
      cut qs ((p.op i).results.map fun r => (p.typeOf r).qubits) = some pieces →
      Runs p i m [] (m.bindAll ((p.op i).results.zip pieces))
  | merge {qss : List (List Nat)} {r : ValueId} : (p.op i).name = mergeName →
      (p.op i).operands.mapM m.slot = some qss → (p.op i).results[0]? = some r →
        Runs p i m [] (m.bind r qss.flatten)
  | cnot {c t : Nat} {r r' : ValueId} : (p.op i).name = cnotName → m.operand (p.op i) 0 = some [c] →
      m.operand (p.op i) 1 = some [t] → (p.op i).results[0]? = some r → (p.op i).results[1]? = some r' →
      Runs p i m [.cnot c t] ((m.bind r [c]).bind r' [t])
  | measure {q : Nat} {bit r : ValueId} : (p.op i).name = measureName → m.operand (p.op i) 0 = some [q] →
      (p.op i).results[0]? = some bit → (p.op i).results[1]? = some r →
      Runs p i m [.measure q m.bits.length] { m.bind r [q] with bits := m.bits ++ [bit] }
  | gate {g : String} {qs : List Nat} {r : ValueId} : g ∈ gates → (p.op i).name = gateName g →
      m.operand (p.op i) 0 = some qs → (p.op i).results[0]? = some r →
      Runs p i m (qs.map (.gate g (p.op i).attrs)) (m.bind r qs)

variable {p : Program} {i : OpId} {m m' : Machine} {es : List Event}

theorem gate_names : ∀ g ∈ gates, gate? (gateName g) = some g ∧
    gateName g ≠ allocName ∧ gateName g ≠ deallocName ∧
    gateName g ≠ splitName ∧ gateName g ≠ mergeName ∧
    gateName g ≠ cnotName ∧ gateName g ≠ measureName := by
  decide

theorem gate?_eq_some {name g : String} :
    gate? name = some g ↔ g ∈ gates ∧ name = gateName g := by
  constructor
  · intro h
    have hname : gateName g = name := by simpa using find?_some h
    exact ⟨mem_of_find?_eq_some h, hname.symm⟩
  · rintro ⟨hg, rfl⟩
    exact (gate_names g hg).1

theorem exec_iff : m.exec p i = some (es, m') ↔ Runs p i m es m' := by
  constructor
  · intro h
    simp only [exec, Option.bind_eq_bind, Option.pure_def] at h
    by_cases h1 : (p.op i).name = allocName
    · simp only [h1, if_true, Option.bind_eq_some_iff] at h
      obtain ⟨r, hr, h⟩ := h
      split at h
      · cases h
        exact .alloc h1 hr ‹_›
      · cases h
    simp only [h1, if_false] at h
    by_cases h2 : (p.op i).name = deallocName
    · simp only [h2, if_true, Option.bind_eq_some_iff, Option.some.injEq, Prod.mk.injEq] at h
      obtain ⟨qs, hq, rfl, rfl⟩ := h
      exact .dealloc h2 hq
    simp only [h2, if_false] at h
    by_cases h3 : (p.op i).name = splitName
    · simp only [h3, if_true, Option.bind_eq_some_iff, Option.some.injEq, Prod.mk.injEq] at h
      obtain ⟨qs, hq, pieces, hc, rfl, rfl⟩ := h
      exact .split h3 hq hc
    simp only [h3, if_false] at h
    by_cases h4 : (p.op i).name = mergeName
    · simp only [h4, if_true, Option.bind_eq_some_iff, Option.some.injEq, Prod.mk.injEq] at h
      obtain ⟨qss, hq, r, hr, rfl, rfl⟩ := h
      exact .merge h4 hq hr
    simp only [h4, if_false] at h
    by_cases h5 : (p.op i).name = cnotName
    · simp only [h5, if_true] at h
      split at h
      · rename_i hc ht
        simp only [Option.bind_eq_some_iff, Option.some.injEq, Prod.mk.injEq] at h
        obtain ⟨r, hr, r', hr', rfl, rfl⟩ := h
        exact .cnot h5 hc ht hr hr'
      · cases h
    simp only [h5, if_false] at h
    by_cases h6 : (p.op i).name = measureName
    · simp only [h6, if_true] at h
      split at h
      · rename_i hq
        simp only [Option.bind_eq_some_iff, Option.some.injEq, Prod.mk.injEq] at h
        obtain ⟨bit, hb, r, hr, rfl, rfl⟩ := h
        exact .measure h6 hq hb hr
      · cases h
    simp only [h6, if_false, Option.bind_eq_some_iff, Option.some.injEq, Prod.mk.injEq] at h
    obtain ⟨g, hg, qs, hq, r, hr, rfl, rfl⟩ := h
    obtain ⟨hg, hn⟩ := gate?_eq_some.mp hg
    exact .gate hg hn hq hr
  · intro h
    cases h with
    | alloc hn hr hpos => simp [exec, hn, hr, hpos]
    | dealloc hn hq => simp [exec, hn, hq, deallocName, allocName]
    | split hn hq hc => simp [exec, hn, hq, hc, splitName, deallocName, allocName]
    | merge hn hq hr =>
      simp [exec, hn, hq, hr, mergeName, splitName, deallocName, allocName]
    | cnot hn hc ht hr hr' =>
      simp [exec, hn, hc, ht, hr, hr', cnotName, mergeName, splitName,
        deallocName, allocName]
    | measure hn hq hb hr =>
      simp [exec, hn, hq, hb, hr, measureName, cnotName, mergeName,
        splitName, deallocName, allocName]
    | gate hg hn hq hr => simp [exec, hn, gate_names _ hg, hq, hr]

namespace Machine

theorem isSome_bind :
    ((m.bind v qs).registers w).isSome ↔ (m.registers w).isSome ∨ w = v := by
  by_cases hw : w = v <;> simp [bind, hw]

theorem isSome_bindAll : ∀ {l : List (ValueId × List Nat)} {m : Machine},
    ((m.bindAll l).registers w).isSome ↔ (m.registers w).isSome ∨ w ∈ l.map Prod.fst
  | [], _ => by simp [bindAll]
  | (v, qs) :: l, m => by rw [bindAll, isSome_bindAll, isSome_bind, map_cons, mem_cons, or_assoc]

theorem bind_eq_some (h : (m.bind v qs).registers w = some rs) :
    m.registers w = some rs ∨ w = v ∧ rs = qs := by
  by_cases hw : w = v
  · simp only [bind, hw, if_true, Option.some.injEq] at h
    exact .inr ⟨hw, h.symm⟩
  · simp only [bind, hw, if_false] at h
    exact .inl h

theorem bindAll_eq_some : ∀ {l : List (ValueId × List Nat)} {m : Machine},
    (m.bindAll l).registers w = some rs → m.registers w = some rs ∨ (w, rs) ∈ l
  | [], _, h => .inl h
  | (v, qs) :: l, m, h => by
    rcases bindAll_eq_some (l := l) h with h | h
    · exact (bind_eq_some h).imp_right fun ⟨hw, hr⟩ => by simp [hw, hr]
    · exact .inr (mem_cons_of_mem _ h)

theorem bindAll_of_not_mem : ∀ {l : List (ValueId × List Nat)} {m : Machine},
    w ∉ l.map Prod.fst → (m.bindAll l).registers w = m.registers w
  | [], _, _ => rfl
  | (v, qs) :: l, m, h => by
    rw [map_cons, mem_cons, not_or] at h
    rw [bindAll, bindAll_of_not_mem h.2]
    exact if_neg h.1

theorem bindAll_of_mem : ∀ {l : List (ValueId × List Nat)} {m : Machine},
    (l.map Prod.fst).Nodup → (w, rs) ∈ l → (m.bindAll l).registers w = some rs
  | (v, qs) :: l, m, hn, h => by
    rw [map_cons, nodup_cons] at hn
    rw [bindAll]
    rcases mem_cons.mp h with h | h
    · cases h
      rw [bindAll_of_not_mem hn.1]
      exact if_pos rfl
    · exact bindAll_of_mem hn.2 h

theorem bindAll_qubits : ∀ {l : List (ValueId × List Nat)} {m : Machine},
    (m.bindAll l).qubits = m.qubits ∧ (m.bindAll l).bits = m.bits
  | [], _ => ⟨rfl, rfl⟩
  | (_, _) :: l, _ => bindAll_qubits (l := l)

theorem step_cases (h : step p i m = some (es, m')) :
    isQuantum (p.op i) = true ∧ Runs p i m es m' ∨ isQuantum (p.op i) = false ∧ es = [] ∧ m' = m := by
  rw [step] at h
  split at h <;> rename_i hq
  · exact .inl ⟨hq, exec_iff.mp h⟩
  · cases h
    exact .inr ⟨Bool.eq_false_iff.mpr hq, rfl, rfl⟩

theorem run_cons {rest : List OpId} {trace} (h : run p (i :: rest) m = some (trace, m')) :
    ∃ es m1 t, step p i m = some (es, m1) ∧ run p rest m1 = some (t, m') ∧ trace = (i, es) :: t := by
  simp only [run, Option.pure_def, Option.bind_eq_bind, Option.bind_eq_some_iff, Option.some.injEq,
    Prod.mk.injEq, Prod.exists] at h
  obtain ⟨es, m1, hs, t, m2, hr, rfl, rfl⟩ := h
  exact ⟨es, m1, t, hs, hr, rfl⟩

theorem run_append : ∀ {l r : List OpId} {m : Machine} {t t'}, run p l m = some (t, m') →
    run p r m' = some t' → run p (l ++ r) m = some (t ++ t'.1, t'.2)
  | [], r, m, t, t', h, h' => by
    cases h
    exact h'
  | i :: l, r, m, t, t', h, h' => by
    obtain ⟨es, m1, u, hs, hu, rfl⟩ := run_cons h
    simp only [cons_append, run, hs, run_append hu h', Option.pure_def, Option.bind_eq_bind, Option.bind_some]

theorem run_snoc {l : List OpId} {m'' : Machine} {t}
    (h : run p l m = some (t, m')) (h' : step p i m' = some (es, m'')) :
    run p (l ++ [i]) m = some (t ++ [(i, es)], m'') :=
  run_append h (show run p [i] m' = some ([(i, es)], m'') by simp [run, h'])

theorem fst_run : ∀ {l : List OpId} {m : Machine} {t}, run p l m = some (t, m') → t.map Prod.fst = l
  | [], m, t, h => by
    cases h
    rfl
  | i :: l, m, t, h => by
    obtain ⟨es, m1, u, -, hu, rfl⟩ := run_cons h
    rw [map_cons, fst_run hu]

theorem run_split : ∀ {l r : List OpId} {m : Machine} {t}, run p (l ++ r) m = some (t, m') →
    ∃ t1 m1 t2, run p l m = some (t1, m1) ∧ run p r m1 = some (t2, m') ∧ t = t1 ++ t2
  | [], r, m, t, h => ⟨[], m, t, rfl, h, rfl⟩
  | i :: l, r, m, t, h => by
    obtain ⟨es, m1, t, hs, hr, rfl⟩ := run_cons h
    obtain ⟨t1, m2, t2, h1, h2, rfl⟩ := run_split hr
    refine ⟨(i, es) :: t1, m2, t2, ?_, h2, rfl⟩
    simp [run, hs, h1]

end Machine

end Offload.Qubits
