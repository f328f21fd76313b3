import Offload.Dialect.Catalogue
import Offload.IR.Verify
import Offload.Proofs.WellFormed

/-!
# What the verifier accepts

A program is accepted if every operation is: its operands are there and visible, it is last if it is a
terminator, and the check of its kind passes.
-/

namespace Offload

open List

variable {info : OpInfo} {α ε : Type}

namespace Program

variable {r : Registry} {p : Program} {root i : OpId}

theorem forM_except_ok {f : α → Except ε Unit} : ∀ {l : List α},
    l.forM f = .ok () ↔ ∀ a ∈ l, f a = .ok ()
  | [] => by simp [forM_eq_forM, pure, Except.pure]
  | a :: l => by
    rw [forM_eq_forM, forM_cons, forall_mem_cons, ← forM_except_ok, forM_eq_forM]
    cases f a <;> simp [bind, Except.bind]

theorem verify_ok : p.verify r root = .ok () ↔ ∀ i ∈ p.nested root, p.verifyOp r root i = .ok () :=
  forM_except_ok

theorem checkOperands_ok : ∀ {ss : List Slot} {k : Nat},
    p.checkOperands r root i k ss = .ok () ↔ ∀ s ∈ ss, ∃ v, s = some v ∧ p.visible r root i v = .ok ()
  | [], k => by simp [checkOperands]
  | none :: ss, k => by simp [checkOperands]
  | some v :: ss, k => by
    rw [checkOperands, forall_mem_cons]
    cases hv : p.visible r root i v with
    | error e => simp [hv]
    | ok u => simp [hv, checkOperands_ok]

theorem exists_map_some : ∀ {ss : List (Option α)}, (∀ s ∈ ss, ∃ a, s = some a) →
    ∃ as : List α, ss = as.map some
  | [], _ => ⟨[], rfl⟩
  | s :: ss, h => by
    rw [forall_mem_cons] at h
    obtain ⟨⟨a, rfl⟩, h⟩ := h
    obtain ⟨as, rfl⟩ := exists_map_some h
    exact ⟨a :: as, rfl⟩

def checkKind (r : Registry) (p : Program) (i : OpId) : Except Flaw Unit :=
  (r.info? (p.op i).name).elim (.ok ()) fun info => info.check p i

theorem verifyOp_ok : p.verifyOp r root i = .ok () ↔
    (∀ s ∈ (p.op i).operands, ∃ v, s = some v ∧ p.visible r root i v = .ok ()) ∧
      (r.isTerminator (p.op i) = true → p.isLast i = true) ∧ checkKind r p i = .ok () := by
  rw [verifyOp, ← checkOperands_ok (k := 0)]
  cases hc : p.checkOperands r root i 0 (p.op i).operands with
  | error e => simp
  | ok u =>
    simp only [true_and]
    by_cases ht : (r.isTerminator (p.op i) && !p.isLast i) = true
    · rw [if_pos ht]
      simp only [Bool.and_eq_true, Bool.not_eq_true'] at ht
      simp [ht.1, ht.2]
    · rw [if_neg ht]
      have ht' : r.isTerminator (p.op i) = true → p.isLast i = true := by simpa using ht
      rw [checkKind]
      cases (r.info? (p.op i).name).elim (.ok ()) fun info => info.check p i with
      | ok u => simpa using ht'
      | error e => cases e <;> simp

end Program

namespace Registry

theorem info?_of_mem {r : Registry} (hn : (r.map OpInfo.name).Nodup) (h : info ∈ r) :
    r.info? info.name = some info := by
  induction r with
  | nil => cases h
  | cons x r ih =>
    rw [map_cons, nodup_cons] at hn
    rw [info?, find?_cons]
    rcases mem_cons.mp h with rfl | h
    · simp
    · have hne : x.name ≠ info.name := fun he => hn.1 (he ▸ mem_map_of_mem h)
      simpa [hne, info?] using ih hn.2 h

end Registry

theorem nodup_catalogue : (catalogue.map OpInfo.name).Nodup := by decide +kernel

theorem info?_catalogue (h : info ∈ catalogue) : catalogue.info? info.name = some info :=
  Registry.info?_of_mem nodup_catalogue h

def terminatorNames : List String := [Functions.returnName, Reduction.yieldName, Workgroup.terminatorName]

theorem isTerminator_eq_false {o : Op} (h : o.name ∉ terminatorNames) : catalogue.isTerminator o = false := by
  have hall : ∀ info ∈ catalogue, info.traits.terminator = true → info.name ∈ terminatorNames := by decide
  rw [Registry.isTerminator, Registry.traits]
  cases hi : catalogue.info? o.name with
  | none => rfl
  | some info =>
    have hn : info.name = o.name := by simpa using find?_some hi
    exact Bool.eq_false_iff.mpr fun ht => h (hn ▸ hall info (mem_of_find?_eq_some hi) ht)

theorem checkKind_catalogue {p : Program} {i : OpId} (h : info ∈ catalogue)
    (hn : (p.op i).name = info.name) : p.checkKind catalogue i = info.check p i := by
  rw [Program.checkKind, hn, info?_catalogue h]
  rfl

theorem mapError_ok {ε ε' α : Type} {x : Except ε α} {f : ε → ε'} {a : α} :
    x.mapError f = .ok a ↔ x = .ok a := by
  cases x <;> simp [Except.mapError]

/-! ## Registers -/

namespace Register

variable {p : Program} {i : OpId}

theorem checkRegisters_ok {side : Side} {ts : List Ty} :
    checkRegisters side ts = .ok () ↔ ∀ t ∈ ts, t.qubits ≠ 0 := by
  unfold checkRegisters
  split
  case h_2 hf =>
    simp only [true_iff]
    intro t ht h0
    obtain ⟨k, hk⟩ := getElem?_of_mem ht
    have := List.find?_eq_none.mp hf (t, k) (mem_zipIdx_iff_getElem?.mpr hk)
    simp [h0] at this
  case h_1 u k hf =>
    simp only [reduceCtorEq, false_iff]
    intro h
    have h0 := find?_some hf
    have hm := mem_zipIdx_iff_getElem?.mp (mem_of_find?_eq_some hf)
    exact h u (mem_of_getElem? hm) (by simpa using h0)

section
variable (h : p.checkKind catalogue i = .ok ())
include h

private theorem checked {name : String} {check : Program → OpId → Except Flaw Unit} (hn : (p.op i).name = name)
    (hm : { name, check := fun p i => (check p i).mapError (.violation ·.message) } ∈ registry) :
    check p i = .ok () := by
  rw [checkKind_catalogue (mem_append_left _ (mem_append_right _ hm)) hn] at h
  exact mapError_ok.mp h

theorem alloc_checked (hn : (p.op i).name = allocName) :
    operands p i = [] ∧ ∃ t, p.resultTypes i = [t] ∧ t.qubits ≠ 0 := by
  have hc : checkAlloc p i = .ok () := checked h hn (mem_append_left _ (by exact .head _))
  unfold checkAlloc at hc
  split at hc
  · rename_i t ho hr
    exact ⟨ho, t, hr, checkRegisters_ok.mp hc t (by simp)⟩
  · cases hc

theorem dealloc_checked (hn : (p.op i).name = deallocName) :
    (∃ t, operands p i = [t] ∧ t.qubits ≠ 0) ∧ p.resultTypes i = [] := by
  have hc : checkDealloc p i = .ok () := checked h hn (mem_append_left _ (by exact .tail _ (.head _)))
  unfold checkDealloc at hc
  split at hc
  · rename_i t ho hr
    exact ⟨⟨t, ho, checkRegisters_ok.mp hc t (by simp)⟩, hr⟩
  · cases hc

theorem split_checked (hn : (p.op i).name = splitName) :
    (∃ t, operands p i = [t] ∧ totalQubits (p.resultTypes i) = t.qubits) ∧
      (∀ t ∈ p.resultTypes i, t.qubits ≠ 0) ∧ p.resultTypes i ≠ [] := by
  have hc : checkSplit p i = .ok () := checked h hn (mem_append_left _ (by exact .tail _ (.tail _ (.head _))))
  unfold checkSplit at hc
  split at hc
  · rename_i t u us ho hr
    rw [hr]
    cases hreg : checkRegisters .result (u :: us) with
    | error e => simp [hreg, bind, Except.bind] at hc
    | ok _ =>
      refine ⟨⟨t, ho, ?_⟩, checkRegisters_ok.mp hreg, cons_ne_nil u us⟩
      by_contra hne
      simp [hreg, hne, bind, Except.bind, throw, throwThe, MonadExceptOf.throw] at hc
  · cases hc

theorem merge_checked (hn : (p.op i).name = mergeName) :
    (∀ t ∈ operands p i, t.qubits ≠ 0) ∧ operands p i ≠ [] ∧
      ∃ u, p.resultTypes i = [u] ∧ totalQubits (operands p i) = u.qubits := by
  have hc : checkMerge p i = .ok () :=
    checked h hn (mem_append_left _ (by exact .tail _ (.tail _ (.tail _ (.head _)))))
  unfold checkMerge at hc
  split at hc
  · rename_i t ts u ho hr
    rw [ho]
    cases hreg : checkRegisters .operand (t :: ts) with
    | error e => simp [hreg, bind, Except.bind] at hc
    | ok _ =>
      refine ⟨checkRegisters_ok.mp hreg, by simp, u, hr, ?_⟩
      by_contra hne
      simp [hreg, hne, bind, Except.bind, throw, throwThe, MonadExceptOf.throw] at hc
  · cases hc

theorem gate_checked {g : String} (hg : g ∈ gates) (hn : (p.op i).name = gateName g) :
    ∃ t, operands p i = [t] ∧ p.resultTypes i = [t] ∧ t.qubits ≠ 0 := by
  have hc : checkGate p i = .ok () := checked h hn (mem_append_right _ (mem_map.mpr ⟨g, hg, rfl⟩))
  unfold checkGate at hc
  split at hc
  · rename_i t u ho hr
    cases hreg : checkRegisters .operand [t] with
    | error e => simp [hreg, bind, Except.bind] at hc
    | ok _ =>
      by_cases htu : t = u
      · exact ⟨t, ho, htu ▸ hr, checkRegisters_ok.mp hreg t (by simp)⟩
      · simp [hreg, htu, bind, Except.bind, throw, throwThe, MonadExceptOf.throw] at hc
  · cases hc

theorem cnot_checked (hn : (p.op i).name = cnotName) :
    (∃ c t, operands p i = [c, t] ∧ c.qubits = 1 ∧ t.qubits = 1) ∧
      ∃ c t, p.resultTypes i = [c, t] ∧ c.qubits = 1 ∧ t.qubits = 1 := by
  have hc : checkCnot p i = .ok () :=
    checked h hn (mem_append_left _ (by exact .tail _ (.tail _ (.tail _ (.tail _ (.head _))))))
  unfold checkCnot at hc
  split at hc
  · rename_i c t c' t' ho hr
    cases hf : [c, t, c', t'].find? fun u => u.qubits ≠ 1 with
    | some u =>
      rw [hf] at hc
      cases hc
    | none =>
      simp only [List.find?_eq_none, decide_eq_true_eq, ne_eq, not_not] at hf
      exact ⟨⟨c, t, ho, hf c (by simp), hf t (by simp)⟩, c', t', hr, hf c' (by simp), hf t' (by simp)⟩
  · cases hc

theorem measure_checked (hn : (p.op i).name = measureName) :
    (∃ q, operands p i = [q] ∧ q.qubits = 1) ∧ ∃ q, p.resultTypes i = [.scalar .bool, q] ∧ q.qubits = 1 := by
  have hc : checkMeasure p i = .ok () :=
    checked h hn (mem_append_left _ (by exact .tail _ (.tail _ (.tail _ (.tail _ (.tail _ (.head _)))))))
  unfold checkMeasure at hc
  split at hc
  · rename_i q bit q' ho hr
    split at hc
    · cases hc
    · rename_i hq
      split at hc
      · cases hc
      · rename_i hb
        rw [not_or, not_not, not_not] at hq
        rw [ne_eq, not_not] at hb
        exact ⟨⟨q, ho, hq.1⟩, q', hb ▸ hr, hq.2⟩
  · cases hc

end

end Register

end Offload
