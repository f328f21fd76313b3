import Offload.Proofs.QubitEndings

/-!
# What a lowering leaves is valid

However a lowering ends, the verifier accepts what is left. If it fails, the operations that were there
before are still where they were.
-/

namespace Offload.Qubits

open Program Build Rewrite List

variable {p q : Program} {root i : OpId} {done : List OpId} {trace : List (OpId × List Event)} {m : Machine}
  {n : Naming} {new : OpId → List OpId} {s t : Session QubitMap}

theorem sourced_of_run (wf : p.WellFormed) (hv : p.verify catalogue root = .ok ())
    (hd : ∀ j ∈ done, j ∈ walk p root) (h : Machine.run p done {} = some (trace, m)) :
      Sourced p root trace m := by
  refine (Sourced.start p root).run wf (fun i hi => ?_) h
  obtain ⟨_, hw, hne⟩ := mem_walk wf (hd i hi)
  refine ⟨hw, hne, fun v hvi => ?_⟩
  obtain ⟨_, heq, hvis⟩ := (accepted wf hv hw).1 _ hvi
  exact Option.some.inj heq ▸ hvis

namespace Simulates

theorem sourced (wf : p.WellFormed) (hv : p.verify catalogue root = .ok ()) (hd : ∀ j ∈ done, j ∈ walk p root)
    (h : Simulates p done trace m n new s) : Sourced p root trace m :=
  sourced_of_run wf hv hd h.run

theorem mem_done (h : Simulates p done trace m n new s) : i ∈ done ↔ ∃ x ∈ trace, x.1 = i := by
  rw [← Machine.fst_run h.run, mem_map]

theorem stage (wf : p.WellFormed) (hv : p.verify catalogue root = .ok ()) (hd : ∀ j ∈ done, j ∈ walk p root)
    (h : Simulates p done trace m n new s) :
    Stage p root trace m n new (fun j => new j ++ [j]) s.work.program where
  source := h.sourced wf hv hd
  inside x hx := (mem_walk wf (hd _ (h.mem_done.mpr ⟨x, hx, rfl⟩))).2
  wellFormed := h.wellFormed
  place _ := .inl rfl
  op j hj _ := h.op j hj
  block := h.block
  value := h.value
  built j hj := h.mem_done.mp (h.built j hj).1
  fresh j k hk := ⟨(h.fresh j k hk).1, (h.fresh j k hk).2.2⟩
  code := h.code
  names := h.names
  kept j _ _ v _ d _ := by simp

theorem not_lowered (h : Simulates p done trace m n new s) (hi : p.HasOp i)
    (hself : i ∈ inPlace p root new i) : isLowered p root i = false := by
  rw [inPlace] at hself
  split at hself
  · exact absurd hi (h.fresh i i hself).1
  · exact Bool.eq_false_iff.mpr ‹_›

theorem stage_commit (wf : p.WellFormed) (flat : Flat p root) (hv : p.verify catalogue root = .ok ())
    (h : Simulates p (walk p root) trace m n new s) (hr : Rewriting.Released s (Rewriting.roots s))
    (hc : (Rewriting.commit : Lowering _) s = .ok none t) :
    Stage p root trace m n new (inPlace p root new) t.work.program := by
  have hq := h.commit wf flat hc
  have hpend : ∀ j, j ∈ s.pending ↔ isLowered p root j = true := by
    simp [h.pending, isLowered]
  refine { h.stage wf hv fun _ hj => hj with
    wellFormed := hq.wellFormed, place := ?_, op := ?_, block := hq.block, value := hq.value, fresh := hq.fresh,
    code := hq.code, names := hq.names, kept := ?_ }
  · intro j
    rw [inPlace]
    by_cases hl : isLowered p root j = true
    · rw [if_pos hl]
      exact .inr ⟨rfl, hl⟩
    · have hnew : new j = [] := by
        by_contra hne
        exact hl (by simpa [isLowered] using h.built j hne)
      rw [if_neg hl, hnew]
      exact .inl rfl
  · exact fun j hj hself => hq.op j hj (h.not_lowered hj hself)
  · intro j hj hself v hvj d hvd
    have hl := h.not_lowered hj hself
    rw [inPlace]
    by_cases hd : isLowered p root d = true
    · -- a register that was lowered would be used by an operation that was not
      have hop : t.work.program.op j = s.work.program.op j := (hq.op j hj hl).trans (h.op j hj).symm
      rw [hop] at hvj
      obtain ⟨k, hk⟩ := getElem?_of_mem hvj
      have huse : (⟨j, k⟩ : Use) ∈ (s.work.program.value v).uses := h.wellFormed.consistent.mem_uses.mpr hk
      have hdp : d ∈ Rewriting.roots s := by
        rw [h.roots_eq wf flat fun _ hj => hj]
        exact (hpend d).mpr hd
      have hpd : p.HasOp d := by
        rw [isLowered, Bool.and_eq_true, decide_eq_true_eq] at hd
        exact (mem_walk wf hd.1).1
      have her := hr d hdp v (by rw [h.op d hpd]; exact hvd) j
        (mem_eraseDups.mpr (mem_map.mpr ⟨_, huse, rfl⟩))
      rw [h.erasedAt_iff wf flat fun _ hj => hj, hpend, hl] at her
      cases her
    · simp [hd]

end Simulates

/-- Everything of `p` is still there in `q`, with the operations `new i` built before `i`. The operands are
as they were, except that `redirect` may lead a measured bit to the operation that reads it. -/
structure Intact (p : Program) (root : OpId) (new : OpId → List OpId) (redirect : ValueId → ValueId) (q : Program) :
    Prop where
  op : ∀ i, p.HasOp i → q.op i = { p.op i with operands := (p.op i).operands.map (Option.map redirect) }
  block : ∀ b, q.block b = { p.block b with ops := (p.block b).ops.flatMap fun i => new i ++ [i] }
  built : ∀ i, ∀ k ∈ new i, ¬ p.HasOp k ∧ q.HasOp k
  redirected : ∀ v, redirect v ≠ v → ∃ i ∈ walk p root, (p.op i).name = Register.measureName ∧
    (p.op i).results[0]? = some v ∧ ∃ k ∈ new i, (q.op k).name = Handle.readName ∧
      (q.op k).results = [redirect v]

theorem Simulates.intact (wf : p.WellFormed) (hv : p.verify catalogue root = .ok ())
    (hd : ∀ j ∈ done, j ∈ walk p root) (h : Simulates p done trace m n new s) :
    Intact p root new (n.rename m) s.work.program where
  op := h.op
  block := h.block
  built i k hk := ⟨(h.fresh i k hk).1, (h.fresh i k hk).2.1⟩
  redirected v hne := by
    have hb : v ∈ m.bits := by
      by_contra hb
      exact hne (Naming.rename_of_not_mem hb)
    obtain ⟨x, hx, hn, hres, k, hk, hkn, hkr, _⟩ := (h.stage wf hv hd).bit_built hb
    exact ⟨x.1, hd _ (h.mem_done.mpr ⟨x, hx, rfl⟩), hn, hres, k, hk, hkn, hkr⟩

/-- The verifier accepts what a lowering leaves behind, and a lowering that fails has only built operations
and redirected measured bits. -/
theorem lower_keeps_valid (wf : p.WellFormed) (hroot : p.HasOp root)
    (hrange : ∀ x ∈ p.values, Word.InRange x.type.qubits)
    (flat : ∀ i ∈ p.preorder (fun _ => true) root, isQuantum (p.op i) = true → (p.op i).regions = [])
    (hv : p.verify catalogue root = .ok ()) :
    ∃ l q, lower root p = .ok l q ∧ q.verify catalogue root = .ok () ∧
      (l.error ≠ none → ∃ new redirect, Intact p root new redirect q) := by
  obtain ⟨l, q, h, hend⟩ := lower_ends wf (inRange_typeOf hrange) flat hv
  refine ⟨l, q, h, ?_⟩
  cases hend with
  | @stuck i _ done rest trace m n new s _ _ _ hw _ sim =>
    have hd : ∀ j ∈ done, j ∈ walk p root := fun j hj => by rw [hw]; simp [hj]
    exact ⟨(sim.stage wf hv hd).verify wf flat hroot hv, fun _ => ⟨_, _, sim.intact wf hv hd⟩⟩
  | used _ sim =>
    have hd : ∀ j ∈ walk p root, j ∈ walk p root := fun _ hj => hj
    exact ⟨(sim.stage wf hv hd).verify wf flat hroot hv, fun _ => ⟨_, _, sim.intact wf hv hd⟩⟩
  | lowered he sim released commit program =>
    subst program
    exact ⟨(sim.stage_commit wf flat hv released commit).verify wf flat hroot hv, fun hne => absurd he hne⟩

/-- A qubit is measured, and then comes an operation that nothing is known about. -/
def swapped : Program :=
  { ops := #[
      { name := "builtin.module", regions := [[0]] },
      { name := "quantum.alloc", results := [0], block := some 0 },
      { name := "quantum.measure", operands := [some 0], results := [1, 2], block := some 0 },
      { name := "test.print", operands := [some 1], block := some 0 },
      { name := "quantum.swap", operands := [some 2], block := some 0 }]
    blocks := #[{ owner := 0, ops := [1, 2, 3, 4] }]
    values := #[
      ⟨.register 1, .result 1 0, [⟨2, 0⟩]⟩,
      ⟨.scalar .bool, .result 2 0, [⟨3, 0⟩]⟩,
      ⟨.register 1, .result 2 1, [⟨4, 0⟩]⟩] }

theorem lower_keeps_valid_swapped : ∃ l q, lower 0 swapped = .ok l q ∧ q.verify catalogue 0 = .ok () ∧
    l.error ≠ none ∧ ∃ new redirect, Intact swapped 0 new redirect q := by
  obtain ⟨l, q, h, hv, hfail⟩ := lower_keeps_valid
    (.of_check (by decide)) (show swapped.HasOp 0 by decide) (by decide) (by decide +kernel) (by decide +kernel)
  have hne : succeeded (lower 0 swapped) = false := by decide +kernel
  rw [h] at hne
  have he : l.error ≠ none := by
    intro he
    simp [succeeded, he] at hne
  exact ⟨l, q, h, hv, he, hfail he⟩

end Offload.Qubits
