import Offload.Proofs.Progress
import Offload.Proofs.Sessions
import Offload.Proofs.Visibility

/-!
# Replacing an operation

The uses of the results of an operation are redirected to other values, one result after the other. As long as
none of the new values is a result itself, this is one renaming of all operands.
-/

namespace Offload

open Program List

variable {f : ValueId → ValueId} {p q m : Program}

structure Rewired (f : ValueId → ValueId) (p q : Program) : Prop where
  same : Edit.SameShape p q
  operands : ∀ j, (q.op j).operands = (p.op j).operands.map (Option.map f)
  consistent : q.Consistent

namespace Rewired

theorem refl (hp : p.Consistent) : Rewired id p p := ⟨.refl p, fun j => by simp, hp⟩

theorem wellFormed (h : Rewired f p q) (wf : p.WellFormed) : q.WellFormed := h.same.wellFormed wf h.consistent

theorem frame (h : Rewired f p q) : Frame p q :=
  ⟨Nat.le_of_eq h.same.ops.symm, Nat.le_of_eq (by rw [h.same.blocks]), Nat.le_of_eq h.same.values.symm,
    fun j _ => h.same.op j,
    fun c _ => by rw [h.same.block c], fun v _ => by rw [h.same.value v]; exact ⟨rfl, rfl⟩⟩

theorem trans {g : ValueId → ValueId} (h : Rewired f p m) (h' : Rewired g m q) : Rewired (g ∘ f) p q :=
  ⟨h.same.trans h'.same, fun j => by rw [h'.operands, h.operands, map_map, Option.map_comp_map], h'.consistent⟩

theorem of_replaced {v w : ValueId} (h : Edit.Replaced v w p q) : Rewired (fun x => if x = v then w else x) p q := by
  refine ⟨h.same, fun j => ?_, h.consistent⟩
  rw [h.operands]
  refine map_congr_left fun s _ => ?_
  cases s with
  | none => rfl
  | some x =>
    by_cases hx : x = v
    · simp [hx]
    · simp [hx]

end Rewired

namespace Rewrite.Rewriting

variable {σ : Type} {s : Session σ}

def replaceAll (rs : List ValueId) (vs : List Slot) : Rewriting σ Unit :=
  (rs.zip vs).forM fun x => replaceAllUses (some x.1) x.2

structure Redirects (rs vs : List ValueId) (f : ValueId → ValueId) : Prop where
  results : Forall₂ (fun r v => f r = v) rs vs
  other : ∀ x, x ∉ rs → f x = x

theorem replaceAll_eq : ∀ {rs vs : List ValueId} {s : Session σ}, s.work.program.Consistent → rs.Nodup →
    rs.length = vs.length → (∀ v ∈ vs, s.work.program.HasValue v ∧ v ∉ rs) →
      ∃ f q, Rewired f s.work.program q ∧ Redirects rs vs f ∧ replaceAll rs (vs.map some) s =
        .ok () { s with work := { s.work with program := q }, mutations := s.mutations + rs.length }
  | [], [], s, hc, _, _, _ => ⟨id, _, .refl hc, ⟨.nil, fun _ _ => rfl⟩, rfl⟩
  | r :: rs, v :: vs, s, hc, hn, hlen, hv => by
    obtain ⟨hr, hn⟩ := nodup_cons.mp hn
    obtain ⟨hvv, hvr⟩ := hv v mem_cons_self
    have hne := ne_of_not_mem_cons hvr
    have hvrs := not_mem_of_not_mem_cons hvr
    obtain ⟨_, m, hm⟩ := Edit.replaceAllUses_succeeds (v := r) hc hvv
    have hrep := Edit.replaceAllUses_ok hc hvv hm
    obtain ⟨f, q, hf, hred, hrest⟩ := replaceAll_eq
      (s := { s with work := { s.work with program := m }, mutations := s.mutations + 1 }) hrep.consistent hn
      (Nat.succ.inj hlen) fun x hx => ⟨(hrep.same.hasValue x).mpr (hv x (mem_cons_of_mem _ hx)).1,
        fun hmem => (hv x (mem_cons_of_mem _ hx)).2 (mem_cons_of_mem _ hmem)⟩
    refine ⟨_, q, (Rewired.of_replaced hrep).trans hf, ⟨.cons ?_ ?_, fun x hx => ?_⟩, ?_⟩
    · simp [hred.other v hvrs]
    · refine forall₂_imp_of_mem hred.results fun x hx y _ hxy => ?_
      have hxr : x ≠ r := fun heq => hr (heq ▸ hx)
      simpa [hxr] using hxy
    · have hxr := ne_of_not_mem_cons hx
      have hxrs := not_mem_of_not_mem_cons hx
      simp [hxr, hred.other x hxrs]
    · rw [replaceAll, map_cons, zip_cons_cons, forM_eq_forM, forM_cons,
        bind_of_ok ((replaceAllUses_ok hne).mpr ⟨m, hm, rfl⟩)]
      exact hrest.trans (by simp [Nat.add_assoc, Nat.add_comm 1])

theorem replaceOp_eq {i : OpId} {vs : List ValueId} (wf : s.work.program.WellFormed)
    (hlen : (s.work.program.op i).results.length = vs.length)
    (hv : ∀ v ∈ vs, s.work.program.HasValue v ∧ v ∉ (s.work.program.op i).results) :
    ∃ f q, Rewired f s.work.program q ∧ Redirects (s.work.program.op i).results vs f ∧
      (replaceOp i (vs.map some) : Rewriting σ Unit) s =
        eraseOp i { s with work := { s.work with program := q }, mutations := s.mutations + vs.length } := by
  obtain ⟨f, q, hf, hred, h⟩ := replaceAll_eq wf.consistent (wf.nodup_results i) hlen hv
  refine ⟨f, q, hf, hred, ?_⟩
  rw [replaceOp, program_bind, if_pos (by rw [length_map, hlen]), ← hlen]
  exact bind_of_ok h

end Rewrite.Rewriting

end Offload
