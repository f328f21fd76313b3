import Offload.Proofs.Blocks
import Offload.Proofs.Removal

/-!
# Edits that succeed

An edit of a program whose lists agree fails only if what is asked for makes no sense: an empty operand, a
type that is absent, a place that is not there, or the erasure of something in use.
-/

namespace Offload

open List

variable {T : Prop} {n : Nat} {name : String} {ts : List Ty} {α : Type}

def Succeeds {ε σ α : Type} (x : EStateM ε σ α) (s : σ) : Prop := ∃ a t, x s = .ok a t

section
variable {ε σ α β : Type} {s : σ}

theorem succeeds_bind {x : EStateM ε σ α} {f : α → EStateM ε σ β} :
    Succeeds (x >>= f) s ↔ ∃ a t, x s = .ok a t ∧ Succeeds (f a) t := by
  simp only [Succeeds, bind_ok]
  constructor
  · rintro ⟨b, u, a, t, hx, hf⟩
    exact ⟨a, t, hx, b, u, hf⟩
  · rintro ⟨a, t, hx, b, u, hf⟩
    exact ⟨b, u, a, t, hx, hf⟩

theorem Succeeds.bind {x : EStateM ε σ α} {f : α → EStateM ε σ β} (hx : Succeeds x s)
    (hf : ∀ a t, x s = .ok a t → Succeeds (f a) t) : Succeeds (x >>= f) s := by
  obtain ⟨a, t, h⟩ := hx
  exact succeeds_bind.mpr ⟨a, t, h, hf a t h⟩

theorem Succeeds.step {x : EStateM ε σ α} {f : α → EStateM ε σ β} {a : α} {t : σ} (hx : x s = .ok a t)
    (hf : Succeeds (f a) t) : Succeeds (x >>= f) s := succeeds_bind.mpr ⟨a, t, hx, hf⟩

theorem Succeeds.pure (a : α) (s : σ) : Succeeds (Pure.pure a : EStateM ε σ α) s := ⟨a, s, rfl⟩

theorem Succeeds.discard {x : EStateM ε σ α} (hx : Succeeds x s) : Succeeds (Functor.discard x) s := by
  obtain ⟨a, t, h⟩ := hx
  exact ⟨(), t, discard_ok.mpr ⟨a, h⟩⟩

theorem Succeeds.forM {P : σ → Prop} {f : α → EStateM ε σ Unit} :
    ∀ {l : List α} {s : σ}, P s → (∀ a ∈ l, ∀ s, P s → Succeeds (f a) s) →
      (∀ a ∈ l, ∀ s t, P s → f a s = .ok () t → P t) → Succeeds (l.forM f) s
  | [], s, _, _, _ => by
    rw [forM_eq_forM, forM_nil]
    exact .pure () s
  | a :: l, s, hs, hf, hk => by
    rw [forM_eq_forM, forM_cons]
    refine (hf a (mem_cons_self ..) s hs).bind fun _ t ht => ?_
    rw [← forM_eq_forM]
    exact Succeeds.forM (hk a (mem_cons_self ..) s t hs ht) (fun b hb => hf b (mem_cons_of_mem _ hb))
      fun b hb => hk b (mem_cons_of_mem _ hb)

end

/-- `Q` holds after the computation if it succeeds, and it succeeds if `S` holds. -/
structure Gives {ε σ α : Type} (S : Prop) (Q : α → σ → Prop) (x : EStateM ε σ α) (s : σ) : Prop where
  ok : ∀ a t, x s = .ok a t → Q a t
  runs : S → Succeeds x s

namespace Gives

variable {ε σ α β : Type} {S : Prop} {Q : α → σ → Prop} {R : β → σ → Prop} {x : EStateM ε σ α}
    {s t : σ} {a : α}

theorem pure (h : Q a s) : Gives S Q (Pure.pure a : EStateM ε σ α) s :=
  ⟨fun b t ht => by obtain ⟨rfl, rfl⟩ := pure_ok.mp ht; exact h, fun _ => .pure a s⟩

theorem throw {e : ε} (h : ¬ S) : Gives S Q (MonadExcept.throw e : EStateM ε σ α) s :=
  ⟨fun _ _ ht => (throw_ok.mp ht).elim, fun hS => absurd hS h⟩

theorem weaken {P : α → σ → Prop} (h : Gives S Q x s) (hQ : ∀ a t, Q a t → P a t) : Gives S P x s :=
  ⟨fun a t ht => hQ a t (h.ok a t ht), h.runs⟩

theorem bind {f : α → EStateM ε σ β} (hx : Gives S Q x s) (hf : ∀ a t, Q a t → Gives S R (f a) t) :
    Gives S R (x >>= f) s where
  ok b u h := by
    obtain ⟨a, t, ha, hb⟩ := bind_ok.mp h
    exact (hf a t (hx.ok a t ha)).ok b u hb
  runs hS := (hx.runs hS).bind fun a t ha => (hf a t (hx.ok a t ha)).runs hS

theorem stop {e : ε} {f : α → EStateM ε σ β} (h : ¬ S) : Gives S R (MonadExcept.throw e >>= f) s :=
  (throw (Q := fun _ _ => False) h).bind fun _ _ hf => hf.elim

theorem step {f : α → EStateM ε σ β} (hx : x s = .ok a t) (hf : Gives S R (f a) t) : Gives S R (x >>= f) s := by
  refine ⟨fun b u h => hf.ok b u ?_, fun hS => ?_⟩
  · rwa [bind_of_ok hx] at h
  · exact succeeds_bind.mpr ⟨a, t, hx, hf.runs hS⟩

theorem of_ok (hx : x s = .ok a t) (h : Q a t) : Gives S Q x s := by
  refine ⟨fun b u hb => ?_, fun _ => ⟨a, t, hx⟩⟩
  rw [hx] at hb
  cases hb
  exact h

theorem discard {Q : σ → Prop} (h : Gives S (fun _ => Q) x s) : Gives S (fun _ => Q) (Functor.discard x) s where
  ok _ t ht := by
    obtain ⟨a, ha⟩ := discard_ok.mp ht
    exact h.ok a t ha
  runs hS := (h.runs hS).discard

end Gives

theorem filled_slots {P : ValueId → Prop} {l : List Slot} (h : ∀ x ∈ l, ∃ v, x = some v ∧ P v) :
    none ∉ l ∧ ∀ v, some v ∈ l → P v := by
  refine ⟨fun hnone => ?_, fun v hv => ?_⟩
  · obtain ⟨v, hv, -⟩ := h _ hnone
    cases hv
  · obtain ⟨w, hw, hP⟩ := h _ hv
    cases hw
    exact hP

open Program

namespace Edit

variable {p : Program} {i : OpId} {b : BlockId} {v : ValueId}

/-! ## New operations and blocks -/

theorem connectAll_succeeds : ∀ {ss : List Slot} {k : Nat} {p : Program}, none ∉ ss →
    Succeeds (connectAll i name k ss) p
  | [], _, p, _ => .pure () p
  | none :: ss, _, _, h => absurd (mem_cons_self ..) h
  | some v :: ss, k, p, h => by
    rw [connectAll]
    exact .step (a := ()) (connect_ok.mpr rfl) (connectAll_succeeds fun hm => h (mem_cons_of_mem _ hm))

theorem newResults_succeeds : ∀ {ts : List Ty} {k : Nat} {p : Program}, .absent ∉ ts →
    Succeeds (newResults i name k (ts.map some)) p
  | [], _, p, _ => .pure [] p
  | t :: ts, k, p, h => by
    rw [mem_cons, not_or] at h
    have ht : (some t).bind Ty.present? = some t := present?_eq_some.mpr ⟨rfl, Ne.symm h.1⟩
    rw [map_cons, newResults, ht]
    refine .step (pushValue_ok.mpr ⟨rfl, rfl⟩) ?_
    exact (newResults_succeeds h.2).bind fun _ _ _ => .pure _ _

theorem newOp_succeeds {s : Spec} (hname : s.name.toList.contains '.' = true)
    (hs : none ∉ s.operands) (hts : s.results = ts.map some) (habs : .absent ∉ ts)
    (hn : checkLength s.regions = .ok n) : Succeeds (newOp s) p := by
  rw [newOp]
  simp only [hname, if_true]
  refine .step (pushOp_ok.mpr ⟨rfl, rfl⟩) ?_
  refine (connectAll_succeeds hs).bind fun _ _ _ => ?_
  rw [hts]
  refine (newResults_succeeds habs).bind fun _ _ _ => ?_
  refine .step (a := ()) (modifyOp_ok.mpr rfl) ?_
  simp only [hn]
  exact .step (a := ()) (modifyOp_ok.mpr rfl) (.pure _ _)

theorem addArgument_succeeds {t : Ty} (ht : t ≠ .absent) : Succeeds (addArgument b (some t)) p := by
  have ht : (some t).bind Ty.present? = some t := present?_eq_some.mpr ⟨rfl, ht⟩
  rw [addArgument, ht]
  refine .step (getBlock_ok.mpr ⟨rfl, rfl⟩) ?_
  refine .step (pushValue_ok.mpr ⟨rfl, rfl⟩) ?_
  exact .step (a := ()) (modifyBlock_ok.mpr rfl) (.pure _ _)

theorem newBlock_succeeds {region : Nat} (ts : List Ty) (hr : region < (p.op i).regions.length)
    (habs : .absent ∉ ts) : Succeeds (newBlock i region (ts.map some)) p := by
  rw [newBlock]
  refine .step (getOp_ok.mpr ⟨rfl, rfl⟩) ?_
  rw [if_neg (Nat.not_le.mpr hr)]
  refine .step (pushBlock_ok.mpr ⟨rfl, rfl⟩) ?_
  refine Succeeds.bind (Succeeds.forM (P := fun _ => True) trivial (fun t ht s _ => ?_) fun _ _ _ _ _ _ => trivial)
    fun _ _ _ => ?_
  · obtain ⟨t, htm, rfl⟩ := mem_map.mp ht
    exact (addArgument_succeeds fun h => habs (h ▸ htm)).discard
  · exact .step (a := ()) (modifyOp_ok.mpr rfl) (.pure _ _)

theorem insertAt_succeeds {place : Nat} (hi : (p.op i).block = none) (hp : place ≤ (p.block b).ops.length) :
    Succeeds (insertAt b place i) p := by
  rw [insertAt]
  refine .step (getOp_ok.mpr ⟨rfl, rfl⟩) ?_
  simp only [hi, Option.isSome_none, Bool.false_eq_true, if_false]
  refine .step (getBlock_ok.mpr ⟨rfl, rfl⟩) ?_
  rw [if_neg (Nat.not_lt.mpr hp)]
  exact .step (a := ()) (modifyBlock_ok.mpr rfl) ⟨(), _, modifyOp_ok.mpr rfl⟩

theorem append_succeeds (hi : (p.op i).block = none) : Succeeds (append b i) p := by
  rw [append]
  refine .step (getBlock_ok.mpr ⟨rfl, rfl⟩) ?_
  exact insertAt_succeeds hi (Nat.le_refl _)

/-! ## Operands -/

section
variable (hp : p.Consistent)
include hp

theorem setOperand_succeeds {k : Nat} {old : ValueId} (h : (p.op i).operands[k]? = some (some old)) :
    Succeeds (setOperand i k (some v)) p := by
  rw [setOperand]
  refine .step (getOp_ok.mpr ⟨rfl, rfl⟩) ?_
  have hk : ¬ (k : Int) < 0 := by omega
  simp only [hk, if_false, Int.toNat_natCast, h]
  exact .step (a := ()) (removeUse_ok.mpr ⟨hp.mem_uses.mpr h, rfl⟩) ⟨(), _, connect_ok.mpr rfl⟩

theorem replaceAllUses_succeeds {w : ValueId} (hw : p.HasValue w) : Succeeds (replaceAllUses v (some w)) p := by
  rw [replaceAllUses]
  refine .step (getValue_ok.mpr ⟨rfl, rfl⟩) ?_
  by_cases hwv : w = v
  · simp only [hwv, if_true]
    exact .pure () _
  · simp only [hwv, if_false]
    -- every slot in the list stays filled, with the old value or the new one
    refine Succeeds.forM (P := fun q => q.Consistent ∧ q.HasValue w ∧
      ∀ u ∈ (p.value v).uses, ∃ x, (q.op u.op).operands[u.index]? = some (some x)) ⟨hp, hw, fun u hu => ?_⟩
      (fun u hu q hq => ?_) fun u hu q t hq ht => ?_
    · exact ⟨v, hp.mem_uses.mp hu⟩
    · obtain ⟨x, hx⟩ := hq.2.2 u hu
      exact setOperand_succeeds hq.1 hx
    · have hr := (setOperand_ok hq.1 (by rintro x ⟨⟩; exact hq.2.1) ht).2
      refine ⟨hr.consistent, (hr.same.hasValue w).mpr hq.2.1, fun u' hu' => ?_⟩
      obtain ⟨x, hx⟩ := hq.2.2 u' hu'
      rw [hr.operands, Int.toNat_natCast]
      by_cases hop : u'.op = u.op
      · by_cases hk : u.index = u'.index
        · exact ⟨w, by simp [hop, hk, (List.getElem?_eq_some_iff.mp (hop ▸ hx)).1]⟩
        · exact ⟨x, by rw [if_pos hop, getElem?_set_ne hk, hx]⟩
      · exact ⟨x, by rw [if_neg hop, hx]⟩

omit hp in
theorem dropFrom_succeeds : ∀ {ss : List Slot} {k : Nat} {p : Program}, p.Consistent →
    (∀ n s, ss[n]? = some s → (p.op i).operands[k + n]? = some s) → Succeeds (dropFrom i k ss) p
  | [], _, p, _, _ => .pure () p
  | none :: ss, k, p, hp, h => by
    rw [dropFrom]
    exact dropFrom_succeeds hp fun n s hn => by
      rw [show k + 1 + n = k + (n + 1) by omega]
      exact h (n + 1) s hn
  | some v :: ss, k, p, hp, h => by
    have hk := h 0 (some v) rfl
    have h1 : ∃ m, dropFrom i k [some v] p = .ok () m := by
      simp only [dropFrom, bind_ok, removeUse_ok, fill, modifyOp_ok, pure_ok]
      exact ⟨_, (), _, ⟨hp.mem_uses.mpr hk, rfl⟩, (), _, rfl, trivial, rfl⟩
    obtain ⟨m, hm⟩ := h1
    obtain ⟨hs, hmc, ho⟩ := dropFrom_ok [some v] k hp (fun n s hn => by
      cases n with
      | zero => exact h 0 s hn
      | succ n => cases hn) hm
    have h2 : Succeeds (dropFrom i (k + 1) ss) m := dropFrom_succeeds hmc fun n s hn => by
      have hne : ¬ (i = i ∧ k ≤ k + 1 + n ∧ k + 1 + n < k + [some v].length) := by
        rw [length_singleton]
        omega
      rw [ho, if_neg hne, show k + 1 + n = k + (n + 1) by omega]
      exact h (n + 1) s hn
    simp only [dropFrom, bind_ok, removeUse_ok, fill, modifyOp_ok, pure_ok] at hm
    obtain ⟨_, _, ⟨hu, rfl⟩, _, _, rfl, -, rfl⟩ := hm
    rw [dropFrom]
    refine succeeds_bind.mpr ⟨(), _, removeUse_ok.mpr ⟨hu, rfl⟩, succeeds_bind.mpr ⟨(), _, ?_, h2⟩⟩
    rw [fill, modifyOp_ok]

theorem dropOperands_succeeds : Succeeds (dropOperands i) p := by
  rw [dropOperands]
  refine .step (getOp_ok.mpr ⟨rfl, rfl⟩) ?_
  exact dropFrom_succeeds hp fun n s hn => by rwa [Nat.zero_add]

/-! ## Places -/

theorem placeIn_succeeds (h : (p.op i).block = some b) : ∃ n, placeIn b i p = .ok n p := by
  obtain ⟨n, hn⟩ := Option.isSome_iff_exists.mp (isSome_idxOf?.mpr ((hp.listed i b).mp h))
  exact ⟨n, placeIn_ok.mpr ⟨hn, rfl⟩⟩

theorem detach_succeeds : Succeeds (detach i) p := by
  rw [detach]
  refine .step (getOp_ok.mpr ⟨rfl, rfl⟩) ?_
  cases hb : (p.op i).block with
  | none => exact .pure () _
  | some b =>
    obtain ⟨n, hn⟩ := placeIn_succeeds hp hb
    exact .step hn (.step (a := ()) (modifyBlock_ok.mpr rfl) ⟨(), _, modifyOp_ok.mpr rfl⟩)

theorem erase_succeeds (hu : p.hasUses i = false) : Succeeds (erase i) p := by
  have hf : p.firstUsed? i = none := by
    rw [firstUsed?, Option.map_eq_none_iff, List.find?_eq_none]
    intro r hr
    have := any_eq_false.mp hu r hr
    simpa using this
  rw [erase]
  refine .step (get_ok.mpr ⟨rfl, rfl⟩) ?_
  refine .step (get_ok.mpr ⟨rfl, rfl⟩) ?_
  simp only [hf]
  refine (detach_succeeds hp).bind fun _ m hm => ?_
  refine Succeeds.forM (P := Consistent) ((detach_ok hp hm).consistent hp)
    (fun j _ q hq => dropOperands_succeeds hq) fun j _ q t hq ht => (dropOperands_ok hq ht).consistent

end

end Edit

namespace Build

variable {c : Construction} {b : BlockId}

theorem succeeds_edit {x : Edit α} : Succeeds (Build.edit x) c ↔ Succeeds x c.program := by
  simp only [Succeeds, edit_ok]
  constructor
  · rintro ⟨a, _, q, hq, rfl⟩
    exact ⟨a, q, hq⟩
  · rintro ⟨a, q, hq⟩
    exact ⟨a, _, q, hq, rfl⟩

theorem edit_gives {Q : α → Program → Prop} {x : Edit α} (h : Gives T Q x c.program) :
    Gives T (fun a c' => ∃ q, Q a q ∧ c' = { c with program := q }) (Build.edit x) c where
  ok a _ ha := by
    obtain ⟨q, hq, rfl⟩ := edit_ok.mp ha
    exact ⟨q, h.ok a q hq, rfl⟩
  runs hT := succeeds_edit.mpr (h.runs hT)

theorem except_gives {x : Except Fault α} (h : T → ∃ a, x = .ok a) :
    Gives T (fun a c' => x = .ok a ∧ c' = c) (liftM x : Build α) c where
  ok _ _ ha := liftExcept_ok.mp ha
  runs hT := (h hT).imp fun _ ha => ⟨c, liftExcept_ok.mpr ⟨ha, rfl⟩⟩

theorem create_succeeds {s : Edit.Spec} (hb : c.builder.block = some b)
    (hplace : c.builder.place ≤ (c.program.block b).ops.length) (hname : s.name.toList.contains '.' = true)
    (hv : ∀ v, some v ∈ s.operands → c.program.HasValue v)
    (hs : none ∉ s.operands) (hts : s.results = ts.map some) (habs : .absent ∉ ts)
    (hn : checkLength s.regions = .ok n) : Succeeds (create s) c := by
  obtain ⟨i, m, hm⟩ : Succeeds (Edit.newOp { s with loc := if s.loc.isEmpty then c.builder.loc else s.loc })
    c.program := Edit.newOp_succeeds hname hs hts habs hn
  obtain ⟨_, _, -, -, -, -, hnew⟩ := Edit.newOp_ok (by exact hv) hm
  obtain ⟨_, q, hq⟩ : Succeeds (Edit.insertAt b c.builder.place i) m :=
    Edit.insertAt_succeeds (by rw [hnew.self]) (by rw [hnew.block]; exact hplace)
  exact ⟨i, _, (create_ok hb).mpr ⟨m, q, hm, hq, rfl⟩⟩

end Build

end Offload
