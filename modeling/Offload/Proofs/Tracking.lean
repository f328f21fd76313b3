import Offload.Proofs.Outside
import Offload.Proofs.Sessions
import Offload.Rewrite.Stock

/-!
# Patterns that work through their session

A conversion only knows what a pattern did from the lists of its session. `Tracked` says that the lists tell
the truth. The stock patterns work like that.
-/

namespace Offload.Rewrite

open Program List

variable {b : BlockId} {v : ValueId} {values : List Slot} {w : Slot} {x : Unit}
variable {σ : Type} {s t u : Session σ} {i j a root : OpId}

/-- From `s` to `t` the program changed through the session only. -/
structure Tracked (s t : Session σ) : Prop where
  wellFormed : t.work.program.WellFormed
  hasOp : ∀ j, s.work.program.HasOp j → t.work.program.HasOp j
  name : ∀ j, s.work.program.HasOp j → (t.work.program.op j).name = (s.work.program.op j).name
  parent : ∀ j, s.work.program.HasOp j → t.work.program.parent? j = s.work.program.parent? j
  inserted : ∀ a j, s.work.program.HasOp a → ¬ s.work.program.HasOp j → t.work.program.Within a j →
    ∃ k ∈ t.work.created, t.work.program.Within k j
  created : ∀ k ∈ t.work.created, k ∈ s.work.created ∨ ¬ s.work.program.HasOp k
  listed : s.work.created ⊆ t.work.created
  erased : s.erased ⊆ t.erased
  pending : (∀ k, k ∈ s.erased ↔ k ∈ s.pending) → ∀ k, k ∈ t.erased ↔ k ∈ t.pending
  deferred : t.deferred = s.deferred

namespace Tracked

theorem of_sameShape (h : Edit.SameShape s.work.program t.work.program) (wf : t.work.program.WellFormed)
    (hc : t.work.created = s.work.created) (he : t.erased = s.erased) (hp : t.pending = s.pending)
    (hd : t.deferred = s.deferred) : Tracked s t where
  wellFormed := wf
  hasOp j := (h.hasOp j).mpr
  name j _ := by rw [h.op j]
  parent j _ := h.parent? j
  inserted a j ha hj hw := by
    obtain ⟨q, hq, -⟩ := hw.of_ne fun heq => hj (heq ▸ ha)
    exact absurd ((h.hasOp j).mp (hasOp_of_parent hq)) hj
  created k hk := .inl (hc ▸ hk)
  listed := hc ▸ List.Subset.refl _
  erased := he ▸ List.Subset.refl _
  pending hs := by rw [he, hp]; exact hs
  deferred := hd

theorem refl (wf : s.work.program.WellFormed) : Tracked s s := .of_sameShape (.refl _) wf rfl rfl rfl rfl

theorem within_iff (h : Tracked s t) (wf : s.work.program.WellFormed) (hj : s.work.program.HasOp j) :
    t.work.program.Within a j ↔ s.work.program.Within a j := by
  constructor
  · intro ha
    induction ha with
    | refl => exact .refl
    | step hp _ ih =>
      rw [h.parent _ hj] at hp
      exact .step hp (ih (wf.hasOp_parent hp))
  · intro ha
    induction ha with
    | refl => exact .refl
    | step hp _ ih =>
      have hq := wf.hasOp_parent hp
      rw [← h.parent _ hj] at hp
      exact .step hp (ih hq)

theorem trans (h : Tracked s t) (h' : Tracked t u) : Tracked s u where
  wellFormed := h'.wellFormed
  hasOp j hj := h'.hasOp j (h.hasOp j hj)
  name j hj := (h'.name j (h.hasOp j hj)).trans (h.name j hj)
  parent j hj := (h'.parent j (h.hasOp j hj)).trans (h.parent j hj)
  inserted a j ha hj hw := by
    by_cases ht : t.work.program.HasOp j
    · obtain ⟨k, hk, hw⟩ := h.inserted a j ha hj ((h'.within_iff h.wellFormed ht).mp hw)
      exact ⟨k, h'.listed hk, (h'.within_iff h.wellFormed ht).mpr hw⟩
    · exact h'.inserted a j (h.hasOp a ha) ht hw
  created k hk := by
    rcases h'.created k hk with hk | hk
    · exact h.created k hk
    · exact .inr fun hs => hk (h.hasOp k hs)
  listed := List.Subset.trans h.listed h'.listed
  erased := List.Subset.trans h.erased h'.erased
  pending hs := h'.pending (h.pending hs)
  deferred := h'.deferred.trans h.deferred

theorem outside_iff (h : Tracked s t) (wf : s.work.program.WellFormed) {shut : String → Bool}
    (hj : s.work.program.HasOp j) : t.work.program.Outside shut root j ↔ s.work.program.Outside shut root j := by
  constructor
  · intro ho
    refine ho.congr fun k a hk hp => ?_
    have hks := wf.within_hasOp ((h.within_iff wf hj).mp hk) hj
    rw [h.parent k hks] at hp
    exact ⟨hp, (h.name a (wf.hasOp_parent hp)).symm⟩
  · intro ho
    refine ho.congr fun k a hk hp => ?_
    have hks := wf.within_hasOp hk hj
    exact ⟨(h.parent k hks).trans hp, h.name a (wf.hasOp_parent hp)⟩

end Tracked

namespace Rewriting

theorem erasedAt_iff (wf : s.work.program.WellFormed) :
    erasedAt s i = true ↔ ∃ a ∈ s.erased, s.work.program.Within a i := by
  simp only [erasedAt, any_eq_true, wf.mem_enclosing, contains_iff_mem]
  exact ⟨fun ⟨a, hw, ha⟩ => ⟨a, ha, hw⟩, fun ⟨a, ha, hw⟩ => ⟨a, hw, ha⟩⟩

theorem erasedAt_of_tracked (h : Tracked s t) (wf : s.work.program.WellFormed) (hi : s.work.program.HasOp i)
    (he : erasedAt s i = true) : erasedAt t i = true := by
  obtain ⟨a, ha, hw⟩ := (erasedAt_iff wf).mp he
  exact (erasedAt_iff h.wellFormed).mpr ⟨a, h.erased ha, (h.within_iff wf hi).mpr hw⟩

/-! ## Steps of a session -/

theorem create_tracked {n m : Nat} {spec : Edit.Spec} {ts : List Ty} {w : Construction}
    (h : Build.Created b spec ts n j s.work w) : Tracked s { s with work := w, mutations := m } where
  wellFormed := h.wellFormed
  hasOp k hk := by
    rw [HasOp, h.made.ops]
    exact Nat.lt_succ_of_lt hk
  name k hk := congrArg Op.name (h.op k hk)
  parent k hk := by
    have howner : ∀ c, (w.program.block c).owner = (s.work.program.block c).owner := by
      intro c
      by_cases hc : c = b
      · rw [hc, h.here]
      · rw [h.away c hc]
    simp only [parent?, h.op k hk, howner]
  inserted a k ha hk hw := by
    obtain ⟨q, hq, -⟩ := hw.of_ne fun heq => hk (heq ▸ ha)
    have hlt := hasOp_of_parent hq
    rw [HasOp, h.made.ops] at hlt
    obtain rfl : k = j := by
      rw [h.made.id]
      exact congrArg OpId.mk (Nat.le_antisymm (Nat.le_of_lt_succ hlt) (Nat.le_of_not_lt hk))
    exact ⟨k, h.created ▸ mem_append_right _ (mem_singleton.mpr rfl), .refl⟩
  created k hk := by
    have hk : k ∈ s.work.created ++ [j] := h.created ▸ hk
    refine (mem_append.mp hk).imp_right fun hk => ?_
    rw [mem_singleton.mp hk, h.made.id]
    exact Nat.lt_irrefl _
  listed := by
    show s.work.created ⊆ w.created
    rw [h.created]
    exact subset_append_left ..
  erased := List.Subset.refl _
  pending hs := hs
  deferred := rfl

theorem eraseOp_tracked (wf : s.work.program.WellFormed) (hd : s.deferred = true)
    (h : eraseOp i s = .ok x t) : Tracked s t := by
  obtain ⟨_, rfl⟩ := (eraseOp_ok hd).mp h
  refine { Tracked.refl wf with erased := subset_cons_self .., pending := fun hs k => ?_ }
  rw [mem_cons, mem_append, mem_singleton, hs k, or_comm]

theorem replaceAllUses_same (wf : s.work.program.WellFormed)
    (hw : ∀ y, w = some y → s.work.program.HasValue y) (h : replaceAllUses (some v) w s = .ok x t) :
    Edit.SameShape s.work.program t.work.program ∧ t.work.program.WellFormed ∧ t.work.created = s.work.created ∧
      t.erased = s.erased ∧ t.pending = s.pending ∧ t.deferred = s.deferred := by
  by_cases hwv : w = some v
  · simp only [replaceAllUses, hwv, if_true, pure_ok, true_and] at h
    exact h ▸ ⟨.refl _, wf, rfl, rfl, rfl, rfl⟩
  · cases w with
    | none =>
      simp only [replaceAllUses, hwv, if_false, bind_ok, edit_ok, Edit.replaceAllUses] at h
      obtain ⟨_, _, _, q, ⟨_, _, _, hq⟩, _⟩ := h
      cases hq
    | some y =>
      obtain ⟨q, hq, rfl⟩ := (replaceAllUses_ok fun h => hwv (congrArg some h)).mp h
      have hrep := Edit.replaceAllUses_ok wf.consistent (hw y rfl) hq
      exact ⟨hrep.same, hrep.wellFormed wf, rfl, rfl, rfl, rfl⟩

theorem replaceAllUses_tracked (wf : s.work.program.WellFormed)
    (hw : ∀ y, w = some y → s.work.program.HasValue y) (h : replaceAllUses (some v) w s = .ok x t) :
    Tracked s t ∧ t.work.program.values.size = s.work.program.values.size := by
  obtain ⟨hsame, hwf, hc, he, hp, hd⟩ := replaceAllUses_same wf hw h
  exact ⟨.of_sameShape hsame hwf hc he hp hd, hsame.values⟩

theorem replaceAll_tracked : ∀ (l : List (ValueId × Slot)) {s t : Session σ}, s.work.program.WellFormed →
    (∀ x ∈ l, ∀ y, x.2 = some y → s.work.program.HasValue y) →
    l.forM (fun x => replaceAllUses (some x.1) x.2) s = .ok () t → Tracked s t
  | [], s, t, wf, _, h => by
    rw [forM_nil_ok] at h
    exact h ▸ .refl wf
  | x :: l, s, t, wf, hl, h => by
    obtain ⟨m, hm, h⟩ := forM_cons_ok.mp h
    obtain ⟨hx, hsize⟩ := replaceAllUses_tracked wf (hl x mem_cons_self) hm
    refine hx.trans (replaceAll_tracked l hx.wellFormed (fun z hz y hy => ?_) h)
    rw [HasValue, hsize]
    exact hl z (mem_cons_of_mem _ hz) y hy

theorem replaceOp_ok (h : replaceOp i values s = .ok x t) :
    ∃ m, ((s.work.program.op i).results.zip values).forM (fun x => replaceAllUses (some x.1) x.2) s = .ok () m ∧
      eraseOp i m = .ok () t := by
  rw [replaceOp, program_bind] at h
  by_cases hlen : values.length = (s.work.program.op i).results.length
  · rw [if_pos hlen] at h
    obtain ⟨_, m, hm, h⟩ := bind_ok.mp h
    exact ⟨m, hm, h⟩
  · rw [if_neg hlen] at h
    simp at h

theorem replaceOp_tracked (wf : s.work.program.WellFormed) (hd : s.deferred = true)
    (hv : ∀ v, some v ∈ values → s.work.program.HasValue v) (h : replaceOp i values s = .ok x t) :
      Tracked s t := by
  obtain ⟨m, hm, h⟩ := replaceOp_ok h
  have hreplaced := replaceAll_tracked _ wf (fun x hx y hy => hv y (hy ▸ (of_mem_zip hx).2)) hm
  exact hreplaced.trans (eraseOp_tracked hreplaced.wellFormed (hreplaced.deferred.trans hd) h)

theorem eraseAll_tracked (wf : s.work.program.WellFormed) (hd : s.deferred = true) {is : List OpId}
    (h : is.forM eraseOp s = .ok () t) : Tracked s t :=
  forM_keeps (fun _ _ _ hs h => hs.trans (eraseOp_tracked hs.wellFormed (hs.deferred.trans hd) h)) is s t (.refl wf) h

end Rewriting

/-! ## Patterns -/

open Rewriting

structure Ready (i : OpId) (b : BlockId) (s : Session σ) : Prop where
  stands : Build.Stands b s.work
  block : (s.work.program.op i).block = some b
  deferred : s.deferred = true

/-- A pattern that works through its session, and changes nothing where it does not match. -/
structure Honest (pattern : Pattern σ) : Prop where
  quiet : ∀ i s t, pattern.rewrite i s = .ok .noMatch t → t = s
  tracked : ∀ i b s t, Ready i b s → pattern.rewrite i s = .ok .applied t → Tracked s t

namespace Stock

theorem createLike_tracked {name : String} {operands values : List Slot}
    (hs : Build.Stands b s.work) (hv : ∀ v, some v ∈ operands → s.work.program.HasValue v)
    (h : createLike i name operands s = .ok values t) :
    Tracked s t ∧ Build.Stands b t.work ∧ ∀ v, some v ∈ values → t.work.program.HasValue v := by
  simp only [createLike, bind_ok, program_ok, build_ok, pure_ok] at h
  obtain ⟨_, _, ⟨rfl, rfl⟩, j, _, ⟨w, hw, rfl⟩, _, _, ⟨rfl, rfl⟩, rfl, rfl⟩ := h
  obtain ⟨ts, n, _, _, hc⟩ := Build.create_at hs.wellFormed hs.block hs.hasBlock hv hw
  obtain ⟨_, _, hwrote⟩ := Build.wrote_create hs rfl hv hw
  refine ⟨create_tracked hc, hwrote.stands hs, fun v hv => ?_⟩
  exact hc.wellFormed.hasValue_result (by simpa using hv)

theorem chain_tracked : ∀ (names : List String) {s t : Session σ} {operands values : List Slot},
    Build.Stands b s.work → (∀ v, some v ∈ operands → s.work.program.HasValue v) →
    names.foldlM (fun values name => createLike i name values) operands s = .ok values t →
      Tracked s t ∧ ∀ v, some v ∈ values → t.work.program.HasValue v
  | [], s, t, operands, values, hs, hv, h => by
    simp only [foldlM_nil, pure_ok] at h
    obtain ⟨rfl, rfl⟩ := h
    exact ⟨.refl hs.wellFormed, hv⟩
  | name :: names, s, t, operands, values, hs, hv, h => by
    simp only [foldlM_cons, bind_ok] at h
    obtain ⟨next, m, hm, h⟩ := h
    obtain ⟨hfirst, hstands, hnext⟩ := createLike_tracked hs hv hm
    obtain ⟨hrest, hvalues⟩ := chain_tracked names hstands hnext h
    exact ⟨hfirst.trans hrest, hvalues⟩

theorem chain_honest (kind : String) (names : List String) : Honest (⟨kind, chain names⟩ : Pattern σ) where
  quiet i s t h := by
    simp only [chain, bind_ok, pure_ok] at h
    obtain ⟨_, _, _, _, _, _, _, _, _, h, _⟩ := h
    cases h
  tracked i b s t hs h := by
    simp only [chain, bind_ok, program_ok, pure_ok, true_and] at h
    obtain ⟨_, _, ⟨rfl, rfl⟩, values, m, hm, _, _, h, rfl⟩ := h
    have wf := hs.stands.wellFormed
    obtain ⟨hbuilt, hvalues⟩ := chain_tracked names hs.stands (fun v => wf.hasValue_operand) hm
    exact hbuilt.trans (replaceOp_tracked hbuilt.wellFormed (hbuilt.deferred.trans hs.deferred) hvalues h)

theorem eraseWithUsers_ok {outcome : Outcome} (h : (eraseWithUsers i : Rewriting σ Outcome) s = .ok outcome t) :
    outcome = .applied ∧ ∃ v, (s.work.program.op i).results.head? = some v ∧
      (s.work.program.users v ++ [i]).forM eraseOp s = .ok () t := by
  rw [eraseWithUsers, program_bind] at h
  cases hr : (s.work.program.op i).results with
  | nil => simp [hr] at h
  | cons v vs =>
    simp only [hr, erase, bind_ok, pure_ok] at h
    obtain ⟨_, _, h, rfl, rfl⟩ := h
    exact ⟨rfl, v, rfl, h⟩

theorem eraseWithUsers_honest (kind : String) : Honest (⟨kind, eraseWithUsers⟩ : Pattern σ) where
  quiet i s t h := by cases (eraseWithUsers_ok h).1
  tracked i b s t hs h := by
    obtain ⟨-, v, -, h⟩ := eraseWithUsers_ok h
    exact eraseAll_tracked hs.stands.wellFormed hs.deferred h

end Stock

end Offload.Rewrite
