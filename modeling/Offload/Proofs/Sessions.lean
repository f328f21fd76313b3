import Offload.Proofs.Placement
import Offload.Rewrite.Conversion

/-!
# Sessions and conversions

What the steps of a session do when they succeed. Whatever skipping and rewriting an operation keep holds when the
list is worked off, and a commit erases the pending operations one by one.
-/

namespace Offload.Rewrite

open List

variable {i : OpId} {l : Legality} {u : Unit} {β ε τ : Type}
variable {σ α : Type} {s s' : Session σ} {a : α}

namespace Rewriting

@[simp] theorem build_ok {x : Build α} : (build x : Rewriting σ α) s = .ok a s' ↔
    ∃ w, x s.work = .ok a w ∧
      s' = { s with work := w, mutations := s.mutations + (w.created.length - s.work.created.length) } := by
  obtain ⟨work, deferred, pending, erased, mutations, rewritten, extra⟩ := s
  simp only [build]
  cases x work with
  | ok b w => simp; grind
  | error e w => simp

@[simp] theorem edit_ok {x : Edit α} : (edit x : Rewriting σ α) s = .ok a s' ↔
    ∃ q, x s.work.program = .ok a q ∧ s' = { s with work := { s.work with program := q } } := by
  simp only [edit, build_ok, Build.edit_ok]
  constructor
  · rintro ⟨_, ⟨q, hq, rfl⟩, rfl⟩
    exact ⟨q, hq, by simp⟩
  · rintro ⟨q, hq, rfl⟩
    exact ⟨_, ⟨q, hq, rfl⟩, by simp⟩

@[simp] theorem fail_ok {x : Except Fault α} : (fail x : Rewriting σ α) s = .ok a s' ↔ x = .ok a ∧ s' = s := by
  cases x <;> simp [fail, eq_comm]

@[simp] theorem program_ok {p : Program} :
    (program : Rewriting σ Program) s = .ok p s' ↔ p = s.work.program ∧ s' = s := by
  simp [program]; grind

@[simp] theorem isErased_ok {b : Bool} : (isErased i : Rewriting σ Bool) s = .ok b s' ↔
    b = (s.work.program.enclosing i).any s.erased.contains ∧ s' = s := by
  simp [isErased]; grind

theorem program_bind {f : Program → Rewriting σ α} : (program >>= f) s = f s.work.program s :=
  bind_of_ok (program_ok.mpr ⟨rfl, rfl⟩)

theorem isErased_bind {f : Bool → Rewriting σ α} :
    (isErased i >>= f) s = f ((s.work.program.enclosing i).any s.erased.contains) s :=
  bind_of_ok (isErased_ok.mpr ⟨rfl, rfl⟩)

@[simp] theorem countMutation_ok : (countMutation : Rewriting σ Unit) s = .ok u s' ↔
    s' = { s with mutations := s.mutations + 1 } := by simp [countMutation]

@[simp] theorem countRewrite_ok : (countRewrite : Rewriting σ Unit) s = .ok u s' ↔
    s' = { s with rewritten := s.rewritten + 1 } := by simp [countRewrite]

@[simp] theorem takeInserted_ok {is : List OpId} : (takeInserted : Rewriting σ (List OpId)) s = .ok is s' ↔
    is = s.work.created ∧ s' = { s with work := { s.work with created := [] } } := by
  simp [takeInserted]; grind

theorem replaceAllUses_ok {v w : ValueId} (hne : w ≠ v) :
    (replaceAllUses (some v) (some w) : Rewriting σ Unit) s = .ok u s' ↔
      ∃ q, Edit.replaceAllUses v (some w) s.work.program = .ok u q ∧
        s' = { s with work := { s.work with program := q }, mutations := s.mutations + 1 } := by
  have : some w ≠ some v := fun h => hne (Option.some.inj h)
  simp only [replaceAllUses, this, if_false, bind_ok, countMutation_ok, edit_ok]
  constructor
  · rintro ⟨_, _, rfl, q, hq, rfl⟩
    exact ⟨q, hq, rfl⟩
  · rintro ⟨q, hq, rfl⟩
    exact ⟨(), _, rfl, q, hq, rfl⟩

theorem eraseOp_ok (hd : s.deferred = true) :
    (eraseOp i : Rewriting σ Unit) s = .ok u s' ↔
      i ∉ s.erased ∧ s' = { s with mutations := s.mutations + 1, erased := i :: s.erased,
                                    pending := s.pending ++ [i] } := by
  simp only [eraseOp, bind_ok, get_ok]
  constructor
  · rintro ⟨_, s, ⟨rfl, rfl⟩, h⟩
    by_cases hi : i ∈ s.erased
    · simp [hi] at h
    · simp only [contains_iff_mem, hi, if_false, hd, if_true, bind_ok, countMutation_ok, modify_ok] at h
      obtain ⟨_, _, rfl, _, _, rfl, rfl⟩ := h
      exact ⟨hi, by rw [hd]⟩
  · rintro ⟨hi, rfl⟩
    refine ⟨_, _, ⟨rfl, rfl⟩, ?_⟩
    simp [hi, hd]

/-! ## Patterns -/

def placed (s : Session σ) (b : BlockId) (place : Nat) (loc : String) : Session σ :=
  { s with work := { s.work with builder := ⟨some b, place, loc⟩ } }

theorem toBefore_ok : (build (Build.toBefore i) : Rewriting σ Unit) s = .ok u s' ↔
    ∃ b place, (s.work.program.op i).block = some b ∧ (s.work.program.block b).ops.idxOf? i = some place ∧
      s' = placed s b place s.work.builder.loc := by
  simp only [build_ok, Build.toBefore, bind_ok, Build.liftEdit_ok, Edit.getOp_ok]
  constructor
  · rintro ⟨w, ⟨_, _, ⟨_, ⟨rfl, rfl⟩, rfl⟩, h⟩, rfl⟩
    cases hb : (s.work.program.op i).block with
    | none => simp [hb] at h
    | some b =>
      simp only [hb, bind_ok, Build.liftEdit_ok, Build.setPoint_ok] at h
      obtain ⟨n, _, ⟨_, hn, rfl⟩, rfl⟩ := h
      simp only [Edit.placeIn, bind_ok, Edit.getBlock_ok] at hn
      obtain ⟨_, q, ⟨rfl, rfl⟩, hn⟩ := hn
      cases hidx : (s.work.program.block b).ops.idxOf? i with
      | none => simp [hidx] at hn
      | some m =>
        simp only [hidx, pure_ok] at hn
        obtain ⟨rfl, rfl⟩ := hn
        exact ⟨b, m, rfl, hidx, by simp [placed]⟩
  · rintro ⟨b, place, hb, hidx, rfl⟩
    refine ⟨{ s.work with builder := ⟨some b, place, s.work.builder.loc⟩ },
      ⟨_, _, ⟨_, ⟨rfl, rfl⟩, rfl⟩, ?_⟩, by simp [placed]⟩
    simp only [hb, bind_ok, Build.liftEdit_ok, Build.setPoint_ok]
    exact ⟨place, _, ⟨_, by simp [Edit.placeIn, hidx], rfl⟩, rfl⟩

def Quiet (patterns : List (Pattern σ)) : Prop :=
  ∀ pattern ∈ patterns, ∀ i s s', pattern.rewrite i s = .ok .noMatch s' → s' = s

def located (s : Session σ) (loc : String) : Session σ :=
  { s with work := { s.work with builder := { s.work.builder with loc } } }

theorem setLoc_eq (s : Session σ) (loc : String) : build (Build.setLoc loc) s = .ok () (located s loc) :=
  build_ok.mpr ⟨_, Build.setLoc_ok.mpr rfl, by simp [located]⟩

theorem tryPatterns_ok {outcome : Outcome} : ∀ {patterns : List (Pattern σ)} {s s' : Session σ},
    Quiet patterns → (tryPatterns i patterns) s = .ok outcome s' →
      (outcome = .applied →
        ∃ pattern ∈ patterns, pattern.rewrite i (located s (s.work.program.op i).loc) = .ok .applied s') ∧
      (outcome = .noMatch → ∃ loc, s' = located s loc)
  | [], s, s', _, h => by
    simp only [tryPatterns, pure_ok] at h
    obtain ⟨rfl, rfl⟩ := h
    exact ⟨by simp, fun _ => ⟨s.work.builder.loc, rfl⟩⟩
  | pattern :: rest, s, s', hq, h => by
    rw [tryPatterns, program_bind, bind_of_ok (setLoc_eq ..), bind_ok] at h
    obtain ⟨o, t, ht, h⟩ := h
    cases o with
    | noMatch =>
      obtain rfl := hq pattern mem_cons_self _ _ _ ht
      obtain ⟨happlied, hloc⟩ := tryPatterns_ok (fun q hq' => hq q (mem_cons_of_mem _ hq')) h
      exact ⟨fun ho => (happlied ho).imp fun _ hp => ⟨mem_cons_of_mem _ hp.1, hp.2⟩, hloc⟩
    | applied =>
      obtain ⟨rfl, rfl⟩ := pure_ok.mp h
      exact ⟨fun _ => ⟨pattern, mem_cons_self, ht⟩, by simp⟩
    | failed cause =>
      obtain ⟨rfl, rfl⟩ := pure_ok.mp h
      simp

section
variable {i : OpId} {patterns : List (Pattern σ)} (hq : Quiet patterns)
include hq

theorem applyPatterns_ok (h : (applyPatterns patterns i) s = .ok .applied s') :
    ∃ pattern ∈ patterns, pattern.kind = (s.work.program.op i).name ∧
      pattern.rewrite i (located s (s.work.program.op i).loc) = .ok .applied s' := by
  obtain ⟨pattern, hp, h⟩ := (tryPatterns_ok (fun q hq' => hq q (mem_filter.mp hq').1) h).1 rfl
  obtain ⟨hp, hk⟩ := mem_filter.mp hp
  exact ⟨pattern, hp, of_decide_eq_true hk, h⟩

theorem applyPatterns_noMatch (h : (applyPatterns patterns i) s = .ok .noMatch s') : ∃ loc, s' = located s loc :=
  (tryPatterns_ok (fun q hq' => hq q (mem_filter.mp hq').1) h).2 rfl

end

def erasedAt (s : Session σ) (i : OpId) : Bool := (s.work.program.enclosing i).any s.erased.contains

end Rewriting

/-! ## The rule for conversions -/

section

variable {mode : Mode} {root : OpId} {target : Target} {patterns : List (Pattern σ)}

open Rewriting

def Skipped (root : OpId) (target : Target) (s : Session σ) (i : OpId) : Prop :=
  (s.work.program.enclosing i).any s.erased.contains = true ∨ target.isInside s.work.program i root = true ∨
    ∃ l, target.legality s.work.program i = .ok l ∧ target.accepts l = true

theorem not_skipped
    (hc : ¬ ((s.work.program.enclosing i).any s.erased.contains || target.isInside s.work.program i root) = true)
    (hl : target.legality s.work.program i = .ok l) (ha : ¬ target.accepts l = true) : ¬ Skipped root target s i := by
  rintro (h | h | ⟨l', hl', ha'⟩)
  · exact hc (by simp [h])
  · exact hc (by simp [h])
  · cases hl.symm.trans hl'
    exact ha ha'

def afterRewrite (s : Session σ) : Session σ :=
  { s with work := { s.work with created := [] }, rewritten := s.rewritten + 1 }

def followUp (target : Target) (s : Session σ) : List OpId :=
  (s.work.created.flatMap fun j => j :: insideOf target s.work.program j).eraseDups

/-- What is kept by going on to the next operation, in a partial conversion also after no pattern applied to
one that need not go, and by rewriting one. -/
structure Carries (mode : Mode) (root : OpId) (target : Target) (patterns : List (Pattern σ))
    (I : List OpId → Session σ → Prop) : Prop where
  skip : ∀ i rest s, I (i :: rest) s → Skipped root target s i → I rest s
  pass : ∀ i rest s b place loc l, I (i :: rest) s → mode = .partly → target.legality s.work.program i = .ok l →
    target.accepts l = false → l ≠ .illegal → I rest (placed s b place loc)
  rewrite : ∀ i rest s b place pattern l s', I (i :: rest) s → ¬ Skipped root target s i →
    target.legality s.work.program i = .ok l → target.accepts l = false → (s.work.program.op i).block = some b →
    (s.work.program.block b).ops.idxOf? i = some place → pattern ∈ patterns →
    pattern.kind = (s.work.program.op i).name →
    pattern.rewrite i (placed s b place (s.work.program.op i).loc) = .ok .applied s' →
    (erasedAt s' i = true ∨ target.isLegal s'.work.program i = .ok true) →
      I (followUp target s' ++ rest) (afterRewrite s')

variable {I : List OpId → Session σ → Prop}

theorem Carries.step_ok (hq : Quiet patterns) (hI : Carries mode root target patterns I) :
    ∀ (worklist : List OpId) {s s' : Session σ} {o : Step}, I worklist s →
      step mode root target patterns worklist s = .ok o s' →
        match o with
        | .finished => I [] s'
        | .rewrote rest => I rest s'
        | .failed _ => True
  | [], s, s', o, hs, h => by
    simp only [step, pure_ok] at h
    obtain ⟨rfl, rfl⟩ := h
    exact hs
  | i :: rest, s, s', o, hs, h => by
    simp only [step, bind_ok, isErased_ok, program_ok] at h
    obtain ⟨_, _, ⟨rfl, rfl⟩, _, s, ⟨rfl, rfl⟩, h⟩ := h
    rw [ite_ok] at h
    rcases h with ⟨hc, h⟩ | ⟨hc, h⟩
    · rw [Bool.or_eq_true] at hc
      exact step_ok hq hI rest (hI.skip i rest s hs (hc.imp_right .inl)) h
    · simp only [bind_ok, program_ok, fail_ok] at h
      obtain ⟨_, _, ⟨rfl, rfl⟩, l, s, ⟨hl, rfl⟩, h⟩ := h
      rw [ite_ok] at h
      rcases h with ⟨ha, h⟩ | ⟨ha, h⟩
      · exact step_ok hq hI rest (hI.skip i rest s hs (.inr (.inr ⟨l, hl, ha⟩))) h
      · have hrefused := Bool.not_eq_true _ ▸ ha
        have hns := not_skipped hc hl ha
        simp only [bind_ok, toBefore_ok, program_ok] at h
        obtain ⟨_, _, ⟨b, place, hb, hidx, rfl⟩, _, _, ⟨rfl, rfl⟩, outcome, t, ht, h⟩ := h
        cases outcome with
        | failed cause =>
          simp only [pure_ok] at h
          obtain ⟨rfl, rfl⟩ := h
          trivial
        | noMatch =>
          obtain ⟨loc, rfl⟩ := applyPatterns_noMatch hq ht
          rw [ite_ok] at h
          rcases h with ⟨⟨hm, hill⟩, h⟩ | ⟨_, h⟩
          · exact step_ok hq hI rest (hI.pass i rest s b place loc l hs hm hl hrefused hill) h
          · simp only [pure_ok] at h
            obtain ⟨rfl, rfl⟩ := h
            trivial
        | applied =>
          obtain ⟨pattern, hp, hk, ht⟩ := applyPatterns_ok hq ht
          simp only [bind_ok, countRewrite_ok, isErased_ok, program_ok, fail_ok] at h
          obtain ⟨_, _, rfl, _, _, ⟨rfl, rfl⟩, _, _, ⟨rfl, rfl⟩, legal, _, ⟨hlegal, rfl⟩, h⟩ := h
          rw [ite_ok] at h
          rcases h with ⟨_, h⟩ | ⟨hgone, h⟩
          · simp only [pure_ok] at h
            obtain ⟨rfl, rfl⟩ := h
            trivial
          · have hdone : erasedAt t i = true ∨ target.isLegal t.work.program i = .ok true := by
              by_cases her : erasedAt t i = true
              · exact .inl her
              · refine .inr (hlegal.trans (congrArg _ ?_))
                rw [Bool.and_eq_true, not_and, Bool.not_eq_true'] at hgone
                simpa using hgone (Bool.not_eq_true _ ▸ her)
            have hnext := hI.rewrite i rest s b place pattern l t hs hns hl hrefused hb hidx hp hk ht hdone
            simp only [bind_ok, takeInserted_ok, program_ok, pure_ok] at h
            obtain ⟨_, _, ⟨rfl, rfl⟩, _, _, ⟨rfl, rfl⟩, rfl, rfl⟩ := h
            exact hnext

theorem Carries.steps_ok (hq : Quiet patterns) (hI : Carries mode root target patterns I) :
    ∀ (limit : Nat) (worklist : List OpId) {s s' : Session σ}, I worklist s →
      steps mode root target patterns limit worklist s = .ok none s' → I [] s'
  | limit, worklist, s, s', hs, h => by
    rw [steps, bind_ok] at h
    obtain ⟨o, t, ht, h⟩ := h
    have hnext := hI.step_ok hq worklist hs ht
    cases o with
    | finished => exact (pure_ok.mp h).2 ▸ hnext
    | failed cause => simp at h
    | rewrote rest =>
      cases limit with
      | zero => simp at h
      | succ limit => exact steps_ok hq hI limit rest hnext h

structure Keeps (root : OpId) (target : Target) (patterns : List (Pattern σ))
    (I : List OpId → Session σ → Prop) : Prop where
  skip : ∀ i rest s, I (i :: rest) s → Skipped root target s i → I rest s
  rewrite : ∀ i rest s b place pattern s', I (i :: rest) s → ¬ Skipped root target s i →
    target.legality s.work.program i = .ok .illegal → (s.work.program.op i).block = some b →
    (s.work.program.block b).ops.idxOf? i = some place → pattern ∈ patterns →
    pattern.kind = (s.work.program.op i).name →
    pattern.rewrite i (placed s b place (s.work.program.op i).loc) = .ok .applied s' →
      I (followUp target s' ++ rest) (afterRewrite s')

theorem Target.eq_illegal (hu : target.unknownLegal = true) (h : target.accepts l = false) :
    l = .illegal := by
  cases l <;> simp_all [Target.accepts]

theorem Keeps.carries (hu : target.unknownLegal = true) (hI : Keeps root target patterns I) :
    Carries mode root target patterns I where
  skip := hI.skip
  pass _ _ _ _ _ _ _ _ _ _ ha hill := absurd (Target.eq_illegal hu ha) hill
  rewrite i rest s b place pattern _ s' hs hns hl ha hb hidx hp hk ht _ :=
    hI.rewrite i rest s b place pattern s' hs hns (Target.eq_illegal hu ha ▸ hl) hb hidx hp hk ht

theorem steps_ok (hu : target.unknownLegal = true) (hq : Quiet patterns) (hI : Keeps root target patterns I)
    (limit : Nat) (worklist : List OpId) (hs : I worklist s)
    (h : steps mode root target patterns limit worklist s = .ok none s') : I [] s' :=
  (hI.carries hu).steps_ok hq limit worklist hs h

end

/-! ## Commit -/

namespace Rewriting

private theorem filterAuxM_of_ok {f : β → EStateM ε τ Bool} {g : β → Bool} {t : τ}
    (hf : ∀ x, f x t = .ok (g x) t) :
    ∀ (l acc : List β), l.filterAuxM f acc t = .ok ((l.filter g).reverse ++ acc) t
  | [], acc => rfl
  | x :: l, acc => by
    rw [List.filterAuxM, bind_of_ok (hf x), filterAuxM_of_ok hf l]
    cases hg : g x <;> simp [hg]

def roots (s : Session σ) : List OpId :=
  s.pending.filter fun i => (s.work.program.parent? i).all fun q => !erasedAt s q

theorem pendingRoots_eq : (pendingRoots : Rewriting σ _) s = .ok (roots s) s := by
  rw [pendingRoots, bind_of_ok (get_ok.mpr ⟨rfl, rfl⟩), List.filterM, bind_of_ok (filterAuxM_of_ok
    (g := fun i => (s.work.program.parent? i).all fun q => !erasedAt s q) (fun i => ?_) s.pending [])]
  · rw [roots, append_nil, reverse_reverse]
    rfl
  · cases hp : s.work.program.parent? i with
    | none => rfl
    | some q =>
      simp only
      rw [isErased_bind]
      rfl

private theorem findM?_of_ok {f : β → EStateM ε τ Bool} {g : β → Bool} {t : τ}
    (hf : ∀ x, f x t = .ok (g x) t) : ∀ l : List β, l.findM? f t = .ok (l.find? g) t
  | [] => rfl
  | x :: l => by
    rw [List.findM?, bind_of_ok (hf x)]
    cases hg : g x with
    | true => simp [hg, pure, EStateM.pure]
    | false => simp [hg, findM?_of_ok hf l]

def Released (s : Session σ) (is : List OpId) : Prop :=
  ∀ i ∈ is, ∀ r ∈ (s.work.program.op i).results, ∀ u ∈ s.work.program.users r, erasedAt s u = true

theorem firstStillUsed_total : ∀ is : List OpId,
    (∃ e, firstStillUsed is s = .ok (some e) s ∧ ¬ Released s is) ∨
      firstStillUsed is s = .ok none s ∧ Released s is
  | [] => .inr ⟨rfl, by simp [Released]⟩
  | i :: is => by
    have hfind := findM?_of_ok (f := fun x : ValueId × OpId => do return !(← (isErased x.2 : Rewriting σ Bool)))
      (g := fun x => !erasedAt s x.2) (t := s) (fun x => by rw [isErased_bind]; rfl)
      ((s.work.program.op i).results.flatMap fun r => (s.work.program.users r).map fun u => (r, u))
    rw [firstStillUsed, program_bind, bind_of_ok hfind]
    cases hx : List.find? (fun x => !erasedAt s x.2)
        ((s.work.program.op i).results.flatMap fun r => (s.work.program.users r).map fun u => (r, u)) with
    | some x =>
      refine .inl ⟨_, rfl, fun h => ?_⟩
      obtain ⟨r, hr, hu⟩ := mem_flatMap.mp (mem_of_find?_eq_some hx)
      obtain ⟨u, hur, rfl⟩ := mem_map.mp hu
      have := find?_some hx
      simp [h i (mem_cons_self ..) r hr u hur] at this
    | none =>
      have hi : ∀ r ∈ (s.work.program.op i).results, ∀ u ∈ s.work.program.users r, erasedAt s u = true := by
        intro r hr u hu
        have := List.find?_eq_none.mp hx (r, u) (mem_flatMap.mpr ⟨r, hr, mem_map.mpr ⟨u, hu, rfl⟩⟩)
        simpa using this
      rcases firstStillUsed_total is with ⟨e, he, hn⟩ | ⟨he, hall⟩
      · exact .inl ⟨e, he, fun h => hn fun j hj => h j (mem_cons_of_mem _ hj)⟩
      · refine .inr ⟨he, fun j hj => ?_⟩
        rcases mem_cons.mp hj with rfl | hj
        · exact hi
        · exact hall j hj

theorem sweep_ok : ∀ {is rest : List OpId} {s s' : Session σ}, sweep is s = .ok rest s' →
    ∃ (es : List OpId) (q : Program), (es ++ rest).Perm is ∧ es.forM Edit.erase s.work.program = .ok () q ∧
      s' = { s with work := { s.work with program := q } }
  | [], rest, s, s', h => by
    simp only [sweep, pure_ok] at h
    obtain ⟨rfl, rfl⟩ := h
    exact ⟨[], s.work.program, by simp, by simp [forM_eq_forM], rfl⟩
  | i :: is, rest, s, s', h => by
    simp only [sweep, bind_ok, program_ok] at h
    obtain ⟨_, s, ⟨rfl, rfl⟩, h⟩ := h
    rw [ite_ok] at h
    rcases h with ⟨_, h⟩ | ⟨_, h⟩
    · simp only [bind_ok, pure_ok] at h
      obtain ⟨rest, _, h, rfl, rfl⟩ := h
      obtain ⟨es, q, hp, he, rfl⟩ := sweep_ok h
      exact ⟨es, q, perm_middle.trans (hp.cons i), he, rfl⟩
    · simp only [bind_ok, edit_ok] at h
      obtain ⟨_, _, ⟨m, hm, rfl⟩, h⟩ := h
      obtain ⟨es, q, hp, he, rfl⟩ := sweep_ok h
      refine ⟨i :: es, q, hp.cons i, ?_, rfl⟩
      rw [forM_eq_forM, forM_cons, bind_ok]
      exact ⟨_, m, hm, he⟩

theorem forM_append_ok {f : β → EStateM ε τ Unit} {l r : List β} {t u v : τ}
    (hl : l.forM f t = .ok () u) (hr : r.forM f u = .ok () v) : (l ++ r).forM f t = .ok () v := by
  rw [forM_eq_forM] at *
  rw [forM_append, bind_ok]
  exact ⟨_, u, hl, hr⟩

theorem sweepAll_ok : ∀ {fuel : Nat} {is : List OpId} {s s' : Session σ}, sweepAll fuel is s = .ok () s' →
    ∃ (es : List OpId) (q : Program), es.Perm is ∧ es.forM Edit.erase s.work.program = .ok () q ∧
      s' = { s with work := { s.work with program := q } }
  | fuel, [], s, s', h => by
    have : s = s' := by cases fuel <;> simpa [sweepAll] using h
    exact ⟨[], s.work.program, by simp, by simp [forM_eq_forM], this ▸ rfl⟩
  | 0, i :: is, s, s', h => by simp [sweepAll] at h
  | fuel + 1, i :: is, s, s', h => by
    simp only [sweepAll, bind_ok] at h
    obtain ⟨rest, _, hs, h⟩ := h
    rw [ite_ok] at h
    rcases h with ⟨_, h⟩ | ⟨_, h⟩
    · simp at h
    · obtain ⟨es, q, hp, he, rfl⟩ := sweep_ok hs
      obtain ⟨es', q', hp', he', rfl⟩ := sweepAll_ok h
      exact ⟨es ++ es', q', (hp'.append_left es).trans hp, forM_append_ok he he', rfl⟩

theorem commit_ok (h : (commit : Rewriting σ _) s = .ok none s') : Released s (roots s) ∧
    ∃ (es : List OpId) (q : Program), es.Perm (roots s) ∧ es.forM Edit.erase s.work.program = .ok () q ∧
      s' = { s with work := { s.work with program := q }, pending := [] } := by
  rw [commit, bind_of_ok pendingRoots_eq] at h
  rcases firstStillUsed_total (s := s) (roots s) with ⟨e, he, -⟩ | ⟨he, hr⟩
  · rw [bind_of_ok he] at h
    simp at h
  · rw [bind_of_ok he] at h
    simp only [bind_ok, modify_ok, pure_ok, true_and] at h
    obtain ⟨_, _, hs, _, _, rfl, rfl⟩ := h
    obtain ⟨es, q, hp, he, rfl⟩ := sweepAll_ok hs
    exact ⟨hr, es, q, hp, he, rfl⟩

theorem commit_error {e : StillUsed} (h : (commit : Rewriting σ _) s = .ok (some e) s') : s' = s ∧
    ∃ i ∈ roots s, ∃ r ∈ (s.work.program.op i).results, ∃ u ∈ s.work.program.users r,
      erasedAt s u = false := by
  rw [commit, bind_of_ok pendingRoots_eq] at h
  rcases firstStillUsed_total (s := s) (roots s) with ⟨e, he, hn⟩ | ⟨he, -⟩
  · rw [bind_of_ok he] at h
    exact ⟨(pure_ok.mp h).2.symm, by simpa [Released] using hn⟩
  · rw [bind_of_ok he] at h
    simp at h

end Rewriting

end Offload.Rewrite
