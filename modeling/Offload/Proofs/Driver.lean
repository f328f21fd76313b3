import Mathlib.Data.List.MinMax
import Offload.Proofs.Progress
import Offload.Proofs.Sessions

/-!
# How a conversion ends

A conversion works off its list, or it stops at the first operation that cannot be rewritten. A commit removes
everything or changes nothing, as long as the uses among the erased operations go one way.
-/

namespace Offload

open List

def left {ε σ α : Type} : EStateM.Result ε σ α → σ
  | .ok _ t => t
  | .error _ t => t

namespace Rewrite

open Program Rewriting

variable {σ : Type} {mode : Mode} {root : OpId} {target : Target} {patterns : List (Pattern σ)}
  {I : List OpId → Session σ → Prop} {s : Session σ}

structure AtHand (root : OpId) (target : Target) (I : List OpId → Session σ → Prop) (i : OpId) (rest : List OpId)
    (s : Session σ) (b : BlockId) (place : Nat) : Prop where
  inv : I (i :: rest) s
  notSkipped : ¬ Skipped root target s i
  illegal : target.legality s.work.program i = .ok .illegal
  block : (s.work.program.op i).block = some b
  idxOf? : (s.work.program.block b).ops.idxOf? i = some place

def attempt (patterns : List (Pattern σ)) (i : OpId) (s : Session σ) (b : BlockId) (place : Nat) :
    EStateM.Result Fault (Session σ) Outcome :=
  applyPatterns patterns i (placed s b place s.work.builder.loc)

def Stuck (root : OpId) (target : Target) (patterns : List (Pattern σ)) (I : List OpId → Session σ → Prop)
    (t : Session σ) : Prop :=
  ∃ i rest s b place, AtHand root target I i rest s b place ∧
    (∀ t', attempt patterns i s b place ≠ .ok .applied t') ∧ t = left (attempt patterns i s b place)

/-- An invariant under which nothing but a pattern can stop a conversion. -/
structure Drives (root : OpId) (target : Target) (patterns : List (Pattern σ))
    (I : List OpId → Session σ → Prop) : Prop extends Keeps root target patterns I where
  legality : ∀ i rest s, I (i :: rest) s → erasedAt s i = false →
    target.isInside s.work.program i root = false → ∃ l, target.legality s.work.program i = .ok l
  place : ∀ i rest s, I (i :: rest) s → ¬ Skipped root target s i →
    ∃ b place, (s.work.program.op i).block = some b ∧ (s.work.program.block b).ops.idxOf? i = some place
  applied : ∀ i rest s b place s', AtHand root target I i rest s b place →
    attempt patterns i s b place = .ok .applied s' →
      s'.rewritten = s.rewritten ∧ erasedAt s' i = true ∧ ∃ l, target.legality s'.work.program i = .ok l

private theorem finish_applied {i : OpId} {rest : List OpId} {t : Session σ} {l : Legality} {o : Op}
    (her : erasedAt t i = true) (hl : target.legality t.work.program i = .ok l) :
    (do
      countRewrite
      if !(← isErased i) && !(← fail (target.isLegal (← program) i)) then
        return Step.failed (.stillIllegal o.name o.loc)
      let inserted ← takeInserted
      let p ← program
      return .rewrote ((inserted.flatMap fun j => j :: insideOf target p j).eraseDups ++ rest)) t =
    .ok (.rewrote (followUp target t ++ rest)) (afterRewrite t) := by
  have hlegal : target.isLegal t.work.program i = .ok (target.accepts l) := by
    simp [Target.isLegal, hl, bind, Except.bind, pure, Except.pure]
  rw [bind_of_ok (countRewrite_ok (u := ()).mpr rfl), isErased_bind,
    program_bind, bind_of_ok (fail_ok.mpr ⟨hlegal, rfl⟩), if_neg]
  · rw [bind_of_ok (takeInserted_ok.mpr ⟨rfl, rfl⟩), program_bind]
    rfl
  · rw [show (t.work.program.enclosing i).any t.erased.contains = true from her]
    simp

section
variable (hu : target.unknownLegal = true) (hq : Quiet patterns) (hI : Drives root target patterns I)
include hu hq hI

theorem step_total (mode : Mode) : ∀ (worklist : List OpId) {s : Session σ}, I worklist s →
    (∃ t, step mode root target patterns worklist s = .ok .finished t ∧ I [] t) ∨
    (∃ rest t, step mode root target patterns worklist s = .ok (.rewrote rest) t ∧ I rest t ∧
      t.rewritten = s.rewritten + 1) ∨
    ∃ t, Stuck root target patterns I t ∧
      ((∃ cause, step mode root target patterns worklist s = .ok (.failed cause) t) ∨
        ∃ e, step mode root target patterns worklist s = .error e t)
  | [], s, hs => .inl ⟨s, rfl, hs⟩
  | i :: rest, s, hs => by
    rw [step, isErased_bind, program_bind]
    by_cases hc : ((s.work.program.enclosing i).any s.erased.contains || target.isInside s.work.program i root) = true
    · rw [if_pos hc]
      rw [Bool.or_eq_true] at hc
      exact step_total mode rest (hI.skip i rest s hs (hc.imp_right .inl))
    obtain ⟨her, hin⟩ := Bool.or_eq_false_iff.mp (Bool.eq_false_of_not_eq_true hc)
    obtain ⟨l, hl⟩ := hI.legality i rest s hs her hin
    rw [if_neg hc, program_bind, bind_of_ok (fail_ok.mpr ⟨hl, rfl⟩)]
    by_cases ha : target.accepts l = true
    · rw [if_pos ha]
      exact step_total mode rest (hI.skip i rest s hs (.inr (.inr ⟨l, hl, ha⟩)))
    rw [if_neg ha]
    have hill : l = .illegal := by cases l <;> simp_all [Target.accepts]
    subst hill
    have hns := not_skipped hc hl ha
    obtain ⟨b, place, hb, hidx⟩ := hI.place i rest s hs hns
    have hand : AtHand root target I i rest s b place := ⟨hs, hns, hl, hb, hidx⟩
    rw [bind_of_ok (toBefore_ok (u := ()).mpr ⟨b, place, hb, hidx, rfl⟩), program_bind]
    cases hat : attempt patterns i s b place with
    | error e t =>
      refine .inr (.inr ⟨t, ⟨i, rest, s, b, place, hand, by simp [hat], by rw [hat]; rfl⟩, .inr ⟨e, ?_⟩⟩)
      rw [bind_of_error hat]
    | ok outcome t =>
      rw [bind_of_ok hat]
      cases outcome with
      | failed cause =>
        exact .inr (.inr ⟨t, ⟨i, rest, s, b, place, hand, by simp [hat], by rw [hat]; rfl⟩, .inl ⟨_, rfl⟩⟩)
      | noMatch =>
        refine .inr (.inr ⟨t, ⟨i, rest, s, b, place, hand, by simp [hat], by rw [hat]; rfl⟩,
          .inl ⟨.notLegalized (s.work.program.op i).name (s.work.program.op i).loc, ?_⟩⟩)
        simp only [ne_eq, not_true_eq_false, and_false, if_false]
        rfl
      | applied =>
        obtain ⟨hrw, her, l', hl'⟩ := hI.applied i rest s b place t hand hat
        obtain ⟨pattern, hp, hk, ht⟩ := applyPatterns_ok hq hat
        have hnext := hI.rewrite i rest s b place pattern t hs hns hl hb hidx hp hk ht
        exact .inr (.inl ⟨followUp target t ++ rest, afterRewrite t, finish_applied her hl', hnext,
          congrArg (· + 1) hrw⟩)

theorem steps_total (mode : Mode) {bound : Nat} (hb : ∀ rest t, I rest t → t.rewritten ≤ bound) :
    ∀ (limit : Nat) (worklist : List OpId) {s : Session σ}, I worklist s → bound ≤ s.rewritten + limit →
      (∃ t, steps mode root target patterns limit worklist s = .ok none t ∧ I [] t) ∨
      ∃ t, Stuck root target patterns I t ∧
        ((∃ cause, steps mode root target patterns limit worklist s = .ok (some cause) t) ∨
          ∃ e, steps mode root target patterns limit worklist s = .error e t)
  | limit, worklist, s, hs, hlimit => by
    rw [steps]
    rcases step_total hu hq hI mode worklist hs with ⟨t, h, ht⟩ | ⟨rest, t, h, ht, hr⟩ |
      ⟨t, ht, ⟨c, h⟩ | ⟨e, h⟩⟩
    · exact .inl ⟨t, by rw [bind_of_ok h]; rfl, ht⟩
    · have hle := hb rest t ht
      rw [bind_of_ok h]
      cases limit with
      | zero => omega
      | succ limit => exact steps_total mode hb limit rest ht (by omega)
    · exact .inr ⟨t, ht, .inl ⟨c, by rw [bind_of_ok h]; rfl⟩⟩
    · exact .inr ⟨t, ht, .inr ⟨e, bind_of_error h⟩⟩

end

/-! ## The commit -/

/-- Uses among the operations `is` go one way: who uses a result of one of them is inside of one with a
greater rank. -/
def Layered (p : Program) (rank : OpId → Nat) (is : List OpId) : Prop :=
  ∀ i ∈ is, ∀ r ∈ (p.op i).results, ∀ u ∈ (p.value r).uses, ∃ j ∈ is,
    p.Within j u.op ∧ rank i < rank j

namespace Layered

variable {p q : Program} {rank : OpId → Nat} {is js : List OpId}

theorem perm (h : Layered p rank is) (hp : is.Perm js) : Layered p rank js := by
  intro i hi r hr u hu
  obtain ⟨j, hj, hw⟩ := h i (hp.mem_iff.mpr hi) r hr u hu
  exact ⟨j, hp.mem_iff.mp hj, hw⟩

theorem exists_unused (h : Layered p rank is) (hne : is ≠ []) : ∃ i ∈ is, p.hasUses i = false := by
  obtain ⟨i, hi⟩ := Option.ne_none_iff_exists'.mp (mt argmax_eq_none.mp hne : is.argmax rank ≠ none)
  refine ⟨i, argmax_mem hi, any_eq_false.mpr fun r hr => ?_⟩
  cases hu : (p.value r).uses with
  | nil => simp
  | cons u us =>
    obtain ⟨j, hj, _, hlt⟩ := h i (argmax_mem hi) r hr u (by simp [hu])
    exact absurd hlt (not_lt_of_mem_argmax hj hi)

theorem erase {e : OpId} (wf : p.WellFormed) (h : Layered p rank (e :: is)) (he : Edit.Erased e p q) :
    Layered q rank is := by
  have hop : ∀ j, (q.op j).results = (p.op j).results ∧ (j ≠ e → (q.op j).block = (p.op j).block) := by
    intro j
    by_cases hj : p.Within e j
    · rw [he.inside j hj]
      exact ⟨rfl, fun hne => if_neg hne⟩
    · rw [he.outside j hj]
      exact ⟨rfl, fun _ => rfl⟩
  have hparent : ∀ {j a}, j ≠ e → p.parent? j = some a → q.parent? j = some a := by
    intro j a hj ha
    obtain ⟨b, hb, hown⟩ := parent?_eq_some.mp ha
    exact parent?_eq_some.mpr ⟨b, ((hop j).2 hj).trans hb, by rw [he.block]; exact hown⟩
  have hwithin : ∀ {a j}, p.Within a j → ¬ p.Within e j → q.Within a j := by
    intro a j hw
    induction hw with
    | refl => exact fun _ => .refl
    | step hp _ ih => exact fun hn => .step (hparent (fun hje => hn (hje ▸ .refl)) hp) (ih fun hm => hn (.step hp hm))
  intro i hi r hr u hu
  rw [(hop i).1] at hr
  have hslot := he.wellFormed.consistent.mem_uses.mp hu
  have hout : ¬ p.Within e u.op := by
    intro hw
    rw [he.inside u.op hw] at hslot
    simpa using mem_of_getElem? hslot
  rw [he.outside u.op hout] at hslot
  obtain ⟨j, hj, hw, hlt⟩ := h i (mem_cons_of_mem _ hi) r hr u (wf.consistent.mem_uses.mpr hslot)
  rcases mem_cons.mp hj with rfl | hj
  · exact absurd hw hout
  · exact ⟨j, hj, hwithin hw hout, hlt⟩

theorem eraseAll : ∀ {es : List OpId} {p : Program}, p.WellFormed → Layered p rank (es ++ is) →
    es.forM Edit.erase p = .ok () q → q.WellFormed ∧ Layered q rank is
  | [], p, wf, h, he => by
    rw [forM_nil_ok] at he
    exact he ▸ ⟨wf, h⟩
  | e :: es, p, wf, h, he => by
    obtain ⟨t, ht, he⟩ := forM_cons_ok.mp he
    have hed := Edit.erase_ok wf ht
    exact eraseAll hed.wellFormed (h.erase wf hed) he

end Layered

namespace Rewriting

theorem sweep_total : ∀ (is : List OpId) {s : Session σ}, s.work.program.WellFormed →
    ∃ rest t, sweep is s = .ok rest t ∧ rest.length ≤ is.length ∧
      ((∃ i ∈ is, s.work.program.hasUses i = false) → rest.length < is.length)
  | [], s, _ => ⟨[], s, rfl, Nat.le_refl _, by simp⟩
  | i :: is, s, wf => by
    rw [sweep, program_bind]
    cases hu : s.work.program.hasUses i with
    | true =>
      obtain ⟨rest, t, ht, hle, hlt⟩ := sweep_total is wf
      refine ⟨i :: rest, t, ?_, Nat.succ_le_succ hle, ?_⟩
      · rw [if_pos rfl, bind_of_ok ht]
        rfl
      · rintro ⟨j, hj, hju⟩
        rcases mem_cons.mp hj with rfl | hj
        · rw [hu] at hju
          cases hju
        · exact Nat.succ_lt_succ (hlt ⟨j, hj, hju⟩)
    | false =>
      obtain ⟨_, q, hq⟩ := Edit.erase_succeeds wf.consistent hu
      have hed := Edit.erase_ok wf hq
      obtain ⟨rest, t, ht, hle, _⟩ := sweep_total is (s := { s with work := { s.work with program := q } })
        hed.wellFormed
      refine ⟨rest, t, ?_, Nat.le_succ_of_le hle, fun _ => Nat.lt_succ_of_le hle⟩
      rw [if_neg (by simp), bind_of_ok (edit_ok.mpr ⟨q, hq, rfl⟩), ht]

theorem sweepAll_succeeds {rank : OpId → Nat} : ∀ (fuel : Nat) (is : List OpId) {s : Session σ},
    s.work.program.WellFormed → Layered s.work.program rank is → is.length ≤ fuel →
      Succeeds (sweepAll fuel is) s
  | fuel, [], s, _, _, _ => by
    cases fuel <;> exact .pure () s
  | 0, i :: is, s, _, _, hle => by simp at hle
  | fuel + 1, i :: is, s, wf, hl, hle => by
    obtain ⟨rest, t, ht, _, hlt⟩ := sweep_total (i :: is) wf
    have hlt := hlt (hl.exists_unused (by simp))
    obtain ⟨es, q, hp, he, rfl⟩ := sweep_ok ht
    obtain ⟨wfq, hlq⟩ := Layered.eraseAll wf (hl.perm hp.symm) he
    rw [sweepAll]
    · refine succeeds_bind.mpr ⟨rest, _, ht, ?_⟩
      rw [if_neg (Nat.ne_of_lt hlt)]
      exact sweepAll_succeeds fuel rest wfq hlq (by omega)
    · simp

theorem commit_total (wf : s.work.program.WellFormed)
    (hl : Released s (roots s) → ∃ rank, Layered s.work.program rank (roots s)) :
    (∃ e, (commit : Rewriting σ _) s = .ok (some e) s ∧ ¬ Released s (roots s)) ∨
      ∃ t, (commit : Rewriting σ _) s = .ok none t ∧ Released s (roots s) := by
  rw [commit, bind_of_ok pendingRoots_eq]
  rcases firstStillUsed_total (s := s) (roots s) with ⟨e, he, hn⟩ | ⟨he, hr⟩
  · exact .inl ⟨e, by rw [bind_of_ok he]; rfl, hn⟩
  · obtain ⟨rank, hl⟩ := hl hr
    obtain ⟨_, t, ht⟩ := sweepAll_succeeds (roots s).length (roots s) wf hl (Nat.le_refl _)
    refine .inr ⟨{ t with pending := [] }, ?_, hr⟩
    rw [bind_of_ok he]
    simp only
    rw [bind_of_ok ht]
    rfl

end Rewriting

/-! ## The whole conversion -/

section
variable {limit : Nat} {t u : Session σ}

theorem convert_of_error {e : Fault} (h : steps mode root target patterns limit
      (s.work.program.preorder (fun j => !target.isRecursivelyLegal s.work.program j) root) s = .error e t) :
    convert mode root target patterns limit s = .error e t := by
  rw [convert, program_bind, bind_of_error h]

theorem convert_of_failed {cause : ConversionError} (h : steps mode root target patterns limit
      (s.work.program.preorder (fun j => !target.isRecursivelyLegal s.work.program j) root) s = .ok (some cause) t) :
    convert mode root target patterns limit s = .ok (⟨t.rewritten, t.mutations⟩, some cause) t := by
  rw [convert, program_bind, bind_of_ok h]
  rfl

theorem convert_of_commit {used : Option StillUsed} (h : steps mode root target patterns limit
      (s.work.program.preorder (fun j => !target.isRecursivelyLegal s.work.program j) root) s = .ok none t)
    (hc : (commit : Rewriting σ _) t = .ok used u) : convert mode root target patterns limit s =
      .ok (⟨u.rewritten, u.mutations⟩, used.map ConversionError.stillUsed) u := by
  rw [convert, program_bind, bind_of_ok h]
  simp only
  rw [bind_of_ok hc]
  rfl

end

end Rewrite

end Offload
