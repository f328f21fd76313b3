import Offload.Proofs.Driver

/-!
# Patterns that apply

A pattern looks everything up before it builds anything. If something is not found it gives up and the program
is as before; otherwise nothing can go wrong any more.
-/

namespace Offload

open List

variable {i : OpId} {β : Type}

namespace Rewrite

variable {σ α : Type} {s : Session σ}

def Looks (x : Rewriting σ α) (s : Session σ) : Prop := (left (x s)).work.program = s.work.program

def Applies (x : Rewriting σ Outcome) (s : Session σ) : Prop := ∃ t, x s = .ok .applied t

def Settles (x : Rewriting σ Outcome) (s : Session σ) : Prop := Applies x s ∨ Looks x s

namespace Looks

theorem bind {x : Rewriting σ α} {f : α → Rewriting σ β} (hx : Looks x s)
    (hf : ∀ a t, x s = .ok a t → Looks (f a) t) : Looks (x >>= f) s := by
  unfold Looks at *
  cases h : x s with
  | ok a t =>
    rw [h] at hx
    rw [bind_of_ok h, hf a t h]
    exact hx
  | error e t =>
    rw [h] at hx
    rw [bind_of_error h]
    exact hx

theorem pure (a : α) : Looks (Pure.pure a : Rewriting σ α) s := rfl

theorem throw (e : Fault) : Looks (MonadExcept.throw e : Rewriting σ α) s := rfl

theorem program : Looks (Rewriting.program : Rewriting σ _) s := rfl

theorem fail (x : Except Fault α) : Looks (Rewriting.fail x : Rewriting σ α) s := by
  cases x <;> rfl

theorem mapM {f : β → Rewriting σ α} (hf : ∀ b s, Looks (f b) s) :
    ∀ (l : List β) {s : Session σ}, Looks (l.mapM f) s
  | [], s => pure _
  | b :: l, s => by
    rw [mapM_cons]
    exact (hf b s).bind fun _ _ _ => (mapM hf l).bind fun _ _ _ => pure _

end Looks

theorem Applies.of_ok {x : Rewriting σ α} {f : α → Rewriting σ Outcome} {a : α} {t : Session σ}
    (h : x s = .ok a t)
    (hf : Applies (f a) t) : Applies (x >>= f) s := by
  obtain ⟨u, hu⟩ := hf
  exact ⟨u, by rw [bind_of_ok h, hu]⟩

theorem Settles.bind {x : Rewriting σ α} {f : α → Rewriting σ Outcome} (hx : Looks x s)
    (hf : ∀ a t, x s = .ok a t → Settles (f a) t) : Settles (x >>= f) s := by
  cases h : x s with
  | ok a t =>
    rcases hf a t h with ⟨u, hu⟩ | hl
    · exact .inl ⟨u, by rw [bind_of_ok h, hu]⟩
    · refine .inr ?_
      unfold Looks at *
      rw [h] at hx
      rw [bind_of_ok h, hl]
      exact hx
  | error e t =>
    refine .inr ?_
    unfold Looks at *
    rw [h] at hx
    rw [bind_of_error h]
    exact hx

/-- What is known of a pattern: that `Q` holds if it applies, that with `V` it applies or leaves the program as it is,
and that it applies if `K` holds besides. -/
structure Acts (V K : Prop) (Q : Session σ → Prop) (x : Rewriting σ Outcome) (s : Session σ) : Prop where
  ok : ∀ t, x s = .ok .applied t → Q t
  settles : V → Settles x s
  applies : V → K → Applies x s

namespace Acts

variable {V K : Prop} {Q : Session σ → Prop}

theorem look {P : α → Session σ → Prop} {x : Rewriting σ α} {f : α → Rewriting σ Outcome} (hl : Looks x s)
    (hx : Gives (V ∧ K) P x s) (hf : ∀ a t, P a t → Acts V K Q (f a) t) : Acts V K Q (x >>= f) s where
  ok t h := by
    obtain ⟨a, u, ha, h⟩ := bind_ok.mp h
    exact (hf a u (hx.ok a u ha)).ok t h
  settles hV := .bind hl fun a t ha => (hf a t (hx.ok a t ha)).settles hV
  applies hV hK := by
    obtain ⟨a, t, ha⟩ := hx.runs ⟨hV, hK⟩
    exact .of_ok ha ((hf a t (hx.ok a t ha)).applies hV hK)

theorem program {f : Program → Rewriting σ Outcome} (hf : Acts V K Q (f s.work.program) s) :
    Acts V K Q (Rewriting.program >>= f) s :=
  look Looks.program (.of_ok (Rewriting.program_ok.mpr ⟨rfl, rfl⟩) (And.intro rfl rfl)) fun a t h => by
    obtain ⟨rfl, rfl⟩ : a = s.work.program ∧ t = s := h
    exact hf

theorem build {x : Rewriting σ Outcome} (h : Gives V (fun o t => o = .applied ∧ Q t) x s) : Acts V K Q x s := by
  have ha : V → Applies x s := fun hV => by
    obtain ⟨o, t, ht⟩ := h.runs hV
    obtain ⟨rfl, -⟩ := h.ok o t ht
    exact ⟨t, ht⟩
  exact ⟨fun t ht => (h.ok _ t ht).2, fun hV => .inl (ha hV), fun hV _ => ha hV⟩

theorem giveUp {e : PatternError} (h : ¬ (V ∧ K)) : Acts V K Q (Pure.pure (.failed e)) s :=
  ⟨fun t ht => by simp at ht, fun _ => .inr (.pure _), fun hV hK => absurd ⟨hV, hK⟩ h⟩

end Acts

theorem tryPatterns_settles : ∀ {patterns : List (Pattern σ)} {s : Session σ}, Rewriting.Quiet patterns →
    (∀ pattern ∈ patterns, Settles (pattern.rewrite i) (Rewriting.located s (s.work.program.op i).loc)) →
      Settles (Rewriting.tryPatterns i patterns) s
  | [], s, _, _ => .inr (.pure _)
  | pattern :: patterns, s, hq, h => by
    rw [Rewriting.tryPatterns]
    refine .bind Looks.program fun _ t ht => ?_
    obtain ⟨rfl, rfl⟩ := Rewriting.program_ok.mp ht
    refine .bind rfl fun _ u hu => ?_
    rw [Rewriting.setLoc_eq] at hu
    cases hu
    rcases h pattern (mem_cons_self ..) with ⟨u, hu⟩ | hl
    · exact .inl ⟨u, by rw [bind_of_ok hu]; rfl⟩
    · refine .bind hl fun o u hu => ?_
      cases o with
      | applied => exact .inl ⟨u, rfl⟩
      | failed e => exact .inr (.pure _)
      | noMatch =>
        obtain rfl := hq pattern (mem_cons_self ..) _ _ _ hu
        exact tryPatterns_settles (fun x hx => hq x (mem_cons_of_mem _ hx))
          fun x hx => h x (mem_cons_of_mem _ hx)

theorem attempt_settles {patterns : List (Pattern σ)} (b : BlockId) (place : Nat) (hq : Rewriting.Quiet patterns)
    (h : ∀ pattern ∈ patterns, pattern.kind = (s.work.program.op i).name →
      Settles (pattern.rewrite i) (Rewriting.placed s b place (s.work.program.op i).loc)) :
    (∃ t, attempt patterns i s b place = .ok .applied t) ∨
      (left (attempt patterns i s b place)).work.program = s.work.program := by
  refine Settles.bind Looks.program fun _ t ht => ?_
  obtain ⟨rfl, rfl⟩ := Rewriting.program_ok.mp ht
  refine tryPatterns_settles (fun x hx => hq x (mem_filter.mp hx).1) fun x hx => ?_
  obtain ⟨hx, hk⟩ := mem_filter.mp hx
  exact h x hx (of_decide_eq_true hk)

theorem attempt_applies {patterns : List (Pattern σ)} (b : BlockId) (place : Nat)
    (hex : ∃ pattern ∈ patterns, pattern.kind = (s.work.program.op i).name)
    (h : ∀ pattern ∈ patterns, pattern.kind = (s.work.program.op i).name →
      Applies (pattern.rewrite i) (Rewriting.placed s b place (s.work.program.op i).loc)) :
    ∃ t, attempt patterns i s b place = .ok .applied t := by
  refine Applies.of_ok (Rewriting.program_ok.mpr ⟨rfl, rfl⟩) ?_
  cases hf : patterns.filter (·.kind = (s.work.program.op i).name) with
  | nil =>
    obtain ⟨x, hx, hk⟩ := hex
    simpa [hk] using filter_eq_nil_iff.mp hf x hx
  | cons x xs =>
    obtain ⟨hx, hk⟩ := mem_filter.mp (show x ∈ patterns.filter _ from hf ▸ mem_cons_self ..)
    obtain ⟨t, ht⟩ := h x hx (of_decide_eq_true hk)
    show Applies (Rewriting.tryPatterns i (patterns.filter (·.kind = (s.work.program.op i).name))) _
    rw [hf, Rewriting.tryPatterns]
    refine .of_ok (Rewriting.program_ok.mpr ⟨rfl, rfl⟩) (.of_ok (Rewriting.setLoc_eq ..) ?_)
    exact .of_ok ht ⟨t, rfl⟩

end Rewrite

end Offload
