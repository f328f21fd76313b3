import Offload.IR.Clone
import Offload.Rewrite.Session

/-!
# Computations that succeed

Edits, builders and sessions all keep a state and may stop with a fault. These lemmas take a successful
computation apart into its successful steps, so that later proofs never look at a bind.
-/

namespace Offload

open List

section
variable {ε σ α β : Type} {s t u : σ}

@[simp] theorem bind_ok {x : EStateM ε σ α} {f : α → EStateM ε σ β} {b : β} :
    (x >>= f) s = .ok b u ↔ ∃ a t, x s = .ok a t ∧ f a t = .ok b u := by
  constructor
  · intro h
    simp only [bind, EStateM.bind] at h
    split at h
    · exact ⟨_, _, ‹_›, h⟩
    · cases h
  · rintro ⟨a, t, hx, hf⟩
    simp only [bind, EStateM.bind, hx, hf]

theorem bind_of_ok {x : EStateM ε σ α} {f : α → EStateM ε σ β} {a : α} (h : x s = .ok a t) :
    (x >>= f) s = f a t := by
  simp only [bind, EStateM.bind, h]

theorem bind_of_error {x : EStateM ε σ α} {f : α → EStateM ε σ β} {e : ε} (h : x s = .error e t) :
    (x >>= f) s = .error e t := by
  simp only [bind, EStateM.bind, h]

@[simp] theorem pure_ok {a b : α} : (pure a : EStateM ε σ α) s = .ok b t ↔ a = b ∧ s = t := by
  simp [pure, EStateM.pure]

@[simp] theorem map_ok {f : α → β} {x : EStateM ε σ α} {b : β} :
    (f <$> x) s = .ok b t ↔ ∃ a, x s = .ok a t ∧ f a = b := by
  simp only [Functor.map, EStateM.map]
  cases x s with
  | ok a t => simp [and_comm, and_assoc]
  | error e t => simp

@[simp] theorem throw_ok {e : ε} {b : α} : (throw e : EStateM ε σ α) s = .ok b t ↔ False := by
  show (.error e s : EStateM.Result ε σ α) = .ok b t ↔ False
  simp

@[simp] theorem get_ok {a : σ} : (get : EStateM ε σ σ) s = .ok a t ↔ a = s ∧ t = s := by
  show (.ok s s : EStateM.Result ε σ σ) = .ok a t ↔ _
  simp [eq_comm]

@[simp] theorem getThe_ok {a : σ} : (getThe σ : EStateM ε σ σ) s = .ok a t ↔ a = s ∧ t = s :=
  get_ok

@[simp] theorem modify_ok {f : σ → σ} {a : Unit} : (modify f : EStateM ε σ Unit) s = .ok a t ↔ t = f s := by
  show (.ok () (f s) : EStateM.Result ε σ Unit) = .ok a t ↔ _
  simp [eq_comm]

@[simp] theorem discard_ok {x : EStateM ε σ α} {b : Unit} :
    (discard x) s = .ok b t ↔ ∃ a, x s = .ok a t := by
  simp only [discard, Functor.mapConst, EStateM.map, Function.comp]
  cases x s <;> simp

theorem ite_ok {c : Prop} [Decidable c] {x y : EStateM ε σ α} {b : α} :
    (if c then x else y) s = .ok b t ↔ (c ∧ x s = .ok b t) ∨ (¬ c ∧ y s = .ok b t) := by
  split <;> simp [*]

theorem forM_nil_ok {f : α → EStateM ε σ Unit} {x : Unit} : ([] : List α).forM f s = .ok x t ↔ s = t := by
  simp [forM_eq_forM]

theorem forM_cons_ok {f : α → EStateM ε σ Unit} {a : α} {l : List α} {x : Unit} :
    (a :: l).forM f s = .ok x u ↔ ∃ t, f a s = .ok () t ∧ l.forM f t = .ok x u := by
  rw [forM_eq_forM, forM_cons, bind_ok]
  exact ⟨fun ⟨_, t, h⟩ => ⟨t, h⟩, fun ⟨t, h⟩ => ⟨(), t, h⟩⟩

theorem forM_keeps {P : σ → Prop} {f : α → EStateM ε σ Unit}
    (step : ∀ a s t, P s → f a s = .ok () t → P t) :
    ∀ (l : List α) (s t : σ), P s → l.forM f s = .ok () t → P t
  | [], s, t, hs, h => by
    exact forM_nil_ok.mp h ▸ hs
  | a :: l, s, t, hs, h => by
    obtain ⟨m, h1, h2⟩ := forM_cons_ok.mp h
    exact forM_keeps step l m t (step a s m hs h1) h2

end

theorem mem_of_lookup {α β : Type} [BEq α] [LawfulBEq α] {l : List (α × β)} {a : α} {b : β}
    (h : l.lookup a = some b) : (a, b) ∈ l := by
  obtain ⟨l₁, l₂, rfl, -⟩ := lookup_eq_some_iff.mp h
  simp

/-! ## Results without a state -/

section
variable {ε α β : Type}

theorem except_bind_ok {x : Except ε α} {f : α → Except ε β} {b : β} :
    (x >>= f) = .ok b ↔ ∃ a, x = .ok a ∧ f a = .ok b := by
  cases x <;> simp [bind, Except.bind]

theorem except_pure_ok {a b : α} : (pure a : Except ε α) = .ok b ↔ a = b := by
  simp [pure, Except.pure]

theorem except_map_ok {f : α → β} {x : Except ε α} {b : β} :
    x.map f = .ok b ↔ ∃ a, x = .ok a ∧ f a = b := by
  cases x <;> simp [Except.map]

def ComesTo (good bad : α → Prop) (l : List α) : Prop :=
  ∃ before x after, l = before ++ x :: after ∧ (∀ y ∈ before, good y) ∧ bad x

theorem comesTo_nil {good bad : α → Prop} : ¬ ComesTo good bad [] := by
  rintro ⟨before, x, after, h, _⟩
  simp at h

theorem comesTo_cons {good bad : α → Prop} {x : α} {l : List α} :
    ComesTo good bad (x :: l) ↔ bad x ∨ good x ∧ ComesTo good bad l := by
  constructor
  · rintro ⟨before, y, after, h, hgood, hbad⟩
    cases before with
    | nil =>
      obtain ⟨rfl, rfl⟩ := List.cons.inj h
      exact .inl hbad
    | cons z before =>
      obtain ⟨rfl, rfl⟩ := List.cons.inj h
      exact .inr ⟨hgood x mem_cons_self, before, y, after, rfl, fun z hz => hgood z (mem_cons_of_mem _ hz), hbad⟩
  · rintro (hbad | ⟨hgood, before, y, after, rfl, hall, hbad⟩)
    · exact ⟨[], x, l, rfl, by simp, hbad⟩
    · exact ⟨x :: before, y, after, rfl, by simpa using ⟨hgood, hall⟩, hbad⟩

end

end Offload
