import Offload.Proofs.Faults
import Offload.Proofs.Outcome

/-!
# What a run leaves alone

`Held` says that two computations do the same on a store, that they leave some cells alone whether they succeed or
not, and what holds if they succeed. Comparing two allows the body of an operation to be run in two ways.
-/

namespace Offload.Execution

open List Exec

variable {e : Stop RunError} {r : Ref}
variable {α β : Type} {K : Nat → Prop} {D : Prop} {s t u : Store}

structure Frame (K : Nat → Prop) (s t : Store) : Prop where
  grows : s.cells.size ≤ t.cells.size
  same : ∀ c, K c → t.cells[c]? = s.cells[c]?

theorem Frame.refl (K : Nat → Prop) (s : Store) : Frame K s s := ⟨Nat.le_refl _, fun _ _ => rfl⟩

theorem Frame.trans (h : Frame K s t) (h' : Frame K t u) : Frame K s u :=
  ⟨Nat.le_trans h.grows h'.grows, fun c hc => (h'.same c hc).trans (h.same c hc)⟩

theorem Frame.mono {K' : Nat → Prop} (h : Frame K' s t) (hk : ∀ c, K c → K' c) : Frame K s t :=
  ⟨h.grows, fun c hc => h.same c (hk c hc)⟩

theorem Frame.push (hk : ∀ c, K c → c < s.cells.size) (data : Array Float) : Frame K s ⟨s.cells.push data⟩ := by
  refine ⟨by simp, fun c hc => ?_⟩
  have := hk c hc
  simp only [Array.getElem?_push]
  rw [if_neg (by omega)]

/-- The ends that a run without a limit never has, if it reads no undefined value in case that `D` holds. -/
def Forbidden (D : Prop) : Stop RunError → Prop
  | .fault .stuck => True
  | .fault (.undefinedValue _ _) => D
  | _ => False

theorem not_forbidden (h : e.isReserved = false) : ¬ Forbidden D e := by
  unfold Forbidden
  split
  · cases h
  · cases h
  · exact id

/-- Two computations that do the same on `s` and leave `K` alone, with `Q` if they succeed. They are never stuck, and if
`D` holds, they read no undefined value. -/
structure Held (K : Nat → Prop) (D : Prop) (Q : α → Store → Prop) (s : Store) (x y : Exec α) : Prop where
  same : x s = y s
  ok : ∀ a t, y s = .ok a t → Frame K s t ∧ Q a t
  error : ∀ e t, y s = .error e t → Frame K s t ∧ ¬ Forbidden D e

abbrev Looks (K : Nat → Prop) (D : Prop) (P : α → Prop) (s : Store) (x : Exec α) : Prop :=
  Held K D (fun a t => t = s ∧ P a) s x x

namespace Held

variable {Q Q' : α → Store → Prop} {R : β → Store → Prop} {x y : Exec α} {f g : α → Exec β}

theorem weaken (h : Held K D Q' s x y) (hq : ∀ a t, Frame K s t → Q' a t → Q a t) : Held K D Q s x y :=
  ⟨h.same, fun a t ht => ⟨(h.ok a t ht).1, hq a t (h.ok a t ht).1 (h.ok a t ht).2⟩, h.error⟩

theorem pure {a : α} (h : Q a s) : Held K D Q s (pure a) (pure a) := by
  refine ⟨rfl, fun b t ht => ?_, fun e t ht => (nomatch ht)⟩
  obtain ⟨rfl, rfl⟩ := EStateM.Result.ok.inj ht
  exact ⟨.refl K s, h⟩

theorem throw (h : ¬ Forbidden D e) : Held K D Q s (throw e) (throw e) := by
  refine ⟨rfl, fun b t ht => (nomatch ht), fun e' t ht => ?_⟩
  obtain ⟨rfl, rfl⟩ := EStateM.Result.error.inj ht
  exact ⟨.refl K s, h⟩

theorem crash : Held K D Q s crash crash := throw id

theorem fail (e : RunError) : Held K D Q s (fail e) (fail e) := throw id

theorem bind (hx : Held K D Q s x y) (hf : ∀ a t, Frame K s t → Q a t → Held K D R t (f a) (g a)) :
    Held K D R s (x >>= f) (y >>= g) := by
  cases hy : y s with
  | ok a t =>
    obtain ⟨hframe, hq⟩ := hx.ok a t hy
    have h := hf a t hframe hq
    have hxs : (x >>= f) s = f a t := bind_of_ok (hx.same.trans hy)
    have hys : (y >>= g) s = g a t := bind_of_ok hy
    refine ⟨by rw [hxs, hys, h.same], fun b u hu => ?_, fun e u hu => ?_⟩
    · obtain ⟨hframe', hr⟩ := h.ok b u (hys ▸ hu)
      exact ⟨hframe.trans hframe', hr⟩
    · obtain ⟨hframe', he⟩ := h.error e u (hys ▸ hu)
      exact ⟨hframe.trans hframe', he⟩
  | error e t =>
    have hxs : (x >>= f) s = .error e t := bind_of_error (hx.same.trans hy)
    have hys : (y >>= g) s = .error e t := bind_of_error hy
    refine ⟨hxs.trans hys.symm, fun b u hu => (nomatch hys.symm.trans hu), fun e' u hu => ?_⟩
    obtain ⟨rfl, rfl⟩ := EStateM.Result.error.inj (hys.symm.trans hu)
    exact hx.error e t hy

theorem stop (hx : Held K D (fun _ _ => False) s x y) : Held K D R s (x >>= f) (y >>= g) := hx.bind nofun

theorem ite {c : Prop} [Decidable c] {x' y' : Exec α} (h : c → Held K D Q s x y) (h' : ¬ c → Held K D Q s x' y') :
    Held K D Q s (if c then x else x') (if c then y else y') := by
  split
  · exact h ‹_›
  · exact h' ‹_›

theorem modify {h : Store → Store} (hf : Frame K s (h s)) :
    Held K D (fun _ t => t = h s) s (modify h : Exec Unit) (modify h) := by
  refine ⟨rfl, fun a t ht => ?_, fun e t ht => (nomatch ht)⟩
  obtain ⟨-, rfl⟩ := EStateM.Result.ok.inj ht
  exact ⟨hf, rfl⟩

theorem alloc (hk : ∀ c, K c → c < s.cells.size) (a : Tensor) :
    Held K D (fun r t => r.cell = s.cells.size ∧ t.cells.size = s.cells.size + 1) s (alloc a)
      (alloc a) := by
  refine ⟨rfl, fun r t ht => ?_, fun e t ht => (nomatch ht)⟩
  obtain ⟨rfl, rfl⟩ := EStateM.Result.ok.inj ht
  exact ⟨.push hk _, rfl, by simp⟩

theorem load_of_some {data : Array Float} (h : s.cells[r.cell]? = some data) :
    load r s = .ok ⟨r.shape, data⟩ s := by
  have hget : (get : Exec Store) s = .ok s s := rfl
  rw [load, bind_of_ok hget, h]
  rfl

end Held

namespace Looks

variable {P : α → Prop} {R : β → Store → Prop} {x : Exec α} {f g : α → Exec β}

theorem pure {a : α} (h : P a) : Looks K D P s (pure a) := Held.pure ⟨rfl, h⟩

theorem next (hx : Looks K D P s x) (hf : ∀ a, P a → Held K D R s (f a) (g a)) : Held K D R s (x >>= f) (x >>= g) :=
  hx.bind fun a _ _ h => h.1 ▸ hf a h.2

theorem any (hx : Looks K D P s x) : Looks K D (fun _ => True) s x := hx.weaken fun _ _ _ h => ⟨h.1, trivial⟩

theorem ofExcept {a : Except Fault α} (ha : Spares Fault.isReserved a) :
    Looks K D (fun b => a = .ok b) s (ofExcept a) := by
  cases a with
  | ok b => exact .pure rfl
  | error e => exact Held.throw (not_forbidden (ha e rfl))

theorem load (r : Ref) : Looks K D (fun _ => True) s (load r) := by
  have hget : Looks K D (· = s) s (get : Exec Store) := by
    refine ⟨rfl, fun a t ht => ?_, fun e t ht => nomatch ht⟩
    obtain ⟨rfl, rfl⟩ := EStateM.Result.ok.inj ht
    exact ⟨.refl K _, rfl, rfl⟩
  refine hget.next fun s' _ => ?_
  cases s'.cells[r.cell]? with
  | none => exact .crash
  | some data => exact Looks.pure trivial

theorem element (r : Ref) (i : Int) : Looks K D (fun _ => True) s (element r i) :=
  (load r).next fun _ _ => (ofExcept (spares_get _ _)).any

theorem discard (hx : Looks K D P s x) : Looks K D (fun _ => True) s (discard x) :=
  hx.next (f := fun _ => Pure.pure ()) (g := fun _ => Pure.pure ()) fun _ _ => Looks.pure trivial

theorem view (r : Ref) (dims : List Int) : Looks K D (fun r' => r'.cell = r.cell) s (view r dims) :=
  (load r).next fun _ _ => (ofExcept (spares_viewShape _ _)).next fun _ _ => Looks.pure rfl

theorem mapM {P : β → Prop} : ∀ {l : List α}, (∀ a ∈ l, Looks K D P s (f a)) →
    Looks K D (fun bs => bs.length = l.length ∧ ∀ b ∈ bs, P b) s (l.mapM f)
  | [], _ => by
    rw [mapM_nil]
    exact .pure ⟨rfl, nofun⟩
  | a :: l, h => by
    rw [mapM_cons]
    refine (h a mem_cons_self).next fun b hb => ?_
    refine (mapM fun a' ha' => h a' (mem_cons_of_mem _ ha')).next fun bs hbs => Looks.pure ⟨?_, ?_⟩
    · rw [length_cons, length_cons, hbs.1]
    · exact forall_mem_cons.mpr ⟨hb, hbs.2⟩

end Looks

namespace Held

theorem setElement (hr : ¬ K r.cell) (i : Int) (v : Float) :
    Held K D (fun _ _ => True) s (setElement r i v) (setElement r i v) := by
  refine (Looks.element r i).discard.next fun _ _ => ?_
  refine (modify ⟨by simp, fun c hc => ?_⟩).weaken fun _ _ _ _ => trivial
  simp only [Array.getElem?_modify]
  rw [if_neg fun (he : r.cell = c) => hr (he ▸ hc)]

theorem store (hr : ¬ K r.cell) (data : Array Float) :
    Held K D (fun _ _ => True) s (store r data) (store r data) := by
  refine (modify ⟨by simp, fun c hc => ?_⟩).weaken fun _ _ _ _ => trivial
  simp only [Array.getElem?_setIfInBounds]
  rw [if_neg fun (he : r.cell = c) => hr (he ▸ hc)]

theorem mapM_new {f g : α → Exec Ref} : ∀ {l : List α} {s : Store}, (∀ c, K c → c < s.cells.size) →
    (∀ a ∈ l, ∀ t, s.cells.size ≤ t.cells.size →
      Held K D (fun r u => r.cell = t.cells.size ∧ u.cells.size = t.cells.size + 1) t (f a) (g a)) →
      Held K D (fun rs t => rs.length = l.length ∧ rs.map Ref.cell = List.range' s.cells.size l.length ∧
        t.cells.size = s.cells.size + l.length) s (l.mapM f) (l.mapM g)
  | [], s, _, _ => by
    rw [mapM_nil, mapM_nil]
    exact .pure ⟨rfl, rfl, rfl⟩
  | a :: l, s, hk, h => by
    rw [mapM_cons, mapM_cons]
    refine (h a mem_cons_self s (Nat.le_refl _)).bind fun r t _ hr => ?_
    have hrest := mapM_new (l := l) (s := t) (fun c hc => by have := hk c hc; omega)
      fun a' ha' u hu => h a' (mem_cons_of_mem _ ha') u (by omega)
    refine hrest.bind fun rs u _ hrs => .pure ⟨by simp [hrs.1], ?_, ?_⟩
    · rw [map_cons, hrs.2.1, hr.1, hr.2, length_cons, range'_succ]
    · rw [hrs.2.2, hr.2, length_cons]
      omega

theorem forM {f g : α → Exec Unit} : ∀ {l : List α} {s : Store},
    (∀ a ∈ l, ∀ t, Held K D (fun _ _ => True) t (f a) (g a)) →
      Held K D (fun _ _ => True) s (l.forM f) (l.forM g)
  | [], _, _ => .pure trivial
  | a :: _, s, h => (h a mem_cons_self s).bind fun _ _ _ _ => forM fun a' ha' => h a' (mem_cons_of_mem _ ha')

end Held

end Offload.Execution
