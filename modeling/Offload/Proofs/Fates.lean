import Offload.Execution.Transfer
import Offload.Proofs.AffineValues
import Offload.Proofs.Outcome

/-!
# Where elements go

A map may send an element to a slot that no buffer has. A slot behind the end of a buffer is reported; a worker
outside of the workgroup and a slot before the start are faults. A transfer of many elements ends with the first
that has no slot.
-/

namespace Offload

open List

variable {buffers : Array Tensor} {dims : List Int} {m : Affine.Map} {target : Nat × Nat} {α : Type}

theorem Affine.Map.length_evalFrom : ∀ {es : List Affine.Expr} {values : List Int}
    {index : Nat}, m.evalFrom dims index es = .ok values → values.length = es.length
  | [], _, _, h => by
    cases h
    rfl
  | e :: es, values, index, h => by
    rw [evalFrom] at h
    cases he : e.eval dims with
    | error _ => simp [he] at h
    | ok x =>
      simp only [he, except_bind_ok, except_pure_ok] at h
      obtain ⟨rest, hrest, rfl⟩ := h
      rw [length_cons, length_cons, length_evalFrom hrest]

theorem Affine.Map.length_eval {dims values : List Int} (h : m.eval dims = .ok values) :
    values.length = m.results.length := by
  rw [eval] at h
  split at h
  · exact length_evalFrom h
  · cases h

namespace Transfer

def room (buffers : Array Tensor) : List Nat := buffers.toList.map (·.data.size)

structure Route where
  map : Affine.Map
  layout : Shape
  extents : List Int
  room : List Nat

/-- The element goes to a slot that is there. -/
def Placed (r : Route) (indices : List Int) (target : Nat × Nat) : Prop :=
  locate r.map r.layout r.extents indices = .ok (target.1, target.2) ∧
    ∃ n, r.room[target.1]? = some n ∧ target.2 < n

/-- The element goes to a worker that is not there, or before the start of a buffer. -/
def Strays (r : Route) (indices : List Int) : Prop :=
  ∃ worker slot : Int, locate r.map r.layout r.extents indices = .ok (worker, slot) ∧
    (worker < 0 ∨ (r.room.length : Int) ≤ worker ∨ slot < 0)

/-- What comes of an element: it has a slot that is there, it is reported, or it strays and that is a fault. -/
inductive Fate {α : Type} (r : Route) (indices : List Int) (good : Nat × Nat → α → Prop)
    (x : Result α) : Prop where
  | placed (target : Nat × Nat) (a : α) (h : Placed r indices target) (hx : x = .ok a)
    (ha : ∀ a', good target a' ↔ a' = a)
  | reported (e : TransferError) (h : ∀ target, ¬ Placed r indices target) (hs : ¬ Strays r indices)
    (hx : x = .error (.error e))
  | stray (h : Strays r indices) (hx : x = .error (.fault .crash))

section
variable {r : Route} {map : Affine.Map} {layout : Shape} {extents : List Int} {indices : List Int}

theorem Placed.eq {target target' : Nat × Nat} (h : Placed r indices target) (h' : Placed r indices target') :
    target' = target := by
  have := h.1.symm.trans h'.1
  simp only [Except.ok.injEq, Prod.mk.injEq, Int.natCast_inj] at this
  exact (Prod.ext this.1 this.2).symm

theorem Placed.not_strays (h : Placed r indices target) : ¬ Strays r indices := by
  rintro ⟨worker, slot, hlocate, hout⟩
  obtain ⟨n, hn, _⟩ := h.2
  have hlt := (List.getElem?_eq_some_iff.mp hn).1
  have := h.1.symm.trans hlocate
  simp only [Except.ok.injEq, Prod.mk.injEq] at this
  omega

theorem bufferOf_cases (buffers : Array Tensor) (worker : Int) :
    (∃ (w : Nat) (b : Tensor), worker = w ∧ buffers[w]? = some b ∧ bufferOf buffers worker = .ok b) ∨
      (worker < 0 ∨ (buffers.size : Int) ≤ worker) ∧ bufferOf buffers worker = .error (.fault .crash) := by
  unfold bufferOf
  by_cases h : 0 ≤ worker ∧ worker < buffers.size
  · obtain ⟨w, rfl⟩ := Int.eq_ofNat_of_zero_le h.1
    have hw : w < buffers.size := by omega
    exact .inl ⟨w, buffers[w], rfl, by simp [hw], by simp [hw]⟩
  · refine .inr ⟨by omega, ?_⟩
    have hnone : (if 0 ≤ worker then buffers[worker.toNat]? else none) = none := by
      split
      · exact Array.getElem?_eq_none (by omega)
      · rfl
    rw [hnone]

theorem getElem?_room {w : Nat} {b : Tensor} (h : buffers[w]? = some b) :
    (room buffers)[w]? = some b.data.size := by
  simp [room, h]

theorem fate_of {good : Nat × Nat → α → Prop} {f : Int → Int → Tensor → Result α}
    (hlocate : ∀ c, locate map layout extents indices ≠ .error (.fault c))
    (hbehind : ∀ w b s, (b.data.size : Int) ≤ s → ∃ e, f w s b = .error (.error e))
    (hbefore : ∀ w b s, s < 0 → f w s b = .error (.fault .crash))
    (hthere : ∀ (w s : Nat) b, buffers[w]? = some b → s < b.data.size →
      ∃ a, f w s b = .ok a ∧ ∀ a', good (w, s) a' ↔ a' = a) :
    Fate ⟨map, layout, extents, room buffers⟩ indices good (do
      let (worker, slot) ← locate map layout extents indices
      let b ← bufferOf buffers worker
      f worker slot b) := by
  cases hl : locate map layout extents indices with
  | error e =>
    cases e with
    | error e =>
      refine .reported e (fun target h => ?_) ?_ rfl
      · cases hl.symm.trans h.1
      · rintro ⟨_, _, h, _⟩
        cases hl.symm.trans h
    | fault c => exact absurd hl (hlocate c)
  | ok x =>
    obtain ⟨worker, slot⟩ := x
    rcases bufferOf_cases buffers worker with ⟨w, b, rfl, hb, hbuf⟩ | ⟨hout, hbuf⟩
    · have hx : (do let b ← bufferOf buffers w; f w slot b : Result α) = f w slot b := by rw [hbuf]; rfl
      have hroom := getElem?_room hb
      rcases lt_or_ge slot 0 with hneg | h0
      · exact .stray ⟨_, _, hl, .inr (.inr hneg)⟩ (hx.trans (hbefore w b slot hneg))
      obtain ⟨s, rfl⟩ := Int.eq_ofNat_of_zero_le h0
      by_cases hs : s < b.data.size
      · obtain ⟨a, ha, hgood⟩ := hthere w s b hb hs
        exact .placed (w, s) a ⟨hl, _, hroom, hs⟩ (hx.trans ha) hgood
      · obtain ⟨e, he⟩ := hbehind w b s (by omega)
        refine .reported e (fun target h => ?_) ?_ (hx.trans he)
        · have := hl.symm.trans h.1
          simp only [Except.ok.injEq, Prod.mk.injEq, Int.natCast_inj] at this
          obtain ⟨n, hn, hlt⟩ := h.2
          rw [← this.1, hroom, Option.some.injEq] at hn
          omega
        · rintro ⟨worker, slot, h, hout⟩
          have := hl.symm.trans h
          simp only [Except.ok.injEq, Prod.mk.injEq] at this
          have := (List.getElem?_eq_some_iff.mp hroom).1
          dsimp only at hout
          omega
    · have hx : (do let b ← bufferOf buffers worker; f worker slot b : Result α) = .error (.fault .crash) := by
        rw [hbuf]
        rfl
      refine .stray ⟨_, _, hl, ?_⟩ hx
      rw [room, length_map, Array.length_toList]
      exact hout.elim .inl fun h => .inr (.inl h)

theorem locate_ne_fault (hresults : map.results.length = 2 * extents.length) (c : Fault) :
    locate map layout extents indices ≠ .error (.fault c) := by
  simp only [locate]
  cases heval : map.eval (indices.take extents.length ++ List.replicate extents.length 0) with
  | error e => simp [throw, throwThe, MonadExceptOf.throw]
  | ok results =>
    have hlength : ¬ results.length < 2 * extents.length := by rw [Affine.Map.length_eval heval]; omega
    simp [hlength, pure, Except.pure]

variable (layout indices) (buffers : Array Tensor) (hresults : map.results.length = 2 * extents.length)
include hresults

theorem targetOf_fate : Fate ⟨map, layout, extents, room buffers⟩ indices (fun target a => a = target)
    (targetOf map layout extents indices buffers) := by
  refine fate_of (f := fun worker slot b => do
    if (b.data.size : Int) ≤ slot then throw (.error (.goesNowhere indices layout slot worker b.shape))
    if slot < 0 then throw (.fault .crash)
    return (worker.toNat, slot.toNat)) (locate_ne_fault hresults) (fun w b s h => ⟨_, if_pos h⟩) (fun w b s h => ?_)
    fun w s b _ h => ?_
  · rw [if_neg (by omega)]
    exact if_pos h
  · refine ⟨(w, s), ?_, fun _ => .rfl⟩
    rw [if_neg (by omega)]
    exact if_neg (by omega)

def Held (buffers : Array Tensor) (target : Nat × Nat) (x : Float) : Prop :=
  ∃ b, buffers[target.1]? = some b ∧ b.data[target.2]? = some x

theorem elementAt_fate : Fate ⟨map, layout, extents, room buffers⟩ indices (Held buffers)
    (elementAt map layout extents indices buffers) := by
  refine fate_of (f := fun worker slot b => do
    if (b.data.size : Int) ≤ slot then throw (.error (.comesFromNowhere indices layout slot worker b.shape))
    orFault (b.get slot)) (locate_ne_fault hresults) (fun w b s h => ⟨_, if_pos h⟩) (fun w b s h => ?_)
    fun w s b hb h => ?_
  · rw [if_neg (by omega), Tensor.get, if_neg (by omega)]
    rfl
  · refine ⟨b.data[s], ?_, fun x => ?_⟩
    · rw [if_neg (by omega), Tensor.get, if_pos (by omega), Int.toNat_natCast, Array.getElem?_eq_getElem h]
      rfl
    · simp [Held, hb, h, eq_comm]

end

/-! ## Runs -/

/-- A transfer of the listed elements faults if it comes to one that strays. -/
def Lost (r : Route) : List (Nat × List Int) → Prop :=
  ComesTo (fun x => ∃ target, Placed r x.2 target) fun x => Strays r x.2

def Slots (r : Route) : List (Nat × List Int) → List (Nat × Nat) → Prop :=
  Forall₂ fun x target => Placed r x.2 target

section
variable {r : Route} {x : Nat × List Int} {l : List (Nat × List Int)} {target : Nat × Nat}
    {slots : List (Nat × Nat)}

theorem lost_of_placed (h : Placed r x.2 target) : Lost r (x :: l) ↔ Lost r l := by
  rw [Lost, comesTo_cons]
  exact ⟨fun hl => hl.elim (fun hs => absurd hs h.not_strays) (·.2), fun hl => .inr ⟨⟨target, h⟩, hl⟩⟩

theorem slots_of_placed (h : Placed r x.2 target) :
    Slots r (x :: l) slots ↔ ∃ rest, slots = target :: rest ∧ Slots r l rest := by
  rw [Slots, forall₂_cons_left_iff]
  constructor
  · rintro ⟨target', rest, htarget, hrest, rfl⟩
    exact ⟨rest, by rw [h.eq htarget], hrest⟩
  · rintro ⟨rest, rfl, hrest⟩
    exact ⟨target, rest, h, hrest, rfl⟩

theorem not_slots (h : ∀ target, ¬ Placed r x.2 target) : ¬ Slots r (x :: l) slots := by
  rw [Slots, forall₂_cons_left_iff]
  rintro ⟨target, _, htarget, _⟩
  exact h target htarget

theorem mapM_fate {good : Nat × Nat → α → Prop} {f : List Int → Result α}
    (hf : ∀ indices, Fate r indices good (f indices)) : ∀ l : List (Nat × List Int),
    ((∃ c, l.mapM (fun x => f x.2) = .error (.fault c)) ↔ Lost r l) ∧
      ∀ as, l.mapM (fun x => f x.2) = .ok as ↔ ∃ slots, Slots r l slots ∧ Forall₂ good slots as
  | [] => by
    refine ⟨⟨fun h => ?_, fun h => absurd h comesTo_nil⟩, fun as => ?_⟩
    · obtain ⟨c, hc⟩ := h
      cases hc
    · simp [Slots, pure, Except.pure, eq_comm]
  | x :: l => by
    obtain ⟨ihfault, ihok⟩ := mapM_fate hf l
    rw [mapM_cons]
    cases hf x.2 with
    | placed target a h hx ha =>
      simp only [hx, lost_of_placed h, slots_of_placed h, ← ihfault]
      refine ⟨?_, fun as => ?_⟩
      · cases l.mapM fun x => f x.2 <;> simp [bind, Except.bind, pure, Except.pure]
      · rw [except_bind_ok]
        simp only [Except.ok.injEq, except_bind_ok, exists_eq_left', except_pure_ok, ihok]
        constructor
        · rintro ⟨as', ⟨slots, hslots, hgood⟩, rfl⟩
          exact ⟨target :: slots, ⟨slots, rfl, hslots⟩, .cons ((ha a).mpr rfl) hgood⟩
        · rintro ⟨_, ⟨slots, rfl, hslots⟩, hgood⟩
          obtain ⟨a', as', ha', has', rfl⟩ := forall₂_cons_left_iff.mp hgood
          exact ⟨as', ⟨slots, hslots, has'⟩, by rw [(ha a').mp ha']⟩
    | reported e h hs hx =>
      simp only [hx, Lost, comesTo_cons, hs, not_slots h, bind, Except.bind]
      simp [h]
    | stray h hx =>
      have hnone : ∀ target, ¬ Placed r x.2 target := fun target ht => ht.not_strays h
      simp only [hx, Lost, comesTo_cons, h, not_slots hnone, bind, Except.bind]
      simp

def deal (slots : List (Nat × Nat)) (elements : List Float) (buffers : Array Tensor) : Array Tensor :=
  (slots.zip elements).foldl (fun bs x => put bs x.1.1 x.1.2 x.2) buffers

theorem getElem?_put (buffers : Array Tensor) (w slot : Nat) (x : Float) (w' : Nat) :
    (put buffers w slot x)[w']? = buffers[w']?.map fun b =>
      if w = w' then ⟨b.shape, b.data.setIfInBounds slot (b.shape.element.round x)⟩ else b := by
  rw [put, Array.getElem?_modify]
  split <;> simp [*]

theorem room_put (buffers : Array Tensor) (w slot : Nat) (x : Float) : room (put buffers w slot x) = room buffers := by
  refine ext_getElem? fun n => ?_
  simp only [room, getElem?_map, Array.getElem?_toList, getElem?_put, Option.map_map]
  congr 1
  funext b
  simp only [Function.comp_apply]
  split <;> simp

theorem scatterElements_fate {t : Tensor} {map : Affine.Map} {extents : List Int} (layout : Shape)
    (hresults : map.results.length = 2 * extents.length) :
    ∀ {l : List (Nat × List Int)} {elements : List Float} (buffers : Array Tensor),
    Forall₂ (fun x y => t.get x.1 = .ok y) l elements →
    ((∃ c, (scatterElements t map layout extents l buffers).2 = some (.fault c)) ↔
        Lost ⟨map, layout, extents, room buffers⟩ l) ∧
      ∀ result, scatterElements t map layout extents l buffers = (result, none) ↔
        ∃ slots, Slots ⟨map, layout, extents, room buffers⟩ l slots ∧ result = deal slots elements buffers
  | [], [], buffers, _ => by
    refine ⟨⟨fun h => ?_, fun h => absurd h comesTo_nil⟩, fun result => ?_⟩
    · obtain ⟨c, hc⟩ := h
      cases hc
    · simp [Slots, scatterElements, deal, eq_comm]
  | (flat, indices) :: l, y :: elements, buffers, h => by
    obtain ⟨hy, hl⟩ := forall₂_cons.mp h
    rw [scatterElements]
    cases targetOf_fate layout indices buffers hresults with
    | placed target a hp hx ha =>
      obtain rfl : a = target := (ha a).mpr rfl
      have ih := scatterElements_fate layout hresults (put buffers a.1 a.2 y) hl
      rw [room_put] at ih
      simp only [hx, hy, lost_of_placed (x := (flat, indices)) hp,
        slots_of_placed (x := (flat, indices)) hp, ih.1, ih.2]
      refine ⟨trivial, fun result => ⟨?_, ?_⟩⟩
      · rintro ⟨slots, hslots, rfl⟩
        exact ⟨_, ⟨slots, rfl, hslots⟩, rfl⟩
      · rintro ⟨_, ⟨slots, rfl, hslots⟩, rfl⟩
        exact ⟨slots, hslots, rfl⟩
    | reported e hn hs hx =>
      simp only [hx, Lost, comesTo_cons, hs, not_slots (x := (flat, indices)) hn]
      simp [hn]
    | stray hs hx =>
      have hnone : ∀ target, ¬ Placed ⟨map, layout, extents, room buffers⟩ indices target := fun _ ht =>
        ht.not_strays hs
      simp only [hx, Lost, comesTo_cons, hs, not_slots (x := (flat, indices)) hnone]
      simp

end

end Transfer

end Offload
