import Offload.Proofs.Bookkeeping

/-!
# Calls that fail

A call that fails changes nothing if it looks at everything before it changes anything. Two calls do not: a new
operation takes its operands one by one, and an operation that is moved leaves its block before its new place is
looked up. The lists agree all the same.
-/

namespace Offload

open Program List Option

variable {e : Fault} {name : String} {x : Call} {α : Type}

section
variable {ε σ α β : Type} {s t u : σ} {e : ε}

theorem bind_error {x : EStateM ε σ α} {f : α → EStateM ε σ β} : (x >>= f) s = .error e u ↔
    x s = .error e u ∨ ∃ a t, x s = .ok a t ∧ f a t = .error e u := by
  simp only [bind, EStateM.bind]
  cases x s <;> simp

theorem throw_error {e' : ε} (h : (throw e' : EStateM ε σ α) s = .error e t) : t = s := by
  cases h
  rfl

end

namespace Edit

variable {p q : Program} {i : OpId} {b : BlockId} {e : Fault}

theorem setOperand_error {k : Int} {s : Slot} (h : setOperand i k s p = .error e q) : q = p := by
  rw [setOperand, bind_of_ok (getOp_ok.mpr ⟨rfl, rfl⟩)] at h
  cases s with
  | none => exact throw_error h
  | some v =>
    rcases hold : (if k < 0 then none else (p.op i).operands[k.toNat]?) with _ | _ | old <;> simp only [hold] at h
    · exact throw_error h
    · exact throw_error h
    · rcases bind_error.mp h with h | ⟨_, _, _, h⟩
      · rw [removeUse, bind_of_ok (getValue_ok.mpr ⟨rfl, rfl⟩)] at h
        split at h
        · cases h
        · exact throw_error h
      · cases h

theorem insertAt_error {place : Nat} (h : insertAt b place i p = .error e q) : q = p := by
  rw [insertAt, bind_of_ok (getOp_ok.mpr ⟨rfl, rfl⟩)] at h
  split at h
  · exact throw_error h
  · simp only at h
    rw [bind_of_ok (getBlock_ok.mpr ⟨rfl, rfl⟩)] at h
    split at h
    · exact throw_error h
    · cases h

theorem append_error (h : append b i p = .error e q) : q = p := by
  rw [append, bind_of_ok (getBlock_ok.mpr ⟨rfl, rfl⟩)] at h
  exact insertAt_error h

theorem erase_error (hp : p.Consistent) (h : erase i p = .error e q) : q = p := by
  cases hf : p.firstUsed? i with
  | some x =>
    rw [erase, bind_of_ok (get_ok.mpr ⟨rfl, rfl⟩), bind_of_ok (get_ok.mpr ⟨rfl, rfl⟩)] at h
    simp only [hf] at h
    rw [bind_of_ok (getOp_ok.mpr ⟨rfl, rfl⟩)] at h
    exact throw_error h
  | none =>
    rw [firstUsed?, map_eq_none_iff, List.find?_eq_none] at hf
    obtain ⟨a, t, hok⟩ := erase_succeeds (i := i) hp (any_eq_false.mpr hf)
    rw [hok] at h
    cases h

theorem moveBefore_error {other : OpId} (hp : p.Consistent) (h : moveBefore i other p = .error e q) :
    detach i p = .ok () q := by
  obtain ⟨_, m, hm⟩ := detach_succeeds (i := i) hp
  rw [moveBefore, bind_of_ok hm, bind_of_ok (getOp_ok.mpr ⟨rfl, rfl⟩)] at h
  cases hb : (m.op other).block with
  | none =>
    simp only [hb] at h
    rwa [throw_error h]
  | some b =>
    obtain ⟨n, hn⟩ := placeIn_succeeds ((detach_ok hp hm).consistent hp) hb
    simp only [hb, bind_of_ok hn] at h
    rwa [insertAt_error h]

/-! ## New operations -/

theorem connectAll_error : ∀ {ss : List Slot} {k : Nat} {p : Program},
    connectAll i name k ss p = .error e q →
      ∃ front rest, ss = front ++ none :: rest ∧ connectAll i name k front p = .ok () q
  | [], _, _, h => by cases h
  | none :: ss, k, p, h => ⟨[], ss, rfl, by rw [throw_error h]; rfl⟩
  | some v :: ss, k, p, h => by
    rw [connectAll, bind_of_ok (a := ()) (connect_ok.mpr rfl)] at h
    obtain ⟨front, rest, rfl, hok⟩ := connectAll_error h
    exact ⟨some v :: front, rest, rfl, by rw [connectAll, bind_of_ok (a := ()) (connect_ok.mpr rfl), hok]⟩

theorem newResults_error : ∀ {rs : List (Option Ty)} {k : Nat} {p : Program},
    newResults i name k rs p = .error e q → ∃ front vs, newResults i name k front p = .ok vs q
  | [], _, _, h => by cases h
  | r :: rs, k, p, h => by
    rw [newResults] at h
    cases hr : r.bind Ty.present? with
    | none =>
      simp only [hr] at h
      exact ⟨[], [], by rw [throw_error h]; rfl⟩
    | some t =>
      simp only [hr] at h
      rw [bind_of_ok (pushValue_ok.mpr ⟨rfl, rfl⟩)] at h
      rcases bind_error.mp h with h | ⟨_, _, _, h⟩
      · obtain ⟨front, vs, hok⟩ := newResults_error h
        refine ⟨r :: front, ⟨p.values.size⟩ :: vs, ?_⟩
        rw [newResults]
        simp only [hr]
        rw [bind_of_ok (pushValue_ok.mpr ⟨rfl, rfl⟩), bind_of_ok hok]
        rfl
      · cases h

/-- The next number was given to an operation that holds `front`, and nothing else that is there has changed. -/
structure Begun (front : List Slot) (p q : Program) : Prop where
  filled : none ∉ front
  values : p.values.size ≤ q.values.size
  other : ∀ j, j ≠ ⟨p.ops.size⟩ → q.op j = p.op j
  self : (q.op ⟨p.ops.size⟩).block = none
  slots : ∀ (n : Nat) v, (q.op ⟨p.ops.size⟩).operands[n]? = some (some v) ↔ front[n]? = some (some v)
  block : ∀ b, q.block b = p.block b
  uses : ∀ v u, (q.value v).uses.count u = (p.value v).uses.count u +
    if u.op = ⟨p.ops.size⟩ ∧ front[u.index]? = some (some v) then 1 else 0
  value : front = [] → ∀ v, p.HasValue v → q.value v = p.value v

namespace Begun

variable {front : List Slot} {m : Program}

theorem connect {o : Op} (ss : List Slot) (ho : o.operands = ss.map fun _ => none)
    (hb : o.block = none) (hlen : front.length ≤ ss.length) (hs : ∀ v, some v ∈ front → p.HasValue v)
    (h : connectAll ⟨p.ops.size⟩ name 0 front (p.addOp o) = .ok () q) : Begun front p q := by
  obtain ⟨hnone, hc⟩ := connectAll_ok front 0 ((hasOp_addOp ..).mpr (.inr rfl)) (fun v hv => by
    simpa using hs v hv) h
  have hself : (p.addOp o).op ⟨p.ops.size⟩ = o := by rw [op_addOp, if_pos rfl]
  obtain ⟨l, hl, hl'⟩ := hc.self
  rw [hself] at hl hl'
  refine ⟨hnone, Nat.le_of_eq hc.values.symm, fun j hj => ?_, by rw [hl, hb], fun n v => ?_, fun b => ?_,
    fun v u => ?_, ?_⟩
  · rw [hc.other j hj, op_addOp, if_neg hj]
  · rw [hl]
    simp only [hl' n, ho, length_map, getElem?_map]
    by_cases hn : n < front.length
    · simp [hn, show n < ss.length by omega]
    · simp [hn]
  · rw [Program.block, hc.blocks]
    rfl
  · rw [hc.uses]
    simp
  · rintro rfl v -
    cases h
    rfl

theorem results {k : Nat} {ts : List Ty} (h : Begun front p m) (hr : Resulted ⟨p.ops.size⟩ k ts m q) :
    Begun front p q where
  filled := h.filled
  values := Nat.le_trans h.values (by rw [hr.values]; omega)
  other j hj := by rw [op, hr.ops]; exact h.other j hj
  self := by rw [op, hr.ops]; exact h.self
  slots n v := by rw [op, hr.ops]; exact h.slots n v
  block b := by rw [Program.block, hr.blocks]; exact h.block b
  uses v u := by rw [hr.uses, h.uses]
  value hf v hv := by rw [hr.old v (Nat.lt_of_lt_of_le hv h.values), h.value hf v hv]

theorem setResults (h : Begun front p m) (vs : List ValueId) :
    Begun front p (m.withOp ⟨p.ops.size⟩ fun o => { o with results := vs }) where
  filled := h.filled
  values := h.values
  other j hj := by rw [op_withOp, if_neg fun hc => hj hc.1, h.other j hj]
  self := by
    rw [op_withOp]
    split <;> exact h.self
  slots n v := by
    rw [op_withOp]
    split <;> exact h.slots n v
  block := h.block
  uses := h.uses
  value := h.value

theorem consistent (h : Begun front p q) (hp : p.Consistent) : q.Consistent :=
  hp.withNew (i := ⟨p.ops.size⟩) (op_of_not_hasOp (Nat.lt_irrefl _))
    (fun v u => by rw [h.uses]; simp only [h.slots])
    (fun j hj => by rw [h.other j hj]; exact ⟨rfl, rfl⟩) h.self h.block

end Begun

/-- A failed attempt at a new operation got as far as the first empty operand. -/
theorem newOp_error {s : Spec} (hs : ∀ v, some v ∈ s.operands → p.HasValue v) (h : newOp s p = .error e q) :
    '.' ∉ s.name.toList ∧ q = p ∨ '.' ∈ s.name.toList ∧
      ∃ front, (front = s.operands ∨ ∃ rest, s.operands = front ++ none :: rest) ∧ Begun front p q := by
  rw [newOp] at h
  cases hdot : s.name.toList.contains '.' with
  | false =>
    simp only [hdot] at h
    exact .inl ⟨by simpa using hdot, throw_error h⟩
  | true =>
    simp only [hdot, if_true] at h
    rw [bind_of_ok (pushOp_ok.mpr ⟨rfl, rfl⟩)] at h
    refine .inr ⟨by simpa using hdot, ?_⟩
    rcases bind_error.mp h with h | ⟨_, m, hm, h⟩
    · obtain ⟨front, rest, hss, hok⟩ := connectAll_error h
      exact ⟨front, .inr ⟨rest, hss⟩, .connect s.operands rfl rfl (by simp [hss])
        (fun v hv => hs v (hss ▸ mem_append_left _ hv)) hok⟩
    · have hm : Begun s.operands p m := .connect s.operands rfl rfl (Nat.le_refl _) hs hm
      refine ⟨_, .inl rfl, ?_⟩
      rcases bind_error.mp h with h | ⟨vs, t, ht, h⟩
      · obtain ⟨front, vs, hok⟩ := newResults_error h
        obtain ⟨ts, -, -, -, hr⟩ := newResults_ok front 0 hok
        exact hm.results hr
      · obtain ⟨ts, -, -, -, hr⟩ := newResults_ok s.results 0 ht
        rw [bind_of_ok (a := ()) (modifyOp_ok.mpr rfl)] at h
        cases hn : checkLength s.regions with
        | error _ =>
          simp only [hn] at h
          exact throw_error h ▸ (hm.results hr).setResults vs
        | ok n =>
          simp only [hn] at h
          cases h

end Edit

/-! ## What is left behind -/

/-- Everything that is in `p` is in `q` as it was. -/
structure Intact (p q : Program) : Prop where
  op : ∀ i, p.HasOp i → q.op i = p.op i
  block : ∀ b, p.HasBlock b → q.block b = p.block b
  value : ∀ v, p.HasValue v → q.value v = p.value v

namespace Intact

variable {p q : Program} {i : OpId}

theorem refl (p : Program) : Intact p p := ⟨fun _ _ => rfl, fun _ _ => rfl, fun _ _ => rfl⟩

theorem begun_iff {front : List Slot} (h : Edit.Begun front p q) (hs : ∀ v, some v ∈ front → p.HasValue v) :
    Intact p q ↔ front = [] := by
  constructor
  · intro hi
    cases front with
    | nil => rfl
    | cons x front =>
      cases x with
      | none => exact absurd mem_cons_self h.filled
      | some v =>
        have huses := h.uses v ⟨⟨p.ops.size⟩, 0⟩
        rw [hi.value v (hs v mem_cons_self)] at huses
        simp at huses
  · intro hf
    refine ⟨fun j hj => h.other j ?_, fun b _ => h.block b, h.value hf⟩
    rintro rfl
    exact absurd hj (Nat.lt_irrefl _)

theorem detach_iff (hp : p.Consistent) (h : Edit.detach i p = .ok () q) : Intact p q ↔ (p.op i).block = none := by
  constructor
  · intro hi
    by_contra hb
    obtain ⟨b, hb⟩ := ne_none_iff_exists'.mp hb
    rw [← hi.op i (hasOp_of_block hb), (Edit.detach_ok hp h).self] at hb
    cases hb
  · intro hb
    rw [Edit.detach, bind_of_ok (Edit.getOp_ok.mpr ⟨rfl, rfl⟩), hb] at h
    cases h
    exact refl p

end Intact

namespace Call

/-- The calls that change one operation, or make one. -/
def Single : Call → Prop
  | newOp _ | setOperand _ _ _ | append _ _ | moveBefore _ _ | erase _ => True
  | _ => False

/-- If the call fails, it does so before it has changed anything. -/
def Guarded (p : Program) : Call → Prop
  | newOp s => '.' ∉ s.name.toList ∨ ∀ v, s.operands.head? ≠ some (some v)
  | moveBefore i _ => (p.op i).block = none
  | _ => True

/-- Where a call that fails leaves off. -/
def failure (x : Call) (c : Construction) : Option Construction :=
  match x.run c with
  | .ok _ _ => none
  | .error _ d => some d

variable {c d : Construction}

theorem failure_eq_some : x.failure c = some d ↔ ∃ e, x.run c = .error e d := by
  rw [failure]
  cases x.run c <;> simp

theorem edit_error {x : Edit α} (h : Build.edit x c = .error e d) :
    x c.program = .error e d.program := by
  rw [Build.edit] at h
  split at h <;> cases h
  assumption

theorem discard_error {x : Build α} (h : (discard x) c = .error e d) : x c = .error e d := by
  simp only [discard, Functor.mapConst, EStateM.map, Function.comp] at h
  split at h <;> cases h
  assumption

end Call

/-- A call that fails leaves everything that was there as it was exactly if it is guarded, and the lists agree in any
case. -/
theorem failed_intact_iff {c d : Construction} (hc : c.program.Consistent) (hx : x.Fits c.program)
    (hs : x.Single) (h : x.failure c = some d) :
    d.program.Consistent ∧ (Intact c.program d.program ↔ x.Guarded c.program) := by
  have same (hd : d.program = c.program) : d.program.Consistent ∧ (Intact c.program d.program ↔ True) :=
    ⟨hd ▸ hc, iff_true_intro (hd ▸ .refl _)⟩
  obtain ⟨e, h⟩ := Call.failure_eq_some.mp h
  cases x with
  | newOp s =>
    have hv : ∀ v, some v ∈ s.operands → c.program.HasValue v := fun v hv => hx _ hv v rfl
    rcases Edit.newOp_error hv (Call.edit_error (Call.discard_error h)) with ⟨hn, hd⟩ | ⟨hn, front, hf, hb⟩
    · exact ⟨hd ▸ hc, iff_of_true (hd ▸ .refl _) (.inl hn)⟩
    · have hmem : ∀ v, some v ∈ front → some v ∈ s.operands := by
        rintro v hm
        rcases hf with rfl | ⟨rest, hf⟩
        · exact hm
        · exact hf ▸ mem_append_left _ hm
      refine ⟨hb.consistent hc, (Intact.begun_iff hb fun v hm => hv v (hmem v hm)).trans ⟨?_, ?_⟩⟩
      · rintro rfl
        rcases hf with hf | ⟨rest, hf⟩
        · exact .inr fun v => by simp [← hf]
        · exact .inr fun v => by simp [hf]
      · rintro (hno | hhead)
        · exact absurd hn hno
        · rcases hfront : front with _ | ⟨_ | v, rest⟩
          · rfl
          · exact absurd (hfront ▸ mem_cons_self) hb.filled
          · refine absurd ?_ (hhead v)
            rcases hf with hf | ⟨_, hf⟩
            · simp [← hf, hfront]
            · simp [hf, hfront]
  | setOperand i k s => exact same (Edit.setOperand_error (Call.edit_error h))
  | append b i => exact same (Edit.append_error (Call.edit_error h))
  | moveBefore i other =>
    have hm := Edit.moveBefore_error hc (Call.edit_error h)
    exact ⟨(Edit.detach_ok hc hm).consistent hc, Intact.detach_iff hc hm⟩
  | erase i => exact same (Edit.erase_error hc (Call.edit_error h))
  | _ => exact hs.elim

def oneInside : List Call := [
  .newOp { name := "builtin.module", regions := 1 },
  .newBlock 0 0 [],
  .newOp { name := "test.pure", results := [some .index] },
  .append 0 1]

theorem failed_intact_iff_empty : ∃ c d, performAll oneInside { program := {} } = some c ∧
    (Call.newOp { name := "test.two", operands := [none, some 0] }).failure c = some d ∧
    Intact c.program d.program := by
  set x : Call := .newOp { name := "test.two", operands := [none, some 0] }
  have hrun : ((performAll oneInside { program := {} }).bind fun c =>
      if x.Fits c.program then x.failure c else none).isSome := by decide +kernel
  obtain ⟨d, hd⟩ := isSome_iff_exists.mp hrun
  obtain ⟨c, hc, hd⟩ := bind_eq_some_iff.mp hd
  split at hd
  · rename_i hfits
    have hcons := (reached_of_performAll .start hc).standing.consistent
    exact ⟨c, d, hc, hd, (failed_intact_iff hcons hfits trivial hd).2.mpr (.inr (by simp))⟩
  · cases hd

/-- An operation that cannot be made is a user all the same, and one that cannot be moved before itself is gone. -/
theorem failed_call_spills : ∃ c d d', Reached c ∧
    (Call.newOp { name := "test.two", operands := [some 0, none] }).failure c = some d ∧
    (c.program.value 0).uses = [] ∧ (d.program.value 0).uses = [⟨2, 0⟩] ∧
    (Call.moveBefore 1 1).failure c = some d' ∧
    (c.program.block 0).ops = [1] ∧ (d'.program.block 0).ops = [] := by
  have hrun : (do
      let c ← performAll oneInside { program := {} }
      let d ← (Call.newOp { name := "test.two", operands := [some 0, none] }).failure c
      let d' ← (Call.moveBefore 1 1).failure c
      if (c.program.value 0).uses = [] ∧ (d.program.value 0).uses = [⟨2, 0⟩] ∧
          (c.program.block 0).ops = [1] ∧ (d'.program.block 0).ops = [] then some () else none) = some () := by
    decide +kernel
  simp only [bind_eq_bind, bind_eq_some_iff, ite_none_right_eq_some, and_true] at hrun
  obtain ⟨c, hc, d, hd, d', hd', huses, huses', hops, hops'⟩ := hrun
  exact ⟨c, d, d', reached_of_performAll .start hc, hd, huses, huses', hd', hops, hops'⟩

end Offload
