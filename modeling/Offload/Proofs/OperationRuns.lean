import Offload.Proofs.Frames

/-!
# Running single operations

Tensors and memory are kept in cells alike, but no cell belongs to both, and only memory is written. One walk
through the operations shows two things, of which each may be asked for without the other: `A` asks that tensors
and memory stay apart, and `D` that no undefined value is read.
-/

namespace Offload.Execution

open Reduction List Workgroup

variable {b : BlockId} {buffers : List (List Ref)} {c k kept : Nat} {env' : Env} {o : Slot} {order : List Nat}
  {pool : Pool} {r : Ref} {rs : List Ref} {vs : List ValueId} {x : ValueId × Datum} {α : Type}
variable {A D : Prop} {p : Program} {K : Nat → Prop} {env new : Env} {s t : Store} {i : OpId}
    {v : ValueId} {n m : Nat}

/-! ## Cells of the visible values -/

def memoryOf (p : Program) (x : ValueId × Datum) : List Nat :=
  match x.2 with
  | .ref r => if (p.typeOf x.1).isTensor then [] else [r.cell]
  | .buffer workers => workers.map Ref.cell
  | _ => []

def tensorOf (p : Program) (x : ValueId × Datum) : List Nat :=
  match x.2 with
  | .ref r => if (p.typeOf x.1).isTensor then [r.cell] else []
  | _ => []

def memoryCells (p : Program) (env : Env) : List Nat := env.flatMap (memoryOf p)

def tensorCells (p : Program) (env : Env) : List Nat := env.flatMap (tensorOf p)

theorem memoryCells_append : memoryCells p (new ++ env) = memoryCells p new ++ memoryCells p env :=
  flatMap_append

theorem tensorCells_append : tensorCells p (new ++ env) = tensorCells p new ++ tensorCells p env :=
  flatMap_append

theorem memoryCells_subset (h : new ⊆ env) : memoryCells p new ⊆ memoryCells p env := fun _ hc =>
  mem_flatMap.mpr ((mem_flatMap.mp hc).imp fun _ hx => ⟨h hx.1, hx.2⟩)

theorem tensorCells_subset (h : new ⊆ env) : tensorCells p new ⊆ tensorCells p env := fun _ hc =>
  mem_flatMap.mpr ((mem_flatMap.mp hc).imp fun _ hx => ⟨h hx.1, hx.2⟩)

theorem mem_memoryCells_ref (h : (v, .ref r) ∈ env) (hv : (p.typeOf v).isTensor = false) :
    r.cell ∈ memoryCells p env :=
  mem_flatMap.mpr ⟨_, h, by simp [memoryOf, hv]⟩

theorem mem_memoryCells_buffer {workers : List Ref} (h : (v, .buffer workers) ∈ env)
    (hr : r ∈ workers) : r.cell ∈ memoryCells p env :=
  mem_flatMap.mpr ⟨_, h, mem_map_of_mem hr⟩

/-- The cells of the visible values are below `n`, and none is both of a tensor and of memory. -/
structure Apart (p : Program) (env : Env) (n : Nat) : Prop where
  memory : ∀ c ∈ memoryCells p env, c < n
  tensors : ∀ c ∈ tensorCells p env, c < n
  apart : ∀ c ∈ tensorCells p env, c ∉ memoryCells p env

structure Safe (p : Program) (K : Nat → Prop) (env : Env) (s : Store) : Prop extends Apart p env s.cells.size where
  below : ∀ c, K c → c < s.cells.size
  avoids : ∀ c ∈ memoryCells p env, ¬ K c

theorem Apart.mono (h : Apart p env n) (hnm : n ≤ m) : Apart p env m :=
  ⟨fun c hc => Nat.lt_of_lt_of_le (h.memory c hc) hnm, fun c hc => Nat.lt_of_lt_of_le (h.tensors c hc) hnm, h.apart⟩

theorem Apart.append (h : Apart p env n) (hnew : Apart p new m) (hnm : n ≤ m)
    (hm : ∀ c ∈ memoryCells p new, n ≤ c) (ht : ∀ c ∈ tensorCells p new, n ≤ c) :
      Apart p (new ++ env) m := by
  refine ⟨fun c hc => ?_, fun c hc => ?_, fun c hc => ?_⟩
  · rw [memoryCells_append, mem_append] at hc
    exact hc.elim (hnew.memory c) fun hc => Nat.lt_of_lt_of_le (h.memory c hc) hnm
  · rw [tensorCells_append, mem_append] at hc
    exact hc.elim (hnew.tensors c) fun hc => Nat.lt_of_lt_of_le (h.tensors c hc) hnm
  · rw [tensorCells_append, mem_append] at hc
    rw [memoryCells_append, mem_append]
    rintro (hc' | hc')
    · rcases hc with hc | hc
      · exact hnew.apart c hc hc'
      · exact Nat.not_lt.mpr (hm c hc') (h.tensors c hc)
    · rcases hc with hc | hc
      · exact Nat.not_lt.mpr (ht c hc) (h.memory c hc')
      · exact h.apart c hc hc'

theorem mem_zip_ref (h : x ∈ vs.zip (rs.map Datum.ref)) :
    ∃ r ∈ rs, x.2 = .ref r := by
  obtain ⟨r, hr, he⟩ := mem_map.mp (of_mem_zip h).2
  exact ⟨r, hr, he.symm⟩

theorem mem_cells_zip (h : c ∈ memoryCells p (vs.zip (rs.map Datum.ref)) ∨
    c ∈ tensorCells p (vs.zip (rs.map Datum.ref))) : c ∈ rs.map Ref.cell := by
  rcases h with h | h
  all_goals
    obtain ⟨x, hx, hc⟩ := mem_flatMap.mp h
    obtain ⟨r, hr, he⟩ := mem_zip_ref hx
    simp only [memoryOf, tensorOf, he] at hc
    split at hc
    all_goals first | exact mem_singleton.mp hc ▸ mem_map_of_mem hr | cases hc

theorem apart_zip : ∀ {vs : List ValueId} {rs : List Ref}, (rs.map Ref.cell).Nodup →
    ∀ c ∈ tensorCells p (vs.zip (rs.map Datum.ref)), c ∉ memoryCells p (vs.zip (rs.map Datum.ref))
  | [], _, _ => nofun
  | _ :: _, [], _ => nofun
  | v :: vs, r :: rs, hnodup => by
    rw [map_cons, nodup_cons] at hnodup
    have ih := @apart_zip vs rs hnodup.2
    intro c hc hc'
    rw [map_cons, zip_cons_cons, tensorCells, flatMap_cons, mem_append] at hc
    rw [map_cons, zip_cons_cons, memoryCells, flatMap_cons, mem_append] at hc'
    cases hv : (p.typeOf v).isTensor with
    | true =>
      have hc' := hc'.resolve_left (by simp [memoryOf, hv])
      rcases hc with hc | hc
      · obtain rfl : c = r.cell := by simpa [tensorOf, hv] using hc
        exact hnodup.1 (mem_cells_zip (.inl hc'))
      · exact ih c hc hc'
    | false =>
      have hc := hc.resolve_left (by simp [tensorOf, hv])
      rcases hc' with hc' | hc'
      · obtain rfl : c = r.cell := by simpa [memoryOf, hv] using hc'
        exact hnodup.1 (mem_cells_zip (.inr hc))
      · exact ih c hc hc'

namespace Safe

theorem frame (h : Safe p K env s) (hf : Frame K s t) : Safe p K env t :=
  { h.toApart.mono hf.grows with
    below := fun c hc => Nat.lt_of_lt_of_le (h.below c hc) hf.grows
    avoids := h.avoids }

theorem append (h : Safe p K env s) (hnew : Apart p new t.cells.size) (hst : s.cells.size ≤ t.cells.size)
    (hm : ∀ c ∈ memoryCells p new, s.cells.size ≤ c) (ht : ∀ c ∈ tensorCells p new, s.cells.size ≤ c) :
    Safe p K (new ++ env) t :=
  { h.toApart.append hnew hst hm ht with
    below := fun c hc => Nat.lt_of_lt_of_le (h.below c hc) hst
    avoids := fun c hc hk => by
      rw [memoryCells_append, mem_append] at hc
      exact hc.elim (fun hc => Nat.not_lt.mpr (hm c hc) (h.below c hk)) fun hc => h.avoids c hc hk }

theorem refs (h : Safe p K env s) (vs : List ValueId) (rs : List Ref)
    (hrs : rs.map Ref.cell = List.range' s.cells.size k) (hst : s.cells.size + k ≤ t.cells.size)
    (hnew : new ⊆ vs.zip (rs.map Datum.ref)) : Safe p K (new ++ env) t := by
  have hmem : ∀ c ∈ memoryCells p new, c ∈ List.range' s.cells.size k := fun c hc =>
    hrs ▸ mem_cells_zip (.inl (memoryCells_subset hnew hc))
  have hten : ∀ c ∈ tensorCells p new, c ∈ List.range' s.cells.size k := fun c hc =>
    hrs ▸ mem_cells_zip (.inr (tensorCells_subset hnew hc))
  simp only [mem_range'_1] at hmem hten
  refine h.append ⟨fun c hc => ?_, fun c hc => ?_, fun c hc hc' => ?_⟩ (by omega) (fun c hc => (hmem c hc).1)
    fun c hc => (hten c hc).1
  · have := (hmem c hc).2
    omega
  · have := (hten c hc).2
    omega
  · exact apart_zip (hrs ▸ nodup_range') c (tensorCells_subset hnew hc) (memoryCells_subset hnew hc')

theorem ref (h : Safe p K env s) (hr : r.cell = s.cells.size) (hst : t.cells.size = s.cells.size + 1)
    (v : ValueId) : Safe p K ((v, .ref r) :: env) t :=
  Safe.refs h [v] [r] (k := 1) (by simp [hr]) (Nat.le_of_eq hst.symm) (List.Subset.refl [(v, Datum.ref r)])

theorem buffer (h : Safe p K env s) (hrs : rs.map Ref.cell = List.range' s.cells.size k)
    (hst : s.cells.size + k ≤ t.cells.size) (v : ValueId) : Safe p K ((v, .buffer rs) :: env) t := by
  have hmem : ∀ c ∈ memoryCells p [(v, .buffer rs)], s.cells.size ≤ c ∧ c < s.cells.size + k := fun c hc => by
    have hc' : c ∈ rs.map Ref.cell := by simpa [memoryCells, memoryOf] using hc
    exact mem_range'_1.mp (hrs ▸ hc')
  show Safe p K ([(v, .buffer rs)] ++ env) t
  refine h.append ⟨fun c hc => ?_, nofun, nofun⟩ (by omega) (fun c hc => (hmem c hc).1) nofun
  have := (hmem c hc).2
  omega

theorem memory_cons (h : Safe p K env s) (hm : memoryOf p x ⊆ memoryCells p env)
    (ht : tensorOf p x = []) : Safe p K (x :: env) s := by
  have hmem : ∀ c, c ∈ memoryCells p (x :: env) ↔ c ∈ memoryCells p env := fun c => by
    rw [memoryCells, flatMap_cons, mem_append]
    exact ⟨fun hc => hc.elim (fun hc => hm hc) id, .inr⟩
  have hten : tensorCells p (x :: env) = tensorCells p env := by
    rw [tensorCells, flatMap_cons, ht]
    rfl
  exact { memory := fun c hc => h.memory c ((hmem c).mp hc)
          tensors := fun c hc => h.tensors c (hten ▸ hc)
          apart := fun c hc hc' => h.apart c (hten ▸ hc) ((hmem c).mp hc')
          below := h.below
          avoids := fun c hc => h.avoids c ((hmem c).mp hc) }

theorem bind (h : Safe p K env s) {r : Reduce} (hscalars : r.scalars.map Ref.cell = List.range' s.cells.size k)
    (hst : s.cells.size + k ≤ t.cells.size) : Safe p K (r.bind p env) t :=
  h.refs (p.block r.body).args r.scalars hscalars hst fun _ hx => mem_of_mem_take (mem_reverse.mp hx)

theorem of_memory (h : Safe p K env s) (hmem : ∀ x ∈ env', ∃ r, x.2 = .ref r ∧
    (p.typeOf x.1).isTensor = false ∧ r.cell ∈ memoryCells p env) : Safe p K env' s := by
  have hmemory : memoryCells p env' ⊆ memoryCells p env := fun c hc => by
    obtain ⟨x, hx, hc⟩ := mem_flatMap.mp hc
    obtain ⟨r, he, hv, hr⟩ := hmem x hx
    obtain rfl : c = r.cell := by simpa [memoryOf, he, hv] using hc
    exact hr
  have htensor : tensorCells p env' = [] := flatMap_eq_nil_iff.mpr fun x hx => by
    obtain ⟨r, he, hv, -⟩ := hmem x hx
    simp [tensorOf, he, hv]
  exact { memory := fun c hc => h.memory c (hmemory hc)
          tensors := by simp [htensor]
          apart := by simp [htensor]
          below := h.below
          avoids := fun c hc => h.avoids c (hmemory hc) }

end Safe

structure Guarded (A : Prop) (p : Program) (K : Nat → Prop) (env : Env) (s : Store) : Prop where
  watched : ∀ c, K c → A
  safe : A → Safe p K env s

namespace Guarded

theorem map (h : Guarded A p K env s) (hs : Safe p K env s → Safe p K env' t) : Guarded A p K env' t :=
  ⟨h.watched, fun ha => hs (h.safe ha)⟩

theorem frame (h : Guarded A p K env s) (hf : Frame K s t) : Guarded A p K env t := h.map (·.frame hf)

theorem below (h : Guarded A p K env s) (c : Nat) (hc : K c) : c < s.cells.size := (h.safe (h.watched c hc)).below c hc

theorem avoids (h : Guarded A p K env s) (hc : A → c ∈ memoryCells p env) : ¬ K c := fun hk =>
  (h.safe (h.watched c hk)).avoids c (hc (h.watched c hk)) hk

theorem avoids_new (h : Guarded A p K env s)
    (hrs : rs.map Ref.cell = List.range' s.cells.size k) (hr : r ∈ rs) : ¬ K r.cell := fun hk =>
  Nat.not_lt.mpr (mem_range'_1.mp (hrs ▸ mem_map_of_mem hr)).1 (h.below _ hk)

end Guarded

/-! ## Single operations -/

def keys (env : Env) : List ValueId := env.map Prod.fst

def Extends (p : Program) (i : OpId) (env env' : Env) : Prop :=
  ∀ v, v ∈ keys env ∨ v ∈ (p.op i).results → v ∈ keys env'

theorem mem_keys_append : v ∈ keys (new ++ env) ↔ v ∈ keys new ∨ v ∈ keys env := by
  rw [keys, map_append, mem_append]
  rfl

theorem Extends.refl (h : (p.op i).results = []) : Extends p i env env := fun v hv => by
  simpa [h] using hv

theorem Extends.append (l : Env) (h : ∀ v ∈ (p.op i).results, v ∈ keys l) :
    Extends p i env (l ++ env) := fun v hv =>
  mem_keys_append.mpr (hv.symm.imp_left (h v))

theorem Extends.one {d : Datum} (h : (p.op i).results.length = 1) (hv : (p.op i).results[0]? = some v) :
    Extends p i env ((v, d) :: env) := by
  refine Extends.append [(v, d)] fun w hw => ?_
  obtain ⟨k, hk⟩ := getElem?_of_mem hw
  obtain rfl : k = 0 := by
    have := (List.getElem?_eq_some_iff.mp hk).1
    omega
  obtain rfl := Option.mem_unique hv hk
  exact mem_singleton.mpr rfl

def Readable (D : Prop) (env : Env) (o : Slot) : Prop := D → ∀ v, o = some v → v ∈ keys env

abbrev Carries (A D : Prop) (p : Program) (K : Nat → Prop) (i : OpId) (env : Env) (s : Store)
    (x y : Exec Env) : Prop :=
  Held K D (fun env' t => Guarded A p K env' t ∧ (D → Extends p i env env')) s x y

theorem looks_lookup (ho : Readable D env o) :
    Looks K D (fun d => ∃ v, o = some v ∧ (v, d) ∈ env) s (lookup p env o) := by
  cases o with
  | none => exact .crash
  | some v =>
    rw [lookup]
    cases hl : env.lookup v with
    | none =>
      refine .throw fun hd => ?_
      obtain ⟨x, hx, hv⟩ := mem_map.mp (ho hd v rfl)
      have := lookup_eq_none_iff.mp hl x hx
      simp [hv] at this
    | some d =>
      exact Looks.pure ⟨v, rfl, mem_of_lookup hl⟩

theorem looks_ref (ho : Readable D env o) :
    Looks K D (fun r => ∃ v, o = some v ∧ (v, .ref r) ∈ env) s (lookupRef p env o) := by
  refine (looks_lookup ho).next fun d hd => ?_
  cases d with
  | ref r => exact Looks.pure hd
  | _ =>
    cases p.slotType? o with
    | some ty => exact .throw id
    | none => exact .crash

theorem looks_buffer (ho : Readable D env o) :
    Looks K D (fun rs => ∃ v, (v, .buffer rs) ∈ env) s (lookupBuffer p env o) := by
  refine (looks_lookup ho).next fun d hd => ?_
  cases d with
  | buffer workers => exact Looks.pure (hd.imp fun _ h => h.2)
  | _ => exact .crash

theorem looks_workgroup (ho : Readable D env o) :
    Looks K D (fun _ => True) s (lookupWorkgroup p env o) := by
  refine (looks_lookup ho).next fun d _ => ?_
  cases d with
  | workgroup extents => exact Looks.pure trivial
  | _ => exact .crash

theorem looks_resultAt (k : Nat) : Looks K D (fun v => (p.op i).results[k]? = some v) s (resultAt p i k) := by
  rw [resultAt]
  cases hv : (p.op i).results[k]? with
  | some v => exact Looks.pure rfl
  | none => exact .crash

theorem held_new (hk : ∀ c, K c → c < s.cells.size) {a : Except Fault Tensor} (ha : Spares Fault.isReserved a) :
    Held K D (fun r t => r.cell = s.cells.size ∧ t.cells.size = s.cells.size + 1) s
      (Exec.ofExcept a >>= Exec.alloc) (Exec.ofExcept a >>= Exec.alloc) :=
  (Looks.ofExcept ha).next fun b _ => .alloc hk b

theorem held_stopTransfer {Q : α → Store → Prop} {e : Stop TransferError} (h : e.isReserved = false) :
    Held K D Q s (stopTransfer e) (stopTransfer e) := by
  cases e with
  | error e => exact .fail _
  | fault e => exact .throw (not_forbidden h)

section
variable (h : Guarded A p K env s) (hops : ∀ o ∈ (p.op i).operands, Readable D env o)
include hops

theorem looks_operandAt (k : Nat) :
    Looks K D (fun o => (p.op i).operands[k]? = some o ∧ Readable D env o) s (operandAt p i k) := by
  rw [operandAt]
  cases ho : (p.op i).operands[k]? with
  | some o => exact Looks.pure ⟨rfl, hops o (mem_of_getElem? ho)⟩
  | none => exact .crash

include h

omit hops in
theorem held_allocResult (h1 : D → (p.op i).results.length = 1) (hv : (p.op i).results[0]? = some v) (a : Tensor) :
    Carries A D p K i env s (Exec.alloc a >>= fun r => pure ((v, .ref r) :: env))
      (Exec.alloc a >>= fun r => pure ((v, .ref r) :: env)) :=
  (Held.alloc h.below a).bind fun _ _ _ hr => .pure ⟨h.map (·.ref hr.1 hr.2 v), fun hd => .one (h1 hd) hv⟩

theorem held_runBinary (h1 : D → (p.op i).results.length = 1) (b : Arith.Binary) :
    Carries A D p K i env s (runBinary p b env i) (runBinary p b env i) := by
  refine (looks_resultAt 0).next fun v hv => ?_
  refine (looks_operandAt hops 0).next fun o ho => (looks_ref ho.2).next fun r _ => (Looks.load r).next fun x _ => ?_
  refine (looks_operandAt hops 1).next fun o ho => (looks_ref ho.2).next fun r _ => (Looks.load r).next fun y _ => ?_
  refine .ite (fun _ => ?_) fun _ => .stop (.throw id)
  refine (Looks.ofExcept (spares_shapeOf _)).next fun shape _ => ?_
  exact (Looks.ofExcept (spares_applyBinary _ _ _ _)).next fun a _ => held_allocResult h h1 hv a

omit hops in
theorem held_runConstant (h1 : D → (p.op i).results.length = 1) :
    Carries A D p K i env s (runConstant p env i) (runConstant p env i) := by
  rw [runConstant]
  cases Arith.constantValues? (p.op i) with
  | none => exact .fail _
  | some values =>
    refine (looks_resultAt 0).next fun v hv => (Looks.ofExcept (spares_shapeOf _)).next fun shape _ => ?_
    exact (Looks.ofExcept (spares_make _ _)).next fun a _ => held_allocResult h h1 hv a

theorem held_runReshape (h1 : D → (p.op i).results.length = 1) :
    Carries A D p K i env s (runReshape p env i) (runReshape p env i) := by
  refine (looks_operandAt hops 0).next fun o ho => (looks_ref ho.2).next fun r _ => (Looks.load r).next fun x _ => ?_
  refine (looks_resultAt 0).next fun v hv => (Looks.ofExcept (spares_shapeOf _)).next fun shape _ => ?_
  exact (Looks.ofExcept (spares_make _ _)).next fun a _ => held_allocResult h h1 hv a

theorem held_runExpand (h1 : D → (p.op i).results.length = 1)
    (hi : A → ∀ v w, (p.op i).operands[0]? = some (some v) → (p.op i).results[0]? = some w →
      (p.typeOf v).isTensor = false ∧ (p.typeOf w).isTensor = false) :
    Carries A D p K i env s (runExpand p env i) (runExpand p env i) := by
  refine (looks_operandAt hops 0).next fun o ho => (looks_ref ho.2).next fun r hr => ?_
  refine (looks_resultAt 0).next fun w hw => (Looks.ofExcept (spares_shapeOf _)).next fun shape _ => ?_
  refine (Looks.view r shape.dims).next fun r' hr' => .pure ⟨⟨h.watched, fun ha => ?_⟩,
    fun hd => .one (h1 hd) hw⟩
  obtain ⟨v, rfl, hm⟩ := hr
  obtain ⟨hv, hw⟩ := hi ha v w ho.1 hw
  refine (h.safe ha).memory_cons (fun c hc => ?_) (by simp [tensorOf, hw])
  obtain rfl : c = r'.cell := by simpa [memoryOf, hw] using hc
  exact hr' ▸ mem_memoryCells_ref hm hv

omit hops in
theorem held_runWorkgroup (h1 : D → (p.op i).results.length = 1) :
    Carries A D p K i env s (runWorkgroup p env i) (runWorkgroup p env i) := by
  refine (looks_resultAt 0).next fun v hv => ?_
  cases p.typeOf v with
  | workgroup extents => exact .pure ⟨h.map (·.memory_cons (by simp [memoryOf]) rfl), fun hd => .one (h1 hd) hv⟩
  | _ => exact .crash

theorem held_runAlloc (h1 : D → (p.op i).results.length = 1) :
    Carries A D p K i env s (runAlloc p env i) (runAlloc p env i) := by
  refine (looks_resultAt 0).next fun v hv => ?_
  cases p.typeOf v with
  | buffer shape extents level =>
    refine (looks_operandAt hops 0).next fun o ho => (looks_workgroup ho.2).next fun extents _ => ?_
    refine (Looks.ofExcept (spares_checkLength _)).next fun n _ => ?_
    refine (Held.mapM_new h.below fun _ _ u hu => ?_).bind fun rs t _ hrs => .pure ⟨?_, fun hd => .one (h1 hd) hv⟩
    · exact held_new (fun c hc => Nat.lt_of_lt_of_le (h.below c hc) hu) (spares_zeros _)
    · exact h.map (·.buffer hrs.2.1 (Nat.le_of_eq hrs.2.2.symm) v)
  | _ => exact .crash

theorem held_runScatter (h0 : D → (p.op i).results.length = 0) :
    Carries A D p K i env s (runScatter p env i) (runScatter p env i) := by
  refine (looks_operandAt hops 1).next fun o ho => (looks_buffer ho.2).next fun workers hw => ?_
  refine (looks_operandAt hops 2).next fun o ho => (looks_workgroup ho.2).next fun extents _ => ?_
  refine (looks_operandAt hops 0).next fun o ho => (looks_ref ho.2).next fun r _ => (Looks.load r).next fun a _ => ?_
  refine (Looks.mapM fun r _ => Looks.load r).next fun buffers _ => ?_
  dsimp only
  refine (Held.forM fun x hx _ => Held.store ?_ _).bind fun _ t ht _ => ?_
  · obtain ⟨v, hv⟩ := hw
    exact h.avoids fun _ => mem_memoryCells_buffer hv (of_mem_zip hx).1
  · have hspares := spares_scatter a extents (mapOf p i scatterMapAttr) buffers.toArray
    cases hstop : (Transfer.scatter a extents (mapOf p i scatterMapAttr) buffers.toArray).2 with
    | some e => exact held_stopTransfer (hspares e hstop)
    | none => exact .pure ⟨h.frame ht, fun hd => .refl (length_eq_zero_iff.mp (h0 hd))⟩

theorem held_runGather (h2 : D → (p.op i).results.length = 2) :
    Carries A D p K i env s (runGather p env i) (runGather p env i) := by
  refine (looks_operandAt hops 0).next fun o ho => (looks_buffer ho.2).next fun workers _ => ?_
  refine (looks_operandAt hops 1).next fun o ho => (looks_workgroup ho.2).next fun extents _ => ?_
  refine (looks_resultAt 0).next fun v hv => (Looks.ofExcept (spares_shapeOf _)).next fun shape _ => ?_
  refine (Looks.mapM fun r _ => Looks.load r).next fun buffers _ => ?_
  have hspares := spares_gather buffers.toArray shape extents (mapOf p i gatherMapAttr)
  cases hg : Transfer.gather buffers.toArray shape extents (mapOf p i gatherMapAttr) with
  | error e => exact held_stopTransfer (hspares e hg)
  | ok a =>
    refine (Held.alloc h.below a).bind fun r t _ hr => (looks_resultAt 1).next fun order horder =>
      .pure ⟨?_, fun hd => ?_⟩
    · exact h.map fun hs => (hs.ref hr.1 hr.2 v).memory_cons (by simp [memoryOf]) rfl
    · refine Extends.append [(order, .token), (v, .ref r)] fun w hw => ?_
      obtain ⟨k, hk⟩ := getElem?_of_mem hw
      have hlt := h2 hd ▸ (List.getElem?_eq_some_iff.mp hk).1
      obtain rfl | rfl : k = 0 ∨ k = 1 := by omega
      · simp [keys, Option.mem_unique hv hk]
      · simp [keys, Option.mem_unique horder hk]

end

/-! ## Reductions -/

/-- Two ways to run the good blocks that do the same, leave alone what is not visible memory, and read defined values
only where the environment is ready for the block. -/
def Trusted (A D : Prop) (p : Program) (good : BlockId → Prop) (ready : Env → BlockId → Prop)
    (run run' : RunBody) : Prop :=
  ∀ (K : Nat → Prop) (env : Env) (b : BlockId) (s : Store), good b → Guarded A p K env s →
    (D → ready env b) → Held K D (fun _ _ => True) s (run env b) (run' env b)

theorem held_loadScalars (place : Int) : ∀ {pairs : List (Ref × Ref)} {s : Store},
    (∀ x ∈ pairs, ¬ K x.2.cell) →
    Held K D (fun _ _ => True) s (loadScalars place pairs) (loadScalars place pairs)
  | [], _, _ => .pure trivial
  | x :: pairs, s, h => by
    rw [loadScalars]
    refine (Looks.element x.1 place).next fun y _ => ?_
    refine (Held.setElement (h x mem_cons_self) 0 y).bind fun _ u _ _ => ?_
    exact held_loadScalars place fun x' hx' => h x' (mem_cons_of_mem _ hx')

theorem held_storeAccumulators (place : Int) : ∀ {accs : List Ref} {data : List Datum} {s : Store},
    (∀ r ∈ accs, ¬ K r.cell) →
      Held K D (fun _ _ => True) s (storeAccumulators place accs data) (storeAccumulators place accs data)
  | [], _, _, _ => .pure trivial
  | acc :: accs, [], _, _ => .crash
  | acc :: accs, .ref r :: data, s, h => by
    rw [storeAccumulators]
    refine (Looks.element r 0).next fun y _ => ?_
    refine (Held.setElement (h acc mem_cons_self) place _).bind fun _ u _ _ => ?_
    exact held_storeAccumulators place fun x' hx' => h x' (mem_cons_of_mem _ hx')
  | acc :: accs, .workgroup _ :: data, _, _ => .crash
  | acc :: accs, .buffer _ :: data, _, _ => .crash
  | acc :: accs, .token :: data, _, _ => .crash

section
variable {good : BlockId → Prop} {ready : Env → BlockId → Prop} {run run' : RunBody}
  (hrun : Trusted A D p good ready run run')
include hrun

section
variable {r : Reduce} (hbody : good r.body) (hready : D → ready (r.bind p env) r.body)
  (haccs : ∀ a ∈ r.accumulators, ¬ K a.cell) (hscalars : ∀ a ∈ r.scalars, ¬ K a.cell)
include hbody hready haccs hscalars

theorem held_step (henv : Guarded A p K (r.bind p env) s) (flat : Nat) (indices : List Int) :
    Held K D (fun _ _ => True) s (r.step p run env flat indices) (r.step p run' env flat indices) := by
  unfold Reduce.step
  cases r.accumulators.head? with
  | none => exact .crash
  | some acc =>
    refine (Looks.ofExcept (spares_ofShape _)).next fun place _ => .ite (fun _ => .stop .crash) fun _ => ?_
    refine (held_loadScalars _ fun x hx => hscalars x.2 (of_mem_zip hx).2).bind fun _ t₁ h₁ _ => ?_
    refine (held_loadScalars _ fun x hx => hscalars x.2 (mem_of_mem_drop (of_mem_zip hx).2)).bind
      fun _ t₂ h₂ _ => ?_
    refine (hrun K _ _ _ hbody ((henv.frame h₁).frame h₂) hready).bind fun data _ _ _ => ?_
    exact held_storeAccumulators place haccs

theorem held_steps : ∀ {places : List (Nat × List Int)} {s : Store}, Guarded A p K (r.bind p env) s →
    Held K D (fun _ _ => True) s (r.steps p run env places) (r.steps p run' env places)
  | [], _, _ => .pure trivial
  | x :: places, s, henv => by
    rw [Reduce.steps, Reduce.steps]
    refine (held_step hrun hbody hready haccs hscalars henv x.1 x.2).bind fun _ t ht _ => ?_
    exact held_steps (henv.frame ht)

end

omit hrun in
theorem mem_keys_bind {r : Reduce} (hs : r.scalars.length = (p.block r.body).args.length)
    (hn : (p.block r.body).args.length ≤ r.inputs.length + r.accumulators.length) :
    v ∈ keys (r.bind p env) ↔ v ∈ (p.block r.body).args ∨ v ∈ keys env := by
  rw [Reduce.bind, mem_keys_append, take_of_length_le (by simp [hs]; omega), keys, map_reverse,
    mem_reverse, map_fst_zip (by simp [hs])]

variable (h : Guarded A p K env s)
include h

omit hrun in
theorem held_accumulators {inits : List Slot} (hread : ∀ o ∈ inits, Readable D env o)
    (hinits : A → onTensors p i = .ok false → ∀ v, some v ∈ inits → (p.typeOf v).isTensor = false) :
    Held K D (fun accs t => accs.length = inits.length ∧ (∀ a ∈ accs, ¬ K a.cell) ∧
        (onTensors p i = .ok true →
        accs.map Ref.cell = List.range' s.cells.size inits.length ∧ t.cells.size = s.cells.size + inits.length)) s
      (inits.mapM fun o => do
        let r ← lookupRef p env o
        accumulatorOf (← Exec.ofExcept (onTensors p i)) r)
      (inits.mapM fun o => do
        let r ← lookupRef p env o
        accumulatorOf (← Exec.ofExcept (onTensors p i)) r) := by
  have hspares : Spares Fault.isReserved (onTensors p i) := spares_onTensors
  cases hon : onTensors p i with
  | error e =>
    refine (Looks.mapM (P := fun _ => False) fun o ho => ?_).weaken
      fun accs t _ hq => ⟨hq.2.1, fun a ha => (hq.2.2 a ha).elim, nofun⟩
    exact (looks_ref (hread o ho)).next fun r _ => .stop (.throw (not_forbidden (hspares e hon)))
  | ok copied =>
    cases copied with
    | true =>
      refine (Held.mapM_new h.below fun o ho t ht => ?_).weaken
        fun accs t _ hq => ⟨hq.1, fun a ha => h.avoids_new hq.2.1 ha, fun _ => hq.2⟩
      refine (looks_ref (hread o ho)).next fun r _ => ?_
      exact (Looks.load r).next fun a _ => .alloc (fun c hc => Nat.lt_of_lt_of_le (h.below c hc) ht) a
    | false =>
      refine (Looks.mapM (P := fun a => ¬ K a.cell) fun o ho => ?_).weaken fun accs t _ hq =>
        ⟨hq.2.1, hq.2.2, nofun⟩
      refine (looks_ref (hread o ho)).next fun r hr => Looks.pure ?_
      obtain ⟨v, rfl, hm⟩ := hr
      exact h.avoids fun ha => mem_memoryCells_ref hm (hinits ha hon v ho)

theorem held_runReduce (hops : ∀ o ∈ (p.op i).operands, Readable D env o)
    (hbody : ∀ b, body? p i = .ok (some b) → good b)
    (hinits : A → onTensors p i = .ok false → ∀ inits, Reduction.inits p i = .ok inits →
      ∀ v, some v ∈ inits → (p.typeOf v).isTensor = false)
    (hargs : D → ∀ b, body? p i = .ok (some b) → (p.block b).args.length ≤ (p.op i).operands.length ∧
      ∀ env', (∀ v, v ∈ keys env' ↔ v ∈ (p.block b).args ∨ v ∈ keys env) → ready env' b)
    (hres : D → onTensors p i = .ok false → (p.op i).results = []) :
    Carries A D p K i env s (runReduce p run env i) (runReduce p run' env i) := by
  refine (Looks.ofExcept (spares_inputCount.bind fun _ => .ok _)).next fun ins hi => ?_
  obtain ⟨n, hn, hi⟩ := except_bind_ok.mp hi
  obtain rfl := Except.ok.inj hi
  refine (Looks.mapM fun o ho => (looks_ref (hops o (mem_of_mem_take ho))).any).next fun inputs hinputs => ?_
  refine (Looks.ofExcept (spares_inputCount.bind fun _ => .ok _)).next fun inits hin => ?_
  obtain ⟨n', hn', hi⟩ := except_bind_ok.mp hin
  obtain rfl : n = n' := Except.ok.inj (hn.symm.trans hn')
  obtain rfl := Except.ok.inj hi
  refine (held_accumulators h (fun o ho => hops o (mem_of_mem_drop ho)) fun ha hon => hinits ha hon _ hin).bind
    fun accs t₁ h₁ haccs => ?_
  have hs₁ := h.frame h₁
  cases inputs.head? with
  | none => exact .crash
  | some input =>
    refine (Looks.ofExcept spares_body?).next fun body hb => ?_
    cases body with
    | none => exact .crash
    | some body =>
      refine (Held.mapM_new hs₁.below fun v _ t ht => ?_).bind fun scalars t₂ h₂ hscalars => ?_
      · refine (Looks.ofExcept (spares_shapeOf _)).next fun shape _ => ?_
        exact held_new (fun c hc => Nat.lt_of_lt_of_le (hs₁.below c hc) ht) (spares_zeros _)
      · dsimp only
        have hready : D → ready (Reduce.bind p ⟨inputs, accs, scalars, dimensions p i, body⟩ env) body := by
          intro hd
          refine (hargs hd body hb).2 _ fun v => mem_keys_bind hscalars.1 ?_
          rw [hinputs.1, haccs.1, ← length_append, take_append_drop]
          exact (hargs hd body hb).1
        refine (held_steps hrun (hbody body hb) hready haccs.2.1 (fun a ha => hs₁.avoids_new hscalars.2.1 ha)
          (hs₁.map (·.bind hscalars.2.1 (Nat.le_of_eq hscalars.2.2.symm)))).bind fun _ t₃ h₃ _ => ?_
        refine (Looks.ofExcept spares_onTensors).next fun copied hon => ?_
        cases copied with
        | false => exact .pure ⟨(hs₁.frame h₂).frame h₃, fun hd => .refl (hres hd hon)⟩
        | true =>
          refine .ite (fun _ => ?_) fun hne => absurd rfl hne
          refine .ite (fun _ => .stop .crash) fun hfew => .pure ⟨?_, fun _ => .append _ fun w hw => ?_⟩
          · obtain ⟨hcells, hsize⟩ := haccs.2.2 hon
            have hgrows := Nat.le_trans h₂.grows h₃.grows
            exact h.map (·.refs _ accs hcells (hsize ▸ hgrows) fun _ hx => mem_reverse.mp hx)
          · rw [keys, map_reverse, mem_reverse, map_fst_zip (by simpa using hfew)]
            exact hw

/-! ## Launches -/

omit hrun h in
theorem workerEnv_ok {worker : Nat} : ∀ {args : List ValueId} {buffers : List (List Ref)} {env : Env},
    workerEnv worker args buffers = .ok env → env.map Prod.fst = args ∧ ∀ x ∈ env, ∃ rs ∈ buffers,
      ∃ r ∈ rs, x.2 = .ref r
  | [], _, env, h => by
    obtain rfl := Except.ok.inj h
    exact ⟨rfl, nofun⟩
  | v :: args, [], env, h => nomatch h
  | v :: args, rs :: buffers, env, h => by
    rw [workerEnv] at h
    cases hr : rs[worker]? with
    | none => simp [hr, throw, throwThe, MonadExceptOf.throw] at h
    | some r =>
      rw [hr] at h
      obtain ⟨rest, hrest, he⟩ := except_bind_ok.mp h
      obtain rfl := Except.ok.inj he
      obtain ⟨hkeys, hrefs⟩ := workerEnv_ok hrest
      refine ⟨congrArg (v :: ·) hkeys, forall_mem_cons.mpr
        ⟨⟨rs, mem_cons_self, r, mem_of_getElem? hr, rfl⟩, ?_⟩⟩
      exact fun x hx => (hrefs x hx).imp fun _ h => ⟨mem_cons_of_mem _ h.1, h.2⟩

omit h in
theorem held_runWorker (hb : good b) (h : Guarded A p K env s) (hready : D → ready env b) (worker : Nat) :
    Held K D (fun _ _ => True) s (runWorker run env b worker) (runWorker run' env b worker) := by
  have hheld := hrun K env b s hb h hready
  -- a body always ends well for the pool, so only the store that it leaves matters
  have hend : ∀ {e : Option RunError} {t : Store}, runWorker run' env b worker s = .ok e t → Frame K s t := by
    intro e t ht
    unfold runWorker at ht
    split at ht
    case h_1 => exact (EStateM.Result.ok.inj ht).2 ▸ (hheld.ok _ _ ‹_›).1
    case h_3 => cases ht
    all_goals exact (EStateM.Result.ok.inj ht).2 ▸ (hheld.error _ _ ‹_›).1
  refine ⟨by simp only [runWorker, hheld.same], fun e t ht => ⟨hend ht, trivial⟩, fun e t ht => ?_⟩
  unfold runWorker at ht
  split at ht
  case h_3 hstuck => exact ((hheld.error _ _ hstuck).2 trivial).elim
  all_goals cases ht

theorem held_launchWorker (hb : good b) (hargs : A → ∀ v ∈ (p.block b).args, (p.typeOf v).isTensor = false)
    (hready : D → ∀ env', keys env' = (p.block b).args → ready env' b)
    (hbuffers : ∀ rs ∈ buffers, ∃ v, (v, .buffer rs) ∈ env) (worker : Nat) :
    Held K D (fun _ _ => True) s (launchWorker p run b buffers worker) (launchWorker p run' b buffers worker) := by
  refine (Looks.ofExcept (spares_workerEnv _ _ _)).next fun env' he => ?_
  obtain ⟨hkeys, hrefs⟩ := workerEnv_ok he
  refine held_runWorker hrun hb ⟨h.watched, fun ha => (h.safe ha).of_memory fun x hx => ?_⟩
    (fun hd => hready hd env' hkeys) worker
  obtain ⟨rs, hrs, r, hr, hxr⟩ := hrefs x hx
  obtain ⟨w, hw⟩ := hbuffers rs hrs
  exact ⟨r, hxr, hargs ha x.1 (hkeys ▸ mem_map_of_mem hx), mem_memoryCells_buffer hw hr⟩

omit hrun h in
theorem held_runAll {task task' : Nat → Exec (Option RunError)}
    (htask : ∀ {t : Store}, Guarded A p K env t → ∀ k, Held K D (fun _ _ => True) t (task k) (task' k)) :
    ∀ (l : List Nat) {t : Store}, Guarded A p K env t →
      Held K D (fun _ _ => True) t (Pool.runAll task l) (Pool.runAll task' l)
  | [], _, _ => .pure trivial
  | k :: l, t, ht => by
    rw [Pool.runAll, Pool.runAll]
    refine (htask ht k).bind fun e u hu _ => ?_
    have hrest := held_runAll htask l (ht.frame hu)
    cases e with
    | none => exact hrest
    | some e => exact hrest.bind fun _ _ _ _ => .pure trivial

omit hrun h in
theorem runWorkers_eq (h : pool.waits kept order.length = false)
    : runWorkers p pool kept order run env b buffers =
      Pool.runIn order (launchWorker p run b buffers) >>= fun e => e.elim (pure env) Exec.fail := by
  rw [runWorkers, Pool.forEach, h, if_neg Bool.false_ne_true, map_eq_pure_bind, bind_assoc]
  congr 1
  funext e
  rw [pure_bind]
  cases e <;> rfl

omit hrun h in
theorem looks_launchParts (hops : ∀ o ∈ (p.op i).operands, Readable D env o) :
    Looks K D (fun x => (∃ blocks rest, (p.op i).regions = blocks :: rest ∧ blocks.head? = some x.2.1) ∧
      ∀ rs ∈ x.2.2, ∃ v, (v, .buffer rs) ∈ env) s (launchParts p env i) := by
  refine (looks_operandAt hops 0).next fun o ho => (looks_workgroup ho.2).next fun extents _ => ?_
  refine (Looks.mapM fun o ho => looks_buffer (hops o (mem_of_mem_drop ho))).next fun buffers hbuffers => ?_
  cases hr : (p.op i).regions with
  | nil => exact .crash
  | cons blocks rest =>
    refine (Looks.ofExcept (spares_checkLength _)).next fun n _ => ?_
    cases hb : blocks.head? with
    | none => exact .crash
    | some b => exact Looks.pure ⟨⟨blocks, rest, rfl, hb⟩, hbuffers.2⟩

/-- Workers that find places run their bodies and nothing else. -/
theorem held_runWorkers (hroom : pool.waits kept order.length = false)
    (hb : good b) (hargs : A → ∀ v ∈ (p.block b).args, (p.typeOf v).isTensor = false)
    (hready : D → ∀ env', keys env' = (p.block b).args → ready env' b)
    (hbuffers : ∀ rs ∈ buffers, ∃ v, (v, .buffer rs) ∈ env) :
    Held K D (fun env' t => env' = env ∧ Guarded A p K env t) s (runWorkers p pool kept order run env b buffers)
      (runWorkers p pool kept order run' env b buffers) := by
  rw [runWorkers_eq hroom, runWorkers_eq hroom]
  have hall := held_runAll (fun ht => held_launchWorker hrun ht hb hargs hready hbuffers) order h
  have hpool : Held K D (fun _ _ => True) s (Pool.runIn order (launchWorker p run b buffers))
      (Pool.runIn order (launchWorker p run' b buffers)) := hall.bind fun _ _ _ _ => .pure trivial
  refine hpool.bind fun e t ht _ => ?_
  cases e with
  | some e => exact .fail e
  | none => exact .pure ⟨rfl, h.frame ht⟩

theorem held_runLaunch (hops : ∀ o ∈ (p.op i).operands, Readable D env o) (h0 : D → (p.op i).results = [])
    (hbody : ∀ blocks rest b, (p.op i).regions = blocks :: rest → blocks.head? = some b →
      good b ∧ (A → ∀ v ∈ (p.block b).args, (p.typeOf v).isTensor = false) ∧
        (D → ∀ env', keys env' = (p.block b).args → ready env' b)) :
    Carries A D p K i env s (runLaunch p run env i) (runLaunch p run' env i) := by
  refine (looks_launchParts hops).next fun x hx => ?_
  obtain ⟨n, b, buffers⟩ := x
  obtain ⟨⟨blocks, rest, hr, hb⟩, hbuffers⟩ := hx
  obtain ⟨hgood, hargs, hready⟩ := hbody blocks rest b hr hb
  refine (held_runWorkers hrun h rfl hgood hargs hready hbuffers).weaken fun env' t _ ht => ?_
  obtain ⟨rfl, ht⟩ := ht
  exact ⟨ht, fun hd => .refl (h0 hd)⟩

end

/-! ## All operations -/

/-- The operation does not confuse tensors with memory: views are of memory, workers get memory, and what is
updated in place is memory. -/
structure Careful (p : Program) (i : OpId) : Prop where
  expand : (p.op i).name = Views.expandName → ∀ v w, (p.op i).operands[0]? = some (some v) →
    (p.op i).results[0]? = some w → (p.typeOf v).isTensor = false ∧ (p.typeOf w).isTensor = false
  launch : (p.op i).name = launchName → ∀ blocks rest b, (p.op i).regions = blocks :: rest →
    blocks.head? = some b → ∀ v ∈ (p.block b).args, (p.typeOf v).isTensor = false
  reduce : (p.op i).name = reduceName → onTensors p i = .ok false →
    ∀ inits, Reduction.inits p i = .ok inits → ∀ v, some v ∈ inits → (p.typeOf v).isTensor = false

def resultCounts : List (String × Nat) :=
  [(Arith.constantName, 1), (Views.reshapeName, 1), (Views.expandName, 1), (workgroupName, 1),
    (allocName, 1), (scatterName, 0), (gatherName, 2)]

/-- Operations have the results that running them gives, and the body of a reduction takes its operands. -/
structure Complete (p : Program) (i : OpId) : Prop where
  binary : ∀ b, Arith.Binary.ofName? (p.op i).name = some b → (p.op i).results.length = 1
  count : ∀ n, ((p.op i).name, n) ∈ resultCounts → (p.op i).results.length = n
  reduce : (p.op i).name = reduceName → onTensors p i = .ok false → (p.op i).results = []
  body : (p.op i).name = reduceName → ∀ b, body? p i = .ok (some b) →
    (p.block b).args.length ≤ (p.op i).operands.length
  launch : (p.op i).name = launchName → (p.op i).results = []

/-- The blocks of an operation are good to run, and the environments in which they are run are ready: with their
arguments only in a launch, and with what is around the operation otherwise. -/
structure Bodies (D : Prop) (p : Program) (good : BlockId → Prop) (ready : Env → BlockId → Prop)
    (env : Env) (i : OpId) : Prop where
  good : ∀ blocks ∈ (p.op i).regions, ∀ b ∈ blocks, good b
  ready : D → ∀ blocks ∈ (p.op i).regions, ∀ b ∈ blocks, ∀ env',
    (∀ v ∈ (p.block b).args, v ∈ keys env') →
    ((p.op i).name = launchName ∨ ∀ v ∈ keys env, v ∈ keys env') → ready env' b

theorem body?_ok (h : body? p i = .ok (some b)) : ∃ blocks ∈ (p.op i).regions, b ∈ blocks := by
  unfold body? at h
  cases hr : (p.op i).regions with
  | nil => simp [hr] at h
  | cons blocks rest =>
    rw [hr] at h
    exact ⟨blocks, mem_cons_self, mem_of_head? (Except.ok.inj h)⟩

theorem held_runOp {good : BlockId → Prop} {ready : Env → BlockId → Prop} {run run' : RunBody}
    (hrun : Trusted A D p good ready run run') (h : Guarded A p K env s)
    (hops : ∀ o ∈ (p.op i).operands, Readable D env o) (hcareful : A → Careful p i)
    (hcomplete : D → Complete p i)
    (hbodies : Bodies D p good ready env i) : Carries A D p K i env s (runOp p run env i) (runOp p run' env i) := by
  unfold runOp
  dsimp only
  cases hb : Arith.Binary.ofName? (p.op i).name with
  | some b => exact held_runBinary h hops (fun hd => (hcomplete hd).binary b hb) b
  | none =>
    cases hl : (runners p).lookup (p.op i).name with
    | none => exact .fail _
    | some runner =>
      have hm := mem_of_lookup hl
      have hcount : ∀ {name : String} {n : Nat}, (p.op i).name = name → (name, n) ∈ resultCounts → D →
          (p.op i).results.length = n := fun hn hm hd => (hcomplete hd).count _ (hn ▸ hm)
      simp only [runners, mem_cons, Prod.mk.injEq, not_mem_nil, or_false] at hm
      rcases hm with ⟨hn, rfl⟩ | ⟨hn, rfl⟩ | ⟨hn, rfl⟩ | ⟨hn, rfl⟩ | ⟨hn, rfl⟩ | ⟨hn, rfl⟩ |
        ⟨hn, rfl⟩ | ⟨hn, rfl⟩ | ⟨hn, rfl⟩
      · exact held_runConstant h (hcount hn (by simp [resultCounts]))
      · exact held_runReshape h hops (hcount hn (by simp [resultCounts]))
      · exact held_runExpand h hops (hcount hn (by simp [resultCounts])) fun ha => (hcareful ha).expand hn
      · refine held_runReduce hrun h hops (fun b hb => ?_) (fun ha => (hcareful ha).reduce hn)
          (fun hd b hb => ⟨(hcomplete hd).body hn b hb, fun env' hkeys => ?_⟩) fun hd => (hcomplete hd).reduce hn
        all_goals obtain ⟨blocks, hblocks, hb⟩ := body?_ok hb
        · exact hbodies.good blocks hblocks b hb
        · exact hbodies.ready hd blocks hblocks b hb env' (fun v hv => (hkeys v).mpr (.inl hv))
            (.inr fun v hv => (hkeys v).mpr (.inr hv))
      · exact held_runWorkgroup h (hcount hn (by simp [resultCounts]))
      · exact held_runAlloc h hops (hcount hn (by simp [resultCounts]))
      · exact held_runScatter h hops (hcount hn (by simp [resultCounts]))
      · exact held_runGather h hops (hcount hn (by simp [resultCounts]))
      · refine held_runLaunch hrun h hops (fun hd => (hcomplete hd).launch hn) fun blocks rest b hr hb => ?_
        have hblocks : blocks ∈ (p.op i).regions := hr ▸ mem_cons_self
        have hb' := mem_of_head? hb
        refine ⟨hbodies.good blocks hblocks b hb', fun ha => (hcareful ha).launch hn blocks rest b hr hb, ?_⟩
        exact fun hd env' hkeys => hbodies.ready hd blocks hblocks b hb' env' (fun v hv => hkeys ▸ hv) (.inl hn)

theorem Held.withContext {Q : α → Store → Prop} {x y : Exec α} (h : Held K D Q s x y) :
    Held K D Q s (withContext p i x) (withContext p i y) := by
  have hx : ∀ z : Exec α, Execution.withContext p i z s = Execution.withContext p i (fun _ => z s) s := fun _ => rfl
  refine ⟨by rw [hx x, hx y, h.same], fun a t ht => ?_, fun e t ht => ?_⟩
  all_goals
    unfold Execution.withContext at ht
    split at ht
  · cases ht
  · exact h.ok a t ht
  · obtain ⟨rfl, rfl⟩ := EStateM.Result.error.inj ht
    exact ⟨(h.error _ _ ‹_›).1, id⟩
  · exact h.error e t ht

end Offload.Execution
