import Offload.Execution.Run

/-!
# Reasons to fail

A run may fail for many reasons. Only reading a value fails because it is not defined, and only waiting for places is
stuck: what is computed on shapes, tensors and buffers alone never fails for these reasons.
-/

namespace Offload

open Transfer Reduction

def Fault.isReserved : Fault → Bool
  | undefinedValue _ _ | stuck => true
  | _ => false

def Stop.isReserved {ε : Type} : Stop ε → Bool
  | error _ => false
  | fault e => e.isReserved

namespace Execution

variable {α β ε : Type} {p : Program} {i : OpId}

/-! ## Computations that fail for other reasons -/

def Spares (bad : ε → Bool) (x : Except ε α) : Prop := ∀ e, x = .error e → bad e = false

namespace Spares

variable {bad : ε → Bool}

theorem ok (a : α) : Spares bad (.ok a) := nofun

theorem error {e : ε} (h : bad e = false) : Spares bad (.error e : Except ε α) := fun _ he =>
    Except.error.inj he ▸ h

theorem bind {x : Except ε α} {f : α → Except ε β} (hx : Spares bad x) (hf : ∀ a, Spares bad (f a)) :
    Spares bad (x >>= f) := by
  cases x with
  | ok a => exact hf a
  | error e => exact error (hx e rfl)

theorem ite {c : Prop} [Decidable c] {x y : Except ε α} (hx : Spares bad x) (hy : Spares bad y) :
    Spares bad (if c then x else y) := by
  split
  · exact hx
  · exact hy

theorem mapM {f : α → Except ε β} (hf : ∀ a, Spares bad (f a)) : ∀ l : List α, Spares bad (l.mapM f)
  | [] => by
    rw [List.mapM_nil]
    exact ok _
  | a :: l => by
    rw [List.mapM_cons]
    exact (hf a).bind fun _ => (mapM hf l).bind fun _ => ok _

theorem mapError {ε' : Type} {bad' : ε' → Bool} {f : ε' → ε} {x : Except ε' α}
    (h : ∀ e, bad' e = false → bad (f e) = false) (hx : Spares bad' x) : Spares bad (x.mapError f) := by
  cases x with
  | ok a => exact ok a
  | error e => exact error (h e (hx e rfl))

end Spares

theorem spares_ofShape (x : Except ShapeFault α) : Spares Fault.isReserved (Fault.ofShape x) := by
  cases x with
  | ok a => exact .ok a
  | error e => exact .error rfl

theorem spares_checkLength (n : Int) : Spares Fault.isReserved (checkLength n) := .ite (.ok _) (.error rfl)

theorem spares_shapeOf (t : Ty) : Spares Fault.isReserved (shapeOf t) := by
  unfold shapeOf
  split
  · exact .ok _
  · split
    · exact .ok _
    · exact .error rfl

theorem spares_make (s : Shape) (data : Array Float) : Spares Fault.isReserved (Tensor.make s data) :=
  .ite (.ok _) (.error rfl)

theorem spares_zeros (s : Shape) : Spares Fault.isReserved (Tensor.zeros s) :=
  (spares_checkLength _).bind fun _ => .ok _

theorem spares_get (t : Tensor) (k : Int) : Spares Fault.isReserved (t.get k) := by
  unfold Tensor.get
  split
  · exact .ok _
  · exact .error rfl

theorem spares_viewShape (t : Tensor) (dims : List Int) : Spares Fault.isReserved (t.viewShape dims) :=
  (spares_ofShape _).bind fun _ => .ite (.ok _) (.error rfl)

theorem spares_applyBinary (b : Arith.Binary) (x y : Tensor) (s : Shape) :
    Spares Fault.isReserved (applyBinary b x y s) :=
  (spares_checkLength _).bind fun _ =>
    (Spares.mapM (fun _ => (spares_get x _).bind fun _ => (spares_get y _).bind fun _ => .ok _) _).bind fun _ => .ok _

theorem spares_workerEnv (worker : Nat) : ∀ (args : List ValueId) (buffers : List (List Ref)),
    Spares Fault.isReserved (workerEnv worker args buffers)
  | [], _ => .ok _
  | _ :: _, [] => .error rfl
  | _ :: args, rs :: buffers => by
    rw [workerEnv]
    cases rs[worker]? with
    | none => exact .error rfl
    | some r => exact (spares_workerEnv worker args buffers).bind fun _ => .ok _

theorem spares_inputCount : Spares Fault.isReserved (inputCount p i) := by
  refine Spares.bind ?_ fun _ => .ite (.ok _) (.error rfl)
  unfold segments
  split
  · exact .ok _
  · exact .error rfl

theorem spares_onTensors : Spares Fault.isReserved (onTensors p i) := by
  have hgo : ∀ l, Spares Fault.isReserved (onTensors.go l) := by
    intro l
    induction l with
    | nil => exact .ok _
    | cons o l ih =>
      cases o with
      | none => exact .error rfl
      | some t =>
        rw [onTensors.go]
        split
        · exact ih
        · exact .ok _
  exact hgo _

theorem spares_body? : Spares Fault.isReserved (body? p i) := by
  unfold body?
  split
  · exact .error rfl
  · exact .ok _

/-! ### Transfers -/

theorem spares_orFault {x : Except Fault α} (h : Spares Fault.isReserved x) :
    Spares Stop.isReserved (orFault x) := h.mapError fun _ he => he

theorem spares_layoutOf (s : Shape) (n : Nat) (extents : List Int) :
    Spares Stop.isReserved (layoutOf s n extents) := by
  unfold layoutOf
  refine .ite (.error rfl) (.ite (.ok _) (.ite (.error rfl) (.ite (.error rfl) ?_)))
  exact spares_orFault (spares_ofShape _)

theorem spares_locate (map : Affine.Map) (layout : Shape) (extents indices : List Int) :
    Spares Stop.isReserved (locate map layout extents indices) := by
  unfold locate
  dsimp only
  split
  · exact .error rfl
  · exact .ite (.error rfl) (.ok _)

theorem spares_bufferOf (buffers : Array Tensor) (worker : Int) :
    Spares Stop.isReserved (bufferOf buffers worker) := by
  unfold bufferOf
  split
  · exact .ok _
  · exact .error rfl

theorem spares_targetOf (map : Affine.Map) (layout : Shape) (extents indices : List Int) (buffers : Array Tensor) :
    Spares Stop.isReserved (targetOf map layout extents indices buffers) :=
  (spares_locate _ _ _ _).bind fun _ => (spares_bufferOf _ _).bind fun _ =>
    .ite (.error rfl) (.ite (.error rfl) (.ok _))

theorem spares_gather (buffers : Array Tensor) (s : Shape) (extents : List Int) (map : Affine.Map) :
    Spares Stop.isReserved (gather buffers s extents map) := by
  refine (spares_layoutOf _ _ _).bind fun layout => Spares.bind ?_ fun _ =>
    Spares.bind (.mapM (fun x => ?_) _) fun _ => .ok _
  · exact (spares_orFault (spares_checkLength _)).bind fun _ => .ok _
  · refine (spares_locate _ _ _ _).bind fun _ => (spares_bufferOf _ _).bind fun _ => .ite (.error rfl) ?_
    exact spares_orFault (spares_get _ _)

theorem spares_scatterElements (t : Tensor) (map : Affine.Map) (layout : Shape) (extents : List Int) :
    ∀ (places : List (Nat × List Int)) (buffers : Array Tensor),
      ∀ e ∈ (scatterElements t map layout extents places buffers).2, e.isReserved = false
  | [], _ => by simp [scatterElements]
  | (flat, indices) :: places, buffers => by
    rw [scatterElements]
    cases htarget : targetOf map layout extents indices buffers with
    | error e =>
      intro e' he
      exact Option.some.inj he ▸ spares_targetOf _ _ _ _ _ e htarget
    | ok target =>
      cases hx : t.get flat with
      | error e =>
        intro e' he
        exact Option.some.inj he ▸ spares_get _ _ e hx
      | ok x => exact spares_scatterElements t map layout extents places _

theorem spares_scatter (t : Tensor) (extents : List Int) (map : Affine.Map) (buffers : Array Tensor) :
    ∀ e ∈ (scatter t extents map buffers).2, e.isReserved = false := by
  unfold scatter
  cases hl : layoutOf t.shape buffers.size extents with
  | error e =>
    intro e' he
    exact Option.some.inj he ▸ spares_layoutOf _ _ _ e hl
  | ok layout => exact spares_scatterElements t map layout extents _ buffers

end Execution

end Offload
