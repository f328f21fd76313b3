import Offload.Proofs.Selection
import Offload.Proofs.Transfers

/-!
# Portions

A workgroup that was chosen divides the outputs of a reduction: every worker computes `rows` of them, and each of
those from `width` elements. So a worker gets `rows * width` elements of an input and `rows` of an accumulator.
-/

namespace Offload.Distribution

open Program Transfer Reduction List

variable {p q t m : Program} {sel : Selector} {i : OpId} {b : BlockId} {place n rows width : Nat}
    {dims axes extents : List Int}
  {x : Lowering}

/-! ## Views -/

def View.of (rows width : Nat) : View :=
  if width = 1 then .elementwise else if rows = 1 then .row else .rows rows width

def View.seenDims (k : Nat) : View → List Int
  | .elementwise => shareDims k
  | .row => shareDims k
  | .rows count length => [count, length]

theorem View.of_fits (rows width : Nat) :
    axesFit ((View.of rows width).seenDims (rows * width)).length none (View.of rows width).axes = true ∧
      keptDims ((View.of rows width).seenDims (rows * width)) (View.of rows width).axes = shareDims rows := by
  unfold View.of
  split
  · rename_i hw
    subst hw
    simp [View.seenDims, View.axes, axesFit, keptDims, zipIdx_map_fst]
  · split
    · rename_i hw hr
      subst hr
      have hw' : (width : Int) ≠ 1 := by exact_mod_cast hw
      simp [View.seenDims, View.axes, shareDims, hw', axesFit, keptDims]
    · rename_i hr
      have hr' : (rows : Int) ≠ 1 := by exact_mod_cast hr
      simp [View.seenDims, View.axes, shareDims, hr', axesFit, keptDims]

/-! ## Sharing a reduction -/

/-- Every worker computes `rows` outputs of the reduction, each from `width` elements. -/
structure Portions (sel : Selector) (p : Program) (i : OpId) (n : Nat) (dims axes extents : List Int)
    (rows width : Nat) : Prop extends Reduces sel.storage p i n dims axes where
  some_inits : n < (p.op i).operands.length
  words : ((p.op i).operands.length : Int) < 9223372036854775808
  trailing : isSupported dims.length axes = true
  grid : Countable extents
  outputs : (Reduction.keptDims dims axes).prod = extents.prod * rows
  elements : dims.prod = (Reduction.keptDims dims axes).prod * width

/-- What the verifier does not ask of a reduction: its tensors have no more elements than can be counted, and so have
its operands. -/
structure Measured (p : Program) (i : OpId) : Prop where
  tensors : ∀ s ∈ (p.op i).operands, ∀ shape, p.slotType? s = some (.tensor shape) →
    (∀ d ∈ shape.dims, 0 < d) ∧ shape.dims.prod < 9223372036854775808
  segments : ∀ ns, ((p.op i).attr? Reduction.segmentsAttr).bind Attr.ints? = some ns → ∀ n ∈ ns, Word.InRange n

theorem Measured.congr (h : Measured p i) (hu : Unchanged i p q) : Measured q i where
  tensors s hs shape hshape := by
    obtain ⟨s', hs', heq⟩ := exists_of_map_eq hu.operands hs
    exact h.tensors s' hs' shape (heq ▸ hshape)
  segments ns hns := h.segments ns (by rw [← hns, hu.attr?])

theorem allOf_eq_true {α : Type} {test : α → Except Fault Bool} : ∀ {l : List α}, allOf test l = .ok true →
    ∀ x ∈ l, test x = .ok true
  | [], _, _, hx => by cases hx
  | y :: l, h, x, hx => by
    rw [allOf, except_bind_ok] at h
    obtain ⟨b, hb, h⟩ := h
    cases b with
    | false => cases h
    | true =>
      rcases mem_cons.mp hx with rfl | hx
      · exact hb
      · exact allOf_eq_true h x hx

theorem storable_of_isLegal (h : sel.isLegal p i extents = .ok true) : ∀ s ∈ (p.op i).operands, ∃ shape : Shape,
    p.slotType? s = some (.tensor shape) ∧ (sel.storage shape.element).isSome = true := by
  simp only [Selector.isLegal, except_bind_ok] at h
  obtain ⟨_, _, b1, -, h⟩ := h
  cases b1 with
  | false => cases h
  | true =>
    simp only [Bool.not_true, Bool.false_eq_true, if_false, except_bind_ok] at h
    obtain ⟨_, _, b2, -, h⟩ := h
    cases b2 with
    | false => cases h
    | true =>
      intro s hs
      have hfits := allOf_eq_true h s hs
      simp only [Selector.bufferFits, except_bind_ok] at hfits
      obtain ⟨plan, hplan, o, ho, -⟩ := hfits
      obtain ⟨v, shape, rfl, hty, -, -, -, hel, -, -⟩ := planOperand_ok hplan
      refine ⟨shape, congrArg some hty, ?_⟩
      rw [← hel]
      by_contra hno
      rw [Option.not_isSome_iff_eq_none] at hno
      simp [Fault.ofShape, Device.checkBuffer, Shape.memory, hno, bind, Except.bind, Except.mapError] at ho

theorem isLegal_of_select (h : sel.select p i = .ok (some extents)) : sel.isLegal p i extents = .ok true := by
  have hfirst : ∀ cs, sel.firstLegal p i cs = .ok (some extents) → sel.isLegal p i extents = .ok true := by
    intro cs
    induction cs with
    | nil => exact fun h => nomatch h
    | cons c cs ih =>
      intro h
      simp only [Selector.firstLegal, except_bind_ok] at h
      obtain ⟨_, -, b, hb, h⟩ := h
      cases b with
      | false => exact ih h
      | true =>
        obtain rfl := Option.some.inj (except_pure_ok.mp h)
        exact hb
  exact hfirst _ h

theorem portions_of_select (hcheck : checkReduce p i = .ok ()) (hm : Measured p i)
    (hc : ∀ extents ∈ sel.candidates, Countable extents) (hsel : sel.select p i = .ok (some extents)) :
    ∃ n dims axes rows width, Portions sel p i n dims axes extents rows width := by
  have hstored := storable_of_isLegal (isLegal_of_select hsel)
  have htypes : ∀ s ∈ (p.op i).operands, ∃ ty, p.slotType? s = some ty ∧ Storable sel.storage ty := by
    intro s hs
    obtain ⟨shape, hshape, hbytes⟩ := hstored s hs
    exact ⟨_, hshape, shape, rfl, hbytes, hm.tensors s hs shape hshape⟩
  obtain ⟨k, l, axes, shapes, b, hchecked⟩ := checked_of_checkReduce hcheck
  have hwords := hm.segments _ hchecked.segments
  have hk := hwords k (by simp)
  have hl := hwords l (by simp)
  have hred := reduces_of_checked hchecked htypes (inputs_le_operands hchecked htypes hk hl)
  have hlen : ((p.op i).operands.filterMap p.slotType?).length = (p.op i).operands.length := by
    simpa using (congrArg List.length (checked_types hchecked htypes).1).symm
  obtain ⟨hsum, htotal⟩ := add_eq_length hchecked.positive.1 hchecked.positive.2 hk hl hchecked.total
  rw [hlen] at hsum htotal
  obtain ⟨o, ho, hsome⟩ := hred.select_total hc
  obtain ⟨hmem, hdvd, htrailing⟩ := hsome extents (Except.ok.inj (ho.symm.trans hsel))
  have hg := hc extents hmem
  have hkept := prod_pos (keptDims_pos hred.positive axes)
  obtain ⟨rows, hrows⟩ := Int.eq_ofNat_of_zero_le (Int.ediv_nonneg hkept.le hg.workers.2.le)
  obtain ⟨width, hwidth⟩ := Int.eq_ofNat_of_zero_le (Int.ediv_nonneg (prod_pos hred.positive).le hkept.le)
  have hpos := hchecked.positive
  exact ⟨_, _, axes, rows, width, hred, by omega, htotal, htrailing, hg, by rw [← hrows, Int.mul_ediv_cancel' hdvd],
    by rw [← hwidth, Int.mul_ediv_cancel' (keptDims_dvd _ axes)]⟩

namespace Portions

variable (h : Portions sel p i n dims axes extents rows width)
include h

theorem inputs_shared : Shared dims extents (rows * width) :=
  ⟨h.grid.positive, h.positive, by rw [h.elements, h.outputs, Int.natCast_mul, Int.mul_assoc], h.small⟩

theorem inits_shared : Shared (keptDims dims axes) extents rows :=
  ⟨h.grid.positive, keptDims_pos h.positive axes, h.outputs, h.kept_small⟩

theorem view_eq (e : ElementType) : viewOf ⟨e, dims⟩ axes extents =
    .ok (View.of rows width) := by
  obtain ⟨hw, hwpos⟩ := h.grid.workers
  have hkept := prod_pos (keptDims_pos h.positive axes)
  have hwidth : Word.quot (Shape.size ⟨e, dims⟩) (keptDims dims axes).prod = width := by
    rw [Shape.size, Word.product_eq h.positive h.small, Word.quot_eq (prod_pos h.positive).le h.small hkept.le,
      h.elements, Int.mul_ediv_cancel_left _ hkept.ne']
  have hrows : Word.quot (keptDims dims axes).prod extents.prod = rows := by
    rw [Word.quot_eq hkept.le h.kept_small hwpos.le, h.outputs, Int.mul_ediv_cancel_left _ hwpos.ne']
  simp only [viewOf, View.of, Shape.volumeExcluding_eq (s := ⟨e, dims⟩) h.fit h.positive h.small, hw, hwidth,
    hrows, hkept.ne', hwpos.ne', if_false, Nat.cast_eq_one]

end Portions

/-! ## The sections of a distribution -/

def Planned (p : Program) (extents ds : List Int) (k : Nat) (s : Section) : Prop :=
  ∃ e : ElementType, p.slotType? s.plan.operand = some (.tensor ⟨e, ds⟩) ∧
    s.plan = ⟨s.plan.operand, ⟨e, ds⟩, extents ++ shareDims k, ⟨e, shareDims k⟩, extents⟩

theorem planned_of_plan {s : Section} {slot : Slot} {e : ElementType} {ds : List Int} {k : Nat}
    (hs : Shared ds extents k)
    (ht : p.slotType? slot = some (.tensor ⟨e, ds⟩)) (hp : planOperand p slot extents = .ok s.plan) :
    Planned p extents ds k s := by
  have hplan := Except.ok.inj ((hs.planOperand ht).symm.trans hp)
  have hop : s.plan.operand = slot := by rw [← hplan]
  exact ⟨e, by rw [hop, ht], by rw [hop, ← hplan]⟩

namespace Lowered

variable (h : Lowered i b place extents x t m) (hp : Portions sel t i n dims axes extents rows width)
include h hp

theorem inputs_eq : x.body.inputs = n := Except.ok.inj (h.body.inputs.symm.trans hp.count)

theorem inputs_planned : ∀ s ∈ x.sections.take n, Planned t extents dims (rows * width) s := by
  intro s hs
  obtain ⟨slot, hslot, hplan⟩ := forall₂_mem_right (forall₂_take n h.plans) hs
  obtain ⟨e, he, -⟩ := hp.inputs slot hslot
  exact planned_of_plan hp.inputs_shared he hplan

theorem inits_planned : ∀ s ∈ x.sections.drop n, Planned t extents (keptDims dims axes) rows s := by
  intro s hs
  obtain ⟨slot, hslot, hplan⟩ := forall₂_mem_right (forall₂_drop n h.plans) hs
  obtain ⟨e, he, -⟩ := hp.inits slot hslot
  exact planned_of_plan hp.inits_shared he hplan

theorem planned : ∀ s ∈ x.sections, ∃ ds k, Shared ds extents k ∧ Planned t extents ds k s := by
  intro s hs
  rw [← take_append_drop n x.sections] at hs
  rcases mem_append.mp hs with hs | hs
  · exact ⟨_, _, hp.inputs_shared, h.inputs_planned hp s hs⟩
  · exact ⟨_, _, hp.inits_shared, h.inits_planned hp s hs⟩

end Lowered

end Offload.Distribution
