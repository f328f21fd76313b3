import Offload.Proofs.Transfers

/-!
# Transfers with any map

A transfer faults exactly if it comes to an element that goes to a worker that is not there or before the start of a
buffer. All other transfers report an error, or every element has a slot that is there.
-/

namespace Offload

open List

namespace Transfer

open Offload.Shape

/-! ## Layouts -/

theorem layoutOf_cases {shape : Shape} {extents : List Int} (buffers : Nat) (hextents : ∀ e ∈ extents, 0 < e)
    (hworkers : extents.prod < 9223372036854775808) (hpos : ∀ d ∈ shape.dims, 0 < d)
    (hsmall : shape.dims.prod < 9223372036854775808) :
    (∃ e, layoutOf shape buffers extents = .error (.error e)) ∨
      ∃ layout, layoutOf shape buffers extents = .ok layout ∧
      (∀ d ∈ layout.dims, 0 < d) ∧ layout.dims.prod = shape.dims.prod := by
  have hwork : Workgroup.workers extents = extents.prod := Word.product_eq hextents hworkers
  have hw := prod_pos hextents
  by_cases hcount : (buffers : Int) = extents.prod
  · -- a tensor whose first axes are those of the workgroup is even
    by_cases heven : extents.prod ∣ shape.dims.prod
    · obtain ⟨k, hk⟩ := Int.eq_ofNat_of_zero_le (Int.ediv_nonneg (prod_pos hpos).le hw.le)
      have h : Shared shape.dims extents k := ⟨hextents, hpos, by rw [← hk, Int.mul_ediv_cancel' heven], hsmall⟩
      obtain ⟨rest, hlayout, hl⟩ := h.layoutOf hcount shape.element
      exact .inr ⟨_, hlayout, hl.all_pos, hl.prod.trans h.prod.symm⟩
    · have htake : shape.dims.take extents.length ≠ extents := fun h =>
        heven ⟨(shape.dims.drop extents.length).prod, by
        conv_lhs => rw [← take_append_drop extents.length shape.dims, prod_append, h]⟩
      have hrem : Word.rem shape.size extents.prod ≠ 0 := by
        rw [Shape.size, Word.product_eq hpos hsmall]
        exact fun h => heven (Word.rem_eq_zero.mp h)
      exact .inl ⟨_, by simp only [layoutOf, hwork, hcount, htake, hrem, hw.ne', ne_eq,
        not_true_eq_false, if_false]; rfl⟩
  · exact .inl ⟨_, by simp only [layoutOf, hwork, hcount, ne_eq, not_false_eq_true, if_true]; rfl⟩

/-! ## Transfers -/

/-- The elements of a shape, going through them in order, lead to one that strays. -/
def Astray (shape : Shape) (extents : List Int) (map : Affine.Map) (buffers : Array Tensor) : Prop :=
  ∃ layout, layoutOf shape buffers.size extents = .ok layout ∧
    Lost ⟨map, layout, extents, room buffers⟩ layout.indices

def Settled (shape : Shape) (extents : List Int) (map : Affine.Map) (buffers : Array Tensor)
    (slots : List (Nat × Nat)) : Prop :=
  ∃ layout, layoutOf shape buffers.size extents = .ok layout ∧
    Slots ⟨map, layout, extents, room buffers⟩ layout.indices slots

/-- With a map that has two results for each axis of the workgroup, a transfer faults exactly if it comes to an
element that strays. It succeeds exactly if all elements have slots that are there. Then scattering puts the elements
into their slots, and gathering takes them from their slots. -/
theorem transfer_faults_iff {shape : Shape} {data : Array Float} {extents : List Int} {map : Affine.Map}
    (buffers : Array Tensor) (hextents : ∀ e ∈ extents, 0 < e) (hworkers : extents.prod < 9223372036854775808)
    (hresults : map.results.length = 2 * extents.length) (hpos : ∀ d ∈ shape.dims, 0 < d)
    (hroom : shape.dims.prod < capacity) (hdata : (data.size : Int) = shape.dims.prod) :
    ((∃ c, (scatter ⟨shape, data⟩ extents map buffers).2 = some (.fault c)) ↔
      Astray shape extents map buffers) ∧
      ((∃ c, gather buffers shape extents map = .error (.fault c)) ↔ Astray shape extents map buffers) ∧
      (∀ result, scatter ⟨shape, data⟩ extents map buffers = (result, none) ↔
        ∃ slots, Settled shape extents map buffers slots ∧ result = deal slots data.toList buffers) ∧
      ∀ t, gather buffers shape extents map = .ok t ↔ ∃ slots elements,
        Settled shape extents map buffers slots ∧
        Forall₂ (Held buffers) slots elements ∧ t = ⟨shape, (elements.map shape.element.round).toArray⟩ := by
  have hsmall : shape.dims.prod < 9223372036854775808 := hroom.trans (by decide)
  rcases layoutOf_cases buffers.size hextents hworkers hpos hsmall with ⟨e, he⟩ |
    ⟨layout, hlayout, hlpos, hlprod⟩
  · simp [scatter, gather, Astray, Settled, he, bind, Except.bind]
  · obtain ⟨hfault, hok⟩ := scatterElements_fate layout hresults buffers
      (get_indices hlpos (hlprod ▸ hsmall) ⟨shape, data⟩ (hdata.trans hlprod.symm))
    obtain ⟨hgfault, hgok⟩ := mapM_fate (fun indices => elementAt_fate layout indices buffers
      hresults) layout.indices
    simp only [scatter, gather_of_layout hpos hroom hlayout, hlayout, Astray, Settled, Except.ok.injEq, exists_eq_left',
      hfault, hok, ← hgfault]
    refine ⟨trivial, ?_, fun _ => trivial, fun t => ?_⟩
    · cases layout.indices.mapM fun x => elementAt map layout extents x.2 buffers <;> simp [Except.map]
    · constructor
      · intro h
        obtain ⟨elements, helements, rfl⟩ := except_map_ok.mp h
        obtain ⟨slots, hslots, hheld⟩ := (hgok elements).mp helements
        exact ⟨slots, elements, hslots, hheld, rfl⟩
      · rintro ⟨slots, elements, hslots, hheld, rfl⟩
        exact except_map_ok.mpr ⟨elements, (hgok elements).mpr ⟨slots, hslots, hheld⟩, rfl⟩

/-- One element for each of two workers, and a map that exchanges the workers. -/
theorem transfer_faults_iff_exchanged : ∃ map : Affine.Map, map.results.length = 2 * [(2 : Int)].length ∧
    ¬ Astray ⟨.float64, [2]⟩ [2] map (Array.replicate 2 ⟨⟨.float64, []⟩, #[0]⟩) ∧
    ∃ slots, Settled ⟨.float64, [2]⟩ [2] map (Array.replicate 2 ⟨⟨.float64, []⟩, #[0]⟩) slots ∧
      #[⟨⟨.float64, []⟩, #[7]⟩, ⟨⟨.float64, []⟩, #[5]⟩] =
        deal slots [5, 7] (Array.replicate 2 ⟨⟨.float64, []⟩, #[0]⟩) := by
  obtain ⟨hfault, _, hok, _⟩ := @transfer_faults_iff ⟨.float64, [2]⟩ #[5, 7] [2]
    ⟨2, 0, [.const 0, .add (.const 1) (.mul (.dim 0) (.const (-1)))]⟩
    (Array.replicate 2 ⟨⟨.float64, []⟩, #[0]⟩) (by decide) (by decide) rfl (by decide) (by decide) rfl
  refine ⟨_, rfl, ?_, (hok _).mp rfl⟩
  rw [← hfault]
  rintro ⟨c, hc⟩
  cases hc

/-- A map with two dimensions and two results that sends the elements to worker five of two. -/
theorem transfer_to_absent_worker : ∃ map : Affine.Map, map.dims = 2 * [(2 : Int)].length ∧
    map.results.length = 2 * [(2 : Int)].length ∧
    (scatter ⟨⟨.float32, [2]⟩, #[5, 7]⟩ [2] map (Array.replicate 2 ⟨⟨.float32, []⟩, #[0]⟩)).2 =
      some (.fault .crash) ∧
    gather (Array.replicate 2 ⟨⟨.float32, []⟩, #[0]⟩) ⟨.float32, [2]⟩ [2] map = .error (.fault .crash) :=
  ⟨⟨2, 0, [.const 0, .const 5]⟩, rfl, rfl, rfl, rfl⟩

end Transfer

end Offload
