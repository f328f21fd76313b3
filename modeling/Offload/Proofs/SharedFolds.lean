import Offload.Proofs.Portions
import Offload.Proofs.ReductionFolds

/-!
# Reductions by portions

A worker reduces its portions of the operands along the axes of its view. Its outputs are those of the whole reduction
at its places: the same elements are combined in the same order and rounded to the same types.
-/

namespace Offload.Distribution

open Shape Execution Reduction Transfer List

variable {sel : Selector} {p : Program} {i : OpId} {dims axes extents : List Int} {k m n r w rows width : Nat}

theorem keptFrom_trailing (xs : List Int) : ∀ axis, axis + xs.length = k + n →
    keptFrom ((range' k n).map Nat.cast) axis xs = xs.take (k - axis) := by
  induction xs with
  | nil => simp [keptFrom]
  | cons x xs ih =>
    intro axis h
    rw [length_cons] at h
    rw [keptFrom_cons, ih (axis + 1) (by omega)]
    by_cases hk : k ≤ axis
    · rw [if_pos (by simpa using by omega), Nat.sub_eq_zero_of_le hk, Nat.sub_eq_zero_of_le (by omega)]
      rfl
    · rw [if_neg (by simpa using by omega), show k - axis = k - (axis + 1) + 1 by omega, take_succ_cons]

theorem placesOf_trailing (hpos : ∀ d ∈ dims, 0 < d) (hsmall : dims.prod < 9223372036854775808)
    (ht : Trailing dims.length axes) (hwidth : dims.prod = (keptDims dims axes).prod * width)
    (hm : (m : Int) < (keptDims dims axes).prod) : placesOf dims axes m = range' (m * width) width := by
  have hkeptsmall := Int.lt_of_le_of_lt (keptDims_le hpos axes) hsmall
  obtain ⟨k, hk, rfl⟩ := ht
  have hkept : ∀ xs : List Int, xs.length = dims.length →
      keptFrom ((range' k (dims.length - k)).map Nat.cast) 0 xs = xs.take k := fun xs hxs =>
    keptFrom_trailing xs 0 (by omega)
  rw [keptDims_eq, hkept dims rfl] at hm hwidth hkeptsmall
  have htake : ∀ d ∈ dims.take k, 0 < d := fun d hd => hpos d (mem_of_mem_take hd)
  have hdrop : (dims.drop k).prod = width :=
    Int.eq_of_mul_eq_mul_left (prod_pos htake).ne' ((prod_take_mul_prod_drop dims k).trans hwidth)
  have hrow : 0 < (dims.drop k).prod := prod_pos fun d hd => hpos d (mem_of_mem_drop hd)
  have hbound : dims.prod.toNat = (dims.take k).prod.toNat * width := by
    rw [hwidth, Int.toNat_mul (prod_pos htake).le (by omega), Int.toNat_natCast]
  refine Pairwise.eq_of_mem_iff (pairwise_lt_range.filter _) pairwise_lt_range' fun n => ?_
  rw [placesOf, mem_filter, mem_range, decide_eq_true_eq, mem_range'_1, keptDims_eq, hkept dims rfl, hbound]
  have hquot : n / width = m ↔ m * width ≤ n ∧ n < m * width + width := by
    rw [Nat.div_eq_iff (by omega)]
    omega
  have hindex (hn : n < (dims.take k).prod.toNat * width) :
      keptIndices ((range' k (dims.length - k)).map Nat.cast) (tupleAt dims n) = tupleAt (dims.take k)
        (n / width : Nat) := by
    have hsplit := tupleAt_append htake hrow (Int.natCast_nonneg n) (by rw [take_append_drop]; omega)
    rw [take_append_drop, hdrop] at hsplit
    refine (hkept _ (length_tupleAt _ _)).trans ?_
    rw [hsplit, take_left' (by simp [hk])]
    rfl
  constructor
  · rintro ⟨hn, hkn⟩
    have hlt := Nat.div_lt_of_lt_mul (Nat.mul_comm _ _ ▸ hn)
    exact hquot.mp (tupleAt_inj htake hkeptsmall (by omega) hm (hindex hn ▸ hkn))
  · intro hn
    have hlt := Nat.mul_le_mul_right width (show m + 1 ≤ (dims.take k).prod.toNat by omega)
    rw [Nat.succ_mul] at hlt
    have hn' : n < (dims.take k).prod.toNat * width := by omega
    exact ⟨hn', by rw [hindex hn', hquot.mpr hn]⟩

/-- What worker `w` gets of a tensor that is dealt out in portions of `k` elements. -/
def portionOf (w k : Nat) (x : Tensor) : Tensor :=
  ⟨⟨x.shape.element, shareDims k⟩, x.data.extract (w * k) ((w + 1) * k)⟩

theorem elementsAt_portionOf (xs : List Tensor) (w : Nat) (hn : n < k) :
    elementsAt (xs.map (portionOf w k)) n = elementsAt xs (w * k + n) := by
  have hlt : w * k + n < (w + 1) * k := by rw [Nat.succ_mul]; omega
  rw [elementsAt, map_map]
  refine map_congr_left fun x _ => ?_
  simp only [Function.comp, portionOf, Array.getD_eq_getD_getElem?, Array.getElem?_extract]
  split <;> [rfl; rw [Array.getElem?_eq_none (by omega)]]

namespace Portions

variable (h : Portions sel p i n dims axes extents rows width)
include h

theorem placesOf_view (hr : r < rows) :
    placesOf ((View.of rows width).seenDims (rows * width)) (View.of rows width).axes r = range' (r * width) width := by
  have hs := h.inputs_shared
  obtain ⟨hrows, hwidth⟩ := CanonicallyOrderedAdd.mul_pos.mp (Int.natCast_pos.mp hs.share_pos)
  have hshare : (∀ d ∈ shareDims (rows * width), 0 < d) ∧
    (shareDims (rows * width)).prod = (rows * width : Nat) :=
    ⟨hs.shareDims_pos, Shared.prod_shareDims⟩
  have hview : Trailing ((View.of rows width).seenDims (rows * width)).length (View.of rows width).axes ∧
      (∀ d ∈ (View.of rows width).seenDims (rows * width), 0 < d) ∧
      ((View.of rows width).seenDims (rows * width)).prod = (rows * width : Nat) := by
    unfold View.of
    split
    · exact ⟨⟨_, le_rfl, by simp [View.axes]⟩, hshare⟩
    · rename_i hne
      split
      · rename_i hone
        subst hone
        exact ⟨⟨0, Nat.zero_le _, by simp [View.axes, View.seenDims, shareDims, hne]⟩, hshare⟩
      · exact ⟨⟨1, by simp [View.seenDims], rfl⟩, by simp [View.seenDims, hrows, hwidth]⟩
  obtain ⟨htrailing, hpos, hprod⟩ := hview
  have hkept := (View.of_fits rows width).2
  refine placesOf_trailing hpos (hprod ▸ hs.layout.block_small) htrailing ?_ ?_ <;> rw [hkept, Shared.prod_shareDims]
  · rw [hprod, Int.natCast_mul]
  · omega

/-- The row `r` of worker `w` is the output `w * rows + r` of the reduction, whatever the body computes. -/
theorem foldAt_portionOf (hrank : (dims.length : Int) < 9223372036854775808) (f : List Float → List Float)
    (inputs inits : List Tensor) (hw : (w : Int) < extents.prod) (hr : r < rows) :
    foldAt f (inputs.map (portionOf w (rows * width))) (inits.map (portionOf w rows))
        (placesOf ((View.of rows width).seenDims (rows * width)) (View.of rows width).axes r)
        (elementsAt (inits.map (portionOf w rows)) r) =
      foldAt f inputs inits (placesOf dims axes (w * rows + r)) (elementsAt inits (w * rows + r)) := by
  have hplace : ((w * rows + r : Nat) : Int) < (keptDims dims axes).prod := by
    have : ((w + 1 : Nat) : Int) * rows ≤ extents.prod * rows := Int.mul_le_mul_of_nonneg_right (by omega) (by omega)
    rw [h.outputs]
    push_cast at this ⊢
    linarith
  have hall : placesOf dims axes (w * rows + r) = (range' (r * width) width).map (w * (rows * width) + ·) := by
    rw [placesOf_trailing h.positive h.small ((isSupported_iff hrank h.fit).mp h.trailing) h.elements hplace,
      map_add_range', Nat.add_mul, Nat.mul_assoc]
  rw [h.placesOf_view hr, hall, foldAt, foldAt, foldl_map, elementsAt_portionOf inits w hr]
  refine foldl_ext _ _ _ fun as n hn => ?_
  have hlt := Nat.mul_le_mul_right width hr
  rw [Nat.succ_mul] at hlt
  rw [elementsAt_portionOf inputs w (by rw [mem_range'_1] at hn; omega), map_map]
  rfl

end Portions

end Offload.Distribution
