import Offload.Execution.Transfer
import Offload.Proofs.Volumes

/-!
# Row-major order

The index tuple at a place in row-major order consists of the digits of that place, with the extents as bases.
Counting up in the last index goes through all places in order, and reading the digits gives the place back.
-/

namespace Offload

open List

variable {dims : List Int} {n : Int} {s : Shape}

namespace Word

theorem add_eq {a b : Int} (ha : 0 ≤ a) (hb : 0 ≤ b) (h : a + b < 9223372036854775808) : add a b = a + b :=
  wrap_of_inRange ⟨by omega, h⟩

end Word

namespace Shape

def tupleAt : List Int → Int → List Int
  | [], _ => []
  | _ :: dims, n => n / dims.prod :: tupleAt dims (n % dims.prod)

@[simp] theorem length_tupleAt : ∀ (dims : List Int) (n : Int), (tupleAt dims n).length = dims.length
  | [], _ => rfl
  | _ :: dims, n => by rw [tupleAt, length_cons, length_tupleAt dims, length_cons]

@[simp] theorem tupleAt_zero : ∀ dims : List Int, tupleAt dims 0 = dims.map fun _ => 0
  | [] => rfl
  | _ :: dims => by simp [tupleAt, tupleAt_zero dims]

section
variable {dims : List Int} (hpos : ∀ d ∈ dims, 0 < d)
include hpos

theorem tupleAt_bounds : ∀ {n : Int}, 0 ≤ n → n < dims.prod →
    Forall₂ (fun d i => 0 ≤ i ∧ i < d) dims (tupleAt dims n) := by
  induction dims with
  | nil => intro n _ _; exact .nil
  | cons d dims ih =>
    intro n h0 hn
    obtain ⟨-, hds, hprod⟩ := pos_cons hpos
    rw [prod_cons] at hn
    exact .cons ⟨Int.ediv_nonneg h0 hprod.le, Int.ediv_lt_of_lt_mul hprod hn⟩
      (ih hds (Int.emod_nonneg n hprod.ne') (Int.emod_lt_of_pos n hprod))

theorem advance_tupleAt : ∀ {n : Int}, 0 ≤ n → n < dims.prod → advance dims (tupleAt dims n) =
    if n + 1 < dims.prod then (false, tupleAt dims (n + 1)) else (true, tupleAt dims 0) := by
  induction dims with
  | nil =>
    intro n h0 hn
    rw [prod_nil] at hn ⊢
    rw [if_neg (by omega)]
    rfl
  | cons d dims ih =>
    intro n h0 hn
    obtain ⟨-, hds, hprod⟩ := pos_cons hpos
    have hdiv := Int.mul_ediv_add_emod n dims.prod
    have hmod := Int.emod_nonneg n hprod.ne'
    have hlt := Int.emod_lt_of_pos n hprod
    rw [prod_cons] at hn ⊢
    rw [tupleAt, advance, ih hds hmod hlt]
    by_cases hm : n % dims.prod + 1 < dims.prod
    · -- the last index that changes is further to the right
      have hnext : n + 1 = n % dims.prod + 1 + dims.prod * (n / dims.prod) := by omega
      have hq : (n + 1) / dims.prod = n / dims.prod := by
        rw [hnext, Int.add_mul_ediv_left _ _ hprod.ne', Int.ediv_eq_zero_of_lt (by omega) hm, Int.zero_add]
      have hr : (n + 1) % dims.prod = n % dims.prod + 1 := by
        rw [hnext, Int.add_mul_emod_self_left, Int.emod_eq_of_lt (by omega) hm]
      have hbound : n + 1 < d * dims.prod := by
        have hq' : n / dims.prod + 1 ≤ d := Int.ediv_lt_of_lt_mul hprod hn
        have := Int.mul_le_mul_of_nonneg_right hq' hprod.le
        rw [Int.add_mul, Int.one_mul, Int.mul_comm] at this
        omega
      simp only [if_pos hm, if_pos hbound, tupleAt, hq, hr, Bool.false_eq_true, if_false]
    · have hnext : n + 1 = dims.prod * (n / dims.prod + 1) := by
        rw [Int.mul_add, Int.mul_one]
        omega
      have hq : (n + 1) / dims.prod = n / dims.prod + 1 := by rw [hnext, Int.mul_ediv_cancel_left _ hprod.ne']
      have hr : (n + 1) % dims.prod = 0 := by rw [hnext, Int.mul_emod_right]
      have hbound : n / dims.prod + 1 < d ↔ n + 1 < d * dims.prod := by
        rw [hnext, Int.mul_comm]
        exact (mul_lt_mul_iff_left₀ hprod).symm
      simp only [if_neg hm, if_true]
      by_cases hd : n / dims.prod + 1 < d
      · simp only [if_pos hd, if_pos (hbound.mp hd), tupleAt, hq, hr]
      · simp only [if_neg hd, if_neg fun h => hd (hbound.mpr h), tupleAt, Int.zero_ediv, Int.zero_emod]

theorem indicesFrom_tupleAt : ∀ (count flat : Nat) (seen : List (Nat × List Int)),
    (flat : Int) + count ≤ dims.prod → indicesFrom dims count flat (tupleAt dims flat) seen =
      seen.reverse ++ (List.range' flat count).map fun (n : Nat) => (n, tupleAt dims n)
  | 0, flat, seen, _ => by simp [indicesFrom]
  | count + 1, flat, seen, h => by
    rw [indicesFrom, advance_tupleAt hpos (by omega) (by omega), range'_succ, map_cons]
    have hseen : ∀ l, ((flat, tupleAt dims flat) :: seen).reverse ++ l =
      seen.reverse ++ (flat, tupleAt dims flat) :: l :=
      fun l => by simp
    cases count with
    | zero => simp [indicesFrom]
    | succ count =>
      rw [if_pos (by omega), ← hseen]
      exact indicesFrom_tupleAt (count + 1) (flat + 1) _ (by push_cast; omega)

end

theorem indices_eq (hpos : ∀ d ∈ s.dims, 0 < d) (hsmall : s.dims.prod < 9223372036854775808) :
    s.indices = (List.range s.dims.prod.toNat).map fun (n : Nat) => (n, tupleAt s.dims n) := by
  have hprod := prod_pos hpos
  rw [indices, firstIndices, size, Word.product_eq hpos hsmall, Nat.min_self, ← tupleAt_zero,
    range_eq_range']
  exact indicesFrom_tupleAt hpos _ 0 [] (by omega)

private theorem emod_mul_ediv (n : Int) {x y : Int} (hx : 0 < x) (hy : 0 < y) : n % (y * x) / y = n / y % x := by
  have hyx : 0 < y * x := Int.mul_pos hy hx
  have hr := Int.emod_nonneg n hyx.ne'
  have hlt : n % (y * x) / y < x := Int.ediv_lt_of_lt_mul hy (Int.mul_comm y x ▸ Int.emod_lt_of_pos n hyx)
  have hsplit : n / y = n % (y * x) / y + x * (n / (y * x)) := by
    conv_lhs => rw [← Int.emod_add_mul_ediv n (y * x), Int.mul_assoc]
    exact Int.add_mul_ediv_left _ _ hy.ne'
  rw [hsplit, Int.add_mul_emod_self_left, Int.emod_eq_of_lt (Int.ediv_nonneg hr hy.le) hlt]

theorem tupleAt_append {xs ys : List Int} (hxs : ∀ x ∈ xs, 0 < x) (hys : 0 < ys.prod) : ∀ {n : Int}, 0 ≤ n →
    n < (xs ++ ys).prod → tupleAt (xs ++ ys) n = tupleAt xs (n / ys.prod) ++ tupleAt ys (n % ys.prod) := by
  induction xs with
  | nil =>
    intro n h0 hn
    rw [nil_append] at hn ⊢
    rw [Int.emod_eq_of_lt h0 hn]
    rfl
  | cons x xs ih =>
    intro n h0 hn
    have hxs' : ∀ y ∈ xs, 0 < y := fun y hy => hxs y (mem_cons_of_mem _ hy)
    have hprod : 0 < (xs ++ ys).prod := by
      rw [prod_append]
      exact Int.mul_pos (prod_pos hxs') hys
    rw [cons_append, tupleAt, ih hxs' (Int.emod_nonneg n hprod.ne') (Int.emod_lt_of_pos n hprod), tupleAt,
      cons_append, prod_append, Int.mul_comm xs.prod, Int.ediv_ediv_of_nonneg hys.le,
      emod_mul_ediv n (prod_pos hxs') hys, Int.emod_emod_of_dvd n (Int.dvd_mul_right ..)]

theorem foldl_tupleAt (hpos : ∀ d ∈ dims, 0 < d) : ∀ {a n : Int}, 0 ≤ a → 0 ≤ n → n < dims.prod →
    a * dims.prod + n < 9223372036854775808 →
      (dims.zip (tupleAt dims n)).foldl (fun m x => Word.add (Word.mul m x.1) x.2) a = a * dims.prod + n := by
  induction dims with
  | nil =>
    intro a n ha h0 hn _
    rw [prod_nil] at hn ⊢
    simp only [zip_nil_left, foldl_nil]
    omega
  | cons d dims ih =>
    intro a n ha h0 hn h
    obtain ⟨hd, hds, hprod⟩ := pos_cons hpos
    have hdiv := Int.mul_ediv_add_emod n dims.prod
    have hmod := Int.emod_nonneg n hprod.ne'
    have hq : 0 ≤ n / dims.prod := Int.ediv_nonneg h0 hprod.le
    have hval : (a * d + n / dims.prod) * dims.prod + n % dims.prod = a * (d * dims.prod) + n := by
      rw [Int.add_mul, Int.mul_assoc, Int.mul_comm (n / dims.prod)]
      omega
    rw [prod_cons] at h ⊢
    have had : 0 ≤ a * d := Int.mul_nonneg ha hd.le
    have hle : a * d + n / dims.prod ≤ (a * d + n / dims.prod) * dims.prod :=
      le_mul_of_one_le_right (by omega) hprod
    rw [tupleAt, zip_cons_cons, foldl_cons, Word.mul_eq ha hd.le (by omega),
      Word.add_eq had hq (by omega), ih hds (by omega) hmod (Int.emod_lt_of_pos n hprod) (by omega), hval]

/-! ## Tuples and places -/

def Within (dims indices : List Int) : Prop := Forall₂ (fun d i => 0 ≤ i ∧ i < d) dims indices

def distances : List Int → List Int
  | [] => []
  | _ :: dims => dims.prod :: distances dims

section
variable {dims : List Int} (hpos : ∀ d ∈ dims, 0 < d)
include hpos

theorem foldr_strides (hsmall : dims.prod < 9223372036854775808) :
    dims.foldr (fun d (x : Int × List Int) => (Word.mul x.1 d, x.1 :: x.2)) (1, []) = (dims.prod, distances dims) := by
  induction dims with
  | nil => rfl
  | cons d dims ih =>
    obtain ⟨hd, hds, hprod⟩ := pos_cons hpos
    rw [prod_cons, Int.mul_comm] at hsmall
    have hle : dims.prod ≤ dims.prod * d := le_mul_of_one_le_right hprod.le hd
    rw [foldr_cons, ih hds (by omega), Word.mul_eq hprod.le hd.le hsmall, prod_cons, Int.mul_comm d,
      distances]

theorem foldr_unravel (h0 : 0 ≤ n) (hn : n < 9223372036854775808) :
    dims.foldr (fun d (x : Int × List Int) => (Word.quot x.1 d, Word.rem x.1 d :: x.2)) (n, []) =
      (n / dims.prod, tupleAt dims (n % dims.prod)) := by
  induction dims with
  | nil => simp [tupleAt]
  | cons d dims ih =>
    obtain ⟨hd, hds, hprod⟩ := pos_cons hpos
    have hq : 0 ≤ n / dims.prod := Int.ediv_nonneg h0 hprod.le
    have hle := Int.ediv_le_self dims.prod h0
    rw [foldr_cons, ih hds, Word.quot_eq hq (by omega) hd.le, Word.rem, Int.tmod_eq_emod_of_nonneg hq,
      Int.ediv_ediv_of_nonneg hprod.le, prod_cons, Int.mul_comm d, tupleAt, emod_mul_ediv n hd hprod,
      Int.emod_emod_of_dvd n (Int.dvd_mul_right ..)]

theorem tupleAt_sum : ∀ {indices : List Int}, Within dims indices →
    0 ≤ (List.zipWith (· * ·) indices (distances dims)).sum ∧
      (List.zipWith (· * ·) indices (distances dims)).sum < dims.prod ∧
        tupleAt dims (List.zipWith (· * ·) indices (distances dims)).sum = indices := by
  induction dims with
  | nil =>
    intro indices h
    cases h
    exact ⟨by decide, by decide, rfl⟩
  | cons d dims ih =>
    intro indices h
    cases h with
    | cons hi hrest =>
      rename_i i rest
      obtain ⟨-, hds, hprod⟩ := pos_cons hpos
      obtain ⟨h0, hlt, htuple⟩ := ih hds hrest
      have hnext : (i + 1) * dims.prod ≤ d * dims.prod := Int.mul_le_mul_of_nonneg_right hi.2 hprod.le
      have hfirst : 0 ≤ i * dims.prod := Int.mul_nonneg hi.1 hprod.le
      rw [Int.add_mul, Int.one_mul] at hnext
      rw [distances, zipWith_cons_cons, sum_cons, prod_cons]
      refine ⟨by omega, by omega, ?_⟩
      rw [tupleAt, Int.add_comm, Int.add_mul_ediv_right _ _ hprod.ne', Int.ediv_eq_zero_of_lt h0 hlt, Int.zero_add,
        Int.add_mul_emod_self_right, Int.emod_eq_of_lt h0 hlt, htuple]

end

theorem linearIndex_tupleAt (hpos : ∀ d ∈ s.dims, 0 < d) (hsmall : s.dims.prod < 9223372036854775808)
    (h0 : 0 ≤ n) (hn : n < s.dims.prod) : s.linearIndex (tupleAt s.dims n) = .ok n := by
  have hfold := foldl_tupleAt hpos (Int.le_refl 0) h0 hn (by omega)
  rw [Int.zero_mul, Int.zero_add] at hfold
  rw [linearIndex, if_pos (by rw [length_tupleAt]; rfl)]
  exact congrArg Except.ok hfold

theorem unravel_eq (hpos : ∀ d ∈ s.dims, 0 < d) (hsmall : s.dims.prod < 9223372036854775808)
    (h0 : 0 ≤ n) (hn : n < s.dims.prod) : s.unravel n = tupleAt s.dims n := by
  rw [unravel, foldr_unravel hpos h0 (by omega), Int.emod_eq_of_lt h0 hn]

/-- The index tuples within the extents and the places below the size correspond to each other, the place of a tuple
is the sum of its indices times the strides, and the enumeration goes through the places in order. -/
theorem rowMajor_bijection (hpos : ∀ d ∈ s.dims, 0 < d) (hsmall : s.dims.prod < 9223372036854775808) :
    s.size = s.dims.prod ∧
    (∀ i, Within s.dims i → ∃ n, s.linearIndex i = .ok n ∧ n = (List.zipWith (· * ·) i s.strides).sum ∧
      0 ≤ n ∧ n < s.size ∧ s.unravel n = i) ∧
    (∀ n, 0 ≤ n → n < s.size → Within s.dims (s.unravel n) ∧ s.linearIndex (s.unravel n) = .ok n) ∧
    s.indices = (List.range s.size.toNat).map fun (n : Nat) => (n, s.unravel n) := by
  have hsize : s.size = s.dims.prod := Word.product_eq hpos hsmall
  have hstrides : s.strides = distances s.dims := by rw [strides, foldr_strides hpos hsmall]
  rw [hsize, hstrides]
  refine ⟨rfl, fun i hi => ?_, fun n h0 hn => ?_, ?_⟩
  · obtain ⟨h0, hn, htuple⟩ := tupleAt_sum hpos hi
    refine ⟨_, ?_, rfl, h0, hn, (unravel_eq hpos hsmall h0 hn).trans htuple⟩
    rw [← linearIndex_tupleAt hpos hsmall h0 hn, htuple]
  · rw [unravel_eq hpos hsmall h0 hn]
    exact ⟨tupleAt_bounds hpos h0 hn, linearIndex_tupleAt hpos hsmall h0 hn⟩
  · rw [indices_eq hpos hsmall]
    refine map_congr_left fun n hn => ?_
    have := mem_range.mp hn
    rw [unravel_eq hpos hsmall (by omega) (by omega)]

theorem rowMajor_bijection_thin : (∀ d ∈ [2, 1, 3], (0 : Int) < d) ∧
    [2, 1, 3].prod < (9223372036854775808 : Int) ∧
    Within [2, 1, 3] [1, 0, 2] ∧ (∃ n, (Shape.mk .float32 [2, 1, 3]).linearIndex [1, 0, 2] = .ok n ∧ n = 5) ∧
    (Shape.mk .float32 [2, 1, 3]).unravel 5 = [1, 0, 2] := by
  have hpos : ∀ d ∈ [2, 1, 3], (0 : Int) < d := by decide
  have hin : Within [2, 1, 3] [1, 0, 2] := .cons (by decide) (.cons (by decide) (.cons (by decide) .nil))
  obtain ⟨n, hn, hsum, -, -, htuple⟩ := (rowMajor_bijection
    (s := ⟨.float32, [2, 1, 3]⟩) hpos (by decide)).2.1 _ hin
  obtain rfl : n = 5 := hsum
  exact ⟨hpos, by decide, hin, ⟨5, hn, rfl⟩, htuple⟩

end Shape

namespace Transfer

open Shape

theorem mixedRadix_tupleAt (hpos : ∀ d ∈ dims, 0 < d) (hsmall : dims.prod < 9223372036854775808)
    (h0 : 0 ≤ n) (hn : n < dims.prod) : mixedRadix dims (tupleAt dims n) = n := by
  refine (foldl_tupleAt hpos (Int.le_refl 0) h0 hn (by omega)).trans ?_
  omega

theorem mixedRadix_zeros (more : List Int) : ∀ (bases : List Int) (n : Nat), bases.length ≤ n →
    mixedRadix bases (List.replicate n 0 ++ more) = 0
  | [], _, _ => by simp [mixedRadix]
  | b :: bases, n + 1, h => by
    have hfirst : Word.add (Word.mul 0 b) 0 = 0 := by rw [Word.mul, Int.zero_mul]; rfl
    rw [mixedRadix, replicate_succ, cons_append, zip_cons_cons, foldl_cons]
    simp only [hfirst]
    exact mixedRadix_zeros more bases n (by simpa using h)

end Transfer

end Offload
