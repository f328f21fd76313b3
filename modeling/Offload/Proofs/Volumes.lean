import Mathlib.Algebra.BigOperators.Group.List.Lemmas
import Mathlib.Algebra.Order.BigOperators.GroupWithZero.List
import Mathlib.Algebra.Order.Ring.Int
import Offload.Dialect.Reduction

/-!
# Volumes

The number of elements of a shape is computed with words. As long as the true number is one, nothing wraps, and
the computed number is the product of the extents.
-/

namespace Offload

open List

variable {a b : Int} {xs : List Int}

theorem pos_cons {x : Int} (h : ∀ y ∈ x :: xs, 0 < y) : 0 < x ∧ (∀ y ∈ xs, 0 < y) ∧ 0 < xs.prod :=
  have hxs := forall_mem_cons.mp h
  ⟨hxs.1, hxs.2, prod_pos hxs.2⟩

namespace Word

theorem mul_eq (ha : 0 ≤ a) (hb : 0 ≤ b) (h : a * b < 9223372036854775808) : mul a b = a * b := by
  have hab : 0 ≤ a * b := Int.mul_nonneg ha hb
  exact wrap_of_inRange ⟨by omega, h⟩

theorem quot_eq (ha : 0 ≤ a) (ha' : a < 9223372036854775808) (hb : 0 ≤ b) : quot a b = a / b := by
  have hle := Int.ediv_le_self b ha
  have hge := Int.ediv_nonneg ha hb
  rw [quot, Int.tdiv_eq_ediv_of_nonneg ha, wrap_of_inRange ⟨by omega, by omega⟩]

theorem rem_eq_zero : rem a b = 0 ↔ b ∣ a := (Int.dvd_iff_tmod_eq_zero).symm

theorem foldl_mul (hpos : ∀ x ∈ xs, 0 < x) : ∀ {a : Int}, 0 < a → a * xs.prod < 9223372036854775808 →
    xs.foldl mul a = a * xs.prod := by
  induction xs with
  | nil => intro a _ _; simp
  | cons x xs ih =>
    intro a ha h
    obtain ⟨hx, hxs, hprod⟩ := pos_cons hpos
    rw [prod_cons, ← Int.mul_assoc] at h
    have hle : a * x ≤ a * x * xs.prod := le_mul_of_one_le_right (Int.mul_pos ha hx).le hprod
    rw [foldl_cons, mul_eq ha.le hx.le (Int.lt_of_le_of_lt hle h), ih hxs (Int.mul_pos ha hx) h, prod_cons,
      Int.mul_assoc]

theorem product_eq (hpos : ∀ x ∈ xs, 0 < x) (h : xs.prod < 9223372036854775808) : product xs = xs.prod := by
  rw [product, foldl_mul hpos Int.one_pos (by rwa [Int.one_mul]), Int.one_mul]

end Word

namespace Reduction

theorem axesFit_iff {rank : Nat} : ∀ (axes : List Int) {previous : Option Int}, axesFit rank previous axes = true ↔
    axes.Pairwise (· < ·) ∧ ∀ a ∈ axes, 0 ≤ a ∧ a < rank ∧ ∀ x, previous = some x → x < a
  | [], previous => by simp [axesFit]
  | d :: rest, previous => by
    simp only [axesFit, Bool.and_eq_true, decide_eq_true_eq, axesFit_iff rest, pairwise_cons,
      mem_cons, forall_eq_or_imp, Option.some.injEq, forall_eq', Option.all_eq_true]
    constructor
    · rintro ⟨⟨⟨h0, hr⟩, hp⟩, hs, hall⟩
      exact ⟨⟨fun a ha => (hall a ha).2.2, hs⟩, ⟨h0, hr, fun x hx => by simpa using hp x hx⟩, fun a ha =>
        ⟨(hall a ha).1, (hall a ha).2.1, fun x hx => Int.lt_trans (by simpa using hp x hx) (hall a ha).2.2⟩⟩
    · rintro ⟨⟨hd, hs⟩, ⟨h0, hr, hp⟩, hall⟩
      exact ⟨⟨⟨h0, hr⟩, fun x hx => by simpa using hp x hx⟩, hs,
        fun a ha => ⟨(hall a ha).1, (hall a ha).2.1, hd a ha⟩⟩

def keptFrom (axes : List Int) (axis : Nat) (dims : List Int) : List Int :=
  ((dims.zipIdx axis).filter fun x => !axes.contains (x.2 : Int)).map Prod.fst

theorem keptDims_eq (dims axes : List Int) : keptDims dims axes = keptFrom axes 0 dims := rfl

theorem keptFrom_sublist (axes : List Int) (axis : Nat) (dims : List Int) : (keptFrom axes axis dims).Sublist dims := by
  have h : (keptFrom axes axis dims).Sublist ((dims.zipIdx axis).map Prod.fst) := filter_sublist.map _
  rwa [zipIdx_map_fst] at h

theorem keptFrom_cons (axes : List Int) (axis : Nat) (d : Int) (dims : List Int) : keptFrom axes axis (d :: dims) =
    if (axis : Int) ∈ axes then keptFrom axes (axis + 1) dims else d :: keptFrom axes (axis + 1) dims := by
  rw [keptFrom, zipIdx_cons, filter_cons]
  split <;> rename_i h <;> simp at h <;> simp [h, keptFrom]

variable {dims axes : List Int}

theorem keptDims_nil (dims : List Int) : keptDims dims [] = dims := by simp [keptDims]

theorem keptDims_dvd (dims axes : List Int) : (keptDims dims axes).prod ∣ dims.prod :=
  (keptFrom_sublist axes 0 dims).prod_dvd_prod

theorem keptDims_pos (hpos : ∀ d ∈ dims, 0 < d) (axes : List Int) :
    ∀ d ∈ keptDims dims axes, 0 < d := fun d hd =>
  hpos d ((keptFrom_sublist axes 0 dims).subset hd)

theorem keptDims_le (hpos : ∀ d ∈ dims, 0 < d) (axes : List Int) : (keptDims dims axes).prod ≤ dims.prod :=
  Int.le_of_dvd (prod_pos hpos) (keptDims_dvd dims axes)

theorem keptFrom_tail {axis : Nat} (h : a < axis) (dims : List Int) :
    keptFrom (a :: axes) axis dims = keptFrom axes axis dims := by
  rw [keptFrom, keptFrom]
  congr 1
  refine filter_congr fun x hx => ?_
  have hle := (mem_zipIdx hx).1
  have hne : (x.2 : Int) ≠ a := by omega
  simp [hne]

end Reduction

namespace Shape

open Reduction

theorem volumeFrom_eq : ∀ {dims : List Int} (axis : Nat) {axes : List Int} {volume : Int}, axes.Pairwise (· < ·) →
    (∀ a ∈ axes, (axis : Int) ≤ a) → (∀ d ∈ dims, 0 < d) → 0 < volume →
      volume * dims.prod < 9223372036854775808 →
      volumeFrom axis axes volume dims = volume * (keptFrom axes axis dims).prod
  | [], axis, axes, volume, _, _, _, _, _ => by simp [volumeFrom, keptFrom]
  | d :: dims, axis, axes, volume, hs, hax, hpos, hv, h => by
    obtain ⟨hd, hds, hprod⟩ := pos_cons hpos
    rw [prod_cons, ← Int.mul_assoc] at h
    have hvd : volume ≤ volume * d := le_mul_of_one_le_right hv.le hd
    rw [volumeFrom, keptFrom_cons]
    by_cases hh : axes.head? = some (axis : Int)
    · -- the axis is the first of those left out
      obtain ⟨rest, rfl⟩ := head?_eq_some_iff.mp hh
      have hrest : ∀ a ∈ rest, ((axis + 1 : Nat) : Int) ≤ a := fun a ha => by
        have := (pairwise_cons.mp hs).1 a ha
        omega
      rw [if_pos hh, if_pos mem_cons_self, keptFrom_tail (by omega)]
      refine volumeFrom_eq (axis + 1) (pairwise_cons.mp hs).2 hrest hds hv ?_
      exact Int.lt_of_le_of_lt (Int.mul_le_mul_of_nonneg_right hvd hprod.le) h
    · have hlt : ∀ a ∈ axes, ((axis + 1 : Nat) : Int) ≤ a := by
        intro a ha
        cases axes with
        | nil => cases ha
        | cons x rest =>
          have hx := hax x mem_cons_self
          have hne : x ≠ axis := fun heq => hh (by rw [heq]; rfl)
          rcases mem_cons.mp ha with rfl | ha
          · omega
          · have := (pairwise_cons.mp hs).1 a ha
            omega
      have hnot : (axis : Int) ∉ axes := fun hmem => by
        have := hlt _ hmem
        omega
      have hle : volume * d ≤ volume * d * dims.prod := le_mul_of_one_le_right (Int.mul_pos hv hd).le hprod
      rw [if_neg hh, if_neg hnot, Word.mul_eq hv.le hd.le (Int.lt_of_le_of_lt hle h), prod_cons, ← Int.mul_assoc]
      exact volumeFrom_eq (axis + 1) hs hlt hds (Int.mul_pos hv hd) h

theorem volumeExcluding_eq {s : Shape} {axes : List Int} (haxes : axesFit s.rank none axes = true)
    (hpos : ∀ d ∈ s.dims, 0 < d) (h : s.dims.prod < 9223372036854775808) :
    s.volumeExcluding axes = (keptDims s.dims axes).prod := by
  obtain ⟨hs, hax⟩ := (axesFit_iff axes).mp haxes
  have hv := volumeFrom_eq 0 hs (fun a ha => (hax a ha).1) hpos Int.one_pos (by rwa [Int.one_mul])
  rw [volumeExcluding, keptDims_eq, ← Int.one_mul (keptFrom axes 0 s.dims).prod]
  exact hv

end Shape

end Offload
