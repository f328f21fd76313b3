import Mathlib.Data.Rat.Floor
import Offload.Affine

/-!
# The values of affine expressions

Sums and products are taken modulo `2^64`, but quotients and remainders are exact. An expression that the smart
constructors build has positive divisors only, and a map refers to no index that is missing, so evaluation
always succeeds.
-/

namespace Offload

open List

variable {dims : List Int} {m : Map} {n : Int} {results : List Expr}

namespace Word

def Represents (z x : Int) : Prop := InRange z ∧ (18446744073709551616 : Int) ∣ x - z

theorem represents_wrap (x : Int) : Represents (wrap x) x := by
  rw [wrap]
  split
  · rename_i h
    exact ⟨h, by simp⟩
  · rw [Int.bmod_def]
    split <;> exact ⟨⟨by omega, by omega⟩, by omega⟩

theorem Represents.eq {z x : Int} (h : Represents z x) (hx : InRange x) : z = x := by
  obtain ⟨hz, hd⟩ := h
  simp only [InRange] at hz hx
  omega

section
variable {a d : Int} (ha : InRange a) (hd : 0 < d)
include ha hd

theorem inRange_ediv : InRange (a / d) := by
  obtain ⟨hlo, hhi⟩ := ha
  by_cases h0 : 0 ≤ a
  · have hnonneg := Int.ediv_nonneg h0 hd.le
    have hle := Int.ediv_le_self d h0
    exact ⟨by omega, by omega⟩
  · have hneg := Int.ediv_neg_of_neg_of_pos (by omega : a < 0) hd
    have hmul : a * d ≤ a * 1 := Int.mul_le_mul_of_nonpos_left (by omega) hd
    have hle := Int.le_ediv_of_mul_le hd (by omega : a * d ≤ a)
    exact ⟨by omega, by omega⟩

theorem floorDiv_eq : floorDiv a d = a / d := by
  have hq := inRange_ediv ha hd
  have hsign : d.sign = 1 := Int.sign_eq_one_of_pos hd
  rw [floorDiv, rem, quot, Int.tdiv_eq_ediv, hsign]
  by_cases hx : 0 ≤ a ∨ d ∣ a
  · -- the truncated quotient is already the floor
    have hcond : ¬ (a.tmod d ≠ 0 ∧ (decide (a < 0) != decide (d < 0)) = true) := by
      rintro ⟨hr, hs⟩
      rcases hx with h | h
      · simp [show ¬ a < 0 by omega, show ¬ d < 0 by omega] at hs
      · exact hr (Int.dvd_iff_tmod_eq_zero.mp h)
    rw [if_pos hx, if_neg hcond, Int.add_zero, wrap_of_inRange hq]
  · have hneg : a < 0 := by omega
    have hr : a.tmod d ≠ 0 := fun h => hx (.inr (Int.dvd_iff_tmod_eq_zero.mpr h))
    have hq' := Int.ediv_neg_of_neg_of_pos hneg hd
    simp only [InRange] at hq
    have hcond : (decide (a < 0) != decide (d < 0)) = true := by simp [hneg, show ¬ d < 0 by omega]
    rw [if_neg hx, if_pos ⟨hr, hcond⟩, wrap_of_inRange ⟨by omega, by omega⟩, sub, Int.add_sub_cancel,
      wrap_of_inRange ⟨by omega, by omega⟩]

/-- The product may wrap, but then the difference wraps back. -/
theorem sub_floorDiv (hd' : InRange d) : sub a (mul (floorDiv a d) d) = a % d := by
  have hmod := Int.emod_nonneg a hd.ne'
  have hlt := Int.emod_lt_of_pos a hd
  have hdiv := Int.mul_ediv_add_emod a d
  have hproduct := (represents_wrap (a / d * d)).2
  have hdifference := represents_wrap (a - wrap (a / d * d))
  obtain ⟨-, hhi⟩ := hd'
  rw [floorDiv_eq ha hd, mul, sub]
  refine Represents.eq ⟨hdifference.1, ?_⟩ ⟨by omega, by omega⟩
  have hcong := Int.dvd_sub hdifference.2 hproduct
  rw [Int.mul_comm] at hcong hproduct ⊢
  rwa [show a - wrap (d * (a / d)) - wrap (a - wrap (d * (a / d))) - (d * (a / d) - wrap (d * (a / d))) =
    a % d - wrap (a - wrap (d * (a / d))) by omega] at hcong

end

end Word

namespace Affine

namespace Expr

/-- The expressions that the smart constructors give for numbers that are words. -/
inductive Built : Expr → Prop
  | dim {i : Int} {e : Expr} : ofDim i = .ok e → Built e
  | const {c : Int} : Word.InRange c → Built (.const c)
  | add {a b : Expr} : Built a → Built b → Built (.add a b)
  | mul {a b e : Expr} : Built a → Built b → a.times b = .ok e → Built e
  | floorDiv {a e : Expr} {d : Int} : Built a → Word.InRange d → a.floorDivBy d = .ok e → Built e
  | mod {a e : Expr} {d : Int} : Built a → Word.InRange d → a.modBy d = .ok e → Built e

/-- What an expression stands for, node by node. -/
inductive Means (dims : List Int) : Expr → Int → Prop
  | dim {i : Nat} {x : Int} : dims[i]? = some x → Means dims (.dim i) x
  | const {c : Int} : Means dims (.const c) c
  | add {a b : Expr} {x y z : Int} : Means dims a x → Means dims b y → Word.Represents z (x + y) →
      Means dims (.add a b) z
  | mul {a b : Expr} {x y z : Int} : Means dims a x → Means dims b y → Word.Represents z (x * y) →
      Means dims (.mul a b) z
  | floorDiv {a : Expr} {x d : Int} : Means dims a x → 0 < d → Means dims (.floorDiv a d) ⌊(x / d : ℚ)⌋
  | mod {a : Expr} {x d r : Int} : Means dims a x → 0 < d → r = x - d * ⌊(x / d : ℚ)⌋ →
      0 ≤ r → r < d → Means dims (.mod a d) r

theorem floor_div {x d : Int} (hd : 0 < d) : ⌊(x / d : ℚ)⌋ = x / d := by
  obtain ⟨n, rfl⟩ := Int.eq_ofNat_of_zero_le hd.le
  exact Rat.floor_intCast_div_natCast x n

theorem Built.eval {e : Expr} (hb : e.Built) (hw : ∀ d ∈ dims, Word.InRange d)
    (hspan : e.span ≤ dims.length) : ∃ x, e.eval dims = .ok x ∧ Word.InRange x ∧ e.Means dims x := by
  induction hb with
  | @dim i e he =>
    rw [ofDim] at he
    split at he
    · cases he
    · cases he
      have hlt : i.toNat < dims.length := hspan
      have hx := getElem?_eq_getElem hlt
      exact ⟨dims[i.toNat], by rw [Expr.eval, hx], hw _ (getElem_mem hlt), .dim hx⟩
  | const hc => exact ⟨_, rfl, hc, .const⟩
  | @add a b _ _ iha ihb =>
    rw [span] at hspan
    obtain ⟨x, hx, -, hax⟩ := iha (by omega)
    obtain ⟨y, hy, -, hby⟩ := ihb (by omega)
    have hz := Word.represents_wrap (x + y)
    exact ⟨Word.add x y, by simp only [Expr.eval, hx, hy]; rfl, hz.1, .add hax hby hz⟩
  | @mul a b e _ _ he iha ihb =>
    rw [times] at he
    split at he
    · cases he
      rw [span] at hspan
      obtain ⟨x, hx, -, hax⟩ := iha (by omega)
      obtain ⟨y, hy, -, hby⟩ := ihb (by omega)
      have hz := Word.represents_wrap (x * y)
      exact ⟨Word.mul x y, by simp only [Expr.eval, hx, hy]; rfl, hz.1, .mul hax hby hz⟩
    · cases he
  | @floorDiv a e d _ hdw he iha =>
    rw [floorDivBy] at he
    split at he
    · cases he
    · cases he
      have hd : 0 < d := by omega
      obtain ⟨x, hx, hxw, hax⟩ := iha hspan
      refine ⟨x / d, by simp only [Expr.eval, hx, ← Word.floorDiv_eq hxw hd]; rfl, Word.inRange_ediv hxw hd, ?_⟩
      rw [← floor_div hd]
      exact .floorDiv hax hd
  | @mod a e d _ hdw he iha =>
    rw [modBy] at he
    split at he
    · cases he
    · cases he
      have hd : 0 < d := by omega
      obtain ⟨x, hx, hxw, hax⟩ := iha hspan
      have h0 := Int.emod_nonneg x hd.ne'
      have hlt := Int.emod_lt_of_pos x hd
      have hhi := hdw.2
      refine ⟨x % d, by simp only [Expr.eval, hx, ← Word.sub_floorDiv hxw hd hdw]; rfl,
        ⟨by omega, by omega⟩, ?_⟩
      exact .mod hax hd (by rw [floor_div hd, Int.emod_def]) h0 hlt

end Expr

namespace Map

theorem make_ok : make n results = .ok m ↔
    (∀ r ∈ results, (r.span : Int) ≤ n) ∧ m = ⟨n, 0, results⟩ := by
  rw [make]
  split
  · rename_i r hr
    have hspan := find?_some hr
    simp only [decide_eq_true_eq] at hspan
    exact ⟨nofun, fun h => absurd (h.1 r (mem_of_find?_eq_some hr)) (by omega)⟩
  · rename_i hnone
    have hspan : ∀ r ∈ results, (r.span : Int) ≤ n := by simpa using hnone
    exact ⟨fun h => ⟨hspan, (Except.ok.inj h).symm⟩, fun h => congrArg Except.ok h.2.symm⟩

theorem evalFrom_of_forall (m : Map) : ∀ {es : List Expr} {vs : List Int} (index : Nat),
    Forall₂ (fun e v => e.eval dims = .ok v) es vs → m.evalFrom dims index es = .ok vs
  | [], [], _, _ => rfl
  | e :: es, v :: vs, index, h => by
    obtain ⟨hv, hrest⟩ := forall₂_cons.mp h
    simp only [evalFrom, hv, evalFrom_of_forall m (index + 1) hrest, bind, Except.bind, pure, Except.pure]

/-- A map of built expressions has a value for every tuple of words, and all nodes have the values they stand for. -/
theorem eval_means (hb : ∀ e ∈ results, e.Built)
    (hm : make n results = .ok m) (hl : dims.length = n) (hw : ∀ d ∈ dims, Word.InRange d) :
    ∃ values, m.eval dims = .ok values ∧ Forall₂ (Expr.Means dims) results values := by
  obtain ⟨hspan, rfl⟩ := make_ok.mp hm
  have hvalue : ∀ e ∈ results, ∃ x, e.eval dims = .ok x ∧ e.Means dims x := by
    intro e he
    have := hspan e he
    obtain ⟨x, hx, -, hmeans⟩ := (hb e he).eval hw (by omega)
    exact ⟨x, hx, hmeans⟩
  choose! value hval hmeans using hvalue
  refine ⟨results.map value, ?_, forall₂_map_right_iff.mpr (forall₂_same.mpr hmeans)⟩
  rw [eval, if_pos hl]
  exact evalFrom_of_forall _ 0 (forall₂_map_right_iff.mpr (forall₂_same.mpr hval))

/-- At the least word, the product inside the remainder wraps. -/
theorem eval_means_least : ∃ m values, make 1 [.mod (.dim 0) 3, .floorDiv (.dim 0) 3] = .ok m ∧
    m.eval [-9223372036854775808] = .ok values ∧
    Forall₂ (Expr.Means [-9223372036854775808]) [.mod (.dim 0) 3, .floorDiv (.dim 0) 3] values ∧
    values = [1, -3074457345618258603] := by
  have hdim : (Expr.dim 0).Built := .dim (i := 0) rfl
  have hb : ∀ e ∈ [Expr.mod (.dim 0) 3, .floorDiv (.dim 0) 3], e.Built := by
    simp only [mem_cons, not_mem_nil, or_false, forall_eq_or_imp, forall_eq]
    exact ⟨.mod (d := 3) hdim ⟨by decide, by decide⟩ rfl,
      .floorDiv (d := 3) hdim ⟨by decide, by decide⟩ rfl⟩
  have hw : ∀ d ∈ [-9223372036854775808], Word.InRange d := by simp [Word.InRange]
  obtain ⟨values, hv, hmeans⟩ := eval_means hb (m := ⟨1, 0, _⟩) rfl rfl hw
  exact ⟨_, values, rfl, hv, hmeans, (Except.ok.inj hv).symm⟩

end Map

end Affine

end Offload
