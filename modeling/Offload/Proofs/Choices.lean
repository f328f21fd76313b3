import Mathlib.Algebra.BigOperators.Fin
import Mathlib.Algebra.BigOperators.Ring.Finset
import Mathlib.Data.Fintype.BigOperators
import Offload.Proofs.PipelineGrammar
import Offload.Proofs.ReductionEndings

/-!
# The workgroup that is chosen

The first candidate is chosen whose workers divide the index tuples of the outputs and whose shares are within the
memory limit. Index tuples and bytes are counted with words, which is exact below `2^63`.
-/

namespace Offload

open List Reduction

variable {axes : List Int} {limit : Int} {s : Shape} {text : String} {α : Type}

/-! ## Index tuples -/

namespace Shape

abbrev Tuple (s : Shape) (axes : List Int) : Type :=
  (k : { k : Fin s.dims.length // ((k : Nat) : Int) ∉ axes }) → Fin (s.dims.get k.1).toNat

def elementBytes (storage : Storage) (s : Shape) : Int := (storage s.element).getD 0

structure Stored (storage : Storage) (s : Shape) : Prop where
  positive : ∀ d ∈ s.dims, 0 < d
  small : s.dims.prod < 9223372036854775808
  flat : (s.rank : Int) < 9223372036854775808
  sized : (storage s.element).isSome = true

end Shape

namespace Reduction

theorem keptFrom_prod (axes : List Int) : ∀ (axis : Nat) (dims : List Int), (keptFrom axes axis dims).prod =
    ∏ k : Fin dims.length, if ((axis + k : Nat) : Int) ∈ axes then 1 else dims.get k
  | axis, [] => by simp [keptFrom]
  | axis, d :: dims => by
    have hrest : ∀ k : Fin dims.length,
      (if ((axis + k.succ : Nat) : Int) ∈ axes then 1 else (d :: dims).get k.succ) =
        if ((axis + 1 + k : Nat) : Int) ∈ axes then 1 else dims.get k := fun k => by
      rw [Fin.val_succ, Nat.add_comm (k : Nat) 1, ← Nat.add_assoc]
      rfl
    refine Eq.trans ?_ (Fin.prod_univ_succ fun k : Fin (dims.length + 1) =>
      if ((axis + k : Nat) : Int) ∈ axes then 1 else (d :: dims).get k).symm
    rw [keptFrom_cons, Finset.prod_congr rfl fun k _ => hrest k, ← keptFrom_prod axes (axis + 1) dims]
    split <;> rename_i h <;> simp [h]

theorem card_tuple (hpos : ∀ d ∈ s.dims, 0 < d) (axes : List Int) :
    (Fintype.card (s.Tuple axes) : Int) = (keptDims s.dims axes).prod := by
  have hnat : ∀ k : Fin s.dims.length, ((s.dims.get k).toNat : Int) = s.dims.get k := fun k =>
    Int.toNat_of_nonneg (hpos _ (get_mem _ k)).le
  calc (Fintype.card (s.Tuple axes) : Int)
      = ∏ k : { k : Fin s.dims.length // ((k : Nat) : Int) ∉ axes }, s.dims.get k.1 := by
        simp only [Fintype.card_pi, Fintype.card_fin, Nat.cast_prod, hnat]
    _ = ∏ k : Fin s.dims.length, if ((k : Nat) : Int) ∉ axes then s.dims.get k else 1 := by
        rw [← Finset.prod_filter]
        exact (Finset.prod_subtype _ (fun k => by simp) fun k => s.dims.get k).symm
    _ = (keptDims s.dims axes).prod := by
        rw [keptDims_eq, keptFrom_prod]
        simp only [ite_not, Nat.zero_add]

theorem card_elements (hpos : ∀ d ∈ s.dims, 0 < d) : (Fintype.card (s.Tuple []) : Int) = s.dims.prod := by
  rw [card_tuple hpos, keptDims_nil]

end Reduction

namespace Sequence

theorem last?_eq {xs : List α} (h : (xs.length : Int) < 9223372036854775808) : last? xs = xs.getLast? := by
  cases xs with
  | nil => rfl
  | cons x xs =>
    have hlen : Word.add ((x :: xs).length : Int) (-1) = (xs.length : Nat) := by
      rw [length_cons] at h ⊢
      rw [Word.add, Word.wrap_of_inRange ⟨by omega, by omega⟩]
      omega
    simp only [last?, at?, hlen, Int.reduceNeg, Int.reduceLT, if_true]
    rw [if_neg (by omega), getLast?_eq_getElem?]
    rfl

theorem isRun_iff : ∀ {xs : List Int}, (∀ x ∈ xs, 0 ≤ x ∧ x < 9223372036854775807) →
    (isRun xs = true ↔ ∃ k n, xs = (List.range' k (n + 1)).map Nat.cast)
  | [], _ => by simp [isRun]
  | [x], h => by
    obtain ⟨k, rfl⟩ := Int.eq_ofNat_of_zero_le (h x mem_cons_self).1
    exact iff_of_true rfl ⟨k, 0, rfl⟩
  | x :: y :: rest, h => by
    have hx := h x mem_cons_self
    have hadd : Word.add x 1 = x + 1 := Word.wrap_of_inRange ⟨by omega, by omega⟩
    rw [isRun, hadd, Bool.and_eq_true, decide_eq_true_eq, isRun_iff fun z hz => h z (mem_cons_of_mem x hz)]
    constructor
    · rintro ⟨rfl, k, n, hrun⟩
      obtain ⟨j, rfl⟩ := Int.eq_ofNat_of_zero_le hx.1
      refine ⟨j, n + 1, ?_⟩
      rw [range'_succ, map_cons, hrun]
      rw [range'_succ, map_cons] at hrun
      have hk : k = j + 1 := by
        have := (List.cons.inj hrun).1
        omega
      rw [hk]
    · rintro ⟨k, n, hrun⟩
      rw [range'_succ, map_cons] at hrun
      obtain ⟨rfl, hrest⟩ := List.cons.inj hrun
      cases n with
      | zero => cases hrest
      | succ n =>
        refine ⟨?_, k + 1, n, hrest⟩
        rw [range'_succ, map_cons] at hrest
        rw [(List.cons.inj hrest).1]
        push_cast
        rfl

end Sequence

namespace Distribution

open Program Reduction

variable {sel : Selector} {storage : Storage} {p : Program} {i root : OpId} {extents : List Int}
  {inputs inits : List Shape}

/-! ## What is asked of a workgroup -/

def Trailing (rank : Nat) (axes : List Int) : Prop := ∃ k ≤ rank, axes = (List.range' k (rank - k)).map Nat.cast

instance (rank : Nat) (axes : List Int) : Decidable (Trailing rank axes) :=
  inferInstanceAs (Decidable (∃ k ≤ rank, axes = (List.range' k (rank - k)).map Nat.cast))

def bytesEach (storage : Storage) (s : Shape) (extents : List Int) : Int :=
  s.elementBytes storage * (Fintype.card (s.Tuple []) / extents.prod)

/-- The workgroup can be used for a reduction of tensors along some axes. -/
structure Qualifies (sel : Selector) (inputs inits : List Shape) (axes extents : List Int) : Prop where
  parallel : ∀ s ∈ inputs, extents.prod ∣ Fintype.card (s.Tuple axes)
  outputs : ∀ s ∈ inits, extents.prod ∣ Fintype.card (s.Tuple [])
  trailing : ∀ s ∈ inputs, Trailing s.rank axes
  memory : ∀ s ∈ inputs ++ inits, bytesEach sel.storage s extents ≤
    if sel.memoryLimit ≤ 0 then 67108864 else sel.memoryLimit

theorem qualifies_iff : Qualifies sel inputs inits axes extents ↔
    (∀ s ∈ inputs, extents.prod ∣ Fintype.card (s.Tuple axes)) ∧
      (∀ s ∈ inits, extents.prod ∣ Fintype.card (s.Tuple [])) ∧ (∀ s ∈ inputs, Trailing s.rank axes) ∧
      ∀ s ∈ inputs ++ inits, bytesEach sel.storage s extents ≤
        if sel.memoryLimit ≤ 0 then 67108864 else sel.memoryLimit :=
  ⟨fun h => ⟨h.parallel, h.outputs, h.trailing, h.memory⟩, fun h => ⟨h.1, h.2.1, h.2.2.1, h.2.2.2⟩⟩

instance (axes extents : List Int) : Decidable (Qualifies sel inputs inits axes extents) :=
  decidable_of_iff _ qualifies_iff.symm

theorem last_range' {k n : Nat} (h : ((k + n : Nat) : Int) < 9223372036854775807) :
    Sequence.last? ((List.range' k (n + 1)).map (Nat.cast : Nat → Int)) = some ((k + n : Nat) : Int) := by
  rw [Sequence.last?_eq (by rw [length_map, length_range']; omega), range'_concat, map_append,
    map_singleton, getLast?_concat, Nat.one_mul]

theorem isSupported_iff {rank : Nat} (hr : (rank : Int) < 9223372036854775808)
    (hfit : axesFit rank none axes = true) : isSupported rank axes = true ↔ Trailing rank axes := by
  obtain ⟨-, hax⟩ := (axesFit_iff axes).mp hfit
  have hsub : Word.sub rank 1 = (rank : Int) - 1 := Word.wrap_of_inRange ⟨by omega, by omega⟩
  have hrun := Sequence.isRun_iff fun a ha => ⟨(hax a ha).1, by have := (hax a ha).2.1; omega⟩
  rw [isSupported, Bool.or_eq_true, List.isEmpty_iff, Bool.and_eq_true, decide_eq_true_eq, hrun, hsub]
  constructor
  · rintro (rfl | ⟨⟨k, n, rfl⟩, hlast⟩)
    · exact ⟨rank, le_rfl, by simp⟩
    · have hmem := (hax ((k + n : Nat) : Int) (mem_map_of_mem (by simp))).2.1
      rw [last_range' (by omega)] at hlast
      have hkn := Option.some.inj hlast
      exact ⟨k, by omega, by rw [show rank - k = n + 1 by omega]⟩
  · rintro ⟨k, hk, rfl⟩
    rcases Nat.eq_or_lt_of_le hk with rfl | hlt
    · exact .inl (by simp)
    · obtain ⟨n, hn⟩ : ∃ n, rank - k = n + 1 := ⟨rank - k - 1, by omega⟩
      rw [hn]
      exact .inr ⟨⟨k, n, rfl⟩, by rw [last_range' (by omega)]; congr 1; omega⟩

/-! ## Bytes -/

section
variable {s : Shape} (hs : s.Stored storage) (hg : Crew extents)
include hs

theorem bytesEach_eq : bytesEach storage s extents = s.elementBytes storage * (s.dims.prod / extents.prod) := by
  rw [bytesEach, card_elements hs.positive]

include hg

theorem bytesEach_nonneg : 0 ≤ bytesEach storage s extents := by
  rw [bytesEach_eq hs]
  exact Int.mul_nonneg (Int.natCast_nonneg _) (Int.ediv_nonneg (prod_pos hs.positive).le hg.workers.2.le)

theorem shareBytes_eq : shareBytes storage s extents = Word.wrap
    (bytesEach storage s extents % 18446744073709551616) := by
  have hq : 0 ≤ s.dims.prod / extents.prod := Int.ediv_nonneg (prod_pos hs.positive).le hg.workers.2.le
  have hle : s.dims.prod / extents.prod ≤ s.dims.prod := Int.ediv_le_self _ (prod_pos hs.positive).le
  have hsmall := hs.small
  have hu : (Word.toUnsigned (s.dims.prod / extents.prod) : Int) = s.dims.prod / extents.prod := by
    rw [Word.toUnsigned, Int.emod_eq_of_lt hq (by omega), Int.toNat_of_nonneg hq]
  rw [shareBytes, Word.ofUnsigned, bytesEach_eq hs, Shape.elementBytes]
  congr 1
  push_cast
  rw [hu, Int.emod_emod_of_dvd _ (Int.dvd_refl _)]

theorem shareBytes_of_small (h : bytesEach storage s extents < 9223372036854775808) :
    shareBytes storage s extents = bytesEach storage s extents := by
  have h0 := bytesEach_nonneg hs hg
  rw [shareBytes_eq hs hg, Int.emod_eq_of_lt h0 (by omega), Word.wrap_of_inRange ⟨by omega, h⟩]

end

/-! ## Reductions on tensors -/

structure Consumes (p : Program) (i : OpId) (n : Nat) (inputs inits : List Shape) : Prop where
  inputs : ((p.op i).operands.take n).map p.slotType? = inputs.map fun s => some (.tensor s)
  inits : ((p.op i).operands.drop n).map p.slotType? = inits.map fun s => some (.tensor s)

theorem mapM_eq_some_iff {α β : Type} {f : α → Option β} : ∀ {l : List α} {r : List β}, l.mapM f = some r ↔
    l.map f = r.map some
  | [], r => by cases r <;> simp
  | a :: l, r => by
    cases r <;> simp [mapM_eq_some_iff, Option.bind_eq_some_iff, mapM_cons]

theorem consumes_of_operandsAt (ho : operandsAt p i = .ok ⟨inputs.map Ty.tensor, inits.map Ty.tensor, true⟩) :
    ∃ n, inputCount p i = .ok n ∧ Consumes p i n inputs inits := by
  simp only [operandsAt, Reduction.inputs, Reduction.inits, except_bind_ok, except_pure_ok] at ho
  obtain ⟨_, ⟨n, hn, rfl⟩, _, ⟨n', hn', rfl⟩, ho⟩ := ho
  obtain rfl := Except.ok.inj (hn.symm.trans hn')
  split at ho
  · rename_i ins outs hins houts
    obtain ⟨b, -, hb⟩ := except_bind_ok.mp ho
    obtain ⟨rfl, rfl, -⟩ := Reduction.Operands.mk.inj (except_pure_ok.mp hb)
    refine ⟨n, hn, ?_, ?_⟩
    · rw [mapM_eq_some_iff.mp hins, map_map]
      rfl
    · rw [mapM_eq_some_iff.mp houts, map_map]
      rfl
  · cases ho

namespace Consumes

variable {n : Nat} (h : Consumes p i n inputs inits)
include h

theorem operands : (p.op i).operands.map p.slotType? = (inputs ++ inits).map fun s => some (.tensor s) := by
  rw [map_append, ← h.inputs, ← h.inits, ← map_append, take_append_drop]

theorem storable (hs : ∀ s ∈ inputs ++ inits, s.Stored sel.storage) : ∀ slot ∈ (p.op i).operands,
    ∃ t, p.slotType? slot = some t ∧ Storable sel.storage t := by
  intro slot hslot
  obtain ⟨s, hmem, heq⟩ := exists_of_map_eq h.operands hslot
  have hst := hs s hmem
  exact ⟨_, heq, s, rfl, hst.sized, hst.positive, hst.small⟩

theorem shareFits_iff : (∀ slot ∈ (p.op i).operands, ShareFits sel p extents slot) ↔
    ∀ s ∈ inputs ++ inits, shareBytes sel.storage s extents ≤ limitOf sel.memoryLimit := by
  constructor
  · intro hfits s hs
    obtain ⟨slot, hslot, heq⟩ := exists_of_map_eq h.operands.symm hs
    obtain ⟨t, ht, hle⟩ := hfits slot hslot
    rwa [Ty.tensor.inj (Option.some.inj (heq.trans ht))]
  · intro hle slot hslot
    obtain ⟨s, hs, heq⟩ := exists_of_map_eq h.operands hslot
    exact ⟨s, heq, hle s hs⟩

variable {dims axes : List Int} (hr : Reduces sel.storage p i n dims axes)
include hr

theorem input_dims (hs : s ∈ inputs) : s.dims = dims := by
  obtain ⟨slot, hslot, heq⟩ := exists_of_map_eq h.inputs.symm hs
  obtain ⟨e, he, -⟩ := hr.inputs slot hslot
  rw [Ty.tensor.inj (Option.some.inj (heq.trans he))]

theorem init_dims (hs : s ∈ inits) : s.dims = keptDims dims axes := by
  obtain ⟨slot, hslot, heq⟩ := exists_of_map_eq h.inits.symm hs
  obtain ⟨e, he, -⟩ := hr.inits slot hslot
  rw [Ty.tensor.inj (Option.some.inj (heq.trans he))]

theorem exists_input : ∃ s, s ∈ inputs := by
  obtain ⟨e, he⟩ := hr.head
  obtain ⟨slot, hslot, -⟩ := Option.bind_eq_some_iff.mp he
  obtain ⟨s, hs, -⟩ := exists_of_map_eq h.inputs (mem_of_head? hslot)
  exact ⟨s, hs⟩

theorem dvd {k : Int} (hd : k ∣ (keptDims dims axes).prod) (hs : s ∈ inputs ++ inits) :
    k ∣ s.dims.prod := by
  rcases mem_append.mp hs with hs | hs
  · rw [h.input_dims hr hs]
    exact hd.trans (keptDims_dvd dims axes)
  · rwa [h.init_dims hr hs]

theorem qualifies_iff_legal (hs : ∀ s ∈ inputs ++ inits, s.Stored sel.storage) (hg : Crew extents)
    (hb : ∀ s ∈ inputs ++ inits, bytesEach sel.storage s extents < 9223372036854775808) :
    Qualifies sel inputs inits axes extents ↔ extents.prod ∣ (keptDims dims axes).prod ∧
      isSupported dims.length axes = true ∧ ∀ slot ∈ (p.op i).operands, ShareFits sel p extents slot := by
  obtain ⟨s₀, hs₀⟩ := h.exists_input hr
  have hstored := fun s hs' => hs s (mem_append_left inits hs')
  have hparallel : ∀ s ∈ inputs, (Fintype.card (s.Tuple axes) : Int) = (keptDims dims axes).prod := fun s hs' => by
    rw [card_tuple (hstored s hs').positive, h.input_dims hr hs']
  have houtputs : ∀ s ∈ inits, (Fintype.card (s.Tuple []) : Int) = (keptDims dims axes).prod := fun s hs' => by
    rw [card_elements (hs s (mem_append_right inputs hs')).positive, h.init_dims hr hs']
  have htrailing : ∀ s ∈ inputs, (Trailing s.rank axes ↔ isSupported dims.length axes = true) := fun s hs' => by
    have hflat := (hstored s hs').flat
    rw [Shape.rank, h.input_dims hr hs'] at hflat ⊢
    exact (isSupported_iff hflat hr.fit).symm
  have hmemory : ∀ s ∈ inputs ++ inits, shareBytes sel.storage s extents =
    bytesEach sel.storage s extents := fun s hs' =>
    shareBytes_of_small (hs s hs') hg (hb s hs')
  rw [h.shareFits_iff]
  constructor
  · intro hq
    refine ⟨hparallel s₀ hs₀ ▸ hq.parallel s₀ hs₀, (htrailing s₀ hs₀).mp (hq.trailing s₀ hs₀),
      fun s hs' => ?_⟩
    rw [hmemory s hs']
    exact hq.memory s hs'
  · rintro ⟨hd, hsup, hfits⟩
    refine ⟨fun s hs' => (hparallel s hs').symm ▸ hd, fun s hs' => (houtputs s hs').symm ▸ hd,
      fun s hs' => (htrailing s hs').mpr hsup, fun s hs' => ?_⟩
    rw [← hmemory s hs']
    exact hfits s hs'

end Consumes

theorem exists_reduces (sel : Selector) (hv : p.verify catalogue root = .ok ()) (hi : i ∈ p.nested root)
    (hn : (p.op i).name = reduceName) (ho : operandsAt p i = .ok ⟨inputs.map Ty.tensor, inits.map Ty.tensor, true⟩)
    (hs : ∀ s ∈ inputs ++ inits, s.Stored sel.storage) :
    ∃ n dims, Reduces sel.storage p i n dims (dimensions p i) ∧ Consumes p i n inputs inits := by
  obtain ⟨n, hcount, hreads⟩ := consumes_of_operandsAt ho
  obtain ⟨k, l, axes, shapes, b, hchecked⟩ :=
    checked_of_checkReduce (checkReduce_of_checkKind (verifyOp_ok.mp (verify_ok.mp hv i hi)).2.2 hn)
  obtain ⟨hle, rfl⟩ := hchecked.inputCount hcount
  have hred := reduces_of_checked hchecked (hreads.storable hs) hle
  rw [← hred.dimensions] at hred
  exact ⟨_, _, hred, hreads⟩

/-! ## The choice -/

/-- For a reduction on tensors the choice of a workgroup does not fail, and takes the first candidate that
qualifies. -/
theorem select_first_qualifying (sel : Selector) (hv : p.verify catalogue root = .ok ()) (hi : i ∈ p.nested root)
    (hn : (p.op i).name = reduceName)
    (ho : operandsAt p i = .ok ⟨inputs.map Ty.tensor, inits.map Ty.tensor, true⟩)
    (hs : ∀ s ∈ inputs ++ inits, s.Stored sel.storage) (hc : ∀ extents ∈ sel.candidates, Crew extents)
    (hb : ∀ extents ∈ sel.candidates, ∀ s ∈ inputs ++ inits,
      bytesEach sel.storage s extents < 9223372036854775808) :
    (∀ extents ∈ sel.candidates, sel.isLegal p i extents =
      .ok (decide (Qualifies sel inputs inits (dimensions p i) extents))) ∧
    sel.select p i = .ok (sel.candidates.find? fun extents =>
      decide (Qualifies sel inputs inits (dimensions p i) extents)) ∧
    (sel.select p i = .ok none ↔ ∀ extents ∈ sel.candidates,
      ¬ Qualifies sel inputs inits (dimensions p i) extents) := by
  obtain ⟨n, dims, hr, hreads⟩ := exists_reduces sel hv hi hn ho hs
  have hlegal : ∀ extents ∈ sel.candidates, ∃ b, sel.isLegal p i extents = .ok b ∧
      (b = true ↔ Qualifies sel inputs inits (dimensions p i) extents) := by
    intro extents he
    obtain ⟨b, hlegal, hiff⟩ := hr.isLegal_total (hc extents he)
    exact ⟨b, hlegal, hiff.trans (hreads.qualifies_iff_legal hr hs (hc extents he) (hb extents he)).symm⟩
  have hselect : sel.select p i = _ := firstLegal_eq fun extents he => ⟨hc extents he, hlegal extents he⟩
  refine ⟨fun extents he => ?_, hselect, by simp [hselect]⟩
  obtain ⟨b, hb, hiff⟩ := hlegal extents he
  rw [hb, Bool.eq_iff_iff.mpr (hiff.trans decide_eq_true_iff.symm)]

theorem verified_rows : (reducer .float32 [4, 2] [1]).verify catalogue 0 = .ok () := by decide +kernel

theorem stored_rows : ∀ s ∈ [(⟨.float32, [4, 2]⟩ : Shape)] ++ [⟨.float32, [4]⟩],
    s.Stored ElementType.bytes? := by
  intro s hs
  have hs : s = ⟨.float32, [4, 2]⟩ ∨ s = ⟨.float32, [4]⟩ := by simpa using hs
  rcases hs with rfl | rfl <;> exact ⟨by decide, by decide, by decide, by decide⟩

def rowCounts : Selector := { candidates := [[3], [2], [4]], memoryLimit := 16 }

theorem select_first_qualifying_rows : rowCounts.select (reducer .float32 [4, 2] [1]) 2 =
    .ok (rowCounts.candidates.find? fun extents =>
      decide (Qualifies rowCounts [⟨.float32, [4, 2]⟩] [⟨.float32, [4]⟩] [1] extents)) := by
  have hcases : ∀ extents ∈ rowCounts.candidates, extents = [3] ∨ extents = [2] ∨ extents = [4] := by
    simp [rowCounts]
  refine (select_first_qualifying rowCounts verified_rows (by decide) rfl (by rfl) stored_rows
    (fun extents he => ?_) fun extents he s hs => ?_).2.1
  · rcases hcases extents he with rfl | rfl | rfl <;> exact ⟨by decide, by decide, by decide⟩
  · rw [rowCounts, bytesEach_eq (stored_rows s hs)]
    have hs : s = ⟨.float32, [4, 2]⟩ ∨ s = ⟨.float32, [4]⟩ := by simpa using hs
    rcases hcases extents he with rfl | rfl | rfl <;> rcases hs with rfl | rfl <;> decide

/-- If the elements have no size, the choice of a workgroup fails. -/
theorem select_unstored : (reducer .f8e5m2 [4] []).verify catalogue 0 = .ok () ∧ Crew [2] ∧
    ∀ storage : Storage, storage .f8e5m2 = none →
      Selector.select (reducer .f8e5m2 [4] []) ⟨[[2]], 0, storage⟩ 2 = .error (.shape (.noStorage .f8e5m2)) := by
  refine ⟨by decide +kernel, ⟨by decide, by decide, by decide⟩, fun storage h => ?_⟩
  have hupdate : Function.update storage .f8e5m2 none = storage := by rw [← h, Function.update_eq_self]
  rw [← hupdate]
  rfl

/-! ## Candidates and limits from texts -/

theorem parseInt_inRange {text : List Char} {n : Int} (h : Text.parseInt text = .ok n) : Word.InRange n := by
  obtain ⟨m, -, h⟩ := except_bind_ok.mp h
  split at h <;> split at h <;> split at h <;> cases h
  all_goals exact ⟨by omega, by omega⟩

structure Proper (extents : List Int) : Prop where
  nonempty : extents ≠ []
  positive : ∀ e ∈ extents, 0 < e
  inRange : ∀ e ∈ extents, Word.InRange e

theorem parseExtents_ok {part : List Char} (h : parseExtents part = some extents) : Proper extents := by
  have hmap := mapM_eq_some_iff.mp h
  have hword : ∀ e ∈ extents, 0 < e ∧ Word.InRange e := fun e he => by
    obtain ⟨text, -, heq⟩ := exists_of_map_eq hmap.symm he
    split at heq
    · split at heq <;> cases heq
      exact ⟨‹_›, parseInt_inRange ‹_›⟩
    · cases heq
  refine ⟨fun hnil => ?_, fun e he => (hword e he).1, fun e he => (hword e he).2⟩
  rw [hnil, map_nil, map_eq_nil_iff] at hmap
  exact (Text.intercalate_split _ _).1 hmap

theorem parseParts_ok : ∀ {parts : List (List Char)} {cs : List (List Int)}, parseParts parts = .ok cs →
    ∀ extents ∈ cs, Proper extents
  | [], cs, h => by
    obtain rfl := Except.ok.inj h
    simp
  | part :: rest, cs, h => by
    rw [parseParts] at h
    split at h
    · exact parseParts_ok h
    · split at h
      · cases h
      · rename_i c hc
        obtain ⟨cs', hcs', h⟩ := except_bind_ok.mp h
        obtain rfl := except_pure_ok.mp h
        rw [forall_mem_cons]
        exact ⟨parseExtents_ok hc, parseParts_ok hcs'⟩

theorem parseCandidates_ok {cs : List (List Int)} (h : parseCandidates text = .ok cs) :
    cs ≠ [] ∧ ∀ extents ∈ cs, Proper extents := by
  obtain ⟨cs', hcs', h⟩ := except_bind_ok.mp h
  split at h
  · cases h
  · rename_i hne
    obtain rfl := except_pure_ok.mp h
    exact ⟨hne, parseParts_ok hcs'⟩

theorem parseLimit_ok (h : Device.parseLimit text = .ok limit) : Word.InRange limit := by
  rw [Device.parseLimit] at h
  split at h
  · cases h
  · split at h
    · obtain rfl := Except.ok.inj h
      exact ⟨by omega, by omega⟩
    · cases h

theorem bytesEach_le_iff (hs : s.Stored storage) (hg : Crew extents) (hl : Word.InRange limit)
    (h : shareBytes storage s extents ≤ limitOf limit) :
    bytesEach storage s extents ≤ limitOf limit ↔ bytesEach storage s extents < 9223372036854775808 := by
  have hlimit : limitOf limit < 9223372036854775808 := by
    rw [limitOf]
    split
    · decide
    · exact hl.2
  refine ⟨fun hle => Int.lt_of_le_of_lt hle hlimit, fun hlt => ?_⟩
  rw [shareBytes_of_small hs hg hlt] at h
  exact h

/-- For candidates and limits that were read from texts the choice of a workgroup does not fail if workers and elements
can be counted with words. The shares of the workgroup that is chosen are within the limit, unless their bytes are
more than a word. -/
theorem select_within_limit {candidates : List (List Int)} (ht : parseCandidates text = .ok candidates)
    (hw : ∀ extents ∈ candidates, extents.prod < 9223372036854775808) (hv : p.verify catalogue root = .ok ())
    (hi : i ∈ p.nested root) (hn : (p.op i).name = reduceName)
    (ho : operandsAt p i = .ok ⟨inputs.map Ty.tensor, inits.map Ty.tensor, true⟩)
    (hs : ∀ s ∈ inputs ++ inits, s.Stored storage) :
    (∀ limitText limit, Device.parseLimit limitText = .ok limit → Word.InRange limit) ∧
    ∀ limit, Word.InRange limit → ∃ o, Selector.select p ⟨candidates, limit, storage⟩ i = .ok o ∧
      ∀ extents, o = some extents → extents ∈ candidates ∧ ∀ s ∈ inputs ++ inits,
        extents.prod ∣ Fintype.card (s.Tuple []) ∧
        (bytesEach storage s extents ≤ limitOf limit ↔ bytesEach storage s extents < 9223372036854775808) := by
  refine ⟨fun _ _ => parseLimit_ok, fun limit hl => ?_⟩
  obtain ⟨n, dims, hr, hreads⟩ := exists_reduces ⟨candidates, limit, storage⟩ hv hi hn ho hs
  have hc : ∀ extents ∈ candidates, Crew extents := fun extents he =>
    have hp := (parseCandidates_ok ht).2 extents he
    ⟨hp.nonempty, hp.positive, hw extents he⟩
  classical
  have hselect : Selector.select p ⟨candidates, limit, storage⟩ i = _ :=
    firstLegal_eq fun extents he => ⟨hc extents he, hr.isLegal_total (hc extents he)⟩
  refine ⟨_, hselect, fun extents hfound => ?_⟩
  have hmem := mem_of_find?_eq_some hfound
  have hlegal := find?_some hfound
  obtain ⟨hd, -, hfits⟩ := of_decide_eq_true hlegal
  refine ⟨hmem, fun s hs' => ⟨?_, bytesEach_le_iff (hs s hs') (hc extents hmem) hl
    (hreads.shareFits_iff.mp hfits s hs')⟩⟩
  rw [card_elements (hs s hs').positive]
  exact hreads.dvd hr hd hs'

theorem select_within_limit_rows : ∃ o, Selector.select (reducer .float32 [4, 2] [1])
      { candidates := [[4, 16], [2, 2]] } 2 = .ok o ∧
    ∀ extents, o = some extents → extents ∈ [[4, 16], [2, 2]] ∧
      ∀ s ∈ [(⟨.float32, [4, 2]⟩ : Shape)] ++ [⟨.float32, [4]⟩],
        extents.prod ∣ Fintype.card (s.Tuple []) ∧ (bytesEach ElementType.bytes? s extents ≤ limitOf 0 ↔
          bytesEach ElementType.bytes? s extents < 9223372036854775808) := by
  have ht : parseCandidates "4x16, 2x2" = .ok [[4, 16], [2, 2]] := by decide
  exact (select_within_limit ht (by decide) verified_rows (by decide) rfl (by rfl) stored_rows).2 0
    ⟨by decide, by decide⟩

theorem select_vast (hl : Word.InRange limit) (h8 : storage .float64 = some 8) :
    Selector.select (reducer .float64 [4611686018427387904] []) ⟨[[1]], limit, storage⟩ 2 = .ok (some [1]) ∧
      limitOf limit < bytesEach storage ⟨.float64, [4611686018427387904]⟩ [1] := by
  have hstored : Shape.Stored storage ⟨.float64, [4611686018427387904]⟩ :=
    ⟨by decide, by decide, by decide, by rw [h8]; rfl⟩
  have hs : ∀ s ∈ [(⟨.float64, [4611686018427387904]⟩ : Shape)] ++ [⟨.float64, [4611686018427387904]⟩],
      s.Stored storage := by simpa using hstored
  have hg : Crew [1] := ⟨by decide, by decide, by decide⟩
  have hv : (reducer .float64 [4611686018427387904] []).verify catalogue 0 = .ok () := by decide
  have hbytes : bytesEach storage ⟨.float64, [4611686018427387904]⟩ [1] = 36893488147419103232 := by
    rw [bytesEach_eq hstored, Shape.elementBytes, h8]
    decide
  have hshare : shareBytes storage ⟨.float64, [4611686018427387904]⟩ [1] = 0 := by
    rw [shareBytes_eq hstored hg, hbytes]
    decide
  have hlimit : 0 ≤ limitOf limit ∧ limitOf limit < 9223372036854775808 := by
    have hmax := hl.2
    rw [limitOf]
    split
    · decide
    · omega
  have hi : 2 ∈ (reducer .float64 [4611686018427387904] []).nested 0 := by decide
  obtain ⟨n, dims, hr, hreads⟩ := exists_reduces ⟨[[1]], limit, storage⟩ hv hi rfl (by rfl) hs
  obtain ⟨b, hb, hlegal⟩ := hr.isLegal_total hg
  have hlegal : b = true := hlegal.mpr ⟨one_dvd _, rfl, hreads.shareFits_iff.mpr fun s hs' => by
    obtain rfl : s = ⟨.float64, [4611686018427387904]⟩ := by simpa using hs'
    rw [hshare]
    exact hlimit.1⟩
  refine ⟨?_, by omega⟩
  rw [Selector.select, Selector.firstLegal, hg.checkExtents, hb, hlegal]
  rfl

/-- A text can ask for a workgroup whose workers cannot be counted, and what is chosen need not be within the
limit. -/
theorem select_wraps : (∃ candidates, parseCandidates "4294967296x4294967296" = .ok candidates ∧
      (reducer .float32 [4] []).verify catalogue 0 = .ok () ∧
      ∀ limit storage, Selector.select (reducer .float32 [4] []) ⟨candidates, limit, storage⟩ 2 =
        .error .crash) ∧
    ∃ candidates, parseCandidates "1" = .ok candidates ∧
      (reducer .float64 [4611686018427387904] []).verify catalogue 0 = .ok () ∧
      ∀ limit storage, Word.InRange limit → storage .float64 = some 8 →
        Selector.select (reducer .float64 [4611686018427387904] []) ⟨candidates, limit, storage⟩ 2 =
          .ok (some [1]) ∧
        limitOf limit < bytesEach storage ⟨.float64, [4611686018427387904]⟩ [1] :=
  ⟨⟨[[4294967296, 4294967296]], by decide, by decide +kernel, fun _ _ => by rfl⟩,
    [[1]], by decide +kernel, by decide +kernel, fun _ _ => select_vast⟩

end Distribution

end Offload
