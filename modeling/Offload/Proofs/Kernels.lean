import Offload.Command.Reports
import Offload.Proofs.DistributedValidity

/-!
# Kernels that fit

Whether a kernel fits on a device is computed with words: the places of its operands modulo `2^64`, and the sizes that
a launch asks for modulo `2^32`. What is reported is right as long as nothing is cut off.
-/

namespace Offload

open Program List Option

variable {first last s : Shape} {n : Nat}

namespace Device.Kernel

variable {k : Kernel} {tasklets : Int}

/-! ## The memory of a kernel -/

def footprint (k : Kernel) : Nat := 4 * (k.rows * k.columns + k.columns + k.rows)

def places (k : Kernel) : Layout :=
  ⟨0, 4 * (k.rows * k.columns), 4 * (k.rows * k.columns + k.columns), k.footprint⟩

/-- The tasklets can share the rows and load each of them at once or in chunks. -/
structure Runs (k : Kernel) (tasklets : Int) : Prop where
  tasklets : 1 ≤ tasklets ∧ tasklets ≤ 24
  sizes : 0 < k.rows ∧ 0 < k.columns
  chunks : k.columns ≤ 128 ∨ 128 ∣ k.columns

theorem finish_eq (k : Kernel) : k.layout.finish = k.footprint % 2 ^ 64 := rfl

theorem validate_ok : k.validate tasklets = .ok () ↔ k.Runs tasklets ∧ k.layout.finish ≤ 64 * 2 ^ 20 := by
  have hmemory : mainMemory.toNat = 64 * 2 ^ 20 := rfl
  have hsingle : k.singleLoad = true ↔ k.columns ≤ 128 := decide_eq_true_iff
  simp only [validate, hsingle, chunk, maxTasklets, hmemory]
  constructor
  · intro h
    split_ifs at h
    exact ⟨⟨by omega, by omega, by omega⟩, by omega⟩
  · rintro ⟨⟨ht, hs, hc⟩, hm⟩
    rw [if_neg (by omega), if_neg (by omega), if_neg (by omega), if_neg (by omega)]

theorem layout_eq (h : k.footprint < 2 ^ 64) : k.layout = k.places := by
  simp only [footprint] at h
  simp only [layout, places, footprint, Layout.mk.injEq, true_and]
  refine ⟨Nat.mod_eq_of_lt ?_, Nat.mod_eq_of_lt ?_, Nat.mod_eq_of_lt ?_⟩ <;> omega

theorem validate_ok_of_small (h : k.footprint < 2 ^ 64) :
    k.validate tasklets = .ok () ↔ k.Runs tasklets ∧ k.footprint ≤ 64 * 2 ^ 20 := by
  rw [validate_ok, finish_eq, Nat.mod_eq_of_lt h]

/-- A kernel is admitted if its footprint lies at most 64 MiB above a multiple of `2^64`. Below `2^64` that is whether
it fits. -/
theorem validate_iff_wrapped (k : Kernel) (tasklets : Int) (hrows : k.rows < 2 ^ 32) (hcolumns : k.columns < 2 ^ 32) :
    (k.validate tasklets = .ok () ↔ k.Runs tasklets ∧
      ∃ wraps ≤ 3, wraps * 2 ^ 64 ≤ k.footprint ∧ k.footprint ≤ wraps * 2 ^ 64 + 64 * 2 ^ 20) ∧
    (k.layout = k.places ↔ k.footprint < 2 ^ 64) ∧
    (k.footprint < 2 ^ 64 → (k.validate tasklets = .ok () ↔ k.Runs tasklets ∧ k.footprint ≤ 64 * 2 ^ 20) ∧
      k.layout.matrix ≤ k.layout.vector ∧ k.layout.vector ≤ k.layout.result ∧
        k.layout.result ≤ k.layout.finish) := by
  have hproduct : (k.rows + 1) * (k.columns + 1) ≤ 2 ^ 32 * 2 ^ 32 := Nat.mul_le_mul hrows hcolumns
  have hfoot : k.footprint + 4 = 4 * ((k.rows + 1) * (k.columns + 1)) := by
    rw [footprint, Nat.add_one_mul k.rows, Nat.mul_add_one k.rows]
    omega
  refine ⟨?_, ⟨fun h => ?_, layout_eq⟩, fun h => ⟨validate_ok_of_small h, ?_⟩⟩
  · rw [validate_ok, finish_eq]
    refine and_congr_right fun _ => ⟨fun h => ⟨k.footprint / 2 ^ 64, by omega, by omega, by omega⟩, ?_⟩
    rintro ⟨wraps, -, hlow, hhigh⟩
    omega
  · have hfinish : k.footprint % 2 ^ 64 = k.footprint := congrArg Layout.finish h
    omega
  · rw [layout_eq h]
    simp only [places, footprint]
    omega

theorem validate_iff_wrapped_square : validate ⟨64, 128⟩ 16 = .ok () ∧
    layout ⟨64, 128⟩ = ⟨0, 32768, 33280, 33536⟩ := by
  obtain ⟨-, hlayout, hfits⟩ := validate_iff_wrapped ⟨64, 128⟩ 16 (by decide) (by decide)
  exact ⟨(hfits (by decide)).1.mpr ⟨⟨by decide, by decide, by decide⟩, by decide⟩, hlayout.mpr (by decide)⟩

/-- A matrix of 16 EiB is admitted: its end lies 16 MiB above `2^64`. -/
theorem validate_vast : ∃ k : Kernel, k.rows < 2 ^ 32 ∧ k.columns < 2 ^ 32 ∧ k.validate 1 = .ok () ∧
    64 * 2 ^ 20 < k.footprint ∧ k.layout.finish < k.layout.result :=
  ⟨⟨1073758175, 4294901888⟩, by decide, by decide, by rfl, by decide, by decide⟩

/-! ## The rows of the tasklets -/

/-- The tasklets of an admitted kernel compute all rows if there is one for each row or the rows are a multiple of
their number. Otherwise the remainder is left out. -/
theorem rows_covered_iff (k : Kernel) (tasklets : Int) (hrows : k.rows < 2 ^ 32) (h : k.validate tasklets = .ok ()) :
    ∃ each, k.rowsPerTasklet tasklets = some each ∧
      (k.rows ≤ tasklets * each ↔ k.rows ≤ tasklets ∨ tasklets ∣ k.rows) ∧
      (tasklets ≤ k.rows → k.rows = tasklets * each + k.rows % tasklets) := by
  obtain ⟨ht, -⟩ := (validate_ok.mp h).1.tasklets
  rw [rowsPerTasklet]
  by_cases hfew : (k.rows : Int) < tasklets
  · exact ⟨1, if_pos hfew, by omega, by omega⟩
  · rw [if_neg hfew, if_neg (by omega)]
    have hsplit := Int.mul_ediv_add_emod k.rows tasklets
    have hrest := Int.emod_nonneg (k.rows : Int) (by omega : tasklets ≠ 0)
    have hnonneg := Int.ediv_nonneg (Int.natCast_nonneg k.rows) (by omega : 0 ≤ tasklets)
    have hle := Int.ediv_le_self tasklets (Int.natCast_nonneg k.rows)
    have hquot : Word.quot k.rows tasklets = k.rows / tasklets := by
      rw [Word.quot, Int.tdiv_eq_ediv_of_nonneg (Int.natCast_nonneg k.rows)]
      exact Word.wrap_of_inRange ⟨by omega, by omega⟩
    refine ⟨_, rfl, ?_, fun _ => by rw [hquot, hsplit]⟩
    rw [hquot, Int.dvd_iff_emod_eq_zero]
    constructor
    · intro hcover
      exact .inr (by omega)
    · rintro (hone | hdvd)
      · obtain rfl : tasklets = k.rows := by omega
        rw [Int.ediv_self (by omega), Int.mul_one]
      · omega

theorem rows_covered_iff_sixteenths : validate ⟨48, 128⟩ 16 = .ok () ∧
    rowsPerTasklet ⟨48, 128⟩ 16 = some 3 ∧ (48 : Int) ≤ 16 * 3 := by
  have hvalid : validate ⟨48, 128⟩ 16 = .ok () := by rfl
  obtain ⟨each, heach, hcover, -⟩ := rows_covered_iff ⟨48, 128⟩ 16 (by decide) hvalid
  obtain rfl : 3 = each := Option.some.inj heach
  exact ⟨hvalid, heach, hcover.mpr (.inr (by decide))⟩

/-- Two tasklets share five rows: each computes two, and the fifth is computed by none. -/
theorem rows_left_out : ∃ (k : Kernel) (tasklets each : Int), k.rows < 2 ^ 32 ∧ k.validate tasklets = .ok () ∧
    k.rowsPerTasklet tasklets = some each ∧ tasklets * each < k.rows :=
  ⟨⟨5, 1⟩, 2, 2, by decide, by rfl, by rfl, by decide⟩

end Device.Kernel

namespace Command

open Device (Kernel word32)

variable {p : Program} {i : OpId} {k : Kernel} {tasklets : Int}

/-! ## The kernel of a launch -/

structure Takes (p : Program) (i : OpId) (first last : Shape) : Prop where
  first : ∃ extents level, (p.op i).operands.tail.head?.bind p.slotType? = some (.buffer first extents level)
  last : ∃ extents level, (p.op i).operands.tail.getLast?.bind p.slotType? = some (.buffer last extents level)

theorem perWorkerSize_ok {s : Slot} {n : Int} : perWorkerSize p s = .ok n ↔
    ∃ shape, (∃ extents level, p.slotType? s = some (.buffer shape extents level)) ∧ n = shape.size := by
  rw [perWorkerSize]
  split
  · rename_i h
    simp [h, eq_comm]
  · rename_i h
    simp only [false_iff, reduceCtorEq]
    rintro ⟨shape, ⟨extents, level, hs⟩, -⟩
    exact h _ _ _ hs

theorem kernelOf_ok : kernelOf p i = .ok (.ok k) ↔ 2 ≤ (p.op i).operands.tail.length ∧
    ∃ first last, Takes p i first last ∧ last.size ≠ 0 ∧ Word.rem first.size last.size = 0 ∧
      k = ⟨word32 last.size, word32 (Word.quot first.size last.size)⟩ := by
  rw [kernelOf]
  cases hops : (p.op i).operands with
  | nil => simp
  | cons w params =>
    cases params with
    | nil => simp [except_pure_ok]
    | cons s params =>
      obtain ⟨t, ht⟩ : ∃ t, (s :: params).getLast? = some t := ⟨_, getLast?_eq_some_getLast (by simp)⟩
      have htakes : ∀ first last, Takes p i first last ↔ (∃ es l, p.slotType? s = some (.buffer first es l)) ∧
          ∃ es l, p.slotType? t = some (.buffer last es l) := fun first last =>
        ⟨fun h => by simpa [hops, ht] using And.intro h.first h.last,
          fun h => ⟨by simpa [hops] using h.1, by simpa [hops, ht] using h.2⟩⟩
      simp only [head?_cons, ht, tail_cons, htakes]
      by_cases hlen : (s :: params).length < 2
      · rw [if_pos hlen, except_pure_ok]
        simp only [reduceCtorEq, false_iff, not_and]
        omega
      · simp only [if_neg hlen, except_bind_ok, perWorkerSize_ok, Nat.not_lt.mp hlen, true_and]
        constructor
        · rintro ⟨_, ⟨first, hf, rfl⟩, _, ⟨last, hl, rfl⟩, h⟩
          by_cases hz : last.size = 0
          · rw [if_pos hz] at h
            cases h
          · rw [if_neg hz] at h
            split_ifs at h with hr
            · cases except_pure_ok.mp h
            · exact ⟨first, last, ⟨hf, hl⟩, hz, not_not.mp hr, (Except.ok.inj (except_pure_ok.mp h)).symm⟩
        · rintro ⟨first, last, ⟨hf, hl⟩, hz, hr, rfl⟩
          refine ⟨_, ⟨first, hf, rfl⟩, _, ⟨last, hl, rfl⟩, ?_⟩
          rw [if_neg hz, if_neg (not_not.mpr hr)]
          rfl

theorem Takes.unique {first last first' last' : Shape} (h : Takes p i first last) (h' : Takes p i first' last') :
    first = first' ∧ last = last' := by
  obtain ⟨_, _, hf⟩ := h.first
  obtain ⟨_, _, hf'⟩ := h'.first
  obtain ⟨_, _, hl⟩ := h.last
  obtain ⟨_, _, hl'⟩ := h'.last
  exact ⟨(Ty.buffer.inj (mem_unique hf hf')).1, (Ty.buffer.inj (mem_unique hl hl')).1⟩

structure Counted (s : Shape) (n : Nat) : Prop where
  positive : ∀ d ∈ s.dims, 0 < d
  elements : s.dims.prod = n
  small : (n : Int) < 9223372036854775808

theorem Counted.size_eq (h : Counted s n) : s.size = n := by
  rw [Shape.size, Word.product_eq h.positive (h.elements ▸ h.small), h.elements]

theorem Counted.pos (h : Counted s n) : 0 < n := by
  have := prod_pos h.positive
  rw [h.elements] at this
  exact_mod_cast this

theorem word32_natCast (n : Nat) : word32 n = n % 2 ^ 32 := by
  rw [word32]
  omega

theorem kernelOf_counted {m a : Nat} (hlen : 2 ≤ (p.op i).operands.tail.length)
    (ht : Takes p i first last) (hf : Counted first a) (hl : Counted last m) :
    kernelOf p i = .ok (.ok k) ↔ ∃ n, a = m * n ∧ k = ⟨m % 2 ^ 32, n % 2 ^ 32⟩ := by
  have hquot : Word.quot a m = (a / m : Nat) := Word.quot_eq (by omega) hf.small (by omega)
  have hm := hl.pos
  rw [kernelOf_ok]
  constructor
  · rintro ⟨-, first', last', ht', -, hdvd, rfl⟩
    obtain ⟨rfl, rfl⟩ := ht.unique ht'
    rw [hf.size_eq, hl.size_eq] at hdvd ⊢
    obtain ⟨n, rfl⟩ := Int.natCast_dvd_natCast.mp (Word.rem_eq_zero.mp hdvd)
    rw [hquot, word32_natCast, word32_natCast, Nat.mul_div_cancel_left n hm]
    exact ⟨n, rfl, rfl⟩
  · rintro ⟨n, rfl, rfl⟩
    refine ⟨hlen, first, last, ht, ?_⟩
    rw [hf.size_eq, hl.size_eq, hquot, word32_natCast, word32_natCast, Nat.mul_div_cancel_left n hm]
    exact ⟨by omega, Word.rem_eq_zero.mpr (Int.natCast_dvd_natCast.mpr ⟨n, rfl⟩), rfl⟩

/-! ## The launch of a distribution -/

section
open Offload.Distribution Transfer Build

variable {t m : Program} {b : BlockId} {place n rows width : Nat} {dims axes extents : List Int} {x : Lowering}

theorem counted_share {ds : List Int} (h : Shared ds extents n) (e : ElementType) :
    Counted ⟨e, shareDims n⟩ n :=
  ⟨h.shareDims_pos, Shared.prod_shareDims, h.layout.block_small⟩

theorem kernelOf_lowered (h : Lowered i b place extents x t m) (hp : Portions sel t i n dims axes extents rows width) :
    ∃ first last, Takes m x.launch first last ∧ Counted first (rows * width) ∧ Counted last rows ∧
      kernelOf m x.launch = .ok (.ok ⟨rows % 2 ^ 32, width % 2 ^ 32⟩) := by
  have hops : (m.op x.launch).operands = some x.workgroup :: x.sections.map fun s => some s.buffer :=
    congrArg Instr.operands h.launch
  have hlen : x.sections.length = (t.op i).operands.length := h.plans.length_eq.symm
  have hbuffer : ∀ s ∈ x.sections, ∀ {ds k}, Planned t extents ds k s →
      ∃ e, m.slotType? (some s.buffer) = some (.buffer ⟨e, shareDims k⟩ extents 0) := by
    rintro s hs ds k ⟨e, -, hplan⟩
    have hty : m.typeOf s.buffer = s.plan.bufferType := h.typeOf_section hs (by simp)
    exact ⟨e, by rw [slotType?, map_some, hty, Plan.bufferType, hplan]⟩
  have hinputs := hp.some_inputs
  have hinits := hp.some_inits
  obtain ⟨s, hs⟩ : ∃ s, (x.sections.take n).head? = some s :=
    ⟨_, head?_eq_some_head (ne_nil_of_length_pos (by rw [length_take]; omega))⟩
  obtain ⟨s', hs'⟩ : ∃ s, (x.sections.drop n).getLast? = some s :=
    ⟨_, getLast?_eq_some_getLast (ne_nil_of_length_pos (by rw [length_drop]; omega))⟩
  obtain ⟨e, he⟩ := hbuffer s (mem_of_mem_take (mem_of_mem_head? hs)) (h.inputs_planned hp s (mem_of_mem_head? hs))
  obtain ⟨e', he'⟩ := hbuffer s' (mem_of_mem_drop (mem_of_mem_getLast? hs'))
    (h.inits_planned hp s' (mem_of_mem_getLast? hs'))
  rw [head?_take, if_neg (by omega)] at hs
  rw [getLast?_drop, if_neg (by omega)] at hs'
  have ht : Takes m x.launch ⟨e, shareDims (rows * width)⟩ ⟨e', shareDims rows⟩ := by
    constructor <;> simp only [hops, tail_cons, head?_map, getLast?_map, hs, hs', map_some, bind_some]
    · exact ⟨_, _, he⟩
    · exact ⟨_, _, he'⟩
  have hf := counted_share hp.inputs_shared e
  have hl := counted_share hp.inits_shared e'
  exact ⟨_, _, ht, hf, hl, (kernelOf_counted (by rw [hops]; simp; omega) ht hf hl).mpr ⟨width, rfl, rfl⟩⟩

theorem lowered_of_verify {root : OpId} {c c' : Construction} {vs : List ValueId} (wf : c.program.WellFormed)
    (hv : c.program.verify catalogue root = .ok ()) (hi : c.program.Within root i)
    (hn : (c.program.op i).name = Reduction.reduceName) (hb : c.builder.block = some b)
    (hspot : Spot c.program b c.builder.place i) (h : lowerReduction i extents c = .ok vs c') :
    ∃ x, Lowered i b c.builder.place extents x c.program c'.program ∧ c'.created = c.created ++ x.created := by
  have hhome := hspot.block wf
  obtain ⟨l, r, hops, hplace⟩ := hspot
  obtain ⟨_, _, _, _, body, hc⟩ := Reduction.checked_of_checkReduce (checkReduce_of_verify hv wf hi hn)
  obtain ⟨bs, rs, hregions⟩ := hc.body
  have hsees : ∀ y, c.program.Within i y → y ≠ i → ∀ s ∈ (c.program.op y).operands,
      ∃ v, s = some v ∧ Visible catalogue c.program root v y := by
    intro y hy _ s hs
    obtain ⟨v, rfl, hvis⟩ := (verifyOp_ok.mp (verify_ok.mp hv y (wf.mem_nested.mpr (hi.trans hy)))).1 s hs
    exact ⟨v, rfl, wf.visible_ok.mp hvis⟩
  obtain ⟨x, hx, -, hcreated⟩ := (lowerReduction_gives
    ⟨wf, wf.hasBlock_of_block hhome, hb, by rw [hplace, hops]; simp⟩ (hasOp_of_block hhome)
    (wf.not_within_of_parent (parent?_eq_some.mpr ⟨b, hhome, rfl⟩))
      (by rw [hregions]; rfl) hsees False.elim).ok _ _ h
  exact ⟨x, hx, hcreated⟩

end

/-- A kernel that is admitted has the sizes of the buffers of the launch modulo `2^32`. If they are below `2^32`, and
the footprint below `2^64`, then they are exact and the kernel fits. The launch of a distribution has a row for every
output of a worker, and a column for every element that is reduced into it. -/
theorem kernelOf_launch (tasklets : Int) :
    (∀ (p : Program) (i : OpId) (k : Kernel), kernelOf p i = .ok (.ok k) → k.validate tasklets = .ok () →
      ∃ first last, Takes p i first last ∧ ∀ a m, Counted first a → Counted last m →
        ∃ n, a = m * n ∧ k = ⟨m % 2 ^ 32, n % 2 ^ 32⟩ ∧
          (m < 2 ^ 32 → n < 2 ^ 32 → 4 * (m * n + n + m) < 2 ^ 64 →
            k = ⟨m, n⟩ ∧ 4 * (m * n + n + m) ≤ 64 * 2 ^ 20)) ∧
    (∀ (sel : Distribution.Selector) (root i : OpId) (b : BlockId) (extents : List Int) (c c' : Construction)
      (vs : List ValueId), c.program.WellFormed → c.program.verify catalogue root = .ok () →
        c.program.Within root i →
      (c.program.op i).name = Reduction.reduceName → Distribution.Measured c.program i →
      (∀ es ∈ sel.candidates, Distribution.Countable es) → sel.select c.program i = .ok (some extents) →
      c.builder.block = some b → Distribution.Spot c.program b c.builder.place i →
      Distribution.lowerReduction i extents c = .ok vs c' →
      ∃ launch ∈ c'.created, (c'.program.op launch).name = Workgroup.launchName ∧
        ∃ n dims axes rows width, Distribution.Portions sel c.program i n dims axes extents rows width ∧
          ∃ first last, Takes c'.program launch first last ∧ Counted first (rows * width) ∧ Counted last rows ∧
            kernelOf c'.program launch = .ok (.ok ⟨rows % 2 ^ 32, width % 2 ^ 32⟩)) := by
  refine ⟨fun p i k hk hv => ?_, fun sel root i b extents c c' vs wf hver hi hn hm hcand hsel hb hspot h => ?_⟩
  · obtain ⟨hlen, first, last, ht, -⟩ := kernelOf_ok.mp hk
    refine ⟨first, last, ht, fun a m hf hl => ?_⟩
    obtain ⟨n, rfl, rfl⟩ := (kernelOf_counted hlen ht hf hl).mp hk
    refine ⟨n, rfl, rfl, fun hm hn hsmall => ?_⟩
    rw [Nat.mod_eq_of_lt hm, Nat.mod_eq_of_lt hn] at hv ⊢
    exact ⟨rfl, ((Kernel.validate_ok_of_small (k := ⟨m, n⟩) hsmall).mp hv).2⟩
  · obtain ⟨n, dims, axes, rows, width, hp⟩ :=
      Distribution.portions_of_select (Distribution.checkReduce_of_verify hver wf hi hn) hm hcand hsel
    obtain ⟨x, hx, hcreated⟩ := lowered_of_verify wf hver hi hn hb hspot h
    refine ⟨x.launch, ?_, congrArg Instr.name hx.launch, n, dims, axes, rows, width, hp, kernelOf_lowered hx hp⟩
    rw [hcreated]
    simp [Distribution.Lowering.created]

/-- A launch with two buffers of `n` elements for its only worker. -/
def launching (n : Int) : Program :=
  { ops := #[
      { name := "builtin.module", regions := [[0]] },
      { name := "func.func", regions := [[1]], block := some 0
        attrs := [("sym_name", .str "main"), ("function_type", .type (.function [] []))] },
      { name := "cnm.workgroup", results := [0], block := some 1 },
      { name := "cnm.alloc", operands := [some 0], results := [1], block := some 1 },
      { name := "cnm.alloc", operands := [some 0], results := [2], block := some 1 },
      { name := "cnm.launch", operands := [some 0, some 1, some 2], regions := [[2]]
        block := some 1 },
      { name := "cnm.terminator", block := some 2 },
      { name := "func.return", block := some 1 }]
    blocks := #[
      { owner := 0, ops := [1] },
      { owner := 1, ops := [2, 3, 4, 5, 7] },
      { owner := 5, args := [3, 4], ops := [6] }]
    values := #[
      ⟨.workgroup [1], .result 2 0, [⟨3, 0⟩, ⟨4, 0⟩, ⟨5, 0⟩]⟩,
      ⟨.buffer ⟨.float32, [n]⟩ [1] 0, .result 3 0, [⟨5, 1⟩]⟩,
      ⟨.buffer ⟨.float32, [n]⟩ [1] 0, .result 4 0, [⟨5, 2⟩]⟩,
      ⟨.memref ⟨.float32, [n]⟩, .argument 2 0, []⟩,
      ⟨.memref ⟨.float32, [n]⟩, .argument 2 1, []⟩] }

theorem takes_launching (n : Int) : Takes (launching n) 5 ⟨.float32, [n]⟩ ⟨.float32, [n]⟩ :=
  ⟨⟨_, _, rfl⟩, ⟨_, _, rfl⟩⟩

theorem kernelOf_launch_keeper :
    (∃ n, 4 = 4 * n ∧ kernelOf (launching 4) 5 = .ok (.ok ⟨4, n⟩) ∧ 4 * (4 * n + n + 4) ≤ 64 * 2 ^ 20) ∧
      ∃ vs c', Distribution.lowerReduction 2 [2] ⟨Distribution.keeper .float32, { block := some 1 },
        []⟩ = .ok vs c' ∧ ∃ launch ∈ c'.created, ∃ rows width : Nat,
          kernelOf c'.program launch = .ok (.ok ⟨rows % 2 ^ 32, width % 2 ^ 32⟩) := by
  obtain ⟨hfits, hlowered⟩ := kernelOf_launch 16
  constructor
  · have hk : kernelOf (launching 4) 5 = .ok (.ok ⟨4, 1⟩) := by rfl
    obtain ⟨first, last, ht, h⟩ := hfits _ _ _ hk (by rfl)
    obtain ⟨rfl, rfl⟩ := ht.unique (takes_launching 4)
    obtain ⟨n, hn, -, h⟩ := h 4 4 ⟨by decide, by decide, by decide⟩ ⟨by decide, by decide, by decide⟩
    obtain rfl : n = 1 := by omega
    obtain ⟨-, h⟩ := h (by decide) (by decide) (by decide)
    exact ⟨1, rfl, hk, h⟩
  · have hrun : (EStateM.run' (Distribution.lowerReduction 2 [2])
        ⟨Distribution.keeper .float32, { block := some 1 }, []⟩).isSome = true := by decide +kernel
    cases h : Distribution.lowerReduction 2 [2] ⟨Distribution.keeper .float32, { block := some 1 }, []⟩ with
    | error e c' =>
      delta EStateM.run' EStateM.run at hrun
      rw [h] at hrun
      exact absurd hrun Bool.false_ne_true
    | ok vs c' =>
      have wf : (Distribution.keeper .float32).WellFormed := .of_check (by decide)
      have hout : (Distribution.keeper .float32).Outside Distribution.isLaunch 0 2 :=
        (Distribution.mem_outside wf).mp (by decide)
      obtain ⟨launch, hl, -, _, _, _, rows, width, -, _, _, -, -, -, hk⟩ :=
        hlowered Distribution.byTwo 0 2 1 [2] _ c' vs wf (by decide +kernel) hout.within rfl
          (Distribution.onTensors_keeper.measured hout rfl) Distribution.countable_pair (by rfl) rfl
          ⟨[], [4], rfl, rfl⟩ h
      exact ⟨vs, c', rfl, launch, hl, rows, width, hk⟩

/-- Buffers with `2^32 + 1` elements are reported with one. -/
theorem kernelOf_vast : (launching 4294967297).verify catalogue 0 = .ok () ∧
    kernelOf (launching 4294967297) 5 = .ok (.ok ⟨1, 1⟩) ∧ Kernel.validate ⟨1, 1⟩ 16 = .ok () ∧
    ∃ s, Takes (launching 4294967297) 5 s s ∧ Counted s 4294967297 ∧
      64 * 2 ^ 20 < 4 * (4294967297 * 1 + 1 + 4294967297) :=
  ⟨by decide +kernel, by rfl, by rfl, _, takes_launching _, ⟨by decide, by decide, by decide⟩, by decide⟩

end Command

end Offload
