import Offload.Distribution.Plan
import Offload.Proofs.Fates
import Offload.Proofs.RowMajor

/-!
# Dealing a tensor out and collecting it

With the map of a plan, the element at place `n` goes to worker `n / k` and there to place `n % k`, where `k` is
the number of elements for each worker. A gather puts the elements back into their order.
-/

namespace Offload

open List

variable {buffers : Array Tensor} {dims : List Int} {e : ElementType} {k : Nat} {p : Program} {shape : Shape}

namespace Distribution

open Shape

private theorem eval_transfer : ∀ {extents coords : List Int} (axis : Nat),
    Forall₂ (fun e c => 0 ≤ c ∧ c < e) extents coords → (∀ e ∈ extents, e < 9223372036854775808) →
    (∀ k c, coords[k]? = some c → dims[axis + k]? = some c) →
      Forall₂ (fun (e : Affine.Expr) v => e.eval dims = .ok v)
        ((extents.zipIdx axis).map fun x => .floorDiv (.dim x.2) x.1) (List.replicate extents.length 0) ∧
      Forall₂ (fun (e : Affine.Expr) v => e.eval dims = .ok v)
        ((extents.zipIdx axis).map fun x => .mod (.dim x.2) x.1) coords
  | [], [], _, _, _, _ => ⟨.nil, .nil⟩
  | e :: extents, c :: coords, axis, h, hsmall, hdims => by
    obtain ⟨⟨h0, hlt⟩, hrest⟩ := forall₂_cons.mp h
    have he := hsmall e mem_cons_self
    have hc : dims[axis]? = some c := hdims 0 c rfl
    have hcw : Word.InRange c := ⟨by omega, by omega⟩
    have hdiv : Word.floorDiv c e = 0 := by rw [Word.floorDiv_eq hcw (by omega), Int.ediv_eq_zero_of_lt h0 hlt]
    have hmod : Word.sub c (Word.mul 0 e) = c := by
      rw [← hdiv, Word.sub_floorDiv hcw (by omega) ⟨by omega, he⟩, Int.emod_eq_of_lt h0 hlt]
    obtain ⟨hq, hr⟩ := eval_transfer (axis + 1) hrest (fun x hx => hsmall x (mem_cons_of_mem _ hx))
      fun k d hd => by
        have := hdims (k + 1) d (by simpa using hd)
        rwa [Nat.add_assoc, Nat.add_comm 1 k]
    refine ⟨.cons ?_ hq, .cons ?_ hr⟩
    · simp [Affine.Expr.eval, hc, hdiv, bind, Except.bind, pure, Except.pure]
    · simp [Affine.Expr.eval, hc, hdiv, hmod, bind, Except.bind, pure, Except.pure]

theorem eval_transferMap {extents coords : List Int} (h : Forall₂ (fun e c => 0 ≤ c ∧ c < e) extents coords)
    (hsmall : ∀ e ∈ extents, e < 9223372036854775808) :
    (transferMap extents).eval (coords ++ List.replicate extents.length 0) =
      .ok (List.replicate extents.length 0 ++ coords) := by
  have hfirst : ∀ k c, coords[k]? = some c → (coords ++ List.replicate extents.length 0)[0 + k]? = some c := by
    intro k c hk
    rw [Nat.zero_add, getElem?_append_left (List.getElem?_eq_some_iff.mp hk).1, hk]
  obtain ⟨hq, hr⟩ := eval_transfer 0 h hsmall hfirst
  have hlen : ((coords ++ List.replicate extents.length 0).length : Int) = (transferMap extents).dims := by
    simp only [length_append, ← h.length_eq, length_replicate, transferMap]
    omega
  rw [Affine.Map.eval, if_pos hlen]
  exact Affine.Map.evalFrom_of_forall _ 0 (rel_append hq hr)

end Distribution

namespace Transfer

open Offload.Shape Offload.Distribution

structure Layout (extents rest : List Int) (k : Int) : Prop where
  extentPos : ∀ e ∈ extents, 0 < e
  restPos : ∀ d ∈ rest, 0 < d
  block : rest.prod = k
  small : extents.prod * k < 9223372036854775808

namespace Layout

variable {extents rest : List Int} {k : Int} (h : Layout extents rest k)
include h

theorem pos : 0 < k := h.block ▸ prod_pos h.restPos

theorem workers_pos : 0 < extents.prod := prod_pos h.extentPos

theorem prod : (extents ++ rest).prod = extents.prod * k := by rw [prod_append, h.block]

theorem workers_small : extents.prod < 9223372036854775808 :=
  Int.lt_of_le_of_lt (le_mul_of_one_le_right h.workers_pos.le h.pos) h.small

theorem block_small : k < 9223372036854775808 :=
  Int.lt_of_le_of_lt (le_mul_of_one_le_left h.pos.le h.workers_pos) h.small

theorem all_pos : ∀ d ∈ extents ++ rest, 0 < d := fun d hd =>
  (mem_append.mp hd).elim (h.extentPos d) (h.restPos d)

theorem extent_small : ∀ e ∈ extents, e < 9223372036854775808 := fun _ he =>
  Int.lt_of_le_of_lt (Int.le_of_dvd h.workers_pos (dvd_prod he)) h.workers_small

theorem locate {n : Int} (h0 : 0 ≤ n) (hn : n < extents.prod * k) (e : ElementType) :
    Transfer.locate (transferMap extents) ⟨e, extents ++ rest⟩ extents (tupleAt (extents ++ rest) n) =
      .ok (n / k, n % k) := by
  have hk := h.pos
  have hw0 : 0 ≤ n / k := Int.ediv_nonneg h0 hk.le
  have hw : n / k < extents.prod := Int.ediv_lt_of_lt_mul hk hn
  have hs0 := Int.emod_nonneg n hk.ne'
  have hs := Int.emod_lt_of_pos n hk
  have htuple : tupleAt (extents ++ rest) n = tupleAt extents (n / k) ++ tupleAt rest (n % k) := by
    rw [tupleAt_append h.extentPos (h.block ▸ hk) h0 (by rwa [h.prod]), h.block]
  have hlen : (tupleAt extents (n / k)).length = extents.length := length_tupleAt ..
  have heval := eval_transferMap (tupleAt_bounds h.extentPos hw0 hw) h.extent_small
  have hworker : mixedRadix extents (tupleAt extents (n / k)) = n / k :=
    mixedRadix_tupleAt h.extentPos h.workers_small hw0 hw
  have hinner : mixedRadix rest (tupleAt rest (n % k)) = n % k :=
    mixedRadix_tupleAt h.restPos (h.block ▸ h.block_small) hs0 (h.block ▸ hs)
  have hblock : mixedRadix (blockCounts ⟨e, extents ++ rest⟩ extents)
      (List.replicate extents.length 0 ++ tupleAt extents (n / k)) = 0 :=
    mixedRadix_zeros _ _ _ (by simp [blockCounts])
  have hslot : Word.add (Word.mul 0 (blockSize ⟨e, extents ++ rest⟩ extents)) (n % k) = n % k := by
    rw [Word.mul, Int.zero_mul, show Word.wrap 0 = 0 from rfl, Word.add, Int.zero_add]
    have := h.block_small
    exact Word.wrap_of_inRange ⟨by omega, by omega⟩
  simp only [Transfer.locate, htuple, take_left' hlen, drop_left' hlen, heval,
    drop_left' length_replicate, length_append, length_replicate, hlen, drop_left]
  rw [if_neg (by omega), hblock, hworker, hinner, hslot]
  rfl

end Layout

structure Buffers (buffers : Array Tensor) (workers k : Int) (shape : Shape) : Prop where
  size : (buffers.size : Int) = workers
  each : ∀ b ∈ buffers, b.shape = shape ∧ (b.data.size : Int) = k

namespace Buffers

theorem exists_buffer {workers : Int} {k n : Nat}
    (h : Buffers buffers workers k shape) (hk : 0 < k) (hn : (n : Int) < workers * k) :
    ∃ b, buffers[n / k]? = some b ∧ b.shape = shape ∧ (b.data.size : Int) = k := by
  have hlt : n / k < buffers.size := by
    rw [Nat.div_lt_iff_lt_mul hk]
    exact_mod_cast h.size ▸ hn
  exact ⟨buffers[n / k], Array.getElem?_eq_getElem hlt, h.each _ (Array.getElem_mem hlt)⟩

end Buffers

/-! ## Scattering -/

def targets (k start count : Nat) : List (Nat × Nat) := (List.range' start count).map fun n => (n / k, n % k)

theorem count_targets (hk : 0 < k) (workers w slot : Nat) :
    (targets k 0 (workers * k)).count (w, slot) = if w < workers ∧ slot < k then 1 else 0 := by
  have hinj : Function.Injective fun n : Nat => (n / k, n % k) := fun m n h => by
    rw [← Nat.div_add_mod m k, ← Nat.div_add_mod n k, (Prod.mk.inj h).1, (Prod.mk.inj h).2]
  split
  · rename_i h
    have hplace : w * k + slot < workers * k := calc
      w * k + slot < w * k + k := by omega
      _ = (w + 1) * k := by rw [Nat.add_mul, Nat.one_mul]
      _ ≤ workers * k := Nat.mul_le_mul_right k h.1
    refine count_eq_one_of_mem (List.Nodup.map hinj nodup_range') (mem_map.mpr ⟨w * k + slot, ?_, ?_⟩)
    · simpa using hplace
    · rw [Nat.mul_comm, Nat.mul_add_div hk, Nat.div_eq_of_lt h.2, Nat.mul_add_mod, Nat.mod_eq_of_lt h.2, Nat.add_zero]
  · rename_i h
    refine count_eq_zero.mpr fun hm => h ?_
    obtain ⟨n, hn, he⟩ := mem_map.mp hm
    obtain ⟨rfl, rfl⟩ := Prod.mk.inj he
    exact ⟨(Nat.div_lt_iff_lt_mul hk).mpr (by simpa using hn), Nat.mod_lt n hk⟩

theorem Buffers.put {workers k : Int} (h : Buffers buffers workers k shape)
    (w slot : Nat) (x : Float) : Buffers (Transfer.put buffers w slot x) workers k shape := by
  refine ⟨by rw [Transfer.put, Array.size_modify, h.size], fun b hb => ?_⟩
  obtain ⟨w', hw'⟩ := Array.getElem?_of_mem hb
  rw [getElem?_put] at hw'
  obtain ⟨b', hb', rfl⟩ := Option.map_eq_some_iff.mp hw'
  have := h.each b' (Array.mem_of_getElem? hb')
  split
  · simpa using this
  · exact this

theorem slots_planned {extents rest : List Int} {k count : Nat} (h : Layout extents rest k)
    (hb : Buffers buffers extents.prod k shape) (hcount : (count : Int) = extents.prod * k)
    (e : ElementType) : Slots ⟨transferMap extents, ⟨e, extents ++ rest⟩, extents, room buffers⟩
      (Shape.mk e (extents ++ rest)).indices (targets k 0 count) := by
  rw [Slots, Shape.indices_eq h.all_pos (h.prod ▸ h.small), targets, forall₂_map_left_iff,
    forall₂_map_right_iff, h.prod, ← hcount, Int.toNat_natCast, range_eq_range']
  refine forall₂_same.mpr fun n hn => ?_
  have hn : (n : Int) < extents.prod * k := by
    rw [← hcount]
    exact_mod_cast (mem_range'_1.mp hn).2.trans_eq (Nat.zero_add count)
  have hk := Int.natCast_pos.mp h.pos
  obtain ⟨b, hget, -, hsize⟩ := hb.exists_buffer hk hn
  refine ⟨h.locate (Int.natCast_nonneg n) hn e, b.data.size, getElem?_room hget, ?_⟩
  have := Nat.mod_lt n hk
  omega

def Dealt (k : Nat) (shape : Shape) (before : List Float) (buffers : Array Tensor) : Prop :=
  ∀ n x, before[n]? = some x → ∃ b, buffers[n / k]? = some b ∧ b.data[n % k]? = some (shape.element.round x)

section
variable {k workers : Nat} {shape : Shape} (hk : 0 < k)
include hk

theorem Dealt.put {before : List Float} (hd : Dealt k shape before buffers)
    (hb : Buffers buffers workers k shape) (hroom : before.length < workers * k) (x : Float) :
    Dealt k shape (before ++ [x]) (Transfer.put buffers (before.length / k) (before.length % k) x) := by
  intro n y hn
  simp only [getElem?_put]
  rcases Nat.lt_or_ge n before.length with hlt | hge
  · -- an earlier element has another slot
    rw [getElem?_append_left hlt] at hn
    obtain ⟨b, hget, hslot⟩ := hd n y hn
    refine ⟨_, by rw [hget]; rfl, ?_⟩
    split
    · rename_i hw
      have hne : before.length % k ≠ n % k := fun hs => by
        have h1 := Nat.div_add_mod n k
        have h2 := Nat.div_add_mod before.length k
        rw [hw, hs] at h2
        omega
      simpa [Array.getElem?_setIfInBounds, hne] using hslot
    · exact hslot
  · obtain ⟨rfl, rfl⟩ : before.length = n ∧ x = y := by
      have hlen := (List.getElem?_eq_some_iff.mp hn).1
      rw [length_append, length_singleton] at hlen
      have heq : before.length = n := by omega
      subst heq
      exact ⟨rfl, by simpa using hn⟩
    obtain ⟨b, hget, hshape, hsize⟩ := hb.exists_buffer hk (by exact_mod_cast hroom)
    have hslot : before.length % k < b.data.size := by have := Nat.mod_lt before.length hk; omega
    exact ⟨_, by rw [hget]; rfl, by simp [hslot, hshape]⟩

theorem dealt_deal : ∀ (elements before : List Float) {buffers : Array Tensor}, Dealt k shape before buffers →
    Buffers buffers workers k shape → before.length + elements.length ≤ workers * k →
      Buffers (deal (targets k before.length elements.length) elements buffers) workers k shape ∧
        Dealt k shape (before ++ elements) (deal (targets k before.length elements.length) elements buffers)
  | [], before, buffers, hd, hb, _ => ⟨hb, by rw [append_nil]; exact hd⟩
  | x :: elements, before, buffers, hd, hb, hroom => by
    rw [length_cons] at hroom
    have hnext := dealt_deal elements (before ++ [x]) (hd.put hk hb (by omega) x)
      (hb.put (before.length / k) (before.length % k) x) (by simp; omega)
    rw [length_append, length_singleton, append_assoc, singleton_append] at hnext
    exact hnext

end

theorem Dealt.buffer_eq {k workers : Nat} {data : Array Float}
    (hd : Dealt k shape data.toList buffers) (hb : Buffers buffers workers k shape) (hsize : data.size = workers * k)
    (hround : ∀ x ∈ data, shape.element.round x = x) {w : Nat} (hw : w < workers) :
    buffers[w]? = some ⟨shape, data.extract (w * k) ((w + 1) * k)⟩ := by
  have hlt : w < buffers.size := by have := hb.size; omega
  have hget := Array.getElem?_eq_getElem hlt
  obtain ⟨hshape, hlen⟩ := hb.each _ (Array.getElem_mem hlt)
  have hle : (w + 1) * k ≤ workers * k := Nat.mul_le_mul_right k hw
  rw [Nat.add_mul, Nat.one_mul] at hle ⊢
  rw [hget, Option.some.injEq]
  have hdata : buffers[w].data = data.extract (w * k) (w * k + k) := by
    refine Array.ext (by simp; omega) fun s hs _ => ?_
    have hs' : s < k := by omega
    have hplace : w * k + s < data.size := by omega
    have hquot : (w * k + s) / k = w := by
      rw [Nat.mul_comm, Nat.mul_add_div (by omega), Nat.div_eq_of_lt hs', Nat.add_zero]
    have hrem : (w * k + s) % k = s := by rw [Nat.mul_comm, Nat.mul_add_mod, Nat.mod_eq_of_lt hs']
    obtain ⟨b, hb', hslot⟩ := hd (w * k + s) data[w * k + s] (by simp [hplace])
    rw [hquot, hget, Option.some.injEq] at hb'
    rw [hrem, ← hb', Array.getElem?_eq_getElem hs, Option.some.injEq, hround _ (Array.getElem_mem hplace)] at hslot
    rw [hslot, Array.getElem_extract]
  rw [← hdata, ← hshape]

/-! ## Shares -/

structure Shared (dims extents : List Int) (k : Nat) : Prop where
  extentPos : ∀ e ∈ extents, 0 < e
  dimPos : ∀ d ∈ dims, 0 < d
  prod : dims.prod = extents.prod * k
  small : dims.prod < 9223372036854775808

def shareDims (k : Nat) : List Int := if (k : Int) = 1 then [] else [(k : Int)]

namespace Shared

variable {dims extents : List Int} {k : Nat} (h : Shared dims extents k)
include h

theorem share_pos : 0 < (k : Int) :=
  Int.pos_of_mul_pos_right (h.prod ▸ prod_pos h.dimPos) (prod_pos h.extentPos)

theorem workers : Workgroup.workers extents = extents.prod ∧ 0 < extents.prod := by
  have hw := prod_pos h.extentPos
  exact ⟨Word.product_eq h.extentPos (Int.lt_of_le_of_lt (h.prod ▸ le_mul_of_one_le_right hw.le h.share_pos)
    h.small), hw⟩

theorem rem : Word.rem (Word.product dims) extents.prod = 0 := by
  rw [Word.product_eq h.dimPos h.small]
  exact Word.rem_eq_zero.mpr (h.prod ▸ Int.dvd_mul_right ..)

theorem quot : Word.quot (Word.product dims) extents.prod = k := by
  have hw := h.workers.2
  rw [Word.product_eq h.dimPos h.small, Word.quot_eq (prod_pos h.dimPos).le h.small hw.le, h.prod,
    Int.mul_ediv_cancel_left _ hw.ne']

theorem shareDims_pos : ∀ d ∈ shareDims k, 0 < d := by
  have := h.share_pos
  unfold shareDims
  split
  · simp
  · simpa using this

omit h in
theorem prod_shareDims : (shareDims k).prod = k := by
  unfold shareDims
  split <;> simp_all

theorem layout : Layout extents (shareDims k) k :=
  ⟨h.extentPos, h.shareDims_pos, prod_shareDims, h.prod ▸ h.small⟩

theorem make_reshaped (e : ElementType) : Shape.make e (extents ++ shareDims k) =
    .ok ⟨e, extents ++ shareDims k⟩ := by
  rw [Shape.make, if_pos (all_eq_true.mpr fun d hd => decide_eq_true (h.layout.all_pos d hd))]

theorem make_share (e : ElementType) : Shape.make e (shareDims k) = .ok ⟨e, shareDims k⟩ := by
  rw [Shape.make, if_pos (all_eq_true.mpr fun d hd => decide_eq_true (h.shareDims_pos d hd))]

theorem computeShapes : Distribution.computeShapes dims extents = .ok (extents ++ shareDims k, shareDims k) := by
  simp only [Distribution.computeShapes, h.workers.1, h.rem, h.quot, h.workers.2.ne', if_false, ne_eq,
    not_true_eq_false, shareDims]
  split <;> simp

theorem planOperand {operand : Slot}
    (hs : p.slotType? operand = some (.tensor ⟨e, dims⟩)) : Distribution.planOperand p operand extents =
      .ok ⟨operand, ⟨e, dims⟩, extents ++ shareDims k, ⟨e, shareDims k⟩, extents⟩ := by
  simp only [Distribution.planOperand, hs, h.computeShapes, h.make_share, Fault.ofShape, bind, Except.bind]
  rfl

theorem layoutOf {buffers : Nat} (hbuffers : (buffers : Int) = extents.prod) (e : ElementType) :
    ∃ rest, Transfer.layoutOf ⟨e, dims⟩ buffers extents = .ok ⟨e, extents ++ rest⟩ ∧
      Layout extents rest k := by
  simp only [Transfer.layoutOf, h.workers.1, hbuffers, ne_eq, not_true_eq_false, if_false, Shape.size, h.quot, h.rem,
    h.workers.2.ne']
  by_cases hlead : dims.take extents.length = extents
  · -- the axes of the workgroup come first already
    have hdims : dims = extents ++ dims.drop extents.length := by
      conv_lhs => rw [← take_append_drop extents.length dims, hlead]
    refine ⟨dims.drop extents.length, ?_, h.extentPos, fun d hd => h.dimPos d (mem_of_mem_drop hd), ?_,
      h.prod ▸ h.small⟩
    · rw [if_pos hlead, ← hdims]
      rfl
    · have hprod := h.prod
      rw [hdims, prod_append] at hprod
      exact Int.eq_of_mul_eq_mul_left h.workers.2.ne' hprod
  · refine ⟨shareDims k, ?_, h.layout⟩
    have hdims : (if (k : Int) = 1 then extents else extents ++ [(k : Int)]) = extents ++ shareDims k := by
      unfold shareDims
      split <;> simp
    rw [if_neg hlead, hdims, Shape.withDims, h.make_reshaped]
    rfl

theorem layoutOf_reshaped {buffers : Nat} (hbuffers : (buffers : Int) = extents.prod) (e : ElementType) :
    Transfer.layoutOf ⟨e, extents ++ shareDims k⟩ buffers extents = .ok ⟨e, extents ++ shareDims k⟩ := by
  simp [Transfer.layoutOf, h.workers.1, hbuffers, pure, Except.pure]

end Shared

/-! ## Gathering -/

theorem get_indices (hpos : ∀ d ∈ shape.dims, 0 < d)
    (hsmall : shape.dims.prod < 9223372036854775808) (t : Tensor) (hdata : (t.data.size : Int) = shape.dims.prod) :
    Forall₂ (fun x y => t.get x.1 = .ok y) shape.indices t.data.toList := by
  rw [Shape.indices_eq hpos hsmall, ← hdata, Int.toNat_natCast]
  refine forall₂_iff_get.mpr ⟨by simp, fun n hn hn' => ?_⟩
  have hn : n < t.data.size := by simpa using hn'
  simp [Tensor.get, hn]

theorem gather_of_layout {shape layout : Shape} {extents : List Int} {map : Affine.Map}
    (hpos : ∀ d ∈ shape.dims, 0 < d) (hroom : shape.dims.prod < capacity)
    (hlayout : layoutOf shape buffers.size extents = .ok layout) :
    gather buffers shape extents map = (layout.indices.mapM fun x => elementAt map layout extents x.2 buffers).map
      fun elements => ⟨shape, (elements.map shape.element.round).toArray⟩ := by
  have hlength : checkLength shape.size = .ok shape.dims.prod.toNat := by
    rw [Shape.size, Word.product_eq hpos (hroom.trans (by decide)), checkLength, if_pos ⟨(prod_pos hpos).le, hroom⟩]
  unfold gather
  rw [hlayout, hlength]
  rfl

theorem gather_eq {dims extents : List Int} {k workers : Nat}
    {perWorker : Shape} {data : Array Float} (h : Shared dims extents k) (hworkers : extents.prod = workers)
    (hroom : dims.prod < capacity) (hb : Buffers buffers workers k perWorker)
    (hd : Dealt k perWorker data.toList buffers) (hsize : data.size = workers * k)
    (helement : perWorker.element = e) (hround : ∀ x ∈ data, e.round x = x) :
    gather buffers ⟨e, dims⟩ extents (transferMap extents) = .ok ⟨⟨e, dims⟩, data⟩ := by
  obtain ⟨rest, hlayout, hl⟩ := h.layoutOf (hb.size.trans hworkers.symm) e
  have hcount : (data.size : Int) = extents.prod * k := by rw [hsize, hworkers, Int.natCast_mul]
  have hheld : Forall₂ (Held buffers) (targets k 0 data.size) data.toList := by
    refine forall₂_iff_get.mpr ⟨by simp [targets], fun n _ hn => ?_⟩
    rw [Array.length_toList] at hn
    have := hd n data[n] (by simp [hn])
    rw [helement, hround _ (Array.getElem_mem hn)] at this
    simpa [targets, Held] using this
  have helements := ((mapM_fate (fun x => elementAt_fate ⟨e, extents ++ rest⟩ x buffers
    (by simp [transferMap]; omega)) _).2 _).mpr ⟨_, slots_planned hl (hworkers ▸ hb) hcount e, hheld⟩
  have hmap : (data.toList.map e.round).toArray = data := by
    rw [map_congr_left (g := id) fun x hx => hround x (Array.mem_toList_iff.mp hx), map_id]
  rw [gather_of_layout h.dimPos hroom hlayout, helements, Except.map, hmap]

/-! ## There and back -/

section
variable {e : ElementType} {dims extents : List Int} {k workers : Nat} {buffers : Array Tensor} {data : Array Float}
  (h : Shared dims extents k) (hworkers : extents.prod = workers) (hsize : data.size = workers * k)
  (hb : Buffers buffers workers k ⟨e, shareDims k⟩)
include h hworkers hsize hb

theorem mapM_targetOf : (Shape.mk e (extents ++ shareDims k)).indices.mapM (fun x =>
    targetOf (transferMap extents) ⟨e, extents ++ shareDims k⟩ extents x.2 buffers) =
      .ok (targets k 0 data.size) := by
  have hcount : (data.size : Int) = extents.prod * k := by rw [hsize, hworkers, Int.natCast_mul]
  exact ((mapM_fate (fun x => targetOf_fate ⟨e, extents ++ shareDims k⟩ x buffers
    (by simp [transferMap]; omega)) _).2 _).mpr
      ⟨_, slots_planned h.layout (hworkers ▸ hb) hcount e, forall₂_same.mpr fun _ _ => rfl⟩

theorem scatter_eq : scatter ⟨⟨e, extents ++ shareDims k⟩, data⟩ extents (transferMap extents) buffers =
    (deal (targets k 0 data.size) data.toList buffers, none) := by
  have hcount : (data.size : Int) = extents.prod * k := by rw [hsize, hworkers, Int.natCast_mul]
  have hplace := h.layout.prod ▸ h.layout.small
  simp only [scatter, h.layoutOf_reshaped (hb.size.trans hworkers.symm) e]
  refine ((scatterElements_fate _ (by simp [transferMap]; omega) buffers
    (get_indices h.layout.all_pos hplace _ ?_)).2 _).mpr ⟨_, slots_planned h.layout (hworkers ▸ hb) hcount e, rfl⟩
  rw [h.layout.prod, ← hcount]

omit hworkers in
theorem dealt_all : Buffers (deal (targets k 0 data.size) data.toList buffers) workers k ⟨e, shareDims k⟩ ∧
    Dealt k ⟨e, shareDims k⟩ data.toList (deal (targets k 0 data.size) data.toList buffers) :=
  dealt_deal (Int.natCast_pos.mp h.share_pos) data.toList [] (fun n x hn => by simp at hn) hb (by simp [hsize])

end

/-- Scattering a tensor as planned succeeds. The elements go to slots among which every slot of every buffer
occurs once, and worker `w` ends up with the elements from `w * k` to `(w + 1) * k`. Gathering the buffers into
a tensor of the same size, whatever its axes are, gives the elements in their order. -/
theorem gather_undoes_scatter {operand : Slot} {s : Shape} {extents : List Int} {data : Array Float}
    (htype : p.slotType? operand = some (.tensor s)) (hextents : ∀ e ∈ extents, 0 < e)
    (hpos : ∀ d ∈ s.dims, 0 < d)
    (hsmall : s.dims.prod < 9223372036854775808) (heven : extents.prod ∣ s.dims.prod)
    (hdata : (data.size : Int) = s.dims.prod) (hround : ∀ x ∈ data, s.element.round x = x) :
    ∃ plan layout, planOperand p operand extents = .ok plan ∧
      Transfer.layoutOf ⟨s.element, plan.reshaped⟩ extents.prod.toNat extents = .ok layout ∧
      ∃ k : Nat, data.size = extents.prod.toNat * k ∧ ∀ buffers : Array Tensor, buffers.size =
        extents.prod.toNat → (∀ b ∈ buffers, b.shape = plan.buffer ∧ (b.data.size : Int) = plan.buffer.size) →
        ∃ slots result, layout.indices.mapM (fun x => targetOf plan.map layout extents x.2 buffers) = .ok slots ∧
          (∀ w slot, slots.count (w, slot) = if w < extents.prod.toNat ∧ slot < k then 1 else 0) ∧
          scatter ⟨⟨s.element, plan.reshaped⟩, data⟩ extents plan.map buffers = (result, none) ∧
          result = deal slots data.toList buffers ∧ result.size = extents.prod.toNat ∧
          (∀ w < extents.prod.toNat, result[w]? = some ⟨plan.buffer, data.extract (w * k) ((w + 1) * k)⟩) ∧
          ∀ shape : Shape, shape.element = s.element → (∀ d ∈ shape.dims, 0 < d) →
            shape.dims.prod = s.dims.prod → shape.dims.prod < capacity →
              gather result shape extents plan.map = .ok ⟨shape, data⟩ := by
  obtain ⟨e, dims⟩ := s
  obtain ⟨workers, hworkers⟩ := Int.eq_ofNat_of_zero_le (prod_pos hextents).le
  obtain ⟨k, hk⟩ := Int.eq_ofNat_of_zero_le (Int.ediv_nonneg (prod_pos hpos).le (prod_pos hextents).le)
  have h : Shared dims extents k := ⟨hextents, hpos, by rw [← hk, Int.mul_ediv_cancel' heven], hsmall⟩
  have hsize : data.size = workers * k := by
    have : (data.size : Int) = (workers * k : Nat) := by rw [hdata, h.prod, hworkers, Int.natCast_mul]
    exact_mod_cast this
  have hcount : extents.prod.toNat = workers := by rw [hworkers, Int.toNat_natCast]
  rw [hcount]
  refine ⟨_, _, h.planOperand htype, h.layoutOf_reshaped hworkers.symm e, k, hsize,
    fun buffers hbuffers heach => ?_⟩
  have hb : Buffers buffers workers k ⟨e, shareDims k⟩ := by
    refine ⟨by rw [hbuffers], fun b hb => ⟨(heach b hb).1, ?_⟩⟩
    have hshare : (shareDims k).prod < 9223372036854775808 := by
      rw [Shared.prod_shareDims]
      exact h.layout.block_small
    rw [(heach b hb).2, Shape.size, Word.product_eq h.shareDims_pos hshare, Shared.prod_shareDims]
  obtain ⟨hbs, hdealt⟩ := dealt_all h hsize hb
  refine ⟨targets k 0 data.size, _, mapM_targetOf h hworkers hsize hb, fun w slot => ?_,
    scatter_eq h hworkers hsize hb,
    rfl, by exact_mod_cast hbs.size, fun w hw => hdealt.buffer_eq hbs hsize hround hw, ?_⟩
  · rw [hsize]
    exact count_targets (Int.natCast_pos.mp h.share_pos) workers w slot
  · rintro ⟨e', dims'⟩ rfl hpos' hprod hroom
    have h' : Shared dims' extents k := ⟨hextents, hpos', hprod.trans h.prod, hprod ▸ hsmall⟩
    exact gather_eq h' hworkers hroom hbs hdealt hsize rfl hround

/-- Twelve elements for six workers, collected as two rows although the workgroup has two times three workers. -/
theorem gather_undoes_scatter_rows : ∃ plan result,
    planOperand { values := #[⟨.tensor ⟨.float64, [4, 3]⟩, default, []⟩] } (some 0) [2, 3] = .ok plan ∧
      scatter ⟨⟨.float64, plan.reshaped⟩, #[0, 1, 2, 3, 4, 5, 6, 7, 8, 9, 10, 11]⟩ [2, 3] plan.map
        (Array.replicate 6 ⟨⟨.float64, [2]⟩, #[0, 0]⟩) = (result, none) ∧
      result[4]? = some ⟨plan.buffer, #[8, 9]⟩ ∧
      gather result ⟨.float64, [2, 6]⟩ [2, 3] plan.map =
        .ok ⟨⟨.float64, [2, 6]⟩, #[0, 1, 2, 3, 4, 5, 6, 7, 8, 9, 10, 11]⟩ := by
  obtain ⟨plan, layout, hplan, -, k, hk, h⟩ := @gather_undoes_scatter
    { values := #[⟨.tensor ⟨.float64, [4, 3]⟩, default, []⟩] } (some 0) ⟨.float64, [4, 3]⟩ [2, 3]
    #[0, 1, 2, 3, 4, 5, 6, 7, 8, 9, 10, 11] rfl (by decide) (by decide) (by decide) (by decide) rfl (fun x _ => rfl)
  obtain rfl : k = 2 := by
    have : 12 = 6 * k := hk
    omega
  have hbuffer : plan.buffer = ⟨.float64, [2]⟩ := (congrArg Plan.buffer (Except.ok.inj hplan)).symm
  obtain ⟨slots, result, -, -, hscatter, -, -, hdata, hgather⟩ :=
    h (Array.replicate 6 ⟨⟨.float64, [2]⟩, #[0, 0]⟩) rfl
    (fun b hb => by rw [Array.eq_of_mem_replicate hb, hbuffer]; exact ⟨rfl, rfl⟩)
  exact ⟨plan, result, hplan, hscatter, hdata 4 (by decide),
    hgather ⟨.float64, [2, 6]⟩ rfl (by decide) (by decide) (by decide)⟩

end Transfer

end Offload
