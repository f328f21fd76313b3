import Offload.Proofs.CheckedReductions
import Offload.Proofs.Distributed
import Offload.Proofs.Volumes

/-!
# Choosing a workgroup

For a reduction on tensors the choice of a workgroup always comes to an end without a fault, depends on the
types of the operands and the attributes alone, and a workgroup that was chosen can be used.
-/

namespace Offload.Distribution

open Program Reduction List Workgroup

variable {e : ElementType} {s : Slot} {α β : Type}
variable {p q : Program} {i : OpId} {extents : List Int} {sel : Selector}

section
variable {α : Type} {test : α → Except Fault Bool}

theorem allOf_total {P : α → Prop} : ∀ {l : List α}, (∀ x ∈ l, ∃ b, test x = .ok b ∧
    (b = true ↔ P x)) → ∃ b, allOf test l = .ok b ∧ (b = true ↔ ∀ x ∈ l, P x)
  | [], _ => ⟨true, rfl, by simp⟩
  | x :: l, h => by
    obtain ⟨b, hb, hP⟩ := h x mem_cons_self
    obtain ⟨b', hb', hP'⟩ := allOf_total fun y hy => h y (mem_cons_of_mem x hy)
    rw [forall_mem_cons, ← hP, ← hP']
    cases b with
    | false => exact ⟨false, by rw [allOf, hb]; rfl, by simp⟩
    | true => exact ⟨b', by rw [allOf, hb]; exact hb', by simp⟩

theorem allOf_congr {test' : α → Except Fault Bool} {f g : α → Option Ty}
    (h : ∀ a b, f a = g b → test a = test' b) : ∀ {l l' : List α}, l.map f = l'.map g →
      allOf test l = allOf test' l'
  | [], [], _ => rfl
  | a :: l, b :: l', hl => by
    obtain ⟨hab, hl⟩ := List.cons.inj hl
    rw [allOf, allOf, h a b hab, allOf_congr h hl]

end

/-! ## What the choice depends on -/

structure Unchanged (i : OpId) (p q : Program) : Prop where
  attrs : (q.op i).attrs = (p.op i).attrs
  loc : (q.op i).loc = (p.op i).loc
  operands : (q.op i).operands.map q.slotType? = (p.op i).operands.map p.slotType?

namespace Unchanged

variable (h : Unchanged i p q)
include h

theorem attr? (name : String) : (q.op i).attr? name = (p.op i).attr? name := by rw [Op.attr?, h.attrs, Op.attr?]

theorem length : (q.op i).operands.length = (p.op i).operands.length := by
  simpa using congrArg List.length h.operands

theorem inputCount : Reduction.inputCount q i = Reduction.inputCount p i := by
  simp only [Reduction.inputCount, segments, h.attr?, h.loc, h.length]

theorem dimensions : Reduction.dimensions q i = Reduction.dimensions p i := by
  rw [Reduction.dimensions, h.attr?, Reduction.dimensions]

theorem inputs (n : Nat) : ((q.op i).operands.take n).map q.slotType? = ((p.op i).operands.take n).map p.slotType? := by
  rw [map_take, h.operands, map_take]

theorem inits (n : Nat) : ((q.op i).operands.drop n).map q.slotType? = ((p.op i).operands.drop n).map p.slotType? := by
  rw [map_drop, h.operands, map_drop]

theorem isLegal (sel : Selector) (extents : List Int) : sel.isLegal q i extents = sel.isLegal p i extents := by
  have hplan : ∀ a b, q.slotType? a = p.slotType? b →
      sel.bufferFits q extents a = sel.bufferFits p extents b := by
    intro a b hab
    simp only [Selector.bufferFits, planOperand, hab]
    cases p.slotType? b with
    | none => rfl
    | some t =>
      cases t with
      | tensor s =>
        cases hc : computeShapes s.dims extents with
        | error e => simp [hc, bind, Except.bind]
        | ok x =>
          cases hm : Fault.ofShape (Shape.make s.element x.2) with
          | error e => simp [hc, hm, bind, Except.bind]
          | ok shape => simp [hc, hm, bind, Except.bind, pure, Except.pure]
      | _ => rfl
  have hinit : ∀ a b, q.slotType? a = p.slotType? b → initFits q extents a = initFits p extents b := by
    intro a b hab
    simp only [initFits, typeOf, hab]
  have hinput : ∀ a b, q.slotType? a = p.slotType? b →
      inputFits q extents (Reduction.dimensions p i) a = inputFits p extents (Reduction.dimensions p i) b := by
    intro a b hab
    simp only [inputFits, typeOf, hab]
  simp only [Selector.isLegal, Reduction.inits, Reduction.inputs, h.inputCount, h.dimensions]
  cases Reduction.inputCount p i with
  | error e => rfl
  | ok n =>
    simp only [bind, Except.bind, pure, Except.pure, allOf_congr hinit (h.inits n), allOf_congr hinput (h.inputs n),
      allOf_congr hplan h.operands]

theorem select (sel : Selector) : sel.select q i = sel.select p i := by
  have hfirst : ∀ cs, sel.firstLegal q i cs = sel.firstLegal p i cs := by
    intro cs
    induction cs with
    | nil => rfl
    | cons extents rest ih => rw [Selector.firstLegal, Selector.firstLegal, h.isLegal, ih]
  exact hfirst sel.candidates

end Unchanged

/-! ## Reductions on tensors -/

/-- A reduction of `n` tensors with stored elements along `axes`, none of them too large. -/
structure Reduces (storage : Storage) (p : Program) (i : OpId) (n : Nat) (dims axes : List Int) : Prop where
  count : Reduction.inputCount p i = .ok n
  some_inputs : 0 < n
  dimensions : Reduction.dimensions p i = axes
  fit : axesFit dims.length none axes = true
  inputs : ∀ s ∈ (p.op i).operands.take n, ∃ e : ElementType,
    p.slotType? s = some (.tensor ⟨e, dims⟩) ∧ (storage e).isSome = true
  inits : ∀ s ∈ (p.op i).operands.drop n, ∃ e : ElementType,
    p.slotType? s = some (.tensor ⟨e, keptDims dims axes⟩) ∧ (storage e).isSome = true
  results : (p.resultTypes i).map some = ((p.op i).operands.drop n).map p.slotType?
  region : ∃ bs, (p.op i).regions[0]? = some bs
  positive : ∀ d ∈ dims, 0 < d
  small : dims.prod < 9223372036854775808

def Storable (storage : Storage) (t : Ty) : Prop := ∃ s : Shape, t = .tensor s ∧
  (storage s.element).isSome = true ∧ (∀ d ∈ s.dims, 0 < d) ∧ s.dims.prod < 9223372036854775808

theorem add_eq_length {m n : Int} {k : Nat} (hm : 1 ≤ m) (hn : 1 ≤ n) (hm' : Word.InRange m) (hn' : Word.InRange n)
    (h : Word.add m n = k) : m + n = k ∧ (k : Int) < 9223372036854775808 := by
  by_cases hr : Word.InRange (m + n)
  · rw [← h, Word.add, Word.wrap_of_inRange hr]
    exact ⟨rfl, hr.2⟩
  · -- the sum would have wrapped to a negative number
    rw [Word.add, Word.wrap, if_neg (show ¬ (_ ∧ _) from hr)] at h
    have hm2 := hm'.2
    have hn2 := hn'.2
    have hge : 9223372036854775808 ≤ m + n := by
      by_contra hlt
      exact hr ⟨by omega, by omega⟩
    rw [Int.bmod_def] at h
    split at h <;> omega

theorem map_eq_some_filterMap {f : α → Option β} : ∀ {l : List α}, (∀ a ∈ l, ∃ b, f a = some b) →
    l.map f = (l.filterMap f).map some
  | [], _ => rfl
  | a :: l, h => by
    obtain ⟨b, hb⟩ := h a mem_cons_self
    rw [map_cons, filterMap_cons_some hb, hb, map_eq_some_filterMap fun x hx => h x (mem_cons_of_mem a hx)]
    rfl

theorem exists_of_map_eq {α β γ : Type} {f : α → γ} {g : β → γ} {l : List α} {l' : List β}
    (h : l.map f = l'.map g)
    {a : α} (ha : a ∈ l) : ∃ b ∈ l', f a = g b := by
  have hmem : f a ∈ l.map f := mem_map_of_mem ha
  rw [h] at hmem
  obtain ⟨b, hb, heq⟩ := mem_map.mp hmem
  exact ⟨b, hb, heq.symm⟩

section
variable {storage : Storage} {m n : Int} {axes : List Int} {shapes : List Shape} {b : BlockId}
  (h : Reduction.Checked p i m n axes shapes b)
  (ht : ∀ s ∈ (p.op i).operands, ∃ t, p.slotType? s = some t ∧ Storable storage t)
include h ht

theorem checked_types : (p.op i).operands.map p.slotType? = ((p.op i).operands.filterMap p.slotType?).map some ∧
    (p.op i).operands.filterMap p.slotType? = shapes.map Ty.tensor := by
  refine ⟨map_eq_some_filterMap fun s hs => (ht s hs).imp fun t ht => ht.1, map_some_inj ?_⟩
  rw [map_map]
  calc ((p.op i).operands.filterMap p.slotType?).map some
      = ((p.op i).operands.filterMap p.slotType?).map fun t => t.shape?.map Ty.tensor := by
        refine map_congr_left fun t hmem => ?_
        obtain ⟨s, hs, hst⟩ := mem_filterMap.mp hmem
        obtain ⟨u, hu, s', rfl, -⟩ := ht s hs
        rw [Option.mem_unique hst hu]
        rfl
    _ = (shapes.map some).map fun s => s.map Ty.tensor := by rw [← h.types.shaped, map_map]; rfl
    _ = shapes.map (some ∘ Ty.tensor) := by rw [map_map]; rfl

theorem checked_slots : (p.op i).operands.map p.slotType? = shapes.map fun s => some (.tensor s) := by
  obtain ⟨htypes, hts⟩ := checked_types h ht
  rw [htypes, hts, map_map]
  rfl

theorem checked_storable {s : Shape} (hs : s ∈ shapes) : (storage s.element).isSome = true ∧
    (∀ d ∈ s.dims, 0 < d) ∧ s.dims.prod < 9223372036854775808 := by
  obtain ⟨x, hx, heq⟩ := exists_of_map_eq (checked_slots h ht).symm hs
  obtain ⟨t, hxt, s', rfl, hst⟩ := ht x hx
  rwa [Ty.tensor.inj (Option.some.inj (heq.trans hxt))]

theorem inputs_le_operands (hm : Word.InRange m) (hn : Word.InRange n) : m ≤ (p.op i).operands.length := by
  obtain ⟨hm1, hn1⟩ := h.positive
  have hlen : (p.op i).operands.length = ((p.op i).operands.filterMap p.slotType?).length := by
    simpa using congrArg List.length (checked_types h ht).1
  have htotal := (add_eq_length hm1 hn1 hm hn h.total).1
  omega

theorem reduces_of_checked (hle : m ≤ (p.op i).operands.length) :
    Reduces storage p i m.toNat (shapes.headD default).dims axes := by
  obtain ⟨hm1, -⟩ := h.positive
  obtain ⟨htypes, hts⟩ := checked_types h ht
  have hslots := checked_slots h ht
  have hhead : shapes.headD default ∈ shapes := by
    cases hsh : shapes with
    | nil =>
      rw [hsh, map_nil, map_eq_nil_iff] at hslots
      rw [hslots] at hle
      exact absurd hle (by simp; omega)
    | cons s rest => exact mem_cons_self
  obtain ⟨bs, rs, hregions⟩ := h.body
  obtain ⟨-, hpos, hsmall⟩ := checked_storable h ht hhead
  refine ⟨?_, by omega, ?_, h.types.sorted, ?_, ?_, ?_, ⟨b :: bs, by rw [hregions]; rfl⟩, hpos, hsmall⟩
  · simp only [Reduction.inputCount, segments, h.segments]
    exact if_pos ⟨by omega, by omega⟩
  · rw [Reduction.dimensions, h.dimensions]
    rfl
  · intro s hs
    have hmap : ((p.op i).operands.take m.toNat).map p.slotType? = (shapes.take m.toNat).map fun s =>
      some (.tensor s) := by
      rw [map_take, hslots, map_take]
    obtain ⟨s', hs', heq⟩ := exists_of_map_eq hmap hs
    exact ⟨s'.element, by rw [heq, ← h.types.inputs s' hs'], (checked_storable h ht (mem_of_mem_take hs')).1⟩
  · intro s hs
    have hmap : ((p.op i).operands.drop m.toNat).map p.slotType? = (shapes.drop m.toNat).map fun s =>
      some (.tensor s) := by
      rw [map_drop, hslots, map_drop]
    obtain ⟨s', hs', heq⟩ := exists_of_map_eq hmap hs
    exact ⟨s'.element, by rw [heq, ← h.types.inits s' hs'], (checked_storable h ht (mem_of_mem_drop hs')).1⟩
  · have hall : ((p.op i).operands.filterMap p.slotType?).all Ty.isTensor = true := by
      rw [hts]
      simp [Ty.isTensor]
    rw [h.types.outputs, if_pos hall, map_drop, map_drop, htypes]

end

structure Crew (extents : List Int) : Prop where
  nonempty : extents ≠ []
  positive : ∀ e ∈ extents, 0 < e
  few : extents.prod < 9223372036854775808

theorem Crew.workers (h : Crew extents) : workers extents = extents.prod ∧ 0 < extents.prod :=
  ⟨Word.product_eq h.positive h.few, prod_pos h.positive⟩

structure Countable (extents : List Int) : Prop extends Grid extents where
  few : extents.prod < 9223372036854775808

theorem Countable.crew (h : Countable extents) : Crew extents := ⟨h.nonempty, h.positive, h.few⟩

theorem Countable.workers (h : Countable extents) : workers extents = extents.prod ∧ 0 < extents.prod :=
  h.crew.workers

theorem Crew.checkExtents (h : Crew extents) : Workgroup.checkExtents extents = .ok () := by
  cases hx : extents with
  | nil => exact absurd hx h.nonempty
  | cons e rest =>
    have hnone : (e :: rest).zipIdx.find? (fun x => decide (x.1 ≤ 0)) = none := by
      refine List.find?_eq_none.mpr fun x hx' => ?_
      have hpos := h.positive x.1 (hx ▸ fst_mem_of_mem_zipIdx hx')
      simpa using hpos
    simp only [Workgroup.checkExtents]
    rw [hnone]

def limitOf (limit : Int) : Int := if limit ≤ 0 then Device.mainMemory else limit

def shareBytes (storage : Storage) (s : Shape) (extents : List Int) : Int :=
  Word.ofUnsigned ((storage s.element).getD 0 * Word.toUnsigned (s.dims.prod / extents.prod) % 18446744073709551616)

def ShareFits (sel : Selector) (p : Program) (extents : List Int) (slot : Slot) : Prop :=
  ∃ s, p.slotType? slot = some (.tensor s) ∧ shareBytes sel.storage s extents ≤ limitOf sel.memoryLimit

section
variable (hg : Crew extents) {dims : List Int} (hpos : ∀ d ∈ dims, 0 < d) (hsmall : dims.prod < 9223372036854775808)
include hg hpos hsmall

theorem fits_tensor {axes : List Int} (hfit : axesFit dims.length none axes = true) :
    fits (.tensor ⟨e, dims⟩) extents axes = .ok (decide (extents.prod ∣ (keptDims dims axes).prod)) := by
  obtain ⟨hw, hwpos⟩ := hg.workers
  have hvol : Shape.volumeExcluding ⟨e, dims⟩ axes = _ := Shape.volumeExcluding_eq hfit hpos hsmall
  simp only [fits, hw, hvol, Word.rem_eq_zero]
  rw [if_neg (by omega)]

theorem computeShapes_of_dvd (h : extents.prod ∣ dims.prod) :
    ∃ reshaped perWorker, computeShapes dims extents = .ok (reshaped, perWorker) ∧ perWorker.all (0 < ·) = true ∧
      Word.product perWorker = dims.prod / extents.prod := by
  obtain ⟨hw, hwpos⟩ := hg.workers
  have hd := prod_pos hpos
  have hq : 0 < dims.prod / extents.prod := Int.ediv_pos_of_pos_of_dvd hd hwpos.le h
  have hle : dims.prod / extents.prod ≤ dims.prod := Int.ediv_le_self _ hd.le
  simp only [computeShapes, hw, Word.product_eq hpos hsmall, Word.quot_eq hd.le hsmall hwpos.le, Word.rem_eq_zero.mpr h]
  rw [if_neg (by omega), if_neg (by simp)]
  split
  · rename_i hone
    exact ⟨_, _, rfl, rfl, hone.symm⟩
  · exact ⟨_, _, rfl, by simpa using hq, by rw [Word.product_eq (by simpa using hq) (by simp; omega),
      prod_singleton]⟩

theorem planOperand_of_dvd (hs : p.slotType? s = some (.tensor ⟨e, dims⟩))
    (h : extents.prod ∣ dims.prod) : ∃ plan, planOperand p s extents = .ok plan ∧ plan.buffer.element = e ∧
      plan.buffer.size = dims.prod / extents.prod := by
  obtain ⟨reshaped, perWorker, hc, hp, hprod⟩ := computeShapes_of_dvd hg hpos hsmall h
  refine ⟨⟨s, ⟨e, dims⟩, reshaped, ⟨e, perWorker⟩, extents⟩, ?_, rfl, hprod⟩
  have hmake : Fault.ofShape (Shape.make e perWorker) = .ok ⟨e, perWorker⟩ := make_ok.mpr ⟨hp, rfl⟩
  simp [planOperand, hs, hc, hmake, bind, Except.bind, pure, Except.pure]

theorem bufferFits_of_dvd (hs : p.slotType? s = some (.tensor ⟨e, dims⟩)) (he : (sel.storage e).isSome = true)
    (h : extents.prod ∣ dims.prod) :
    ∃ b, sel.bufferFits p extents s = .ok b ∧ (b = true ↔ ShareFits sel p extents s) := by
  obtain ⟨plan, hplan, hel, hsize⟩ := planOperand_of_dvd hg hpos hsmall hs h
  obtain ⟨n, hn⟩ := Option.isSome_iff_exists.mp he
  have hmem : plan.buffer.memory sel.storage =
      .ok (n * Word.toUnsigned (dims.prod / extents.prod) % 18446744073709551616) := by
    rw [Shape.memory, hel, hn, hsize]
  have hshare : ShareFits sel p extents s ↔ shareBytes sel.storage ⟨e,
    dims⟩ extents ≤ limitOf sel.memoryLimit := by
    constructor
    · rintro ⟨t, ht, hle⟩
      rwa [Ty.tensor.inj (Option.mem_unique hs ht)]
    · exact fun hle => ⟨_, hs, hle⟩
  simp only [Selector.bufferFits, hplan, Device.checkBuffer, bind, Except.bind, hmem]
  refine ⟨_, rfl, ?_⟩
  rw [hshare, shareBytes, hn, limitOf, Option.getD_some, Option.isNone_iff_eq_none]
  exact ite_eq_right_iff.trans (by simp)

end

theorem firstLegal_eq {P : List Int → Prop} [DecidablePred P] : ∀ {cs : List (List Int)},
    (∀ extents ∈ cs, Crew extents ∧ ∃ b, sel.isLegal p i extents = .ok b ∧ (b = true ↔ P extents)) →
      sel.firstLegal p i cs = .ok (cs.find? fun extents => decide (P extents))
  | [], _ => rfl
  | c :: cs, h => by
    obtain ⟨hcrew, b, hb, hP⟩ := h c mem_cons_self
    rw [Selector.firstLegal, hcrew.checkExtents, find?_cons]
    simp only [bind, Except.bind, hb]
    cases b with
    | true =>
      simp only [decide_eq_true (hP.mp rfl)]
      rfl
    | false =>
      simp only [decide_eq_false fun hp => absurd (hP.mpr hp) (by simp)]
      exact firstLegal_eq fun extents he => h extents (mem_cons_of_mem c he)

namespace Reduces

variable {n : Nat} {dims axes : List Int} (h : Reduces sel.storage p i n dims axes) (hg : Crew extents)
include h

theorem kept_small : (keptDims dims axes).prod < 9223372036854775808 :=
  Int.lt_of_le_of_lt (keptDims_le h.positive axes) h.small

theorem head : ∃ e : ElementType, ((p.op i).operands.take n).head?.bind p.slotType? =
    some (.tensor ⟨e, dims⟩) := by
  have hle := inputCount_le h.count
  have hpos := h.some_inputs
  cases hh : (p.op i).operands.take n with
  | nil =>
    have hlen := congrArg List.length hh
    rw [length_take, Nat.min_eq_left hle] at hlen
    exact absurd hlen (by simp; omega)
  | cons s rest =>
    obtain ⟨e, he, -⟩ := h.inputs s (hh ▸ mem_cons_self)
    exact ⟨e, by simpa using he⟩

include hg

theorem initFits : ∀ s ∈ (p.op i).operands.drop n, ∃ b, initFits p extents s = .ok b ∧
    (b = true ↔ extents.prod ∣ (keptDims dims axes).prod) := by
  intro s hs
  obtain ⟨e, he, -⟩ := h.inits s hs
  have hf : fits (.tensor ⟨e, keptDims dims axes⟩) extents [] = _ :=
    fits_tensor hg (keptDims_pos h.positive axes) h.kept_small rfl
  rw [keptDims_nil] at hf
  exact ⟨_, by rw [Distribution.initFits, typeOf, he]; exact hf, by simp⟩

theorem inputFits : ∀ s ∈ (p.op i).operands.take n, ∃ b, inputFits p extents axes s = .ok b ∧
    (b = true ↔ extents.prod ∣ (keptDims dims axes).prod ∧ isSupported dims.length axes = true) := by
  intro s hs
  obtain ⟨e, he, -⟩ := h.inputs s hs
  have hf := fits_tensor (e := e) hg h.positive h.small h.fit
  rw [Distribution.inputFits, typeOf, he]
  simp only [bind, Except.bind, hf]
  by_cases hd : extents.prod ∣ (keptDims dims axes).prod
  · exact ⟨_, by rw [if_pos (by simpa using hd)]; rfl, by simp [hd, Ty.shape?, Shape.rank]⟩
  · exact ⟨false, by rw [if_neg (by simpa using hd)]; rfl, by simp [hd]⟩

theorem bufferFits (hd : extents.prod ∣ (keptDims dims axes).prod) :
    ∀ s ∈ (p.op i).operands, ∃ b, sel.bufferFits p extents s = .ok b ∧
      (b = true ↔ ShareFits sel p extents s) := by
  intro s hs
  rw [← take_append_drop n (p.op i).operands] at hs
  rcases mem_append.mp hs with hs | hs
  · obtain ⟨e, he, hbytes⟩ := h.inputs s hs
    exact bufferFits_of_dvd hg h.positive h.small he hbytes (hd.trans (keptDims_dvd dims axes))
  · obtain ⟨e, he, hbytes⟩ := h.inits s hs
    exact bufferFits_of_dvd hg (keptDims_pos h.positive axes) h.kept_small he hbytes hd

theorem isLegal_total : ∃ b, sel.isLegal p i extents = .ok b ∧ (b = true ↔
    extents.prod ∣ (keptDims dims axes).prod ∧ isSupported dims.length axes = true ∧
      ∀ s ∈ (p.op i).operands, ShareFits sel p extents s) := by
  obtain ⟨b1, hb1, hinits⟩ := allOf_total (h.initFits hg)
  obtain ⟨b2, hb2, hinputs⟩ := allOf_total (h.inputFits hg)
  have hlegal : sel.isLegal p i extents = if b1 = true then if b2 = true then
      allOf (sel.bufferFits p extents) (p.op i).operands else .ok false else .ok false := by
    simp only [Selector.isLegal, Reduction.inits, Reduction.inputs, h.count, h.dimensions, bind, Except.bind, pure,
      Except.pure, hb1, hb2]
    cases b1 <;> cases b2 <;> rfl
  rw [hlegal]
  obtain ⟨s, hs⟩ : ∃ s, s ∈ (p.op i).operands.take n := by
    obtain ⟨e, he⟩ := h.head
    cases hh : (p.op i).operands.take n with
    | nil => simp [hh] at he
    | cons s rest => exact ⟨s, mem_cons_self⟩
  cases b1 with
  | false => exact ⟨false, rfl, by simpa using fun hd => absurd (hinits.mpr fun _ _ => hd) (by simp)⟩
  | true =>
    cases b2 with
    | false => exact ⟨false, rfl, by simpa using fun hd hsup => absurd (hinputs.mpr fun _ _ => ⟨hd, hsup⟩) (by simp)⟩
    | true =>
      obtain ⟨hd, hsup⟩ := hinputs.mp rfl s hs
      obtain ⟨b, hb, hfit⟩ := allOf_total (h.bufferFits hg hd)
      exact ⟨b, hb, by rw [hfit, and_iff_right hd, and_iff_right hsup]⟩

omit hg in
theorem select_total (hc : ∀ extents ∈ sel.candidates, Countable extents) :
    ∃ o, sel.select p i = .ok o ∧ ∀ extents, o = some extents → extents ∈ sel.candidates ∧
      extents.prod ∣ (keptDims dims axes).prod ∧ isSupported dims.length axes = true := by
  classical
  have hfind := firstLegal_eq fun extents he => ⟨(hc extents he).crew, h.isLegal_total (hc extents he).crew⟩
  refine ⟨_, hfind, fun extents ho => ?_⟩
  have hlegal := find?_some ho
  obtain ⟨hd, hsup, -⟩ := of_decide_eq_true hlegal
  exact ⟨mem_of_find?_eq_some ho, hd, hsup⟩

theorem view (hd : extents.prod ∣ (keptDims dims axes).prod) (e : ElementType) :
    ∃ view, viewOf ⟨e, dims⟩ axes extents = .ok view ∧ view.Proper := by
  obtain ⟨hw, hwpos⟩ := hg.workers
  have hkept := prod_pos (keptDims_pos h.positive axes)
  have hsize : Shape.size ⟨e, dims⟩ = dims.prod := Word.product_eq h.positive h.small
  have hvol : Shape.volumeExcluding ⟨e, dims⟩ axes = (keptDims dims axes).prod :=
    Shape.volumeExcluding_eq h.fit h.positive h.small
  have hprod := prod_pos h.positive
  simp only [viewOf, hsize, hvol, hw, Word.quot_eq hprod.le h.small hkept.le,
    Word.quot_eq hkept.le h.kept_small hwpos.le]
  rw [if_neg (by omega), if_neg (by omega)]
  refine ⟨_, rfl, ?_⟩
  split
  · trivial
  · split
    · trivial
    · exact ⟨Int.ediv_pos_of_pos_of_dvd hkept hwpos.le hd,
        Int.ediv_pos_of_pos_of_dvd hprod hkept.le (keptDims_dvd dims axes)⟩

omit hg in
theorem distributable (hg : Countable extents) (hd : extents.prod ∣ (keptDims dims axes).prod) :
    Distributable i extents p := by
  obtain ⟨e, he⟩ := h.head
  obtain ⟨view, hview, hproper⟩ := h.view hg.crew hd e
  have hlen : (p.op i).results.length = (p.op i).operands.length - n := by
    simpa [resultTypes] using congrArg List.length h.results
  have hle := inputCount_le h.count
  refine ⟨hg.toGrid, fun s hs => ?_, ⟨n, ⟨e, dims⟩, view, h.count, by omega, he, by
    rw [h.dimensions, hview], hproper⟩, fun r hr => ?_⟩
  · rw [← take_append_drop n (p.op i).operands] at hs
    rcases mem_append.mp hs with hs | hs
    · obtain ⟨e, he, -⟩ := h.inputs s hs
      obtain ⟨plan, hplan, -⟩ := planOperand_of_dvd hg.crew h.positive h.small he
        (hd.trans (keptDims_dvd dims axes))
      exact ⟨plan, hplan⟩
    · obtain ⟨e, he, -⟩ := h.inits s hs
      obtain ⟨plan, hplan, -⟩ := planOperand_of_dvd hg.crew (keptDims_pos h.positive axes) h.kept_small he hd
      exact ⟨plan, hplan⟩
  · have hmem : some (p.typeOf r) ∈ (p.resultTypes i).map some := mem_map_of_mem (mem_map_of_mem hr)
    rw [h.results] at hmem
    obtain ⟨s, hs, heq⟩ := mem_map.mp hmem
    obtain ⟨e, he, -⟩ := h.inits s hs
    exact ⟨_, Option.mem_unique heq he⟩

end Reduces

end Offload.Distribution
