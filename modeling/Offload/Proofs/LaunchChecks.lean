import Offload.Proofs.Passing
import Offload.Proofs.Portions

/-!
# What a distribution writes passes

Every operation that a distribution writes is accepted by the check of its kind: the types of its operands and
results fit because the workers share the elements evenly.
-/

namespace Offload

open Program Workgroup Instr List

variable {ds : List Int} {js : List OpId} {k : Nat} {s : Section} {ty : Ty} {v : ValueId} {y : Instr}

namespace Transfer.Shared

variable {ds extents : List Int} {k : Nat} (h : Shared ds extents k)
include h

theorem size_share (e : ElementType) : Shape.size ⟨e, shareDims k⟩ = k := by
  have hsmall : (shareDims k).prod < 9223372036854775808 := by
    rw [prod_shareDims]
    exact h.layout.block_small
  rw [Shape.size, Word.product_eq h.shareDims_pos hsmall, prod_shareDims]

theorem reshaped : Shared (extents ++ shareDims k) extents k :=
  ⟨h.extentPos, h.layout.all_pos, h.layout.prod, by rw [h.layout.prod, ← h.prod]; exact h.small⟩

theorem checkTransfer (e : ElementType) (level : Int) :
    Workgroup.checkTransfer extents (.tensor ⟨e, ds⟩) (.buffer ⟨e, shareDims k⟩ extents level) = .ok () := by
  have hpos := h.workers.2
  have hmul : Word.mul (Shape.size ⟨e, shareDims k⟩) (Workgroup.workers extents) = Shape.size ⟨e, ds⟩ := by
    rw [h.size_share, h.workers.1, Shape.size, Word.product_eq h.dimPos h.small, h.prod,
      Word.mul_eq h.share_pos.le hpos.le (by rw [Int.mul_comm, ← h.prod]; exact h.small), Int.mul_comm]
  simp only [Workgroup.checkTransfer, perWorkerOf, if_true]
  refine except_bind_ok.mpr ⟨_, rfl, ?_⟩
  simp only [hmul, ne_eq, not_true_eq_false, if_false]
  rfl

end Transfer.Shared

theorem Distribution.checkMap_transferMap (extents : List Int) :
    checkMap extents (some (.map (transferMap extents))) = .ok () := by
  rw [checkMap, if_pos]
  exact ⟨rfl, by simp [transferMap]; omega⟩

namespace Distribution

open Transfer

variable {t m : Program} {i j : OpId} {b : BlockId} {place n rows width : Nat} {dims axes extents : List Int}
  {x : Lowering}

/-! ## One operation -/

theorem resultTypes_of_instr (h : instr m j = y) : m.resultTypes j = y.results.map Prod.snd := by
  rw [← h]
  simp [instr, resultTypes]

theorem typeOf_of_code {xs : List Instr} (h : js.map (instr m) = xs) (hy : y ∈ xs)
    (hv : (v, ty) ∈ y.results) : m.typeOf v = ty := by
  rw [← h] at hy
  obtain ⟨j, -, rfl⟩ := mem_map.mp hy
  obtain ⟨u, -, heq⟩ := mem_map.mp hv
  obtain ⟨rfl, rfl⟩ := Prod.mk.inj heq
  rfl

theorem passing_of_check {ε : Type} (check : Program → OpId → Except ε Unit) {f : ε → Flaw} {name : String}
    {traits : Traits} (hn : (m.op j).name = name)
    (hinfo : catalogue.info? name = some ⟨name, traits, fun p i => (check p i).mapError f⟩)
    (ht : traits.terminator = false) (hc : check m j = .ok ()) : Passing m j where
  last h := by
    rw [Registry.isTerminator, Registry.traits, hn, hinfo, Option.elim_some, ht] at h
    cases h
  check := by
    rw [checkKind, hn, hinfo]
    exact mapError_ok.mpr hc

theorem passing_workgroup {w : ValueId} (h : instr m j = workgroupCode extents w) : Passing m j := by
  refine passing_of_check checkWorkgroup (congrArg name h) rfl rfl ?_
  have hops : (m.op j).operands = [] := congrArg operands h
  rw [checkWorkgroup, operandTypes, hops, resultTypes_of_instr h]
  rfl

structure SectionTyped (m : Program) (extents ds : List Int) (k : Nat) (w : ValueId) (s : Section) : Prop where
  planned : Planned m extents ds k s
  shared : Shared ds extents k
  grid : Grid extents
  workgroup : m.typeOf w = .workgroup extents
  shape : m.typeOf s.shape = .tensor s.shapeType
  reshaped : m.typeOf s.reshaped = .tensor s.reshapedType
  buffer : m.typeOf s.buffer = s.plan.bufferType

namespace SectionTyped

variable {ds : List Int} {k : Nat} {w : ValueId} {s : Section} (h : SectionTyped m extents ds k w s)
include h

theorem rank : (s.plan.reshaped.length : Int) < 9223372036854775808 ∧ 0 < s.plan.reshaped.length := by
  obtain ⟨e, -, hplan⟩ := h.planned
  have hlen : s.plan.reshaped.length = extents.length + (shareDims k).length := by rw [hplan, length_append]
  have hshare : (shareDims k).length ≤ 1 := by
    unfold shareDims
    split <;> simp
  have haxes := h.grid.axes
  have hpos := length_pos_of_ne_nil h.grid.nonempty
  rw [capacity] at haxes
  omega

theorem passing_constant (hj : instr m j =
    { name := Arith.constantName
      attrs := [(Arith.valueAttr, .dense (some s.shapeType) (s.plan.reshaped.map Float.ofInt))]
      results := [(s.shape, .tensor s.shapeType)] }) : Passing m j := by
  refine passing_of_check Arith.checkConstant (congrArg name hj) rfl rfl ?_
  have hops : (m.op j).operands = [] := congrArg operands hj
  have hattr : (m.op j).attr? Arith.valueAttr = some (.dense (some s.shapeType) (s.plan.reshaped.map Float.ofInt)) := by
    rw [Op.attr?, show (m.op j).attrs = _ from congrArg attrs hj, lookup_cons_self]
  have hsize : s.shapeType.size = s.plan.reshaped.length := by
    have hpos : ∀ d ∈ s.shapeType.dims, 0 < d := by simpa [Section.shapeType] using h.rank.2
    rw [Shape.size, Word.product_eq hpos (by simpa [Section.shapeType] using h.rank.1)]
    simp [Section.shapeType]
  simp only [Arith.checkConstant, hops, resultTypes_of_instr hj, hattr, map_cons, map_nil, ne_eq,
    not_true_eq_false, if_false, hsize, length_map]

theorem passing_reshape (hj : instr m j =
    { name := Views.reshapeName
      operands := [s.plan.operand, some s.shape]
      results := [(s.reshaped, .tensor s.reshapedType)] }) : Passing m j := by
  refine passing_of_check Views.checkReshape (congrArg name hj) rfl rfl ?_
  obtain ⟨e, hty, hplan⟩ := h.planned
  have hops : (m.op j).operands.filterMap m.slotType? = [.tensor ⟨e, ds⟩, .tensor s.shapeType] := by
    rw [show (m.op j).operands = _ from congrArg operands hj, filterMap_cons_some hty]
    simp [slotType?, h.shape]
  have hsize : Shape.size ⟨e, extents ++ shareDims k⟩ = Shape.size ⟨e, ds⟩ := by
    rw [Shape.size, Shape.size, Word.product_eq h.shared.dimPos h.shared.small,
      Word.product_eq h.shared.reshaped.dimPos h.shared.reshaped.small, h.shared.reshaped.prod, h.shared.prod]
  have htype : s.reshapedType = ⟨e, extents ++ shareDims k⟩ := by rw [Section.reshapedType, hplan]
  have hshape : s.shapeType = ⟨.int64, [((extents ++ shareDims k).length : Int)]⟩ := by
    rw [Section.shapeType, hplan]
  simp only [Views.checkReshape, hops, resultTypes_of_instr hj, map_cons, map_nil, Views.checkReshapeTypes,
    htype, hshape, ne_eq, not_true_eq_false, if_false, hsize, Shape.rank, if_true]

theorem passing_alloc (hj : instr m j =
    { name := allocName, operands := [some w], results := [(s.buffer, s.plan.bufferType)] }) :
    Passing m j := by
  refine passing_of_check checkAlloc (congrArg name hj) rfl rfl ?_
  obtain ⟨e, -, hplan⟩ := h.planned
  have hops : operandTypes m j = [.workgroup extents] := by
    rw [operandTypes, show (m.op j).operands = _ from congrArg operands hj]
    simp [slotType?, h.workgroup]
  have hbuffer : s.plan.bufferType = .buffer ⟨e, shareDims k⟩ extents 0 := by rw [Plan.bufferType, hplan]
  rw [checkAlloc, hops, resultTypes_of_instr hj]
  simp only [map_cons, map_nil, hbuffer, extentsOf, perWorkerOf]
  exact except_bind_ok.mpr ⟨extents, rfl, by rw [if_pos rfl]; rfl⟩

theorem passing_scatter (hj : instr m j =
    { name := scatterName
      operands := [some s.reshaped, some s.buffer, some w]
      attrs := [(scatterMapAttr, .map s.plan.map)] }) : Passing m j := by
  refine passing_of_check checkScatter (congrArg name hj) rfl rfl ?_
  obtain ⟨e, -, hplan⟩ := h.planned
  have hbuffer : s.plan.bufferType = .buffer ⟨e, shareDims k⟩ extents 0 := by rw [Plan.bufferType, hplan]
  have htype : s.reshapedType = ⟨e, extents ++ shareDims k⟩ := by rw [Section.reshapedType, hplan]
  have hops : operandTypes m j =
      [.tensor ⟨e, extents ++ shareDims k⟩, .buffer ⟨e, shareDims k⟩ extents 0, .workgroup extents] := by
    rw [operandTypes, show (m.op j).operands = _ from congrArg operands hj]
    simp [slotType?, h.workgroup, h.reshaped, h.buffer, hbuffer, htype]
  have hattr : (m.op j).attr? scatterMapAttr = some (.map (transferMap extents)) := by
    rw [Op.attr?, show (m.op j).attrs = _ from congrArg attrs hj, lookup_cons_self, Plan.map, hplan]
  rw [checkScatter, hops, resultTypes_of_instr hj]
  refine except_bind_ok.mpr ⟨extents, rfl, except_bind_ok.mpr ⟨(), h.shared.reshaped.checkTransfer e 0, ?_⟩⟩
  rw [hattr, checkMap_transferMap]

theorem passing_code (hj : instr m j ∈ s.code w) : Passing m j := by
  simp only [Section.code, mem_cons, not_mem_nil, or_false] at hj
  rcases hj with hj | hj | hj | hj
  · exact h.passing_constant hj
  · exact h.passing_reshape hj
  · exact h.passing_alloc hj
  · exact h.passing_scatter hj

theorem passing_gather {g : Collected} {e : ElementType} (he : m.slotType? s.plan.operand = some (.tensor ⟨e, ds⟩))
    (hg : g.shape = ⟨e, ds⟩) (hj : instr m j = gatherCode w s g) : Passing m j := by
  refine passing_of_check checkGather (congrArg name hj) rfl rfl ?_
  obtain ⟨e', he', hplan⟩ := h.planned
  obtain rfl : e = e' := by
    rw [he] at he'
    exact congrArg Shape.element (Ty.tensor.inj (Option.some.inj he'))
  have hbuffer : s.plan.bufferType = .buffer ⟨e, shareDims k⟩ extents 0 := by rw [Plan.bufferType, hplan]
  have hops : operandTypes m j = [.buffer ⟨e, shareDims k⟩ extents 0, .workgroup extents] := by
    rw [operandTypes, show (m.op j).operands = _ from congrArg operands hj]
    simp [gatherCode, slotType?, h.workgroup, h.buffer, hbuffer]
  have hattr : (m.op j).attr? gatherMapAttr = some (.map (transferMap extents)) := by
    rw [Op.attr?, show (m.op j).attrs = _ from congrArg attrs hj, gatherCode, lookup_cons_self, Plan.map, hplan]
  rw [checkGather, hops, resultTypes_of_instr hj]
  simp only [gatherCode, map_cons, map_nil]
  refine except_bind_ok.mpr ⟨extents, rfl, except_bind_ok.mpr ⟨(), by
    rw [hg]; exact h.shared.checkTransfer e 0, ?_⟩⟩
  rw [if_pos trivial, hattr]
  exact checkMap_transferMap extents

end SectionTyped

/-! ## Around the launch -/

namespace Lowered

variable (h : Lowered i b place extents x t m) (wf : t.WellFormed)
    (hp : Portions sel t i n dims axes extents rows width)
include h

theorem typeOf_workgroup : m.typeOf x.workgroup = .workgroup extents :=
  typeOf_of_code h.head mem_cons_self (mem_singleton.mpr rfl)

theorem typeOf_section (hs : s ∈ x.sections)
    (hv : (v, ty) ∈ [(s.shape, Ty.tensor s.shapeType), (s.reshaped, .tensor s.reshapedType),
      (s.buffer, s.plan.bufferType)]) :
    m.typeOf v = ty := by
  rw [← s.code_results x.workgroup] at hv
  obtain ⟨y, hy, hv⟩ := mem_flatMap.mp hv
  exact typeOf_of_code h.head (mem_cons_of_mem _ (mem_flatMap.mpr ⟨s, hs, hy⟩)) hv

include wf hp

omit hp in
theorem slotType?_operand (hs : s ∈ x.sections) : m.slotType? s.plan.operand = t.slotType? s.plan.operand := by
  obtain ⟨slot, hslot, hplan⟩ := forall₂_mem_right h.plans hs
  obtain ⟨v, -, rfl, -, hop, -⟩ := planOperand_ok hplan
  refine h.later.slotType? fun u hu => wf.hasValue_operand (i := i) ?_
  rwa [← hu, hop]

theorem sectionTyped (hs : s ∈ x.sections) (hsh : Shared ds extents k)
    (hplan : Planned t extents ds k s) : SectionTyped m extents ds k x.workgroup s where
  planned := by
    obtain ⟨e, he, hplan⟩ := hplan
    exact ⟨e, by rw [h.slotType?_operand wf hs, he], hplan⟩
  shared := hsh
  grid := hp.grid.toGrid
  workgroup := h.typeOf_workgroup
  shape := h.typeOf_section hs (by simp)
  reshaped := h.typeOf_section hs (by simp)
  buffer := h.typeOf_section hs (by simp)

theorem passing_head : ∀ j ∈ x.head, Passing m j := by
  intro j hj
  have hmem : instr m j ∈ headCode extents x.workgroup x.sections := by
    rw [← h.head]
    exact mem_map_of_mem hj
  rcases mem_cons.mp hmem with hmem | hmem
  · exact passing_workgroup hmem
  · obtain ⟨s, hs, hmem⟩ := mem_flatMap.mp hmem
    obtain ⟨ds, k, hsh, hplan⟩ := h.planned hp s hs
    exact (h.sectionTyped wf hp hs hsh hplan).passing_code hmem

theorem passing_tail : ∀ j ∈ x.tail, Passing m j := by
  intro j hj
  have hmem : instr m j ∈ x.tailCode := by
    rw [← h.tail]
    exact mem_map_of_mem hj
  obtain ⟨k, hk⟩ := getElem?_of_mem hmem
  obtain ⟨s, g, hs, hg, hcode⟩ := getElem?_zipWith_eq_some.mp hk
  rw [h.inputs_eq hp] at hs
  have hsd := mem_of_getElem? hs
  have hsm := mem_of_mem_drop hsd
  have hplan := h.inits_planned hp s hsd
  -- the result has the type of the init that the section is for
  obtain ⟨e, he, hsp⟩ := hplan
  refine (h.sectionTyped wf hp hsm hp.inits_shared ⟨e, he, hsp⟩).passing_gather
    (by rw [h.slotType?_operand wf hsm, he]) ?_ hcode.symm
  obtain ⟨slot, hslot, hrel⟩ := exists_getElem?_of_forall₂ (forall₂_drop n h.plans) hs
  obtain ⟨v, -, hsv, -, hop, -⟩ := planOperand_ok hrel
  have hty : t.slotType? slot = some (.tensor ⟨e, Reduction.keptDims dims axes⟩) := by rw [hsv, ← hop, he]
  have hres := congrArg (·[k]?) hp.results
  simp only [getElem?_map, hslot, Option.map_some, hty, resultTypes] at hres
  obtain ⟨_, hr, hr'⟩ := Option.map_eq_some_iff.mp hres
  obtain ⟨r, hrk, rfl⟩ := Option.map_eq_some_iff.mp hr
  rw [(show Alongside (t.op i).results x.outs r g from ⟨k, hrk, hg⟩).rel h.outs] at hr'
  exact Ty.tensor.inj (Option.some.inj hr')

omit h wf hp in
theorem checkParameters_sections : ∀ {sections : List Section} (index : Nat),
    (∀ s ∈ sections, s.plan.extents = extents) → checkParameters extents index
      ((sections.map fun s => s.plan.bufferType).zip (sections.map fun s => .memref s.plan.buffer)) = .ok ()
  | [], _, _ => rfl
  | s :: sections, index, hs => by
    have hs' : s.plan.extents = extents := hs s mem_cons_self
    rw [map_cons, map_cons, zip_cons_cons, checkParameters, Plan.bufferType, hs']
    simp only [perWorkerOf, if_true]
    exact checkParameters_sections (index + 1) fun s' hm => hs s' (mem_cons_of_mem _ hm)

omit wf hp in
theorem last_body : m.last? x.block = some x.body.last := by
  rw [last?, h.body.list, Body.ops]
  simp

omit wf hp in
theorem passing_last : Passing m x.body.last where
  last _ := (isLast_iff (h.parent_of_body (by simp [Body.ops])).1).mpr h.last_body
  check := by
    rw [checkKind, show (m.op x.body.last).name = terminatorName from congrArg name h.body.last]
    rfl

omit wf in
theorem passing_launch : Passing m x.launch := by
  refine passing_of_check checkLaunch (congrArg name h.launch) rfl rfl ?_
  have hops : operandTypes m x.launch = .workgroup extents :: x.sections.map fun s => s.plan.bufferType := by
    rw [operandTypes, show (m.op x.launch).operands = _ from congrArg operands h.launch, launchCode,
      filterMap_cons_some (show m.slotType? (some x.workgroup) = some (.workgroup extents) by
        rw [slotType?, Option.map_some, h.typeOf_workgroup]), filterMap_map]
    congr 1
    rw [← filterMap_eq_map]
    refine filterMap_congr fun s hs => congrArg some ?_
    exact h.typeOf_section hs (by simp)
  have hextents : ∀ s ∈ x.sections, s.plan.extents = extents := by
    intro s hs
    obtain ⟨_, _, -, e, -, hplan⟩ := h.planned hp s hs
    rw [hplan]
  have hname : (m.op x.body.last).name = terminatorName := congrArg name h.body.last
  rw [checkLaunch, hops]
  simp only [h.region, head?_cons, h.argTypes, length_map, if_true, h.last_body, Option.map_some, hname]
  exact except_bind_ok.mpr ⟨extents, rfl, except_bind_ok.mpr
    ⟨(), mapError_ok.mpr (checkParameters_sections 0 hextents), rfl⟩⟩

end Lowered

/-! ## In the launch -/

namespace Looks

variable {inputs seen : List ValueId} {xs : List Instr}

theorem typeOf_seen {view : View} (h : Looks m inputs view seen xs) (hjs : js.map (instr m) = xs)
    (hin : ∀ v ∈ inputs, ∃ e, m.typeOf v = .memref ⟨e, shareDims k⟩) : seen.length = inputs.length ∧
      ∀ v ∈ seen, ∃ e, m.typeOf v = .memref ⟨e, view.seenDims k⟩ := by
  cases h with
  | elementwise => exact ⟨rfl, hin⟩
  | row => exact ⟨rfl, hin⟩
  | @rows count length ys heq _ =>
    refine ⟨by rw [heq, length_map, length_map], fun v hv => ?_⟩
    obtain ⟨y, hy, rfl⟩ := mem_map.mp hv
    exact ⟨y.element, typeOf_of_code hjs (mem_map_of_mem hy) (mem_singleton.mpr rfl)⟩

theorem passing (h : Looks m inputs (View.of rows width) seen xs) (hs : Shared ds extents (rows * width))
    (hin : ∀ v ∈ inputs, ∃ e, m.typeOf v = .memref ⟨e, shareDims (rows * width)⟩) (hj : instr m j ∈ xs) :
      Passing m j := by
  generalize hview : View.of rows width = view at h
  cases h with
  | elementwise => cases hj
  | row => cases hj
  | @rows count length ys heq htypes =>
    obtain ⟨y, hy, hyj⟩ := mem_map.mp hj
    obtain ⟨e, he⟩ := hin y.arg (heq ▸ mem_map_of_mem hy)
    obtain ⟨s, hsy, hse⟩ := htypes y hy
    obtain rfl : s = ⟨e, shareDims (rows * width)⟩ := Ty.memref.inj (hsy.symm.trans he)
    obtain ⟨rfl, rfl⟩ : count = rows ∧ length = width := by
      unfold View.of at hview
      split at hview
      · cases hview
      · split at hview
        · cases hview
        · obtain ⟨hc, hl⟩ := View.rows.inj hview
          exact ⟨hc.symm, hl.symm⟩
    obtain rfl : e = y.element := hse
    have hpos : 0 < rows * width := Int.natCast_pos.mp hs.share_pos
    have hdims : ∀ d ∈ [(rows : Int), (width : Int)], 0 < d := by
      have hrows : 0 < rows := Nat.pos_of_ne_zero fun hz => by simp [hz] at hpos
      have hwidth : 0 < width := Nat.pos_of_ne_zero fun hz => by simp [hz] at hpos
      simpa using ⟨hrows, hwidth⟩
    have hprod : [(rows : Int), (width : Int)].prod = ((rows * width : Nat) : Int) := by simp
    have hsize : Shape.size ⟨y.element, [(rows : Int), (width : Int)]⟩ =
      Shape.size ⟨y.element, shareDims (rows * width)⟩ := by
      rw [hs.size_share, Shape.size, Word.product_eq hdims (by rw [hprod]; exact hs.layout.block_small), hprod]
    have hrank : (shareDims (rows * width)).length ≤ 1 := by
      unfold shareDims
      split <;> simp
    refine passing_of_check Views.checkExpand (congrArg name hyj.symm) rfl rfl ?_
    have hops : (m.op j).operands.filterMap m.slotType? = [.memref ⟨y.element, shareDims (rows * width)⟩] := by
      rw [show (m.op j).operands = _ from congrArg operands hyj.symm]
      simp [Expanded.code, slotType?, he]
    rw [Views.checkExpand, hops, resultTypes_of_instr hyj.symm]
    simp only [Expanded.code, map_cons, map_nil, Views.checkExpandTypes, hsize, ne_eq, not_true_eq_false,
      or_self, if_false, Shape.rank]
    exact if_neg (by simp only [length_cons, length_nil]; omega)

end Looks

namespace Lowered

variable (h : Lowered i b place extents x t m) (wf : t.WellFormed)
    (hp : Portions sel t i n dims axes extents rows width)
include h hp

theorem view_eq : x.body.view = View.of rows width := by
  obtain ⟨s, hs, hview⟩ := h.body.view
  obtain ⟨e, he⟩ := hp.head
  rw [h.inputs_eq hp] at hs
  obtain rfl := Ty.tensor.inj (Option.mem_unique hs he)
  rw [hp.dimensions, hp.view_eq] at hview
  exact (Except.ok.inj hview).symm

omit hp in
theorem length_args : (m.block x.block).args.length = (t.op i).operands.length := by
  have := congrArg List.length h.argTypes
  rw [Program.argTypes, length_map, length_map] at this
  rw [this, h.plans.length_eq]

theorem typeOf_inputs : ∀ v ∈ (m.block x.block).args.take n, ∃ e, m.typeOf v =
    .memref ⟨e, shareDims (rows * width)⟩ := by
  intro v hv
  have hargs : ((m.block x.block).args.take n).map m.typeOf = (x.sections.take n).map fun s =>
    .memref s.plan.buffer := by
    rw [map_take, ← Program.argTypes, h.argTypes, map_take]
  obtain ⟨s, hs, heq⟩ := exists_of_map_eq hargs hv
  obtain ⟨e, -, hplan⟩ := h.inputs_planned hp s hs
  exact ⟨e, by rw [heq, hplan]⟩

theorem typeOf_inits : ∀ v ∈ (m.block x.block).args.drop n, ∃ e, m.typeOf v =
    .memref ⟨e, shareDims rows⟩ := by
  intro v hv
  have hargs : ((m.block x.block).args.drop n).map m.typeOf = (x.sections.drop n).map fun s =>
    .memref s.plan.buffer := by
    rw [map_drop, ← Program.argTypes, h.argTypes, map_drop]
  obtain ⟨s, hs, heq⟩ := exists_of_map_eq hargs hv
  obtain ⟨e, -, hplan⟩ := h.inits_planned hp s hs
  exact ⟨e, by rw [heq, hplan]⟩

theorem looks : Looks m ((m.block x.block).args.take n) (View.of rows width) x.body.seen x.body.expands := by
  rw [← h.view_eq hp, ← h.inputs_eq hp]
  exact h.body.looks

theorem passing_views : ∀ j ∈ x.body.views, Passing m j := by
  intro j hj
  refine (h.looks hp).passing hp.inputs_shared (h.typeOf_inputs hp) ?_
  rw [← h.body.views]
  exact mem_map_of_mem hj

theorem typeOf_seen : x.body.seen.length = n ∧
    ∀ v ∈ x.body.seen, ∃ e, m.typeOf v = .memref ⟨e, (View.of rows width).seenDims (rows * width)⟩ := by
  obtain ⟨hlen, htypes⟩ := (h.looks hp).typeOf_seen h.body.views (h.typeOf_inputs hp)
  refine ⟨?_, htypes⟩
  rw [hlen, length_take, h.length_args, Nat.min_eq_left (inputCount_le hp.count)]

theorem operandTypes_inner : (m.op x.body.inner).operands.filterMap m.slotType? =
    (x.body.seen ++ (m.block x.block).args.drop n).map m.typeOf := by
  have hcode : (m.op x.body.inner).operands = (x.body.seen ++ (m.block x.block).args.drop n).map some := by
    rw [show (m.op x.body.inner).operands = _ from congrArg operands h.body.inner, reduceCode, h.inputs_eq hp,
      map_append]
  rw [hcode, filterMap_map, ← filterMap_eq_map]
  rfl

theorem fitting_inner : ∃ shapes, Reduction.Fitting ((m.op x.body.inner).operands.filterMap m.slotType?)
    (m.resultTypes x.body.inner) n x.body.view.axes shapes := by
  obtain ⟨hlen, hseen⟩ := h.typeOf_seen hp
  obtain ⟨haxes, hkept⟩ := View.of_fits rows width
  have hinits := h.typeOf_inits hp
  have hpos := hp.some_inputs
  let shapeOf (v : ValueId) : Shape := (m.typeOf v).shape?.getD default
  have hops := h.operandTypes_inner hp
  have hmem : ∀ v ∈ x.body.seen ++ (m.block x.block).args.drop n, m.typeOf v = .memref (shapeOf v) := by
    intro v hv
    rcases mem_append.mp hv with hv | hv
    · obtain ⟨e, he⟩ := hseen v hv
      simp only [shapeOf, he, Ty.shape?, Option.getD_some]
    · obtain ⟨e, he⟩ := hinits v hv
      simp only [shapeOf, he, Ty.shape?, Option.getD_some]
  have hseenDims : ∀ v ∈ x.body.seen, (shapeOf v).dims = (View.of rows width).seenDims (rows * width) := by
    intro v hv
    obtain ⟨e, he⟩ := hseen v hv
    simp only [shapeOf, he, Ty.shape?, Option.getD_some]
  obtain ⟨v₀, vs, hvs⟩ : ∃ v₀ vs, x.body.seen = v₀ :: vs := by
    cases hvs : x.body.seen with
    | nil => rw [hvs, length_nil] at hlen; omega
    | cons v₀ vs => exact ⟨v₀, vs, rfl⟩
  have hhead : (((x.body.seen ++ (m.block x.block).args.drop n).map shapeOf).headD default).dims =
      (View.of rows width).seenDims (rows * width) := by
    rw [hvs]
    exact hseenDims v₀ (by simp [hvs])
  have htake : ((x.body.seen ++ (m.block x.block).args.drop n).map shapeOf).take n = x.body.seen.map shapeOf := by
    rw [map_append, take_append_of_le_length (by simp [hlen]), take_of_length_le (by simp [hlen])]
  have hdrop : ((x.body.seen ++ (m.block x.block).args.drop n).map shapeOf).drop n =
      ((m.block x.block).args.drop n).map shapeOf := by
    rw [map_append, drop_left' (by simp [hlen])]
  refine ⟨(x.body.seen ++ (m.block x.block).args.drop n).map shapeOf, ?_, ?_, ?_, ?_, ?_⟩
  · rw [hops, map_map, map_map]
    exact map_congr_left fun v hv => by rw [Function.comp_apply, hmem v hv]; rfl
  · intro s hs
    rw [htake] at hs
    obtain ⟨v, hv, rfl⟩ := mem_map.mp hs
    rw [hhead, hseenDims v hv]
  · rw [Shape.rank, hhead, h.view_eq hp]
    exact haxes
  · intro s hs
    rw [hdrop] at hs
    obtain ⟨v, hv, rfl⟩ := mem_map.mp hs
    obtain ⟨e, he⟩ := hinits v hv
    rw [hhead, h.view_eq hp, hkept]
    simp only [shapeOf, he, Ty.shape?, Option.getD_some]
  · have hnot : ¬ ((m.op x.body.inner).operands.filterMap m.slotType?).all Ty.isTensor = true := by
      rw [hops, hvs, cons_append, map_cons, all_cons, hmem v₀ (by simp [hvs])]
      simp [Ty.isTensor]
    rw [if_neg hnot, resultTypes_of_instr h.body.inner]
    rfl

end Lowered

end Distribution

end Offload
