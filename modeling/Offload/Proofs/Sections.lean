import Offload.Distribution.Lowering
import Offload.Proofs.Progress
import Offload.Proofs.Verified

/-!
# The code around a launch

What the builders of a distribution write: a section of code for every operand, the view of a worker on its
inputs, and the gathering of the results.
-/

namespace Offload.Distribution

open Program Build Workgroup List Reduction

variable {dims : List Int} {p : Program} {plan : Plan} {s : Slot} {v : ValueId}

structure Section where
  plan : Plan
  shape : ValueId
  reshaped : ValueId
  buffer : ValueId

def workgroupCode (extents : List Int) (workgroup : ValueId) : Instr :=
  { name := workgroupName, results := [(workgroup, .workgroup extents)] }

def Section.shapeType (s : Section) : Shape := ⟨.int64, [s.plan.reshaped.length]⟩

def Section.reshapedType (s : Section) : Shape := ⟨s.plan.source.element, s.plan.reshaped⟩

def Section.code (workgroup : ValueId) (s : Section) : List Instr :=
  [{ name := Arith.constantName
     attrs := [(Arith.valueAttr, .dense (some s.shapeType) (s.plan.reshaped.map Float.ofInt))]
     results := [(s.shape, .tensor s.shapeType)] },
   { name := Views.reshapeName
     operands := [s.plan.operand, some s.shape]
     results := [(s.reshaped, .tensor s.reshapedType)] },
   { name := allocName
     operands := [some workgroup]
     results := [(s.buffer, s.plan.bufferType)] },
   { name := scatterName
     operands := [some s.reshaped, some s.buffer, some workgroup]
     attrs := [(scatterMapAttr, .map s.plan.map)] }]

def launchCode (workgroup : ValueId) (sections : List Section) : Instr :=
  { name := launchName, operands := some workgroup :: sections.map fun s => some s.buffer }

structure Expanded where
  arg : ValueId
  element : ElementType
  value : ValueId

def Expanded.code (dims : List Int) (x : Expanded) : Instr :=
  { name := Views.expandName, operands := [some x.arg], results := [(x.value, .memref ⟨x.element, dims⟩)] }

def View.axes : View → List Int
  | elementwise => []
  | row => [0]
  | rows _ _ => [1]

inductive Looks (p : Program) (inputs : List ValueId) : View → List ValueId → List Instr → Prop
  | elementwise : Looks p inputs .elementwise inputs []
  | row : Looks p inputs .row inputs []
  | rows {count length : Int} {xs : List Expanded} : inputs = xs.map Expanded.arg →
      (∀ x ∈ xs, ∃ s, p.typeOf x.arg = .memref s ∧ s.element = x.element) →
      Looks p inputs (.rows count length) (xs.map Expanded.value) (xs.map (Expanded.code [count, length]))

def reduceCode (inputs inits : List ValueId) (axes : List Int) : Instr :=
  { name := reduceName
    attrs := [(dimensionsAttr, .ints axes), (segmentsAttr, .ints [inputs.length, inits.length])]
    operands := inputs.map some ++ inits.map some }

def terminatorCode : Instr := { name := terminatorName }

structure Collected where
  shape : Shape
  value : ValueId
  token : ValueId

def gatherCode (workgroup : ValueId) (s : Section) (g : Collected) : Instr :=
  { name := gatherName
    operands := [some s.buffer, some workgroup]
    results := [(g.value, .tensor g.shape), (g.token, .token)]
    attrs := [(gatherMapAttr, .map s.plan.map)] }

variable {T : Prop} {b : BlockId} {c : Construction} {w : ValueId} {extents : List Int}

theorem make_ok {e : ElementType} {s : Shape} :
    Fault.ofShape (Shape.make e dims) = .ok s ↔ dims.all (0 < ·) = true ∧ s = ⟨e, dims⟩ := by
  rw [Fault.ofShape, mapError_ok, Shape.make]
  cases dims.all (0 < ·) with
  | false => simp
  | true => simp [eq_comm]

theorem planOperand_ok (h : planOperand p s extents = .ok plan) :
    ∃ v t, s = some v ∧ p.typeOf v = .tensor t ∧ plan.operand = some v ∧ plan.source = t ∧
      plan.extents = extents ∧ plan.buffer.element = t.element ∧
      computeShapes t.dims extents = .ok (plan.reshaped, plan.buffer.dims) ∧
        plan.buffer.dims.all (0 < ·) = true := by
  unfold planOperand at h
  cases s with
  | none => simp [slotType?] at h
  | some v =>
    cases ht : p.typeOf v with
    | tensor t =>
      simp only [slotType?, Option.map_some, ht, except_bind_ok, make_ok, except_pure_ok] at h
      obtain ⟨⟨dims, per⟩, hc, _, ⟨hpos, rfl⟩, rfl⟩ := h
      exact ⟨v, t, rfl, ht, rfl, rfl, rfl, rfl, hc, hpos⟩
    | _ => simp [slotType?, ht] at h

theorem planOperand_congr {p q : Program} (h : q.slotType? s = p.slotType? s) :
    planOperand q s extents = planOperand p s extents := by
  rw [planOperand, planOperand, h]

/-! ## Single operations -/

theorem create_gives {s : Edit.Spec} (n : Nat) (ts : List Ty) (hs : Stands b c) (hn : s.regions = n)
    (hroom : checkLength n = .ok n) (hts : s.results = ts.map some) (habs : .absent ∉ ts)
    (hname : s.name.toList.contains '.' = true) (hv : ∀ x ∈ s.operands, ∃ v, x = some v ∧
      c.program.HasValue v) :
    Gives T (fun j => Wrote b n [j] [s.code ((Edit.freshValues c.program ts.length).zip ts)] c)
      (Build.create s) c := by
  obtain ⟨hnone, hval⟩ := filled_slots hv
  refine ⟨fun j c' h => ?_, fun _ => Build.create_succeeds hs.block hs.place hname hval hnone hts habs
    (by rw [hn, hroom])⟩
  obtain ⟨us, hus, hw⟩ := wrote_create hs hn hval h
  obtain rfl := map_some_inj (hts.symm.trans hus)
  exact hw

theorem resultOf_wrote {j : OpId} {n k : Nat} {x : Instr} {c' : Construction}
    (h : Wrote b n [j] [x] c c') (hv : (x.results.map Prod.fst)[k]? = some v) : resultOf j k c' = .ok v c' := by
  refine resultOf_ok.mpr ⟨?_, rfl⟩
  rw [← hv, ← singleton_inj.mp h.code]
  simp [instr, Function.comp_def]

theorem createValue_gives {s : Edit.Spec} {t : Ty} (hs : Stands b c) (hn : s.regions = 0) (hr : s.results = [some t])
    (ht : t ≠ .absent) (hname : s.name.toList.contains '.' = true)
    (hv : ∀ x ∈ s.operands, ∃ v, x = some v ∧ c.program.HasValue v) :
    Gives T (fun v c' => ∃ j, Wrote b 0 [j] [s.code [(v, t)]] c c') (Build.createValue s) c :=
  (create_gives 0 [t] hs hn rfl hr (by simp [Ne.symm ht]) hname hv).bind fun j _ hw =>
    .of_ok (resultOf_wrote hw (v := ⟨c.program.values.size⟩) (by simp [Edit.Spec.code, Edit.freshValues]))
      ⟨j, by simpa [Edit.freshValues] using hw⟩

theorem newWorkgroup_gives (hs : Stands b c) :
    Gives T (fun w c' => ∃ j, Wrote b 0 [j] [workgroupCode extents w] c c') (newWorkgroup extents) c :=
  (createValue_gives hs rfl rfl (by simp) (by dsimp only; decide) (by simp)).weaken fun _ _ h => h

theorem constantShape_gives (hs : Stands b c) (hT : T → dims ≠ [] ∧ (dims.length : Int) < 9223372036854775808) :
    Gives T (fun v c' => ∃ j, Wrote b 0 [j] [{ name := Arith.constantName
                                               attrs := [(Arith.valueAttr,
                                                 .dense (some ⟨.int64, [dims.length]⟩) (dims.map Float.ofInt))]
                                               results := [(v, .tensor ⟨.int64, [dims.length]⟩)] }] c c')
      (Arith.constantShape dims) c := by
  rw [Arith.constantShape]
  split
  · exact .stop fun h => (hT h).1 (by simpa using ‹dims.isEmpty = true›)
  rw [Arith.constant]
  split
  · exact (createValue_gives hs rfl rfl (by simp) (by dsimp only; decide) (by simp)).weaken fun _ _ h => h
  · refine .stop fun h => absurd ?_ ‹¬ _ = _›
    rw [length_map, Shape.size, Word.product, foldl_cons, foldl_nil, Word.mul, Int.one_mul,
      Word.wrap_of_inRange ⟨by omega, (hT h).2⟩]

theorem reshape_gives (hs : Stands b c) (hv : c.program.HasValue v)
    (hT : T → (∃ t, c.program.typeOf v = .tensor t) ∧ dims.all (0 < ·) = true ∧ dims ≠ [] ∧
      (dims.length : Int) < 9223372036854775808) :
    Gives T (fun u c' => ∃ t, c.program.typeOf v = .tensor t ∧ ∃ js x, Wrote b 0 js
      [{ name := Arith.constantName
         attrs := [(Arith.valueAttr, .dense (some ⟨.int64, [dims.length]⟩) (dims.map Float.ofInt))]
         results := [(x, .tensor ⟨.int64, [dims.length]⟩)] },
       { name := Views.reshapeName
         operands := [some v, some x]
         results := [(u, .tensor ⟨t.element, dims⟩)] }] c c') (Views.reshape (some v) dims) c := by
  rw [Views.reshape]
  refine .step (typeOf_ok.mpr ⟨rfl, rfl⟩) ?_
  cases ht : c.program.typeOf v with
  | tensor t =>
    refine (constantShape_gives hs fun h => (hT h).2.2).bind fun x d hx => ?_
    obtain ⟨j, hj⟩ := hx
    refine (except_gives fun h => ⟨_, make_ok.mpr ⟨(hT h).2.1, rfl⟩⟩).bind fun S d' hS => ?_
    obtain ⟨hS, rfl⟩ := hS
    obtain ⟨-, rfl⟩ := make_ok.mp hS
    have hx := (hj.result hs.wellFormed (mem_singleton.mpr rfl) (mem_singleton.mpr rfl)).1
    refine (createValue_gives (hj.stands hs) rfl rfl (by simp) (by dsimp only; decide)
      (by simp [hj.later.hasValue hv, hx])).weaken
      fun u e hu => ?_
    obtain ⟨k, hk⟩ := hu
    exact ⟨t, rfl, [j] ++ [k], x, hj.trans hk⟩
  | _ => exact .throw fun h => by simp [ht] at hT; exact hT h

theorem computeShapes_ok {reshaped perWorker : List Int}
    (h : computeShapes dims extents = .ok (reshaped, perWorker)) :
    workers extents ≠ 0 ∧ Word.rem (Word.product dims) (workers extents) = 0 ∧
      reshaped = extents ++ perWorker ∧ perWorker =
        if Word.quot (Word.product dims) (workers extents) = 1 then []
        else [Word.quot (Word.product dims) (workers extents)] := by
  rw [computeShapes] at h
  split at h
  · cases h
  · rename_i hw
    split at h
    · cases h
    · rename_i hrem
      refine ⟨hw, by simpa using hrem, ?_⟩
      simp only [Except.ok.injEq] at h
      split at h
      · rename_i hone
        cases h
        simp [hone]
      · rename_i hone
        cases h
        simp [hone]

structure Grid (extents : List Int) : Prop where
  nonempty : extents ≠ []
  positive : ∀ e ∈ extents, 0 < e
  axes : (extents.length : Int) < capacity

theorem scatterOperand_gives (hs : Stands b c) (hw : c.program.HasValue w)
    (hp : planOperand c.program plan.operand extents = .ok plan)
    (hv : ∀ v, plan.operand = some v → c.program.HasValue v) (hT : T → Grid extents) :
    Gives T (fun v c' => ∃ s : Section, s.plan = plan ∧ s.buffer = v ∧ ∃ js, Wrote b 0 js (s.code w) c c')
      (scatterOperand plan w) c := by
  obtain ⟨v, t, hop, ht, -, hsrc, hext, -, hshapes, hpos⟩ := planOperand_ok hp
  obtain ⟨-, -, hre, hper⟩ := computeShapes_ok hshapes
  rw [scatterOperand, hop]
  refine (reshape_gives hs (hv v hop) fun h => ⟨⟨t, ht⟩, ?_, ?_, ?_⟩).bind fun x d hx => ?_
  · rw [hre, all_append, hpos, Bool.and_true, all_eq_true]
    exact fun e he => by simpa using (hT h).positive e he
  · rw [hre]
    simp [(hT h).nonempty]
  · have := (hT h).axes
    have hle : plan.buffer.dims.length ≤ 1 := by
      rw [hper]
      split <;> simp
    simp only [hre, length_append, capacity] at *
    omega
  obtain ⟨S, hS, js, u, hjs⟩ := hx
  have hx := (hjs.result hs.wellFormed (mem_cons_of_mem _ (mem_singleton.mpr rfl)) (mem_singleton.mpr rfl)).1
  refine (createValue_gives (hjs.stands hs) rfl rfl (by simp [Plan.bufferType]) (by dsimp only; decide)
    (by simpa using hjs.later.hasValue hw)).bind fun y e hy => ?_
  obtain ⟨k, hk⟩ := hy
  have hy := (hk.result (hjs.stands hs).wellFormed (mem_singleton.mpr rfl) (mem_singleton.mpr rfl)).1
  have hjk := hjs.trans hk
  refine (Gives.discard ((create_gives 0 [] (hjk.stands hs) rfl rfl rfl (by simp) (by dsimp only; decide)
    (by simp [hy, hk.later.hasValue hx, hjk.later.hasValue hw])).weaken
    (P := fun _ c' => ∃ s : Section, s.plan = plan ∧ s.buffer = y ∧ ∃ js, Wrote b 0 js (s.code w) c c')
    fun l f hl => ?_)).bind fun _ f hf => .pure hf
  obtain rfl : plan.source = S := by
    rw [hsrc]
    exact Ty.tensor.inj (ht.symm.trans hS)
  have hcode := hjk.trans hl
  rw [← hop] at hcode
  exact ⟨⟨plan, u, x, y⟩, rfl, rfl, _, hcode⟩

theorem scatterOperands_gives : ∀ {ss : List Slot} {c : Construction}, Stands b c → c.program.HasValue w →
    (∀ v, some v ∈ ss → c.program.HasValue v) →
    (T → Grid extents ∧ ∀ s ∈ ss, ∃ plan, planOperand c.program s extents = .ok plan) →
      Gives T (fun out c' => ∃ sections : List Section, out = sections.map (fun s => (s.plan, s.buffer)) ∧
        Forall₂ (fun s x => planOperand c.program s extents = .ok x.plan) ss sections ∧
        ∃ js, Wrote b 0 js (sections.flatMap (Section.code w)) c c') (scatterOperands extents w ss) c
  | [], c, hs, _, _, _ => .pure ⟨[], rfl, .nil, [], .refl b 0 hs.wellFormed⟩
  | s :: ss, c, hs, hw, hv, hT => by
    rw [scatterOperands]
    refine .step (program_ok.mpr ⟨rfl, rfl⟩) ?_
    refine (except_gives fun h => (hT h).2 s (by simp)).bind fun plan _ hp => ?_
    obtain ⟨hp, rfl⟩ := hp
    obtain ⟨u, -, rfl, -, hop, -⟩ := planOperand_ok hp
    refine (scatterOperand_gives hs hw (hop ▸ hp) (fun v' hv' => hv v' (by simp [← hv', hop]))
      fun h => (hT h).1).bind fun v d hd => ?_
    obtain ⟨x, rfl, rfl, js, hjs⟩ := hd
    have hcongr : ∀ s ∈ ss, planOperand d.program s extents = planOperand _ s extents := fun s hs' =>
      planOperand_congr (hjs.later.slotType? fun v hsv => hv v (mem_cons_of_mem _ (hsv ▸ hs')))
    refine (scatterOperands_gives (hjs.stands hs) (hjs.later.hasValue hw)
      (fun v' hv' => hjs.later.hasValue (hv v' (mem_cons_of_mem _ hv'))) fun h => ⟨(hT h).1, fun s hs' => ?_⟩).bind
      fun rest e he => .pure ?_
    · rw [hcongr s hs']
      exact (hT h).2 s (mem_cons_of_mem _ hs')
    obtain ⟨xs, rfl, hxs, ks, hks⟩ := he
    exact ⟨x :: xs, rfl, .cons hp (forall₂_imp_of_mem hxs fun s hs' y _ hy => hcongr s hs' ▸ hy), js ++ ks,
      by simpa using hjs.trans hks⟩

theorem expand_gives (hs : Stands b c) (hv : c.program.HasValue v)
    (hT : T → dims.all (0 < ·) = true ∧ ∃ s, c.program.typeOf v = .memref s) :
    Gives T (fun u c' => ∃ s j, c.program.typeOf v = .memref s ∧
      Wrote b 0 [j] [Expanded.code dims ⟨v, s.element, u⟩] c c') (Views.expand (some v) dims) c := by
  rw [Views.expand]
  refine .step (typeOf_ok.mpr ⟨rfl, rfl⟩) ?_
  cases ht : c.program.typeOf v with
  | memref s =>
    refine (except_gives fun h => ⟨_, make_ok.mpr ⟨(hT h).1, rfl⟩⟩).bind fun S d hS => ?_
    obtain ⟨hS, rfl⟩ := hS
    obtain ⟨-, rfl⟩ := make_ok.mp hS
    refine (createValue_gives hs rfl rfl (by simp) (by dsimp only; decide) (by simpa using hv)).weaken fun u e hu => ?_
    obtain ⟨j, hj⟩ := hu
    exact ⟨s, j, rfl, hj⟩
  | _ => exact .throw fun h => by simp [ht] at hT; exact hT h

theorem expandAll_gives : ∀ {vs : List ValueId} {c : Construction}, Stands b c →
    (∀ v ∈ vs, c.program.HasValue v) →
    (T → dims.all (0 < ·) = true ∧ ∀ v ∈ vs, ∃ s, c.program.typeOf v = .memref s) →
      Gives T (fun us c' => ∃ xs : List Expanded, vs = xs.map Expanded.arg ∧ us = xs.map Expanded.value ∧
        (∀ x ∈ xs, ∃ s, c.program.typeOf x.arg = .memref s ∧ s.element = x.element) ∧
        ∃ js, Wrote b 0 js (xs.map (Expanded.code dims)) c c') (vs.mapM fun v => Views.expand (some v) dims) c
  | [], c, hs, _, _ => by
    rw [mapM_nil]
    exact .pure ⟨[], rfl, rfl, by simp, [], .refl b 0 hs.wellFormed⟩
  | v :: vs, c, hs, hv, hT => by
    rw [mapM_cons]
    refine (expand_gives hs (hv v (by simp)) fun h => ⟨(hT h).1, (hT h).2 v (by simp)⟩).bind fun u d hu => ?_
    obtain ⟨s, j, ht, hj⟩ := hu
    have htype : ∀ v ∈ vs, d.program.typeOf v = c.program.typeOf v := fun v hv' =>
      hj.later.typeOf (hv v (mem_cons_of_mem _ hv'))
    refine (expandAll_gives (hj.stands hs) (fun v' hv' => hj.later.hasValue (hv v' (mem_cons_of_mem _ hv')))
      fun h => ⟨(hT h).1, fun v' hv' => ?_⟩).bind fun us e hus => .pure ?_
    · rw [htype v' hv']
      exact (hT h).2 v' (mem_cons_of_mem _ hv')
    obtain ⟨xs, rfl, rfl, hxs, js, hjs⟩ := hus
    refine ⟨⟨v, s.element, u⟩ :: xs, rfl, rfl, ?_, [j] ++ js, hj.trans hjs⟩
    intro x hx
    rcases mem_cons.mp hx with rfl | hx
    · exact ⟨s, ht, rfl⟩
    · rw [← htype x.arg (mem_map_of_mem hx)]
      exact hxs x hx

def View.Proper : View → Prop
  | elementwise => True
  | row => True
  | rows count length => 0 < count ∧ 0 < length

theorem viewApply_gives {view : View} {vs : List ValueId} (hs : Stands b c) (hv : ∀ v ∈ vs, c.program.HasValue v)
    (hT : T → view.Proper ∧ ∀ v ∈ vs, ∃ s, c.program.typeOf v = .memref s) :
    Gives T (fun x c' => x.2 = view.axes ∧ ∃ js xs, Looks c.program vs view x.1 xs ∧ Wrote b 0 js xs c c')
      (view.apply vs) c := by
  cases view with
  | elementwise => exact .pure ⟨rfl, [], [], .elementwise, .refl b 0 hs.wellFormed⟩
  | row => exact .pure ⟨rfl, [], [], .row, .refl b 0 hs.wellFormed⟩
  | rows count length =>
    refine (expandAll_gives hs hv fun h => ⟨?_, (hT h).2⟩).bind fun us c' hus => .pure ?_
    · simp [(hT h).1.1, (hT h).1.2]
    obtain ⟨xs, rfl, rfl, hxs, js, hjs⟩ := hus
    exact ⟨rfl, js, _, .rows rfl hxs, hjs⟩

theorem resultTypesOf_memory : ∀ {vs : List ValueId}, (∀ v ∈ vs, (c.program.typeOf v).isTensor = false) →
    resultTypesOf (vs.map some) c = .ok [] c
  | [], _ => rfl
  | v :: vs, h => by
    rw [map_cons, resultTypesOf, bind_of_ok (typeOf_ok.mpr ⟨rfl, rfl⟩),
      bind_of_ok (resultTypesOf_memory fun v' hv' => h v' (mem_cons_of_mem _ hv')), h v (by simp)]
    rfl

theorem reduce_gives {inputs inits : List ValueId} {axes : List Int} (hs : Stands b c)
    (hv : ∀ v ∈ inputs ++ inits, c.program.HasValue v) (hm : ∀ v ∈ inits,
      (c.program.typeOf v).isTensor = false) :
    Gives T (fun j => Wrote b 1 [j] [reduceCode inputs inits axes] c)
      (reduce (inputs.map some) (inits.map some) axes none) c := by
  rw [reduce]
  refine .step (resultTypesOf_memory hm) ((create_gives 1 [] hs rfl rfl rfl (by simp) (by dsimp only; decide) ?_).bind
    fun j d hj => .pure (by simpa [Edit.Spec.code, reduceCode] using hj))
  intro x hx
  simp only [← map_append] at hx
  obtain ⟨v, hv', rfl⟩ := mem_map.mp hx
  exact ⟨v, rfl, hv v hv'⟩

theorem terminator_gives (hs : Stands b c) :
    Gives T (fun j => Wrote b 0 [j] [terminatorCode] c) terminator c :=
  (create_gives 0 [] hs rfl rfl rfl (by simp) (by dsimp only; decide) (by simp)).weaken fun _ _ h => h

theorem gatherResults_gives : ∀ {rs : List ValueId} {sections : List Section} {c : Construction}, Stands b c →
    c.program.HasValue w → (∀ s ∈ sections, c.program.HasValue s.buffer) →
      (∀ r ∈ rs, c.program.HasValue r) →
    (T → rs.length ≤ sections.length ∧ ∀ r ∈ rs, ∃ s, c.program.typeOf r = .tensor s) →
      Gives T (fun vs c' => ∃ outs : List Collected, vs = outs.map Collected.value ∧
        outs.length ≤ sections.length ∧ Forall₂ (fun r g => c.program.typeOf r = .tensor g.shape) rs outs ∧
        ∃ js, Wrote b 0 js (List.zipWith (gatherCode w) sections outs) c c')
        (gatherResults w rs (sections.map fun s => (s.plan, s.buffer))) c
  | [], sections, c, hs, _, _, _, _ =>
    .pure ⟨[], rfl, Nat.zero_le _, .nil, [], by simpa using Wrote.refl b 0 hs.wellFormed⟩
  | r :: rs, [], c, _, _, _, _, hT => .throw fun h => by simpa using (hT h).1
  | r :: rs, s :: sections, c, hs, hw, hb, hr, hT => by
    rw [map_cons, gatherResults]
    refine .step (program_ok.mpr ⟨rfl, rfl⟩) ?_
    cases ht : c.program.typeOf r with
    | tensor t =>
      refine (create_gives 0 [.tensor t, .token] hs rfl rfl rfl (by simp) (by dsimp only; decide)
        (by simp [hb s (by simp), hw])).bind
        fun j d hwr => .step (resultOf_wrote hwr (v := ⟨c.program.values.size⟩)
          (by simp [Edit.Spec.code, Edit.freshValues])) ?_
      have htype : ∀ r ∈ rs, d.program.typeOf r = c.program.typeOf r := fun r hr' =>
        hwr.later.typeOf (hr r (mem_cons_of_mem _ hr'))
      refine (gatherResults_gives (hwr.stands hs) (hwr.later.hasValue hw)
        (fun s' hs' => hwr.later.hasValue (hb s' (mem_cons_of_mem _ hs')))
        (fun r' hr' => hwr.later.hasValue (hr r' (mem_cons_of_mem _ hr')))
        fun h => ⟨Nat.le_of_succ_le_succ (hT h).1, fun r' hr' => ?_⟩).bind fun vs e hvs => .pure ?_
      · rw [htype r' hr']
        exact (hT h).2 r' (mem_cons_of_mem _ hr')
      obtain ⟨outs, rfl, hlen, houts, js, hjs⟩ := hvs
      exact ⟨⟨t, ⟨c.program.values.size⟩, ⟨c.program.values.size + 1⟩⟩ :: outs, rfl,
        Nat.succ_le_succ hlen,
        .cons ht (forall₂_imp_of_mem houts fun r' hr' g _ hg => htype r' hr' ▸ hg), [j] ++ js, hwr.trans hjs⟩
    | _ => exact .throw fun h => by simpa [ht] using (hT h).2 r (by simp)

end Offload.Distribution
