import Offload.Proofs.Launches

/-!
# A distributed reduction

What a distribution writes before the reduction, as a whole: the sections of the operands, the launch with its
body, and the gathering of the results.
-/

namespace Offload.Distribution

open Program Build List Reduction

variable {bs : List BlockId} {head l r : List OpId} {root : OpId} {sections : List Section}
variable {b : BlockId} {c c' d e : Construction} {w : ValueId} {extents : List Int} {i : OpId}

theorem toAfter_ok {j : OpId} {u : Unit} : toAfter j c = .ok u c' ↔ ∃ b place, (c.program.op j).block = some b ∧
    (c.program.block b).ops.idxOf? j = some place ∧
      c' = { c with builder := { c.builder with block := some b, place := place + 1 } } := by
  simp only [toAfter, bind_ok, liftEdit_ok, Edit.getOp_ok]
  constructor
  · rintro ⟨_, _, ⟨_, ⟨rfl, rfl⟩, rfl⟩, h⟩
    cases hb : (c.program.op j).block with
    | none => simp [hb] at h
    | some b =>
      simp only [hb, bind_ok, liftEdit_ok, setPoint_ok, Edit.placeIn_ok] at h
      obtain ⟨n, _, ⟨_, ⟨hn, rfl⟩, rfl⟩, rfl⟩ := h
      exact ⟨b, n, rfl, hn, rfl⟩
  · rintro ⟨b, n, hb, hn, rfl⟩
    refine ⟨_, c, ⟨_, ⟨rfl, rfl⟩, rfl⟩, ?_⟩
    simp only [hb, bind_ok, liftEdit_ok, setPoint_ok, Edit.placeIn_ok]
    exact ⟨n, c, ⟨_, ⟨hn, rfl⟩, rfl⟩, rfl⟩

/-! ## What is written -/

structure Lowering where
  workgroup : ValueId
  sections : List Section
  head : List OpId
  launch : OpId
  block : BlockId
  body : Body
  tail : List OpId
  outs : List Collected

def headCode (extents : List Int) (w : ValueId) (sections : List Section) : List Instr :=
  workgroupCode extents w :: sections.flatMap (Section.code w)

theorem Section.code_results (s : Section) (w : ValueId) : (s.code w).flatMap Instr.results =
    [(s.shape, .tensor s.shapeType), (s.reshaped, .tensor s.reshapedType), (s.buffer, s.plan.bufferType)] := rfl

namespace Lowering

variable (x : Lowering)

def ops : List OpId := x.head ++ x.launch :: x.tail

def created : List OpId := x.head ++ x.launch :: (x.body.ops ++ x.tail)

def tailCode : List Instr := List.zipWith (gatherCode x.workgroup) (x.sections.drop x.body.inputs) x.outs

end Lowering

structure Lowered (i : OpId) (b : BlockId) (place : Nat) (extents : List Int) (x : Lowering)
    (t m : Program) : Prop where
  wellFormed : m.WellFormed
  later : Later (fun _ => False) (· = b) t m
  list : ∀ l r, (t.block b).ops = l ++ r → place = l.length → (m.block b).ops = l ++ x.ops ++ r
  new : ∀ j ∈ x.ops ++ x.body.ops, ¬ t.HasOp j
  head : x.head.map (instr m) = headCode extents x.workgroup x.sections
  launch : instr m x.launch = launchCode x.workgroup x.sections
  tail : x.tail.map (instr m) = x.tailCode
  flat : ∀ j ∈ x.head ++ x.tail, (m.op j).regions = []
  region : (m.op x.launch).regions = [[x.block]]
  newBlock : ¬ t.HasBlock x.block
  argTypes : m.argTypes x.block = x.sections.map fun s => .memref s.plan.buffer
  newArgs : ∀ v ∈ (m.block x.block).args, ¬ t.HasValue v
  plans : Forall₂ (fun s x => planOperand t s extents = .ok x.plan) (t.op i).operands x.sections
  outs : Forall₂ (fun r g => t.typeOf r = .tensor g.shape) (t.op i).results x.outs
  room : x.outs.length ≤ (x.sections.drop x.body.inputs).length
  body : BodyBuilt i x.block extents x.body t m
  grown : Grown t.HasValue t m

/-! ## Up to the body -/

structure Launched (i : OpId) (b : BlockId) (extents : List Int) (w : ValueId) (sections : List Section)
    (head : List OpId) (launch : OpId) (block : BlockId) (c d e : Construction) (q : Program) : Prop where
  plans : Forall₂ (fun s x => planOperand c.program s extents = .ok x.plan) (c.program.op i).operands sections
  header : Wrote b 0 head (headCode extents w sections) c d
  entry : Wrote b 1 [launch] [launchCode w sections] d { e with program := q }
  opened : Edit.NewBlock launch 0 (sections.map fun s => .memref s.plan.buffer) block q e.program

theorem header_fresh (wf : c.program.WellFormed)
    (h : Wrote b 0 head (headCode extents w sections) c d) : ¬ c.program.HasValue w ∧ d.program.HasValue w ∧
      ∀ s ∈ sections, ¬ c.program.HasValue s.shape ∧ ¬ c.program.HasValue s.reshaped ∧
        ¬ c.program.HasValue s.buffer ∧
      d.program.HasValue s.buffer ∧ d.program.typeOf s.buffer = s.plan.bufferType := by
  have hres : ∀ x ∈ headCode extents w sections, ∀ v t, (v, t) ∈ x.results →
      d.program.HasValue v ∧ d.program.typeOf v = t ∧ ¬ c.program.HasValue v := fun x hx v t hv =>
        h.result wf hx hv
  have hw := hres _ mem_cons_self w _ (mem_singleton.mpr rfl)
  refine ⟨hw.2.2, hw.1, fun s hs => ?_⟩
  have hval : ∀ v t, (v, t) ∈ [(s.shape, Ty.tensor s.shapeType), (s.reshaped, .tensor s.reshapedType),
      (s.buffer, s.plan.bufferType)] → d.program.HasValue v ∧ d.program.typeOf v = t ∧
        ¬ c.program.HasValue v := by
    intro v t hv
    rw [← s.code_results w] at hv
    obtain ⟨x, hx, hv⟩ := mem_flatMap.mp hv
    exact hres x (mem_cons_of_mem _ (mem_flatMap.mpr ⟨s, hs, hx⟩)) v t hv
  have hbuf := hval s.buffer s.plan.bufferType (by simp)
  exact ⟨(hval s.shape (.tensor s.shapeType) (by simp)).2.2, (hval s.reshaped (.tensor s.reshapedType) (by simp)).2.2,
    hbuf.2.2, hbuf.1, hbuf.2.1⟩

namespace Launched

variable {sections : List Section} {head : List OpId} {launch : OpId} {block : BlockId} {q : Program}
  (h : Launched i b extents w sections head launch block c d e q)
include h

theorem wellFormed : e.program.WellFormed := h.opened.wellFormed h.entry.wellFormed

theorem laterLaunch : Later (fun _ => False) (· = b) d.program e.program :=
  h.entry.later.trans h.opened.later
    (fun _ hj hji => (h.entry.new launch (mem_singleton.mpr rfl)).1 (hji ▸ hj)) fun _ _ hf => hf.elim

theorem later : Later (fun _ => False) (· = b) c.program e.program :=
  h.header.later.trans h.laterLaunch (fun _ _ hf => hf) fun _ _ hc => hc

theorem list (hops : (c.program.block b).ops = l ++ r) (hplace : c.builder.place = l.length) :
    (e.program.block b).ops = l ++ head ++ launch :: r := by
  obtain ⟨hops1, hplace1⟩ := h.header.spot l r hops hplace
  obtain ⟨hops2, -⟩ := h.entry.spot _ r hops1 hplace1
  rw [h.opened.list b, hops2]
  simp

theorem new : ∀ j ∈ head ++ [launch], ¬ c.program.HasOp j ∧ e.program.HasOp j := by
  intro j hj
  rcases mem_append.mp hj with hj | hj
  · exact ⟨(h.header.new j hj).1, h.laterLaunch.hasOp (h.header.new j hj).2⟩
  · obtain ⟨hd, hq⟩ := h.entry.new j hj
    exact ⟨fun hc => hd (h.header.later.hasOp hc), h.opened.later.hasOp hq⟩

theorem home : (e.program.op launch).block = some b := by
  rw [h.opened.op_eq launch]
  exact h.entry.home launch (mem_singleton.mpr rfl)

theorem newBlock : ¬ c.program.HasBlock block ∧ e.program.HasBlock block :=
  ⟨fun hc => h.opened.not_hasBlock (h.entry.later.hasBlock (h.header.later.hasBlock hc)),
    h.opened.hasBlock.mpr (.inr rfl)⟩

theorem region : (e.program.op launch).regions = [[block]] := by
  rw [h.opened.self, h.entry.regions launch (mem_singleton.mpr rfl)]
  rfl

theorem newArgs : ∀ v ∈ (e.program.block block).args, ¬ q.HasValue v := by
  intro v hv
  rw [h.opened.here] at hv
  obtain ⟨k, hk⟩ := getElem?_of_mem hv
  obtain ⟨-, rfl⟩ := Edit.getElem?_freshValues.mp hk
  exact Nat.not_lt.mpr (Nat.le_add_right _ _)

theorem memory : ∀ v ∈ (e.program.block block).args, ∃ s, e.program.typeOf v = .memref s := by
  intro v hv
  have ht : e.program.typeOf v ∈ e.program.argTypes block := mem_map_of_mem hv
  rw [h.opened.argTypes] at ht
  obtain ⟨s, -, hs⟩ := mem_map.mp ht
  exact ⟨_, hs.symm⟩

theorem not_mem_operands (wf : c.program.WellFormed) {v : ValueId} (hv : c.program.HasValue v)
    (hu : c.program.Unused v) :
    ∀ x ∈ headCode extents w sections ++ [launchCode w sections], some v ∉ x.operands := by
  obtain ⟨hw, -, hs⟩ := header_fresh wf h.header
  have hvw : v ≠ w := fun heq => hw (heq ▸ hv)
  have hbuf : ∀ s ∈ sections, v ≠ s.buffer := fun s hs' heq => (hs s hs').2.2.1 (heq ▸ hv)
  intro x hx hmem
  simp only [headCode, cons_append, mem_cons, mem_append, mem_flatMap, not_mem_nil,
    or_false] at hx
  rcases hx with rfl | ⟨s, hs', hx⟩ | rfl
  · cases hmem
  · have hplan : some v ≠ s.plan.operand := by
      intro heq
      obtain ⟨o, ho, hp⟩ := forall₂_mem_right h.plans hs'
      obtain ⟨u, -, rfl, -, hop, -⟩ := planOperand_ok hp
      rw [hop, Option.some.injEq] at heq
      exact hu i (heq ▸ ho)
    have hshape : v ≠ s.shape := fun heq => (hs s hs').1 (heq ▸ hv)
    have hresh : v ≠ s.reshaped := fun heq => (hs s hs').2.1 (heq ▸ hv)
    simp only [Section.code, mem_cons, not_mem_nil, or_false] at hx
    rcases hx with rfl | rfl | rfl | rfl
    all_goals simp [hvw, hplan, hshape, hresh, hbuf s hs'] at hmem
  · simp only [launchCode, mem_cons, Option.some.injEq, hvw, mem_map, false_or] at hmem
    obtain ⟨s, hs', heq⟩ := hmem
    exact hbuf s hs' heq.symm

theorem grown (wf : c.program.WellFormed) :
    Grown (fun v => c.program.HasValue v ∧ c.program.Unused v) c.program e.program := by
  refine ((h.header.grown.mono fun v hv x hx => ?_).trans h.entry.grown fun v hv x hx => ?_).trans
    (h.opened.grown fun _ => True) fun _ _ => trivial
  · exact h.not_mem_operands wf hv.1 hv.2 x (mem_append_left _ hx)
  · exact h.not_mem_operands wf hv.1 hv.2 x (mem_append_right _ hx)

theorem buildable {r : Registry} (hs : Stands b c) (hi : c.program.HasOp i)
    (hout : ¬ c.program.Within i (c.program.block b).owner) (hbs : (c.program.op i).regions[0]? = some bs)
    (hsees : ∀ x, c.program.Within i x → x ≠ i → ∀ s ∈ (c.program.op x).operands,
      ∃ v, s = some v ∧ Visible r c.program root v x) : Buildable r root i block bs e.program := by
  have hsub : ∀ d, c.program.HasBlock d → (c.program.block d).ops.Sublist (e.program.block d).ops := by
    intro d hd
    by_cases hdb : d = b
    · have hlist := h.list (take_append_drop c.builder.place _).symm
        (by rw [length_take, Nat.min_eq_left hs.place])
      rw [hdb, hlist]
      conv_lhs => rw [← take_append_drop c.builder.place (c.program.block b).ops]
      exact (sublist_append_left _ _).append (sublist_cons_self _ _)
    · rw [h.later.list d hd hdb]
  refine ⟨h.wellFormed, h.later.hasOp hi, h.newBlock.2, by rw [h.opened.here], ?_, fun v hv => ?_,
    by rw [h.later.op i hi id, hbs], h.later.sees hs.wellFormed (fun _ hY => hY) h.wellFormed hi hout hsub hsees⟩
  · rw [h.opened.here]
    exact h.later.outside hs.wellFormed hi hs.hasBlock hout (h.new launch (by simp)).1 h.home
  · obtain ⟨s, hs⟩ := h.memory v hv
    rw [hs]
    rfl

end Launched

/-! ## From the body on -/

theorem idxOf?_append_cons {α : Type} [DecidableEq α] {a : α} {l : List α} (r : List α) (h : a ∉ l) :
    (l ++ a :: r).idxOf? a = some l.length := by
  have hl : l.findIdx? (· == a) = none :=
    findIdx?_eq_none_iff.mpr fun x hx => beq_eq_false_iff_ne.mpr fun heq => h (heq ▸ hx)
  rw [List.idxOf?, findIdx?_append, hl, findIdx?_cons]
  simp

def behind (b : BlockId) (place : Nat) (c : Construction) : Construction :=
  { c with builder := { c.builder with block := some b, place } }

namespace Launched

variable {sections : List Section} {head tail : List OpId} {launch : OpId} {block : BlockId} {q : Program}
    {f : Construction}
  {x : Body} {outs : List Collected} (h : Launched i b extents w sections head launch block c d e q) (hs : Stands b c)
  (hx : BodyAdded i block extents x e.program f.program)
include h

include hs in
theorem ne_block : b ≠ block := fun heq => h.newBlock.1 (heq ▸ hs.hasBlock)

include hx

theorem laterBody : Later (fun _ => False) (· = b) c.program f.program :=
  h.later.trans hx.later (fun _ _ hf => hf) fun _ hd heq => absurd hd (heq ▸ h.newBlock.1)

include hs

theorem listBody (hops : (c.program.block b).ops = l ++ r) (hplace : c.builder.place = l.length) :
    (f.program.block b).ops = l ++ head ++ launch :: r := by
  rw [hx.later.list b (h.later.hasBlock hs.hasBlock) (h.ne_block hs), h.list hops hplace]

theorem toAfter (hops : (c.program.block b).ops = l ++ r) (hplace : c.builder.place = l.length) :
    Build.toAfter launch f = .ok () (behind b ((l ++ head).length + 1) f) := by
  have hlist := h.listBody hs hx hops hplace
  refine toAfter_ok.mpr ⟨b, (l ++ head).length, ?_, ?_, rfl⟩
  · rw [hx.later.op launch (h.new launch (by simp)).2 id, h.home]
  · rw [hlist]
    refine idxOf?_append_cons r fun hmem => ?_
    have hn := hx.wellFormed.once b
    rw [hlist] at hn
    exact (nodup_append.mp hn).2.2 _ hmem _ mem_cons_self rfl

theorem standsBehind (hops : (c.program.block b).ops = l ++ r) (hplace : c.builder.place = l.length) :
    Stands b (behind b ((l ++ head).length + 1) f) := by
  refine ⟨hx.wellFormed, (h.laterBody hx).hasBlock hs.hasBlock, rfl, ?_⟩
  show (l ++ head).length + 1 ≤ (f.program.block b).ops.length
  rw [h.listBody hs hx hops hplace]
  simp only [length_append, length_cons]
  omega

theorem gathered : f.program.HasValue w ∧ ∀ s ∈ sections, f.program.HasValue s.buffer := by
  obtain ⟨-, hw, hsec⟩ := header_fresh hs.wellFormed h.header
  exact ⟨hx.later.hasValue (h.laterLaunch.hasValue hw),
    fun s hs' => hx.later.hasValue (h.laterLaunch.hasValue (hsec s hs').2.2.2.1)⟩

theorem lowered (hi : c.program.HasOp i) (hout : ¬ c.program.Within i (c.program.block b).owner)
    (hops : (c.program.block b).ops = l ++ r) (hplace : c.builder.place = l.length)
    (houts : Forall₂ (fun r g => c.program.typeOf r = .tensor g.shape) (c.program.op i).results outs)
    (hroom : outs.length ≤ (sections.drop x.inputs).length)
    (ht : Wrote b 0 tail (List.zipWith (gatherCode w) (sections.drop x.inputs) outs)
      (behind b ((l ++ head).length + 1) f) c') :
    Lowered i b c.builder.place extents ⟨w, sections, head, launch, block, x, tail, outs⟩ c.program c'.program := by
  have hf : Later (fun _ => False) (· = b) f.program c'.program := ht.later
  have hcf := h.laterBody hx
  have hB : f.program.HasBlock block := hx.later.hasBlock h.newBlock.2
  have hne := h.ne_block hs
  have hef : ∀ j ∈ head ++ [launch], c'.program.op j = e.program.op j := fun j hj => by
    rw [hf.op j (hx.later.hasOp (h.new j hj).2) id, hx.later.op j (h.new j hj).2 id]
  have hcode : ∀ j ∈ head ++ [launch], instr c'.program j = instr e.program j := fun j hj => by
    rw [hf.instr_eq hx.wellFormed (hx.later.hasOp (h.new j hj).2) id, hx.later.instr_eq h.wellFormed (h.new j hj).2 id]
  have hargs : (c'.program.block block).args = (e.program.block block).args := by
    rw [hf.block_eq hB hne.symm, hx.later.block block h.newBlock.2]
  have hbody : BodyBuilt i block extents x e.program c'.program :=
    hx.toBodyBuilt.next hx.wellFormed hB hf (h.later.hasBlock hs.hasBlock) hne.symm
  refine ⟨ht.wellFormed, hcf.trans hf (fun _ _ hf => hf) fun _ _ hc => hc, ?_, ?_, ?_, ?_, ht.code, ?_, ?_,
    h.newBlock.1, ?_, ?_, h.plans, houts, hroom, hbody.of_later hs.wellFormed hi hout h.later, ?_⟩
  · intro l' r' hops' hplace'
    obtain ⟨rfl, rfl⟩ := append_inj (hops.symm.trans hops') (hplace.symm.trans hplace')
    obtain ⟨hlist, -⟩ := ht.spot (l ++ head ++ [launch]) r
      (by rw [show (behind b _ f).program = f.program from rfl, h.listBody hs hx hops hplace]; simp)
      (by simp [behind, Nat.add_assoc])
    rw [hlist]
    simp [Lowering.ops]
  · intro j hj hold
    simp only [Lowering.ops, append_assoc, cons_append, mem_append, mem_cons] at hj
    rcases hj with hj | rfl | hj | hj
    · exact (h.new j (by simp [hj])).1 hold
    · exact (h.new j (by simp)).1 hold
    · exact (ht.new j hj).1 (hcf.hasOp hold)
    · exact hx.new j hj (h.later.hasOp hold)
  · rw [← h.header.code]
    refine map_congr_left fun j hj => ?_
    rw [hcode j (by simp [hj]), h.laterLaunch.instr_eq h.header.wellFormed (h.header.new j hj).2 id]
  · rw [hcode launch (by simp), ← singleton_inj.mp h.entry.code]
    simp only [instr, h.opened.self]
    congr 1
    exact map_congr_left fun v hv => by rw [h.opened.later.typeOf (h.entry.wellFormed.hasValue_result hv)]
  · intro j hj
    rcases mem_append.mp hj with hj | hj
    · rw [hef j (by simp [hj]), h.laterLaunch.op j (h.header.new j hj).2 id]
      exact h.header.regions j hj
    · exact ht.regions j hj
  · rw [hef launch (by simp), h.region]
  · rw [argTypes, hargs, ← h.opened.argTypes]
    exact map_congr_left fun v hv => by
      have hv' := h.wellFormed.hasValue_argument hv
      rw [hf.typeOf (hx.later.hasValue hv'), hx.later.typeOf hv']
  · intro v hv hold
    rw [hargs] at hv
    exact h.newArgs v hv (h.entry.later.hasValue (h.header.later.hasValue hold))
  · have hg := ((h.grown hs.wellFormed).trans hx.grown fun v hv => ⟨h.later.hasValue hv.1, fun hmem =>
      h.newArgs v hmem (h.entry.later.hasValue (h.header.later.hasValue hv.1))⟩).trans ht.grown fun v hv y hy => ?_
    · exact ⟨fun v hv hu => hg.unused v ⟨hv, hu⟩ hu, hg.creatable⟩
    obtain ⟨k, hk⟩ := getElem?_of_mem hy
    obtain ⟨s, g, hsec, -, rfl⟩ := getElem?_zipWith_eq_some.mp hk
    have hmem := mem_of_mem_drop (mem_of_getElem? hsec)
    obtain ⟨hw, -, hfresh⟩ := header_fresh hs.wellFormed h.header
    have hvw : v ≠ w := fun heq => hw (heq ▸ hv.1)
    have hvb : v ≠ s.buffer := fun heq => (hfresh s hmem).2.2.1 (heq ▸ hv.1)
    simp [gatherCode, hvw, hvb]

end Launched

/-! ## The whole -/

theorem header_buffered (hs : Stands b c)
    (h : Wrote b 0 head (headCode extents w sections) c d) : d.program.HasValue w ∧ Buffered sections d.program := by
  obtain ⟨-, hw, hsec⟩ := header_fresh hs.wellFormed h
  exact ⟨hw, fun s hs' => (hsec s hs').2.2.2⟩

structure Distributable (i : OpId) (extents : List Int) (p : Program) : Prop where
  grid : Grid extents
  plans : ∀ s ∈ (p.op i).operands, ∃ plan, planOperand p s extents = .ok plan
  view : ∃ n s view, inputCount p i = .ok n ∧ n + (p.op i).results.length ≤ (p.op i).operands.length ∧
    ((p.op i).operands.take n).head?.bind p.slotType? = some (.tensor s) ∧
    viewOf s (dimensions p i) extents = .ok view ∧ view.Proper
  results : ∀ r ∈ (p.op i).results, ∃ s, p.typeOf r = .tensor s

theorem lowerReduction_gives {T : Prop} {r : Registry} (hs : Stands b c)
    (hi : c.program.HasOp i) (hout : ¬ c.program.Within i (c.program.block b).owner)
    (hbs : (c.program.op i).regions[0]? = some bs)
    (hsees : ∀ x, c.program.Within i x → x ≠ i → ∀ s ∈ (c.program.op x).operands,
      ∃ v, s = some v ∧ Visible r c.program root v x)
    (hT : T → c.program.Creatable ∧ Distributable i extents c.program) :
    Gives T (fun vs c' => ∃ x, Lowered i b c.builder.place extents x c.program c'.program ∧
      vs = x.outs.map Collected.value ∧ c'.created = c.created ++ x.created) (lowerReduction i extents) c := by
  have hval : ∀ v, some v ∈ (c.program.op i).operands → c.program.HasValue v := fun v hv =>
    hs.wellFormed.hasValue_operand hv
  rw [lowerReduction]
  refine (newWorkgroup_gives hs).bind fun w c1 hw => ?_
  obtain ⟨j, hj⟩ := hw
  obtain ⟨hwv, -⟩ := hj.result hs.wellFormed (mem_singleton.mpr rfl) (mem_singleton.mpr rfl)
  have hplan : ∀ s ∈ (c.program.op i).operands, planOperand c1.program s extents =
    planOperand c.program s extents :=
    fun s hs' => planOperand_congr (hj.later.slotType? fun v hv => hval v (hv ▸ hs'))
  refine .step (liftEdit_ok.mpr ⟨_, Edit.getOp_ok.mpr ⟨rfl, rfl⟩, rfl⟩) ?_
  rw [hj.later.op i hi id]
  refine (scatterOperands_gives (hj.stands hs) hwv (fun v hv => hj.later.hasValue (hval v hv)) fun h =>
    ⟨(hT h).2.grid, fun s hs' => ?_⟩).bind fun buffers d hd => ?_
  · rw [hplan s hs']
    exact (hT h).2.plans s hs'
  obtain ⟨sections, rfl, hplans, js, hjs⟩ := hd
  have hhead : Wrote b 0 ([j] ++ js) (headCode extents w sections) c d := hj.trans hjs
  obtain ⟨hwv, hbuf⟩ := header_buffered hs hhead
  rw [map_map]
  refine (launch_gives (hhead.stands hs) hwv hbuf).bind fun lb e hl => ?_
  obtain ⟨launch, block⟩ := lb
  obtain ⟨q, hq, hnew⟩ := hl
  have hln : Launched i b extents w sections ([j] ++ js) launch block c d e q :=
    ⟨forall₂_imp_of_mem hplans fun s hs' x _ hp => hplan s hs' ▸ hp, hhead, hq, hnew⟩
  have hope : e.program.op i = c.program.op i := hln.later.op i hi id
  refine (buildBody_gives (hln.buildable hs hi hout hbs hsees) fun h =>
    ⟨(hln.grown hs.wellFormed).creatable (hT h).1, ?_, hln.memory⟩).bind fun _ f hf => ?_
  · obtain ⟨n, s, view, hn, -, hhd, hv, hproper⟩ := (hT h).2.view
    refine ⟨n, s, view, by rw [inputCount_congr hope, hn], ?_, by rw [dimensions, hope]; exact hv, hproper⟩
    rw [hope, ← hhd]
    cases hh : ((c.program.op i).operands.take n).head? with
    | none => rfl
    | some y => exact hln.later.slotType? fun v hv' => hval v (hv' ▸ mem_of_mem_take (mem_of_head? hh))
  obtain ⟨x, hx, hcr⟩ := hf
  have hops := (take_append_drop c.builder.place (c.program.block b).ops).symm
  have hplace : c.builder.place = ((c.program.block b).ops.take c.builder.place).length := by
    rw [length_take, Nat.min_eq_left hs.place]
  have hcf := hln.laterBody hx
  have hop : f.program.op i = c.program.op i := hcf.op i hi id
  have hn : inputCount c.program i = .ok x.inputs := by rw [← inputCount_congr hope, hx.inputs]
  refine .step (hln.toAfter hs hx hops hplace) (.step (program_ok.mpr ⟨rfl, rfl⟩) ?_)
  refine .step (liftExcept_ok.mpr ⟨(inputCount_congr hop).trans hn, rfl⟩) ?_
  refine .step (liftEdit_ok.mpr ⟨_, Edit.getOp_ok.mpr ⟨rfl, rfl⟩, rfl⟩) ?_
  rw [show (behind b _ f).program.op i = c.program.op i from hop, ← map_drop]
  obtain ⟨hwf, hbuff⟩ := hln.gathered hs hx
  have hres : ∀ r ∈ (c.program.op i).results, c.program.HasValue r := fun r hr => hs.wellFormed.hasValue_result hr
  refine (gatherResults_gives (hln.standsBehind hs hx hops hplace) hwf (fun s hs' => hbuff s (mem_of_mem_drop hs'))
    (fun r hr => hcf.hasValue (hres r hr)) fun h => ⟨?_, fun r hr => ?_⟩).weaken fun vs c' hvs => ?_
  · obtain ⟨n, -, -, hn', hlen, -⟩ := (hT h).2.view
    obtain rfl := Except.ok.inj (hn.symm.trans hn')
    rw [length_drop, ← hplans.length_eq]
    omega
  · obtain ⟨s, hs'⟩ := (hT h).2.results r hr
    exact ⟨s, by rw [← hs']; exact hcf.typeOf (hres r hr)⟩
  obtain ⟨outs, rfl, hroom, houts, tail, htail⟩ := hvs
  refine ⟨_, hln.lowered hs hx hi hout hops hplace (forall₂_imp_of_mem houts fun r hr g _ ht => ?_) hroom htail,
    rfl, ?_⟩
  · rw [← ht]
    exact (hcf.typeOf (hres r hr)).symm
  · rw [htail.created]
    show f.created ++ tail = _
    have hec : e.created = d.created ++ [launch] := hq.created
    rw [hcr, hec, hhead.created]
    simp [Lowering.created]

end Offload.Distribution
