import Offload.Proofs.Dominance
import Offload.Proofs.Outside
import Offload.Proofs.Rewiring
import Offload.Proofs.Selection

/-!
# One step of a distribution

A reduction is distributed by operations before it, and its results are replaced by what was gathered. The
reduction itself stays until the end. This is what such a step changes and what it leaves alone.
-/

namespace Offload.Distribution

open Program Rewrite Rewriting List Workgroup

variable {g : Collected} {j root y : OpId} {r : Registry} {v w : ValueId}
variable {p t m q : Program} {i : OpId} {b : BlockId} {place : Nat} {extents : List Int} {x : Lowering}

def Spot (p : Program) (b : BlockId) (place : Nat) (i : OpId) : Prop :=
  ∃ l r, (p.block b).ops = l ++ i :: r ∧ place = l.length

theorem Spot.block (wf : p.WellFormed) (h : Spot p b place i) : (p.op i).block = some b := by
  obtain ⟨l, r, hops, -⟩ := h
  exact (wf.listed i b).mpr (by simp [hops])

/-! ## What is written -/

def writtenNames : List String :=
  [workgroupName, Arith.constantName, Views.reshapeName, allocName, scatterName,
    launchName, gatherName]

theorem headCode_names {sections : List Section} :
    ∀ n ∈ (headCode extents w sections).map Instr.name, n ∈ writtenNames := by
  intro n hn
  simp only [headCode, map_cons, mem_cons, map_flatMap, mem_flatMap] at hn
  rcases hn with rfl | ⟨s, -, hn⟩
  · simp [workgroupCode, writtenNames]
  · simp only [Section.code, map_cons, map_nil, mem_cons, not_mem_nil, or_false] at hn
    rcases hn with rfl | rfl | rfl | rfl <;> simp [writtenNames]

theorem Lowering.tailCode_names (x : Lowering) : ∀ n ∈ x.tailCode.map Instr.name, n ∈ writtenNames := by
  intro n hn
  obtain ⟨y, hy, rfl⟩ := mem_map.mp hn
  obtain ⟨k, hk⟩ := getElem?_of_mem hy
  obtain ⟨s, g, -, -, rfl⟩ := getElem?_zipWith_eq_some.mp hk
  simp [gatherCode, writtenNames]

namespace Lowered

variable (h : Lowered i b place extents x t m) (hi : Spot t b place i)
include h hi

theorem list_at : ∃ l r, (t.block b).ops = l ++ i :: r ∧ (m.block b).ops = l ++ x.ops ++ i :: r := by
  obtain ⟨l, r, hops, hplace⟩ := hi
  exact ⟨l, r, hops, h.list l (i :: r) hops hplace⟩

theorem sublist (c : BlockId) (hc : t.HasBlock c) : (t.block c).ops.Sublist (m.block c).ops := by
  by_cases hcb : c = b
  · obtain ⟨l, r, hops, hm⟩ := h.list_at hi
    rw [hcb, hops, hm]
    exact (sublist_append_left _ _).append (List.Sublist.refl _)
  · rw [h.later.list c hc hcb]

theorem block_of_mem (hj : j ∈ x.ops) : (m.op j).block = some b := by
  obtain ⟨l, r, -, hm⟩ := h.list_at hi
  exact (h.wellFormed.listed j b).mpr (by simp [hm, hj])

theorem precedes (hj : j ∈ x.ops) : Precedes (m.block b).ops j i := by
  obtain ⟨l, r, -, hm⟩ := h.list_at hi
  obtain ⟨y, z, hyz⟩ := append_of_mem hj
  exact ⟨l ++ y, z, r, by rw [hm, hyz]; simp⟩

omit hi in
theorem gather (hg : g ∈ x.outs) :
    ∃ j ∈ x.tail, ∃ s ∈ x.sections.drop x.body.inputs, instr m j = gatherCode x.workgroup s g := by
  obtain ⟨k, hk⟩ := getElem?_of_mem hg
  have hlt : k < (x.sections.drop x.body.inputs).length :=
    Nat.lt_of_lt_of_le (List.getElem?_eq_some_iff.mp hk).1 h.room
  have hcode : x.tailCode[k]? = some (gatherCode x.workgroup (x.sections.drop x.body.inputs)[k] g) := by
    rw [Lowering.tailCode]
    exact getElem?_zipWith_eq_some.mpr ⟨_, _, getElem?_eq_getElem hlt, hk, rfl⟩
  rw [← h.tail, getElem?_map] at hcode
  obtain ⟨j, hj, hins⟩ := Option.map_eq_some_iff.mp hcode
  exact ⟨j, mem_of_getElem? hj, _, getElem_mem hlt, hins⟩

omit hi in
theorem gathered (wf : t.WellFormed) (hg : g ∈ x.outs) : ∃ j ∈ x.ops, g.value ∈ (m.op j).results ∧
    m.typeOf g.value = .tensor g.shape ∧ ¬ t.HasValue g.value := by
  obtain ⟨j, hj, s, -, hins⟩ := h.gather hg
  have hjo : j ∈ x.ops := by simp [Lowering.ops, hj]
  have hres : (m.op j).results.map (fun v => (v, m.typeOf v)) = [(g.value, .tensor g.shape), (g.token, .token)] :=
    congrArg Instr.results hins
  have hmem : (g.value, Ty.tensor g.shape) ∈ (m.op j).results.map fun v => (v, m.typeOf v) := by rw [hres]; simp
  obtain ⟨v, hv, heq⟩ := mem_map.mp hmem
  obtain ⟨rfl, ht⟩ := Prod.mk.inj heq
  exact ⟨j, hjo, hv, ht, h.later.result_new wf h.wellFormed (h.new j (mem_append_left _ hjo)) hv⟩

theorem visible_gathered (hj : j ∈ x.ops) (hw : w ∈ (m.op j).results)
    (hv : v ∈ (m.op i).results) (hvis : Visible r m root v y) : Visible r m root w y := by
  have wf := h.wellFormed
  obtain ⟨l, rest, -, hm⟩ := h.list_at hi
  have hib : (m.op i).block = some b := (wf.listed i b).mpr (by simp [hm])
  obtain ⟨-, hvh, hvd⟩ := wf.source_result hv
  obtain ⟨-, hwh, hwd⟩ := wf.source_result hw
  have hhome : m.homeOf w = m.homeOf v := by rw [hwh, hvh, h.block_of_mem hi hj, hib]
  induction hvis with
  | @here y c hc hh hd =>
    refine .here hc (by rw [hhome, hh]) fun d hdef => ?_
    obtain rfl : j = d := Option.mem_unique hwd hdef
    obtain rfl : b = c := by
      rw [hvh, hib] at hh
      exact Option.some.inj hh
    exact (h.precedes hi hj).trans (wf.once b) (hd i hvd)
  | up hp hr hiso _ ih => exact .up hp hr hiso ih

theorem mem_of_parent (wf : t.WellFormed) {j a : OpId} (ha : t.HasOp a) (hp : m.parent? j = some a)
    (hj : ¬ t.HasOp j) : j ∈ x.ops := by
  obtain ⟨c, hc, ho⟩ := parent?_eq_some.mp hp
  have hcp : t.HasBlock c := by
    obtain ⟨bs, hbs, hmem⟩ := (h.wellFormed.region a _ c).mpr ⟨h.wellFormed.hasBlock_of_block hc, ho, rfl⟩
    rw [h.later.op a ha id] at hbs
    exact ((wf.region a _ c).mp ⟨bs, hbs, hmem⟩).1
  have hmem := (h.wellFormed.listed j c).mp hc
  by_cases hcb : c = b
  · obtain ⟨l, r, hops, hm⟩ := h.list_at hi
    rw [hcb, hm, append_assoc, mem_append, mem_append] at hmem
    have hold : ∀ k, k ∈ l ++ i :: r → t.HasOp k := fun k hk => hasOp_of_block ((wf.listed k b).mpr (hops ▸ hk))
    rcases hmem with hmem | hmem | hmem
    · exact absurd (hold j (mem_append_left _ hmem)) hj
    · exact hmem
    · exact absurd (hold j (mem_append_right _ hmem)) hj
  · rw [h.later.list c hcp hcb] at hmem
    exact absurd (hasOp_of_block ((wf.listed j c).mpr hmem)) hj

theorem mem_of_outside (wf : t.WellFormed) (hroot : t.HasOp root) (hout : m.Outside isLaunch root j)
    (hj : ¬ t.HasOp j) : j ∈ x.ops := by
  induction hout with
  | child hp => exact h.mem_of_parent hi wf hroot hp hj
  | @deeper j a hp hn _ ih =>
    by_cases ha : t.HasOp a
    · exact h.mem_of_parent hi wf ha hp hj
    · -- of what stands there only the launch has something in it
      have hname : (m.op x.launch).name = launchName := congrArg Instr.name h.launch
      have hflat : a ∈ x.head ++ x.tail := by
        have hmem := ih ha
        simp only [Lowering.ops, mem_append, mem_cons] at hmem ⊢
        rcases hmem with hmem | rfl | hmem
        · exact .inl hmem
        · rw [hname] at hn
          cases hn
        · exact .inr hmem
      obtain ⟨c, hc, ho⟩ := parent?_eq_some.mp hp
      obtain ⟨bs, hbs, -⟩ := (h.wellFormed.region a _ c).mpr ⟨h.wellFormed.hasBlock_of_block hc, ho, rfl⟩
      rw [h.flat a hflat] at hbs
      cases hbs

omit hi in
theorem written_of_mem (hj : j ∈ x.ops) : (m.op j).name ∈ writtenNames := by
  have hcode : ∀ {js : List OpId} {xs : List Instr}, js.map (instr m) = xs → j ∈ js →
    (m.op j).name ∈ xs.map Instr.name :=
    fun hxs hmem => by rw [← hxs, map_map]; exact mem_map_of_mem (f := Instr.name ∘ instr m) hmem
  simp only [Lowering.ops, mem_append, mem_cons] at hj
  rcases hj with hj | rfl | hj
  · exact headCode_names _ (hcode h.head hj)
  · rw [show (m.op x.launch).name = launchName from congrArg Instr.name h.launch]
    simp [writtenNames]
  · exact x.tailCode_names _ (hcode h.tail hj)

omit hi in
theorem name_of_mem (hj : j ∈ x.ops) : (m.op j).name ≠ Reduction.reduceName := by
  have hnames := h.written_of_mem hj
  intro heq
  rw [heq] at hnames
  exact absurd hnames (by decide)

end Lowered

/-! ## The exchange -/

/-- The reduction `i` of `t` was distributed, which gave `m`, and replaced, which gave `q`. -/
structure Exchanged (i : OpId) (b : BlockId) (place : Nat) (extents : List Int) (x : Lowering) (f : ValueId → ValueId)
    (t m q : Program) : Prop where
  wf : t.WellFormed
  spot : Spot t b place i
  lowered : Lowered i b place extents x t m
  rewired : Rewired f m q
  redirects : Rewriting.Redirects (t.op i).results (x.outs.map Collected.value) f

namespace Exchanged

variable {f : ValueId → ValueId} (h : Exchanged i b place extents x f t m q)
include h

theorem wellFormed : q.WellFormed := h.rewired.wellFormed h.lowered.wellFormed

theorem hasOp : t.HasOp i := hasOp_of_block (h.spot.block h.wf)

theorem frame : Frame t q := h.lowered.later.frame.trans h.rewired.frame

theorem rename (v : ValueId) : (v ∈ (t.op i).results ∧ ∃ g ∈ x.outs, t.typeOf v = .tensor g.shape ∧
    f v = g.value) ∨ v ∉ (t.op i).results ∧ f v = v := by
  by_cases hv : v ∈ (t.op i).results
  · refine .inl ⟨hv, ?_⟩
    have hboth := forall₂_and h.lowered.outs (forall₂_map_right_iff.mp h.redirects.results)
    exact forall₂_mem_right hboth.flip hv
  · exact .inr ⟨hv, h.redirects.other v hv⟩

theorem typeOf_renamed (v : ValueId) : q.typeOf (f v) = m.typeOf v := by
  rcases h.rename v with ⟨hv, g, hg, ht, hf⟩ | ⟨-, hf⟩
  · obtain ⟨-, -, -, htype, -⟩ := h.lowered.gathered h.wf hg
    rw [hf, h.rewired.same.typeOf, htype, h.lowered.later.typeOf (h.wf.hasValue_result hv), ht]
  · rw [hf, h.rewired.same.typeOf]

theorem typeOf_rename (hv : t.HasValue v) : q.typeOf (f v) = t.typeOf v := by
  rw [h.typeOf_renamed, h.lowered.later.typeOf hv]

theorem operands (hj : t.HasOp j) : (q.op j).operands = (t.op j).operands.map (Option.map f) := by
  rw [h.rewired.operands, h.lowered.later.op j hj id]

theorem operand_types (hj : t.HasOp j) :
    (q.op j).operands.map q.slotType? = (t.op j).operands.map t.slotType? := by
  rw [h.operands hj, map_map]
  refine map_congr_left fun s hs => ?_
  cases s with
  | none => rfl
  | some v => exact congrArg some (h.typeOf_rename (h.wf.hasValue_operand hs))

theorem unchanged (hj : t.HasOp j) : Unchanged j t q :=
  ⟨by rw [h.frame.op j hj], by rw [h.frame.op j hj], h.operand_types hj⟩

theorem visible (hv : m.HasValue v) (hy : m.HasOp y) (hvis : Visible r m root v y) : Visible r q root (f v) y := by
  have hmq : ∀ {w}, m.HasValue w → Visible r m root w y → Visible r q root w y := fun hw hvis =>
    h.rewired.frame.visible h.lowered.wellFormed (fun c _ => by rw [h.rewired.same.block c]) hw hy hvis
  rcases h.rename v with ⟨hres, g, hg, -, hf⟩ | ⟨-, hf⟩
  · obtain ⟨j, hj, hgj, -, -⟩ := h.lowered.gathered h.wf hg
    rw [hf]
    refine hmq (h.lowered.wellFormed.hasValue_result hgj) (h.lowered.visible_gathered h.spot hj hgj ?_ hvis)
    rwa [h.lowered.later.op i h.hasOp id]
  · rw [hf]
    exact hmq hv hvis

theorem unused (hv : t.HasValue v) (hu : v ∈ (t.op i).results ∨ t.Unused v) : q.Unused v := by
  intro j hmem
  rw [h.rewired.operands, mem_map] at hmem
  obtain ⟨s, hs, heq⟩ := hmem
  obtain ⟨w, rfl, hw⟩ := Option.map_eq_some_iff.mp heq
  rcases h.rename w with ⟨-, g, hg, -, hf⟩ | ⟨hnot, hf⟩
  · obtain ⟨-, -, -, -, hnew⟩ := h.lowered.gathered h.wf hg
    exact hnew (by rwa [← hf, hw])
  · obtain rfl : w = v := hf.symm.trans hw
    rcases hu with hu | hu
    · exact hnot hu
    · exact h.lowered.grown.unused w hv hu j hs

theorem creatable (hc : t.Creatable) : q.Creatable := by
  obtain ⟨hnamed, hroom, htyped⟩ := h.lowered.grown.creatable hc
  have hop := h.rewired.same.op
  refine ⟨fun j hj => ?_, fun j hj => ?_, fun v hv => ?_⟩
  · rw [hop j]
    exact hnamed j ((h.rewired.same.hasOp j).mp hj)
  · rw [hop j]
    exact hroom j ((h.rewired.same.hasOp j).mp hj)
  · rw [h.rewired.same.typeOf]
    exact htyped v ((h.rewired.same.hasValue v).mp hv)

theorem new_outside (hroot : t.HasOp root) (hout : q.Outside isLaunch root j) (hj : ¬ t.HasOp j) :
    (q.op j).name ≠ Reduction.reduceName := by
  have hm : m.Outside isLaunch root j := hout.congr fun k a _ hp => ⟨by rw [← h.rewired.same.parent?, hp], by
    rw [h.rewired.same.op a]⟩
  rw [h.rewired.same.op j]
  exact h.lowered.name_of_mem (h.lowered.mem_of_outside h.spot h.wf hroot hm hj)

end Exchanged

/-! ## The pattern -/

section
variable {root : OpId} {bs : List BlockId} {sel : Selector} {s s' : Session Unit}

structure Workable (r : Registry) (root i : OpId) (b : BlockId) (bs : List BlockId) (s : Session Unit) : Prop where
  deferred : s.deferred = true
  wellFormed : s.work.program.WellFormed
  block : s.work.builder.block = some b
  spot : Spot s.work.program b s.work.builder.place i
  blocks : (s.work.program.op i).regions[0]? = some bs
  sees : ∀ x, s.work.program.Within i x → x ≠ i → ∀ slot ∈ (s.work.program.op x).operands,
    ∃ v, slot = some v ∧ Visible r s.work.program root v x

structure Applied (sel : Selector) (i : OpId) (b : BlockId) (extents : List Int) (x : Lowering)
    (f : ValueId → ValueId)
    (m : Program) (s s' : Session Unit) : Prop where
  chosen : sel.select s.work.program i = .ok (some extents)
  exchanged : Exchanged i b s.work.builder.place extents x f s.work.program m s'.work.program
  created : s'.work.created = s.work.created ++ x.created
  fresh : i ∉ s.erased
  erased : s'.erased = i :: s.erased
  pending : s'.pending = s.pending ++ [i]
  rewritten : s'.rewritten = s.rewritten
  deferred : s'.deferred = true

namespace Workable

variable {r : Registry} (h : Workable r root i b bs s)
include h

theorem home : (s.work.program.op i).block = some b := h.spot.block h.wellFormed

theorem hasOp : s.work.program.HasOp i := hasOp_of_block h.home

theorem stands : Build.Stands b s.work := by
  obtain ⟨l, r, hops, hplace⟩ := h.spot
  exact ⟨h.wellFormed, h.wellFormed.hasBlock_of_block h.home, h.block, by rw [hplace, hops]; simp⟩

theorem outside : ¬ s.work.program.Within i (s.work.program.block b).owner :=
  h.wellFormed.not_within_of_parent (parent?_eq_some.mpr ⟨b, h.home, rfl⟩)

theorem replaceable (hx : Lowered i b place extents x s.work.program m) :
    (m.op i).results.length = (x.outs.map Collected.value).length ∧
      ∀ v ∈ x.outs.map Collected.value, m.HasValue v ∧ v ∉ (m.op i).results := by
  rw [hx.later.op i h.hasOp id, length_map]
  refine ⟨hx.outs.length_eq, fun v hv => ?_⟩
  obtain ⟨g, hg, rfl⟩ := mem_map.mp hv
  obtain ⟨j, -, hgj, -, hnew⟩ := hx.gathered h.wellFormed hg
  exact ⟨hx.wellFormed.hasValue_result hgj, fun hmem => hnew (h.wellFormed.hasValue_result hmem)⟩

theorem applied (hok : distributeReduction sel i s = .ok .applied s') :
    ∃ extents x f m, Applied sel i b extents x f m s s' := by
  simp only [distributeReduction, bind_ok, program_ok, fail_ok] at hok
  obtain ⟨_, _, ⟨rfl, rfl⟩, o, s, ⟨hsel, rfl⟩, hok⟩ := hok
  cases o with
  | none => simp at hok
  | some extents =>
    simp only [bind_ok, build_ok, pure_ok, true_and] at hok
    obtain ⟨vs, _, ⟨c, hc, rfl⟩, _, _, hrep, rfl⟩ := hok
    obtain ⟨x, hx, rfl, hcr⟩ := (lowerReduction_gives h.stands h.hasOp h.outside h.blocks h.sees False.elim).ok
      vs c hc
    obtain ⟨hlen, hv⟩ := h.replaceable hx
    obtain ⟨f, q, hf, hred, heq⟩ := replaceOp_eq (s := { s with
      work := c, mutations := s.mutations + (c.created.length - s.work.created.length) }) hx.wellFormed hlen hv
    obtain ⟨hi, rfl⟩ := (eraseOp_ok (by exact h.deferred)).mp (heq.symm.trans hrep)
    rw [show (c.program.op i).results = _ from congrArg Op.results (hx.later.op i h.hasOp id)] at hred
    exact ⟨extents, x, f, c.program, hsel, ⟨h.wellFormed, h.spot, hx, hf, hred⟩, hcr, hi, rfl, rfl,
      rfl, h.deferred⟩

theorem distributes (hc : s.work.program.Creatable) (hcand : ∀ extents ∈ sel.candidates, Countable extents)
    {n : Nat}
    {dims axes : List Int} (hred : Reduces sel.storage s.work.program i n dims axes) (hi : i ∉ s.erased)
    (hsel : sel.select s.work.program i ≠ .ok none) : ∃ s', distributeReduction sel i s = .ok .applied s' := by
  obtain ⟨o, ho, hsome⟩ := hred.select_total hcand
  cases o with
  | none => exact absurd ho hsel
  | some extents =>
    obtain ⟨hmem, hdvd, -⟩ := hsome extents rfl
    have hgives := lowerReduction_gives h.stands h.hasOp h.outside h.blocks h.sees
      fun _ : True => ⟨hc, hred.distributable (hcand extents hmem) hdvd⟩
    obtain ⟨vs, c, hvs⟩ := hgives.runs trivial
    obtain ⟨x, hx, rfl, -⟩ := hgives.ok vs c hvs
    obtain ⟨hlen, hv⟩ := h.replaceable hx
    let t : Session Unit :=
      { s with work := c, mutations := s.mutations + (c.created.length - s.work.created.length) }
    obtain ⟨f, q, -, -, heq⟩ := replaceOp_eq (s := t) hx.wellFormed hlen hv
    obtain ⟨t', ht'⟩ : ∃ t', replaceOp i _ t = .ok () t' :=
      ⟨_, heq.trans ((eraseOp_ok (by exact h.deferred)).mpr ⟨by exact hi, rfl⟩)⟩
    refine ⟨t', ?_⟩
    rw [distributeReduction, program_bind, bind_of_ok (fail_ok.mpr ⟨ho, rfl⟩)]
    simp only []
    rw [bind_of_ok (build_ok.mpr ⟨c, hvs, rfl⟩), bind_of_ok ht']
    rfl

end Workable

end

end Offload.Distribution
