import Offload.Proofs.Cloneable
import Offload.Proofs.Sections

/-!
# The code of a launch

What stands in the program after a reduction was distributed over a workgroup.
-/

namespace Offload.Distribution

open Program Build Reduction List

variable {d : BlockId} {i : OpId} {p q : Program} {view : View} {xs : List Instr}
variable {T : Prop} {b : BlockId} {c c' : Construction} {w : ValueId} {extents : List Int}

theorem mapM_typeOf : ∀ {ss : List Slot} {ts : List Ty}, ss.map c.program.slotType? = ts.map some →
    ss.mapM Build.typeOf c = .ok ts c
  | [], [], _ => rfl
  | s :: ss, t :: ts, h => by
    obtain ⟨ht, hts⟩ := List.cons.inj h
    rw [mapM_cons, bind_of_ok (typeOf_ok.mpr ⟨ht, rfl⟩), bind_of_ok (mapM_typeOf hts)]
    rfl

section
variable {sections : List Section}

def Buffered (sections : List Section) (p : Program) : Prop :=
  ∀ s ∈ sections, p.HasValue s.buffer ∧ p.typeOf s.buffer = s.plan.bufferType

theorem buffer_types (h : Buffered sections p) :
    (sections.map fun s => some s.buffer).map p.slotType? = (sections.map fun s => s.plan.bufferType).map some := by
  rw [map_map, map_map]
  exact map_congr_left fun s hs => by simp [slotType?, (h s hs).2]

theorem launch_operands (hw : p.HasValue w) (h : Buffered sections p) :
    ∀ x ∈ some w :: sections.map (fun s => some s.buffer), ∃ v, x = some v ∧ p.HasValue v := by
  intro x hx
  rcases mem_cons.mp hx with rfl | hx
  · exact ⟨w, rfl, hw⟩
  · obtain ⟨s, hs, rfl⟩ := mem_map.mp hx
    exact ⟨s.buffer, rfl, (h s hs).1⟩

theorem launch_gives (hs : Stands b c) (hw : c.program.HasValue w) (hb : Buffered sections c.program) :
    Gives T (fun x c' => ∃ q, Wrote b 1 [x.1] [launchCode w sections] c { c' with program := q } ∧
      Edit.NewBlock x.1 0 (sections.map fun s => .memref s.plan.buffer) x.2 q c'.program)
      (Workgroup.launch (some w) (sections.map fun s => some s.buffer)) c := by
  rw [Workgroup.launch]
  refine (create_gives 1 [] hs rfl rfl rfl (by simp) (by dsimp only; decide) (launch_operands hw hb)).bind
    fun i d hwr => ?_
  have hb' : Buffered sections d.program := fun s hs' =>
    ⟨hwr.later.hasValue (hb s hs').1, by rw [hwr.later.typeOf (hb s hs').1, (hb s hs').2]⟩
  refine .step (mapM_typeOf (buffer_types hb')) ?_
  rw [map_map, show ((fun t => some (Workgroup.parameterType t)) ∘ fun s : Section => s.plan.bufferType) =
    some ∘ fun s : Section => .memref s.plan.buffer from rfl, ← map_map]
  refine (edit_gives ⟨fun _ _ => Edit.newBlock_ok (hwr.new i (by simp)).2, fun _ =>
    Edit.newBlock_succeeds _ ?_ (by simp)⟩).bind fun body e he => .pure ?_
  · rw [hwr.regions i (by simp)]
    exact Nat.one_pos
  obtain ⟨q, ⟨ts, hts, hnew⟩, rfl⟩ := he
  obtain rfl := map_some_inj hts
  exact ⟨d.program, hwr, hnew⟩

end

theorem inputs_ok {ss : List Slot} :
    inputs p i = .ok ss ↔ ∃ n, inputCount p i = .ok n ∧ ss = (p.op i).operands.take n := by
  simp only [inputs, except_bind_ok, except_pure_ok]
  exact exists_congr fun n => and_congr_right fun _ => eq_comm

theorem inputCount_le {n : Nat} (h : inputCount p i = .ok n) :
    n ≤ (p.op i).operands.length := by
  simp only [inputCount, except_bind_ok] at h
  obtain ⟨⟨k, _⟩, -, h⟩ := h
  split at h
  · rename_i hk
    obtain rfl := except_pure_ok.mp h
    omega
  · cases h

theorem inputCount_congr (h : q.op i = p.op i) :
    inputCount q i = inputCount p i := by
  simp only [inputCount, segments, h]

/-! ## The body -/

structure Body where
  inputs : Nat
  view : View
  seen : List ValueId
  expands : List Instr
  views : List OpId
  inner : OpId
  last : OpId
  copies : List BlockId
  depth : Nat
  rename : ValueId → ValueId

def Body.ops (x : Body) : List OpId := x.views ++ [x.inner, x.last]

structure BodyBuilt (i : OpId) (b : BlockId) (extents : List Int) (x : Body) (p q : Program) : Prop where
  inputs : Reduction.inputCount p i = .ok x.inputs
  view : ∃ s, ((p.op i).operands.take x.inputs).head?.bind p.slotType? = some (.tensor s) ∧
    viewOf s (Reduction.dimensions p i) extents = .ok x.view
  list : (q.block b).ops = x.ops
  hasOp : ∀ j ∈ x.ops, q.HasOp j
  looks : Looks q ((q.block b).args.take x.inputs) x.view x.seen x.expands
  views : x.views.map (instr q) = x.expands
  inner : instr q x.inner = reduceCode x.seen ((q.block b).args.drop x.inputs) x.view.axes
  last : instr q x.last = terminatorCode
  flat : ∀ j ∈ x.views ++ [x.last], (q.op j).regions = []
  region : (q.op x.inner).regions = [x.copies]
  copied : ∀ bs, (p.op i).regions[0]? = some bs → Edit.RegionCopied x.depth x.rename bs x.copies p q

structure BodyAdded (i : OpId) (b : BlockId) (extents : List Int) (x : Body) (p q : Program) : Prop
    extends BodyBuilt i b extents x p q where
  wellFormed : q.WellFormed
  later : Later (fun _ => False) (· = b) p q
  new : ∀ j ∈ x.ops, ¬ p.HasOp j
  grown : Grown (fun v => p.HasValue v ∧ v ∉ (p.block b).args) p q

theorem Looks.congr {inputs seen : List ValueId}
    (h : Looks p inputs view seen xs) (hq : ∀ v ∈ inputs, q.typeOf v = p.typeOf v) :
      Looks q inputs view seen xs := by
  cases h with
  | elementwise => exact .elementwise
  | row => exact .row
  | rows hin hxs =>
    refine .rows hin fun x hx => ?_
    obtain ⟨s, hs, he⟩ := hxs x hx
    exact ⟨s, (hq _ (hin ▸ mem_map_of_mem hx)).trans hs, he⟩

namespace BodyBuilt

variable {i : OpId} {x : Body} {p q m : Program}

theorem next (h : BodyBuilt i b extents x p q) (wf : q.WellFormed) (hB : q.HasBlock b)
    (hl : Later (fun _ => False) (· = d) q m) (hd : p.HasBlock d) (hne : b ≠ d) : BodyBuilt i b extents x p m := by
  have hblock : m.block b = q.block b := hl.block_eq hB hne
  have hop : ∀ j ∈ x.ops, m.op j = q.op j := fun j hj => hl.op j (h.hasOp j hj) id
  have hinner : x.inner ∈ x.ops := by simp [Body.ops]
  have hlast : x.last ∈ x.ops := by simp [Body.ops]
  have hviews : ∀ j ∈ x.views, j ∈ x.ops := fun j hj => by simp [Body.ops, hj]
  refine ⟨h.inputs, h.view, by rw [hblock, h.list], fun j hj => hl.hasOp (h.hasOp j hj), ?_, ?_, ?_, ?_, ?_, ?_, ?_⟩
  · rw [hblock]
    exact h.looks.congr fun v hv => hl.typeOf (wf.hasValue_argument (mem_of_mem_take hv))
  · rw [← h.views]
    exact map_congr_left fun j hj => hl.instr_eq wf (h.hasOp j (hviews j hj)) id
  · rw [hblock, hl.instr_eq wf (h.hasOp _ hinner) id, h.inner]
  · rw [hl.instr_eq wf (h.hasOp _ hlast) id, h.last]
  · intro j hj
    have hjo : j ∈ x.ops := by
      rcases mem_append.mp hj with hj | hj
      · exact hviews j hj
      · exact mem_singleton.mp hj ▸ hlast
    rw [hop j hjo, h.flat j hj]
  · rw [hop _ hinner, h.region]
  · intro bs hbs
    exact (h.copied bs hbs).next hl (fun _ _ hf => hf) fun c hc hcd => absurd hd (hcd ▸ Nat.not_lt.mpr hc)

theorem of_later {t : Program} (wf : t.WellFormed) (hi : t.HasOp i) (hout : ¬ t.Within i (t.block d).owner)
    (hl : Later (fun _ => False) (· = d) t p) (h : BodyBuilt i b extents x p q) : BodyBuilt i b extents x t q := by
  have hop : p.op i = t.op i := hl.op i hi id
  obtain ⟨s, hs, hv⟩ := h.view
  refine ⟨by rw [← inputCount_congr hop, h.inputs], ⟨s, ?_, ?_⟩, h.list, h.hasOp, h.looks, h.views,
    h.inner, h.last, h.flat, h.region, fun bs hbs => (h.copied bs (by rw [hop, hbs])).of_later wf hbs hout hl⟩
  · rw [hop] at hs
    rw [← hs]
    cases hh : ((t.op i).operands.take x.inputs).head? with
    | none => rfl
    | some y =>
      refine (hl.slotType? fun v hv' => wf.hasValue_operand (i := i) ?_).symm
      exact hv' ▸ mem_of_mem_take (mem_of_head? hh)
  · rwa [dimensions, hop] at hv

end BodyBuilt

theorem Looks.mem_seen {inputs seen : List ValueId} (h : Looks p inputs view seen xs) {v : ValueId} (hv : v ∈ seen) :
    v ∈ inputs ∨ ∃ x ∈ xs, ∃ t, (v, t) ∈ x.results := by
  cases h with
  | elementwise => exact .inl hv
  | row => exact .inl hv
  | rows _ _ =>
    obtain ⟨x, hx, rfl⟩ := mem_map.mp hv
    exact .inr ⟨_, mem_map_of_mem hx, _, mem_singleton.mpr rfl⟩

theorem Looks.mem_operands {inputs seen : List ValueId}
    (h : Looks p inputs view seen xs) {x : Instr} (hx : x ∈ xs) {s : Slot} (hs : s ∈ x.operands) :
    ∃ v ∈ inputs, s = some v := by
  cases h with
  | elementwise => cases hx
  | row => cases hx
  | rows hin _ =>
    obtain ⟨y, hy, rfl⟩ := mem_map.mp hx
    obtain rfl : s = some y.arg := by simpa [Expanded.code] using hs
    exact ⟨y.arg, hin ▸ mem_map_of_mem hy, rfl⟩

theorem sublist_of_empty {X : OpId → Prop} (h : Later X (· = b) p q) (hempty : (p.block b).ops = [])
    (d : BlockId) (hd : p.HasBlock d) : (p.block d).ops.Sublist (q.block d).ops := by
  by_cases hdb : d = b
  · rw [hdb, hempty]
    exact nil_sublist _
  · rw [h.list d hd hdb]

structure Buildable (r : Registry) (root i : OpId) (body : BlockId) (bs : List BlockId) (p : Program) : Prop where
  wellFormed : p.WellFormed
  hasOp : p.HasOp i
  hasBlock : p.HasBlock body
  empty : (p.block body).ops = []
  outside : ¬ p.Within i (p.block body).owner
  memory : ∀ v ∈ (p.block body).args, (p.typeOf v).isTensor = false
  blocks : (p.op i).regions[0]? = some bs
  sees : ∀ x, p.Within i x → x ≠ i → ∀ s ∈ (p.op x).operands, ∃ v, s = some v ∧ Visible r p root v x

namespace Buildable

variable {r : Registry} {root i : OpId} {body : BlockId} {bs : List BlockId} {p q : Program}
  (h : Buildable r root i body bs p)
include h

theorem clone {inner : OpId} (hl : Later (fun _ => False) (· = body) p q) (wfq : q.WellFormed) (hn : ¬ p.HasOp inner)
    (hhome : (q.op inner).block = some body) : (q.op i).regions[0]? = some bs ∧ q.HasOp i ∧ ¬ q.Within i inner ∧
      ∀ x, q.Within i x → x ≠ i → ∀ s ∈ (q.op x).operands, ∃ v, s = some v ∧ Visible r q root v x :=
  ⟨by rw [hl.op i h.hasOp id, h.blocks], hl.hasOp h.hasOp,
    hl.outside h.wellFormed h.hasOp h.hasBlock h.outside hn hhome,
    hl.sees h.wellFormed (fun _ hY => hY) wfq h.hasOp h.outside (sublist_of_empty hl h.empty) h.sees⟩

end Buildable

structure BodyBegun (body : BlockId) (n : Nat) (view : View) (seen : List ValueId) (xs : List Instr) (js : List OpId)
    (inner : OpId) (c d e : Construction) : Prop where
  looks : Looks c.program ((c.program.block body).args.take n) view seen xs
  views : Wrote body 0 js xs c d
  inner : Wrote body 1 [inner] [reduceCode seen ((c.program.block body).args.drop n) view.axes] d e

section
variable {r : Registry} {root i : OpId} {body : BlockId} {bs : List BlockId} {n : Nat} {view : View}
  {seen : List ValueId} {xs : List Instr} {js : List OpId} {inner : OpId} {d e : Construction}

theorem seen_hasValue (hb : Buildable r root i body bs c.program)
    (hl : Looks c.program ((c.program.block body).args.take n) view seen xs) (hjs : Wrote body 0 js xs c d) :
    ∀ v ∈ seen ++ (c.program.block body).args.drop n, d.program.HasValue v := by
  have hargs : ∀ v ∈ (c.program.block body).args, d.program.HasValue v := fun v hv =>
    hjs.later.hasValue (hb.wellFormed.hasValue_argument hv)
  intro v hv
  rcases mem_append.mp hv with hv | hv
  · rcases hl.mem_seen hv with hv | ⟨x, hx, t, ht⟩
    · exact hargs v (mem_of_mem_take hv)
    · exact (hjs.result hb.wellFormed hx ht).1
  · exact hargs v (mem_of_mem_drop hv)

theorem inits_memory (hb : Buildable r root i body bs c.program) (hjs : Wrote body 0 js xs c d) :
    ∀ v ∈ (c.program.block body).args.drop n, (d.program.typeOf v).isTensor = false := fun v hv => by
  have hv := mem_of_mem_drop hv
  rw [hjs.later.typeOf (hb.wellFormed.hasValue_argument hv)]
  exact hb.memory v hv

namespace BodyBegun

variable (h : BodyBegun body n view seen xs js inner c d e) (hb : Buildable r root i body bs c.program)
include h

theorem later : Later (fun _ => False) (· = body) c.program e.program :=
  h.views.later.trans h.inner.later (fun _ _ hf => hf) fun _ _ hc => hc

theorem new_inner : ¬ c.program.HasOp inner := fun hc =>
  (h.inner.new inner (mem_singleton.mpr rfl)).1 (h.views.later.hasOp hc)

include hb

theorem grown : Grown (fun v => c.program.HasValue v ∧ v ∉ (c.program.block body).args) c.program e.program := by
  refine (h.views.grown.mono fun v hv x hx hmem => ?_).trans h.inner.grown fun v hv x hx hmem => ?_
  · obtain ⟨u, hu, heq⟩ := h.looks.mem_operands hx hmem
    obtain rfl := Option.some.inj heq
    exact hv.2 (mem_of_mem_take hu)
  · rw [mem_singleton.mp hx] at hmem
    simp only [reduceCode, ← map_append, mem_map, Option.some.injEq, exists_eq_right] at hmem
    rcases mem_append.mp hmem with hmem | hmem
    · rcases h.looks.mem_seen hmem with hmem | ⟨y, hy, t, ht⟩
      · exact hv.2 (mem_of_mem_take hmem)
      · exact (h.views.result hb.wellFormed hy ht).2.2 hv.1
    · exact hv.2 (mem_of_mem_drop hmem)

theorem clone : (e.program.op i).regions[0]? = some bs ∧ e.program.HasOp i ∧ ¬ e.program.Within i inner ∧
    ∀ x, e.program.Within i x → x ≠ i → ∀ s ∈ (e.program.op x).operands, ∃ v, s = some v ∧
      Visible r e.program root v x :=
  hb.clone h.later h.inner.wellFormed h.new_inner (h.inner.home inner (mem_singleton.mpr rfl))

theorem built {depth : Nat} {φ : ValueId → ValueId} {cs : List BlockId} {last : OpId}
    (hplace : c.builder.place = 0) (hn : inputCount c.program i = .ok n)
    (hview : ∃ s, ((c.program.op i).operands.take n).head?.bind c.program.slotType? = some (.tensor s) ∧
      viewOf s (dimensions c.program i) extents = .ok view) (hq : Edit.RegionCloned depth φ inner 0 bs cs e.program q)
    (hlast : Wrote body 0 [last] [terminatorCode] { e with program := q } c') :
    BodyAdded i body extents ⟨n, view, seen, xs, js, inner, last, cs, depth, φ⟩ c.program c'.program ∧
      c'.created = c.created ++ (js ++ [inner, last]) := by
  have hinner := (h.inner.new inner (mem_singleton.mpr rfl)).2
  have hvq : Later (fun _ => False) (· = body) d.program q :=
    h.inner.later.trans hq.later (fun j hj hji => (h.inner.new inner (mem_singleton.mpr rfl)).1 (hji ▸ hj))
      fun _ _ hf => hf.elim
  have hvc : Later (fun _ => False) (· = body) d.program c'.program :=
    hvq.trans hlast.later (fun _ _ hf => hf) fun _ _ hc => hc
  have hcc : Later (fun _ => False) (· = body) c.program c'.program :=
    h.views.later.trans hvc (fun _ _ hf => hf) fun _ _ hc => hc
  have hqi : q.HasOp inner := hq.later.hasOp hinner
  have hB : e.program.HasBlock body := h.later.hasBlock hb.hasBlock
  have hargs : (c'.program.block body).args = (c.program.block body).args := by rw [hcc.block body hb.hasBlock]
  -- the body grows at its end
  obtain ⟨hops1, hplace1⟩ := h.views.spot [] [] (by simp [hb.empty]) hplace
  obtain ⟨hops2, hplace2⟩ := h.inner.spot _ [] hops1 hplace1
  have hopsq : (q.block body).ops = [] ++ js ++ [inner] ++ [] := by rw [hq.later.list body hB id, hops2]
  obtain ⟨hops3, -⟩ := hlast.spot _ [] hopsq hplace2
  have hopi : c'.program.op inner = q.op inner := hlast.later.op inner hqi id
  have hnew : ∀ j ∈ js ++ [inner, last], ¬ c.program.HasOp j ∧ c'.program.HasOp j := by
    intro j hj
    simp only [mem_append, mem_cons, not_mem_nil, or_false] at hj
    rcases hj with hj | rfl | rfl
    · exact ⟨(h.views.new j hj).1, hvc.hasOp (h.views.new j hj).2⟩
    · exact ⟨h.new_inner, hlast.later.hasOp hqi⟩
    · have hl := hlast.new j (mem_singleton.mpr rfl)
      exact ⟨fun hc => hl.1 (hvq.hasOp (h.views.later.hasOp hc)), hl.2⟩
  refine ⟨⟨⟨hn, hview, by simpa [Body.ops] using hops3, fun j hj => (hnew j hj).2, ?_, ?_, ?_, ?_, ?_, ?_, ?_⟩,
    hlast.wellFormed, hcc, fun j hj => (hnew j hj).1, ?_⟩, ?_⟩
  · rw [hargs]
    exact h.looks.congr fun v hv => hcc.typeOf (hb.wellFormed.hasValue_argument (mem_of_mem_take hv))
  · rw [← h.views.code]
    exact map_congr_left fun j hj => hvc.instr_eq h.views.wellFormed (h.views.new j hj).2 id
  · have hcode : instr e.program inner = _ := singleton_inj.mp h.inner.code
    rw [hargs, hlast.later.instr_eq hq.wellFormed hqi id, ← hcode]
    simp only [instr, hq.self]
    congr 1
    exact map_congr_left fun v hv => by rw [hq.later.typeOf (h.inner.wellFormed.hasValue_result hv)]
  · exact singleton_inj.mp hlast.code
  · intro j hj
    rcases mem_append.mp hj with hj | hj
    · rw [hvc.op j (h.views.new j hj).2 id]
      exact h.views.regions j hj
    · exact hlast.regions j hj
  · rw [hopi, hq.self, h.inner.regions inner (mem_singleton.mpr rfl)]
    rfl
  · intro bs' hbs'
    obtain rfl : bs = bs' := Option.mem_unique hb.blocks hbs'
    refine Edit.RegionCopied.of_later hb.wellFormed hb.blocks hb.outside h.later (hq.copied.next hlast.later
      (fun _ _ hf => hf) fun c hc hcb => ?_)
    exact absurd hB (hcb ▸ Nat.not_lt.mpr hc)
  · refine ((h.grown hb).trans hq.grown fun v hv => h.later.hasValue hv.1).trans hlast.grown fun v hv x hx hmem => ?_
    rw [mem_singleton.mp hx] at hmem
    cases hmem
  · rw [hlast.created]
    show e.created ++ [last] = _
    rw [h.inner.created, h.views.created]
    simp

end BodyBegun

end

theorem buildBody_gives {r : Registry} {root i : OpId} {body : BlockId} {bs : List BlockId}
    (hb : Buildable r root i body bs c.program)
    (hT : T → c.program.Creatable ∧ (∃ n s view, inputCount c.program i = .ok n ∧
        ((c.program.op i).operands.take n).head?.bind c.program.slotType? = some (.tensor s) ∧
        viewOf s (dimensions c.program i) extents = .ok view ∧ view.Proper) ∧
      ∀ v ∈ (c.program.block body).args, ∃ s, c.program.typeOf v = .memref s) :
    Gives T (fun _ c' => ∃ x, BodyAdded i body extents x c.program c'.program ∧ c'.created = c.created ++ x.ops)
      (buildBody i body extents) c := by
  let c1 : Construction := { c with builder := { c.builder with block := some body, place := 0 } }
  have hs1 : Stands body c1 := ⟨hb.wellFormed, hb.hasBlock, rfl, Nat.zero_le _⟩
  rw [buildBody, toStart]
  refine .step (a := ()) (t := c1) (setPoint_ok.mpr rfl) (.step (program_ok.mpr ⟨rfl, rfl⟩) ?_)
  refine (except_gives fun h => ?_).bind fun ss _ hss => ?_
  · obtain ⟨-, ⟨n, -, -, hn, -⟩, -⟩ := hT h
    exact ⟨_, inputs_ok.mpr ⟨n, hn, rfl⟩⟩
  obtain ⟨hss, rfl⟩ := hss
  obtain ⟨n, hn, rfl⟩ := inputs_ok.mp hss
  have hT' : T → ∃ s view, ((c.program.op i).operands.take n).head?.bind c.program.slotType? = some (.tensor s) ∧
      viewOf s (dimensions c.program i) extents = .ok view ∧ view.Proper := fun h => by
    obtain ⟨-, ⟨m, s, view, hm, hrest⟩, -⟩ := hT h
    obtain rfl : m = n := Except.ok.inj (hm.symm.trans hn)
    exact ⟨s, view, hrest⟩
  rw [length_take, Nat.min_eq_left (inputCount_le hn)]
  cases hhead : ((c1.program.op i).operands.take n).head?.bind c1.program.slotType? with
  | none => exact .throw fun h => by obtain ⟨s, -, hs, -⟩ := hT' h; cases hhead.symm.trans hs
  | some t =>
    cases t with
    | tensor s =>
      have hT'' : T → ∃ view, viewOf s (dimensions c.program i) extents = .ok view ∧ view.Proper := fun h => by
        obtain ⟨s', view, hs', hrest⟩ := hT' h
        cases hhead.symm.trans hs'
        exact ⟨view, hrest⟩
      refine (except_gives fun h => (hT'' h).imp fun _ hv => hv.1).bind fun view _ hview => ?_
      obtain ⟨hview, rfl⟩ := hview
      refine (viewApply_gives hs1 (fun v hv => hb.wellFormed.hasValue_argument (mem_of_mem_take hv))
        fun h => ⟨?_, fun v hv => (hT h).2.2 v (mem_of_mem_take hv)⟩).bind fun x d hx => ?_
      · obtain ⟨view', hview', hproper⟩ := hT'' h
        obtain rfl := Except.ok.inj (hview.symm.trans hview')
        exact hproper
      obtain ⟨seen, axes⟩ := x
      obtain ⟨rfl, js, xs, hlooks, hjs⟩ := hx
      refine (reduce_gives (hjs.stands hs1) (seen_hasValue (c := c1) hb hlooks hjs)
        (inits_memory (c := c1) hb hjs)).bind fun inner e hin => ?_
      have hbegun : BodyBegun body n view seen xs js inner c1 d e := ⟨hlooks, hjs, hin⟩
      obtain ⟨hbs, hie, hout, hsees⟩ := hbegun.clone hb
      have hinner := hin.new inner (mem_singleton.mpr rfl)
      refine (Gives.discard (Q := fun e' => ∃ q, (∃ φ cs,
        Edit.RegionCloned (e.program.ops.size + 1) φ inner 0 bs cs
        e.program q) ∧ e' = { e with program := q }) (edit_gives (Edit.cloneRegion_gives hin.wellFormed hbs hie
        hinner.2 hout hsees fun h => ⟨(hbegun.grown hb).creatable (hT h).1, ?_⟩))).bind fun _ e' he' => ?_
      · rw [hin.regions inner (mem_singleton.mpr rfl)]
        exact Nat.one_pos
      obtain ⟨q, ⟨φ, cs, hcl⟩, rfl⟩ := he'
      have hse : Stands body e := hin.stands (hjs.stands hs1)
      have hst : Stands body { e with program := q } :=
        ⟨hcl.wellFormed, hcl.later.hasBlock hse.hasBlock, hse.block,
          by rw [hcl.later.list body hse.hasBlock id]; exact hse.place⟩
      refine .discard ((terminator_gives hst).weaken fun last c' hlast => ?_)
      obtain ⟨hbuilt, hcreated⟩ := hbegun.built hb rfl hn ⟨s, hhead, hview⟩ hcl hlast
      exact ⟨_, hbuilt, hcreated⟩
    | _ => exact .throw fun h => by obtain ⟨s, -, hs, -⟩ := hT' h; cases hhead.symm.trans hs

end Offload.Distribution
