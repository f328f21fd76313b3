import Offload.Proofs.Mirrors
import Offload.Proofs.ReductionSteps

/-!
# What a distribution uses is in scope

Every operand of what a distribution writes is visible where it stands, provided that the body of the reduction
does not look out past an isolated launch.
-/

namespace Offload

open Program List

variable {a i j root x : OpId} {bs : List BlockId} {c : BlockId} {f : ValueId → ValueId} {m p q : Program}
  {r : Registry}

def Program.Sees (r : Registry) (p : Program) (root : OpId) : Prop :=
  ∀ x, p.Within root x → ∀ s ∈ (p.op x).operands, ∃ v, s = some v ∧ Visible r p root v x

theorem Rewired.sees (h : Rewired f p q) (wf : p.WellFormed)
    (hvis : ∀ v y, p.HasValue v → p.HasOp y → Visible r p root v y → Visible r q root (f v) y)
    (hs : p.Sees r root) :
    q.Sees r root := by
  intro y hy s' hs'
  rw [h.operands, mem_map] at hs'
  obtain ⟨s, hsm, rfl⟩ := hs'
  have hyp : p.HasOp y := hasOp_of_operand hsm
  obtain ⟨v, rfl, hv⟩ := hs y ((h.frame.within_iff wf hyp).mp hy) s hsm
  exact ⟨f v, rfl, hvis v y (wf.hasValue_operand hsm) hyp hv⟩

def Program.InBody (p : Program) (i x : OpId) : Prop :=
  ∃ bs, (p.op i).regions[0]? = some bs ∧ ∃ b ∈ bs, ∃ y ∈ (p.block b).ops, p.Within y x

/-- Nothing in the first region of `i` uses a value from outside of `i`. -/
def Program.Closed (p : Program) (i : OpId) : Prop :=
  ∀ x, p.InBody i x → ∀ v, some v ∈ (p.op x).operands → p.Within i (p.anchorOf v)

theorem Program.InBody.within (h : p.InBody i x) (wf : p.WellFormed) : p.Within i x := by
  obtain ⟨bs, hbs, b, hb, y, hy, hw⟩ := h
  have ho := (wf.owner_of_mem (mem_of_getElem? hbs) hb).2
  exact (Within.single (parent?_eq_some.mpr ⟨b, (wf.listed y b).mpr hy, ho⟩)).trans hw

theorem Mirrored.inBody_of_pair {depth n : Nat} {φ : ValueId → ValueId} {i inner x y : OpId} {bs cs : List BlockId}
    {t m : Program} (h : Mirrored depth φ i inner bs cs t m) (hbs : (t.op i).regions[0]? = some bs)
    (hp : Pair t m bs cs depth n x y) : t.InBody i x := by
  refine ⟨bs, hbs, ?_⟩
  induction hp with
  | @top b c x y hbc hxy => exact ⟨b, hbc.mem.1, x, hxy.mem.1, .refl⟩
  | @deeper n a k ds es b c x y _ hr hbc hxy ih =>
    obtain ⟨d, hd, z, hz, hw⟩ := ih
    have ho := (h.source.owner_of_mem hr.mem.1 hbc.mem.1).2
    exact ⟨d, hd, z, hz, .step (parent?_eq_some.mpr ⟨b, (h.source.listed x b).mpr hxy.mem.1, ho⟩) hw⟩

/-! ## Straight code -/

def Scoped (E : ValueId → Prop) : List Instr → Prop
  | [] => True
  | x :: xs => (∀ s ∈ x.operands, ∃ v, s = some v ∧ E v) ∧
      Scoped (fun v => E v ∨ v ∈ x.results.map Prod.fst) xs

namespace Scoped

variable {E F : ValueId → Prop} {xs ys : List Instr}

theorem mono (h : Scoped E xs) (hEF : ∀ v, E v → F v) : Scoped F xs := by
  induction xs generalizing E F with
  | nil => trivial
  | cons x xs ih =>
    refine ⟨fun s hs => ?_, ih h.2 fun v => Or.imp_left (hEF v)⟩
    obtain ⟨v, rfl, hv⟩ := h.1 s hs
    exact ⟨v, rfl, hEF v hv⟩

theorem append (h : Scoped E xs) (h' : Scoped (fun v => E v ∨ ∃ x ∈ xs, v ∈ x.results.map Prod.fst) ys) :
    Scoped E (xs ++ ys) := by
  induction xs generalizing E with
  | nil => exact h'.mono fun v => Or.rec id fun hx => by simp at hx
  | cons x xs ih =>
    refine ⟨h.1, ih h.2 (h'.mono fun v => ?_)⟩
    rintro (hv | ⟨y, hy, hv⟩)
    · exact .inl (.inl hv)
    · rcases mem_cons.mp hy with rfl | hy
      · exact .inl (.inr hv)
      · exact .inr ⟨y, hy, hv⟩

theorem of_forall (h : ∀ x ∈ xs, ∀ s ∈ x.operands, ∃ v, s = some v ∧ E v) : Scoped E xs := by
  induction xs generalizing E with
  | nil => trivial
  | cons x xs ih =>
    refine ⟨h x mem_cons_self, ih fun y hy s hs => ?_⟩
    obtain ⟨v, rfl, hv⟩ := h y (mem_cons_of_mem _ hy) s hs
    exact ⟨v, rfl, .inl hv⟩

theorem visible (wf : m.WellFormed) {js : List OpId}
    (hlist : js.Sublist (m.block c).ops) (hs : Scoped E (js.map (instr m)))
    (hE : ∀ v, E v → ∀ j ∈ js, Visible r m root v j) :
    ∀ j ∈ js, ∀ s ∈ (m.op j).operands, ∃ v, s = some v ∧ Visible r m root v j := by
  induction js generalizing E with
  | nil => simp
  | cons j js ih =>
    have hblock : ∀ k ∈ j :: js, (m.op k).block = some c := fun k hk => (wf.listed k c).mpr (hlist.subset hk)
    intro k hk
    rcases mem_cons.mp hk with rfl | hk
    · intro s hsm
      obtain ⟨v, rfl, hv⟩ := hs.1 s hsm
      exact ⟨v, rfl, hE v hv k mem_cons_self⟩
    refine ih ((sublist_cons_self j js).trans hlist) hs.2 (fun v hv k hk => ?_) k hk
    rcases hv with hv | hv
    · exact hE v hv k (mem_cons_of_mem _ hk)
    -- a result of the instruction in front
    have hres : v ∈ (m.op j).results := by simpa [instr] using hv
    obtain ⟨-, hhome, hdef⟩ := wf.source_result hres
    refine .here (hblock k (mem_cons_of_mem _ hk)) (by rw [hhome, hblock j mem_cons_self]) fun d hd => ?_
    obtain rfl : j = d := Option.mem_unique hdef hd
    obtain ⟨y, z, rfl⟩ := append_of_mem hk
    exact Precedes.of_sublist ⟨[], y, z, rfl⟩ hlist

end Scoped

namespace Distribution

variable {t m : Program} {i root : OpId} {b : BlockId} {place : Nat} {extents : List Int} {x : Lowering}
  {E : ValueId → Prop} {w : ValueId} {sections : List Section}

theorem Section.scoped_code (s : Section) {u : ValueId} (hs : s.plan.operand = some u) (hu : E u) (hw : E w) :
    Scoped E (s.code w) := by
  simp [Section.code, Scoped, hs, hu, hw]

theorem scoped_sections (hs : ∀ s ∈ sections, ∃ v, s.plan.operand = some v ∧ E v) (hw : E w) :
    Scoped E (sections.flatMap (Section.code w)) := by
  induction sections generalizing E with
  | nil => trivial
  | cons s sections ih =>
    obtain ⟨u, hop, hu⟩ := hs s mem_cons_self
    refine (s.scoped_code hop hu hw).append (ih (fun s' hs' => ?_) (.inl hw))
    obtain ⟨v, hop, hv⟩ := hs s' (mem_cons_of_mem _ hs')
    exact ⟨v, hop, .inl hv⟩

theorem scoped_headCode (hs : ∀ s ∈ sections, ∃ v, s.plan.operand = some v ∧ E v) :
    Scoped E (headCode extents w sections) := by
  refine ⟨by simp [workgroupCode], scoped_sections (fun s hs' => ?_) (.inr (by simp [workgroupCode]))⟩
  obtain ⟨v, hop, hv⟩ := hs s hs'
  exact ⟨v, hop, .inl hv⟩

theorem defined_headCode (extents : List Int) (w : ValueId) (sections : List Section) :
    (∃ y ∈ headCode extents w sections, w ∈ y.results.map Prod.fst) ∧
    ∀ s ∈ sections, ∃ y ∈ headCode extents w sections, s.buffer ∈ y.results.map Prod.fst := by
  refine ⟨⟨_, mem_cons_self, by simp [workgroupCode]⟩, fun s hs => ?_⟩
  have hmem : (s.buffer, s.plan.bufferType) ∈ (s.code w).flatMap Instr.results := by simp [s.code_results w]
  obtain ⟨y, hy, hv⟩ := mem_flatMap.mp hmem
  exact ⟨y, mem_cons_of_mem _ (mem_flatMap.mpr ⟨s, hs, hy⟩), mem_map_of_mem hv⟩

namespace Lowering

variable (x : Lowering)

def code (extents : List Int) : List Instr :=
  headCode extents x.workgroup x.sections ++ launchCode x.workgroup x.sections :: x.tailCode

theorem scoped_code (hs : ∀ s ∈ x.sections, ∃ v, s.plan.operand = some v ∧ E v) :
    Scoped E (x.code extents) := by
  obtain ⟨hw, hb⟩ := defined_headCode extents x.workgroup x.sections
  refine (scoped_headCode hs).append (.of_forall fun y hy s hsy => ?_)
  rcases mem_cons.mp hy with rfl | hy
  · rcases mem_cons.mp hsy with rfl | hsy
    · exact ⟨_, rfl, .inr hw⟩
    · obtain ⟨s, hs', rfl⟩ := mem_map.mp hsy
      exact ⟨_, rfl, .inr (hb s hs')⟩
  · obtain ⟨k, hk⟩ := getElem?_of_mem hy
    obtain ⟨s', g, hs', -, rfl⟩ := getElem?_zipWith_eq_some.mp hk
    have hsec : s' ∈ x.sections := mem_of_mem_drop (mem_of_getElem? hs')
    simp only [gatherCode, mem_cons, not_mem_nil, or_false] at hsy
    rcases hsy with rfl | rfl
    · exact ⟨_, rfl, .inr (hb s' hsec)⟩
    · exact ⟨_, rfl, .inr hw⟩

end Lowering

theorem BodyBuilt.scoped_code {y : Body} (h : BodyBuilt i c extents y t m) :
    Scoped (· ∈ (m.block c).args) (y.ops.map (instr m)) := by
  rw [Body.ops, map_append, h.views, map_cons, map_cons, h.inner, h.last, map_nil]
  refine Scoped.append (.of_forall fun z hz s hs => ?_) (.of_forall fun z hz s hs => ?_)
  · obtain ⟨v, hv, rfl⟩ := h.looks.mem_operands hz hs
    exact ⟨v, rfl, mem_of_mem_take hv⟩
  · simp only [mem_cons, not_mem_nil, or_false] at hz
    rcases hz with rfl | rfl
    · rcases mem_append.mp hs with hs | hs
      · obtain ⟨v, hv, rfl⟩ := mem_map.mp hs
        refine ⟨v, rfl, ?_⟩
        rcases h.looks.mem_seen hv with hv | ⟨z, hz, ty, hv⟩
        · exact .inl (mem_of_mem_take hv)
        · exact .inr ⟨z, hz, mem_map_of_mem hv⟩
      · obtain ⟨v, hv, rfl⟩ := mem_map.mp hs
        exact ⟨v, rfl, .inl (mem_of_mem_drop hv)⟩
    · cases hs

/-! ## Everything that is new -/

namespace Lowered

variable (h : Lowered i b place extents x t m) (wf : t.WellFormed) (hi : Spot t b place i)
include h

theorem code : x.ops.map (instr m) = x.code extents := by
  rw [Lowering.ops, map_append, map_cons, h.head, h.launch, h.tail, Lowering.code]

theorem owner : m.HasBlock x.block ∧ (m.block x.block).owner = x.launch :=
  h.wellFormed.owner_of_mem (by rw [h.region]; exact mem_singleton.mpr rfl) (mem_singleton.mpr rfl)

theorem parent_of_body (hj : j ∈ x.body.ops) : (m.op j).block = some x.block ∧ m.parent? j = some x.launch := by
  have hb : (m.op j).block = some x.block := (h.wellFormed.listed j _).mpr (by rwa [h.body.list])
  exact ⟨hb, parent?_eq_some.mpr ⟨_, hb, h.owner.2⟩⟩

theorem mem_body_of_parent (ha : a ∈ x.ops) (hp : m.parent? j = some a) : j ∈ x.body.ops := by
  obtain ⟨c, hc, ho⟩ := parent?_eq_some.mp hp
  obtain ⟨cs, hcs, hmem⟩ := (h.wellFormed.region a _ c).mpr ⟨h.wellFormed.hasBlock_of_block hc, ho, rfl⟩
  rcases mem_append.mp ha with ha | ha
  · rw [h.flat a (mem_append_left _ ha)] at hcs
    cases hcs
  rcases mem_cons.mp ha with rfl | ha
  · rw [h.region] at hcs
    obtain rfl : cs = [x.block] := by simpa using mem_of_getElem? hcs
    rw [← h.body.list, ← mem_singleton.mp hmem]
    exact (h.wellFormed.listed j c).mp hc
  · rw [h.flat a (mem_append_right _ ha)] at hcs
    cases hcs

theorem eq_inner_of_parent (ha : a ∈ x.body.ops) (hp : m.parent? j = some a) : a = x.body.inner := by
  by_contra hne
  obtain ⟨c, hc, ho⟩ := parent?_eq_some.mp hp
  obtain ⟨cs, hcs, -⟩ := (h.wellFormed.region a _ c).mpr ⟨h.wellFormed.hasBlock_of_block hc, ho, rfl⟩
  have hmem : a ∈ x.body.views ++ [x.body.last] := by
    simp only [Body.ops, mem_append, mem_cons, not_mem_nil, or_false] at ha ⊢
    rcases ha with ha | ha | ha
    · exact .inl ha
    · exact absurd ha hne
    · exact .inr ha
  rw [h.body.flat a hmem] at hcs
  cases hcs

include wf hi

theorem new_cases (hroot : t.HasOp root) (hw : m.Within root j) (hj : ¬ t.HasOp j) :
    j ∈ x.ops ∨ j ∈ x.body.ops ∨ m.Within x.body.inner j ∧ j ≠ x.body.inner := by
  induction hw with
  | refl => exact absurd hroot hj
  | @step j a hp hw ih =>
    by_cases ha : t.HasOp a
    · exact .inl (h.mem_of_parent hi wf ha hp hj)
    rcases ih ha with hmem | hmem | ⟨hin, hne⟩
    · exact .inr (.inl (h.mem_body_of_parent hmem hp))
    · obtain rfl := h.eq_inner_of_parent hmem hp
      exact .inr (.inr ⟨.step hp .refl, fun heq => h.wellFormed.not_within_of_parent hp (heq ▸ .refl)⟩)
    · exact .inr (.inr ⟨.step hp hin, fun heq => h.wellFormed.not_within_of_parent hp (heq ▸ hin)⟩)

theorem visible_before {v : ValueId} (hroot : t.HasOp root) (hv : t.HasValue v)
    (hvis : Visible r t root v i) (hj : j ∈ x.ops) : Visible r m root v j := by
  have hframe := h.later.frame
  have hib := hi.block wf
  have hjr : j ≠ root := fun heq => h.new j (mem_append_left _ hj) (heq ▸ hroot)
  cases hvis with
  | @here _ c hc hh hd =>
    obtain rfl : c = b := Option.mem_unique hc hib
    refine .here (h.block_of_mem hi hj) (by rw [hframe.homeOf wf hv, hh]) fun d hdef => ?_
    rw [definingOp?, (hframe.value v hv).2] at hdef
    obtain ⟨l, rest, hops, hm⟩ := h.list_at hi
    have hbefore := hd d hdef
    have honce := wf.once c
    rw [hops] at hbefore honce
    obtain ⟨y, z, rfl⟩ := append_of_mem (hbefore.mem_before honce)
    obtain ⟨y', z', hx⟩ := append_of_mem hj
    exact ⟨y, z ++ y', z' ++ i :: rest, by rw [hm, hx]; simp⟩
  | @up _ a hp hr hiso hva =>
    have ha := wf.hasOp_parent hp
    obtain ⟨c, hc, ho⟩ := parent?_eq_some.mp hp
    obtain rfl : c = b := Option.mem_unique hc hib
    refine .up (parent?_eq_some.mpr ⟨c, h.block_of_mem hi hj, ?_⟩) hjr (by rwa [h.later.op a ha id])
      (hframe.visible wf (h.sublist hi) hv ha hva)
    rw [hframe.owner (wf.hasBlock_of_block hc), ho]

omit hi in
theorem mirrored (hbs : (t.op i).regions[0]? = some bs) :
    Mirrored x.body.depth x.body.rename i x.body.inner bs x.body.copies t m :=
  ⟨wf, h.wellFormed, ⟨0, hbs⟩, h.body.region, h.body.copied bs hbs⟩

section
variable {r : Registry} {bs : List BlockId} (hroot : t.HasOp root) (hin : t.Within root i)
  (hbs : (t.op i).regions[0]? = some bs) (hreduce : (r.traits Reduction.reduceName).isolated = false)
  (hclosed : (r.traits Workgroup.launchName).isolated = false ∨ t.Closed i) (hs : t.Sees r root)
include hroot hin hs

theorem sees_before : ∀ j ∈ x.ops, ∀ s ∈ (m.op j).operands, ∃ v, s = some v ∧ Visible r m root v j := by
  obtain ⟨l, rest, -, hm⟩ := h.list_at hi
  have hcode : Scoped (fun v => some v ∈ (t.op i).operands) (x.ops.map (instr m)) := by
    rw [h.code]
    refine x.scoped_code fun s hs => ?_
    obtain ⟨o, ho, hp⟩ := forall₂_mem_right h.plans hs
    obtain ⟨v, -, rfl, -, hop, -⟩ := planOperand_ok hp
    exact ⟨v, hop, ho⟩
  refine hcode.visible h.wellFormed (c := b) ?_ fun v hv j hj => ?_
  · rw [hm, append_assoc]
    exact (sublist_append_left _ _).trans (sublist_append_right _ _)
  · obtain ⟨u, hu, hvis⟩ := hs i hin _ hv
    obtain rfl := Option.some.inj hu
    exact h.visible_before wf hi hroot (wf.hasValue_operand hv) hvis hj

omit wf hi hroot hin hs in
theorem sees_body : ∀ j ∈ x.body.ops, ∀ s ∈ (m.op j).operands, ∃ v, s = some v ∧ Visible r m root v j := by
  refine h.body.scoped_code.visible h.wellFormed (c := x.block) (by rw [h.body.list]) fun v hv j hj => ?_
  obtain ⟨k, hk⟩ := getElem?_of_mem hv
  have hsrc := ((h.wellFormed.argument _ k v).mp hk).2
  exact .here (h.parent_of_body hj).1 (by simp only [homeOf, hsrc]) (by simp [definingOp?, hsrc])

include hbs hreduce hclosed

theorem sees_copy (hj : m.Within x.body.inner j) (hne : j ≠ x.body.inner) :
    ∀ s ∈ (m.op j).operands, ∃ v, s = some v ∧ Visible r m root v j := by
  have hmir := h.mirrored wf hbs
  obtain ⟨n, a, hp⟩ := hmir.exists_pair hj hne
  obtain ⟨d, had, hwd⟩ := hmir.parent_of_pair hp
  have hai : t.Within i a := .step had hwd
  intro s' hs'
  obtain ⟨s, hsm, hrel⟩ := forall₂_mem_right (hmir.opCopied hp).operands hs'
  obtain ⟨v, rfl, hvis⟩ := hs a (hin.trans hai) s hsm
  cases hrel with
  | some heq =>
  subst heq
  have hv := wf.hasValue_operand hsm
  refine ⟨_, rfl, hmir.visible hroot (fun hvi _ => ?_) hvis hp hv⟩
  have hinner : x.body.inner ∈ x.body.ops := by simp [Body.ops]
  have hout := wf.not_defines_of_visible hvi
  have hkeep : x.body.rename v = v := hmir.copied.old v hv fun c hc hheld => by
    obtain ⟨-, hown⟩ := Cloning.defines_of_holds wf hheld
    rw [(wf.owner_of_mem (mem_of_getElem? hbs) hc).2] at hown
    exact hout hown
  have hlaunch : r.isIsolated (m.op x.launch) = false := by
    rw [Registry.isIsolated, show (m.op x.launch).name = Workgroup.launchName from congrArg Instr.name h.launch]
    exact hclosed.resolve_right fun hcl => hout (hcl a (hmir.inBody_of_pair hbs hp) v hsm)
  refine ⟨?_, .up (h.parent_of_body hinner).2 (fun heq => ?_) hlaunch ?_⟩
  · rwa [Registry.isIsolated, show (m.op x.body.inner).name =
      Reduction.reduceName from congrArg Instr.name h.body.inner]
  · exact h.new _ (mem_append_right _ hinner) (heq ▸ hroot)
  · rw [hkeep]
    exact h.visible_before wf hi hroot hv hvi (by simp [Lowering.ops])

theorem sees : m.Sees r root := by
  intro y hy
  by_cases hold : t.HasOp y
  · intro s hsm
    rw [h.later.op y hold id] at hsm
    obtain ⟨v, rfl, hvis⟩ := hs y ((h.later.frame.within_iff wf hold).mp hy) s hsm
    exact ⟨v, rfl, h.later.frame.visible wf (h.sublist hi) (wf.hasValue_operand hsm) hold hvis⟩
  rcases h.new_cases wf hi hroot hy hold with hmem | hmem | ⟨hw, hne⟩
  · exact h.sees_before wf hi hroot hin hs y hmem
  · exact h.sees_body y hmem
  · exact h.sees_copy wf hi hroot hin hbs hreduce hclosed hs hw hne

end

end Lowered

theorem Exchanged.sees (h : Exchanged i b place extents x f t m q) (hs : m.Sees r root) : q.Sees r root :=
  h.rewired.sees h.lowered.wellFormed (fun _ _ => h.visible) hs

end Distribution

end Offload
