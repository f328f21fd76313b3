import Offload.Proofs.Conversions
import Offload.Proofs.Driver
import Offload.Proofs.ReductionChains

/-!
# Runs of a distribution

The driver distributes one reduction after the other, outer ones first, so that a run is a chain of exchanges
after which the reductions that were exchanged are removed.
-/

namespace Offload.Distribution

open Program Rewrite Rewriting Reduction List

variable {j : OpId} {stats : Stats}
variable {sel : Selector} {root i : OpId} {p q : Program} {rest worklist : List OpId} {b : BlockId} {place : Nat}
  {extents : List Int} {x : Lowering} {f : ValueId → ValueId} {m : Program} {s s' : Session Unit}

/-! ## What may stay -/

theorem legality_reduce (hn : (p.op i).name = reduceName) : (target sel).legality p i =
    (do return if (← sel.select p i).isNone then .legal else .illegal : Except Fault Legality) := by
  simp only [Target.legality, target, hn, lookup_cons_self]
  cases sel.select p i <;> rfl

theorem legality_other (hn : (p.op i).name ≠ reduceName) : (target sel).legality p i = .ok .unknown := by
  have hlookup : (target sel).dynamic.lookup (p.op i).name = none := by
    rw [target, lookup_cons, beq_false_of_ne hn]
    rfl
  rw [Target.legality, hlookup]
  rfl

theorem of_illegal (h : (target sel).legality p i = .ok .illegal) :
    (p.op i).name = reduceName ∧ ∃ extents, sel.select p i = .ok (some extents) := by
  by_cases hn : (p.op i).name = reduceName
  · rw [legality_reduce hn] at h
    cases hs : sel.select p i with
    | error e => simp [hs, bind, Except.bind] at h
    | ok o =>
      cases o with
      | none => simp [hs, bind, Except.bind, pure, Except.pure] at h
      | some extents => exact ⟨hn, extents, rfl⟩
  · rw [legality_other hn] at h
    cases h

theorem settled_iff : Settled .full (target sel) p i ↔
    ((p.op i).name = reduceName → sel.select p i = .ok none) := by
  by_cases hn : (p.op i).name = reduceName
  · rw [Settled, legality_reduce hn]
    cases hs : sel.select p i with
    | error e => simp [hn, bind, Except.bind]
    | ok o => cases o <;> simp [hn, bind, Except.bind, pure, Except.pure, Target.accepts]
  · simp only [hn, false_implies, iff_true]
    exact ⟨.unknown, legality_other hn, .inl rfl⟩

theorem legality_congr (hn : (q.op i).name = (p.op i).name) (hu : Unchanged i p q) :
    (target sel).legality q i = (target sel).legality p i := by
  by_cases hr : (p.op i).name = reduceName
  · rw [legality_reduce hr, legality_reduce (hn.trans hr), hu.select]
  · rw [legality_other hr, legality_other (by rwa [hn])]

/-! ## One rewrite -/

theorem Lowering.mem_created {k : OpId} : k ∈ x.created ↔ k ∈ x.ops ++ x.body.ops := by
  simp only [Lowering.created, Lowering.ops, mem_append, mem_cons]
  tauto

namespace Applied

variable (h : Applied sel i b extents x f m s s')
include h

theorem inserted {a j : OpId} (ha : s.work.program.HasOp a) (hj : ¬ s.work.program.HasOp j)
    (hw : s'.work.program.Within a j) : ∃ k ∈ x.created, s'.work.program.Within k j := by
  have hx := h.exchanged
  obtain ⟨c, hc, -⟩ := hw.of_ne fun heq => hj (heq ▸ ha)
  have hjm : m.HasOp j := (hx.rewired.same.hasOp j).mp (hasOp_of_parent hc)
  have hwithin := fun k => hx.rewired.frame.within_iff hx.lowered.wellFormed (a := k) hjm
  rcases hx.lowered.new_cases hx.wf hx.spot ha ((hwithin a).mp hw) hj with hmem | hmem | ⟨hin, -⟩
  · exact ⟨j, Lowering.mem_created.mpr (mem_append_left _ hmem), .refl⟩
  · exact ⟨j, Lowering.mem_created.mpr (mem_append_right _ hmem), .refl⟩
  · exact ⟨x.body.inner, Lowering.mem_created.mpr (mem_append_right _ (by simp [Body.ops])), (hwithin _).mpr hin⟩

theorem tracked (hd : s.deferred = true) : Tracked s s' where
  wellFormed := h.exchanged.wellFormed
  hasOp _ := h.exchanged.frame.hasOp
  name j hj := by rw [h.exchanged.frame.op j hj]
  parent _ hj := h.exchanged.frame.parent? h.exchanged.wf hj
  inserted a j ha hj hw := by
    obtain ⟨k, hk, hw⟩ := h.inserted ha hj hw
    exact ⟨k, by rw [h.created]; exact mem_append_right _ hk, hw⟩
  created k hk := by
    rw [h.created, mem_append] at hk
    exact hk.imp_right fun hk => h.exchanged.lowered.new k (Lowering.mem_created.mp hk)
  listed := by rw [h.created]; exact subset_append_left ..
  erased := by rw [h.erased]; exact subset_cons_self ..
  pending hs k := by
    rw [h.erased, h.pending, mem_cons, mem_append, mem_singleton, hs k, or_comm]
  deferred := h.deferred.trans hd.symm

theorem of_mem_followUp (hc : s.work.created = []) (hin : s.work.program.Within root i) (hne : i ≠ root)
    (hj : j ∈ followUp (target sel) s') :
    ¬ s.work.program.HasOp j ∧ s'.work.program.Within root j := by
  have hx := h.exchanged
  have hframe := hx.frame
  rw [followUp, mem_eraseDups, mem_flatMap, h.created, hc, nil_append] at hj
  obtain ⟨k, hk, hj⟩ := hj
  have hk := Lowering.mem_created.mp hk
  have hknew := hx.lowered.new k hk
  have hkj : s'.work.program.Within k j := by
    rcases mem_cons.mp hj with rfl | hj
    · exact .refl
    · rw [insideOf] at hj
      split at hj
      · have hout : s'.work.program.Outside (target sel).shut k j := hx.wellFormed.mem_preorder.mp hj
        exact hout.within
      · cases hj
  have hib := hx.spot.block hx.wf
  have hpi : s.work.program.parent? i = some (s.work.program.block b).owner := parent?_eq_some.mpr ⟨b, hib, rfl⟩
  have hup : s'.work.program.Within root (s.work.program.block b).owner := by
    obtain ⟨a, ha, hw⟩ := hin.of_ne hne.symm
    obtain rfl := Option.mem_unique hpi ha
    exact (hframe.within_iff hx.wf (hx.wf.hasOp_parent hpi)).mpr hw
  have hbefore : ∀ k ∈ x.ops, s'.work.program.Within root k := by
    intro k hk
    refine .step (parent?_eq_some.mpr ⟨b, ?_, ?_⟩) hup
    · rw [hx.rewired.same.op k]
      exact hx.lowered.block_of_mem hx.spot hk
    · exact hframe.owner (hx.wf.hasBlock_of_block hib)
  have hroots : s'.work.program.Within root k := by
    rcases mem_append.mp hk with hk | hk
    · exact hbefore k hk
    · refine .step ?_ (hbefore x.launch (by simp [Lowering.ops]))
      rw [hx.rewired.same.parent?]
      exact (hx.lowered.parent_of_body hk).2
  exact ⟨fun hold => hknew (hx.wf.within_hasOp ((hframe.within_iff hx.wf hold).mp hkj) hold), hroots.trans hkj⟩

end Applied

/-! ## The invariant of a run -/

structure Ground (root : OpId) (p : Program) : Prop where
  wellFormed : p.WellFormed
  hasRoot : p.HasOp root
  sees : p.Sees [] root
  region : ∀ j, p.Outside isLaunch root j → (p.op j).name = Reduction.reduceName →
    ∃ bs, (p.op j).regions[0]? = some bs

theorem visible_unisolated {r : Registry} {v : ValueId} (h : Visible r p root v i) : Visible [] p root v i := by
  induction h with
  | here hb hh hd => exact .here hb hh hd
  | up hp hne _ _ ih => exact .up hp hne rfl ih

theorem checkReduce_of_checkKind (h : p.checkKind catalogue i = .ok ()) (hn : (p.op i).name = reduceName) :
    checkReduce p i = .ok () := by
  have hinfo : catalogue.info? reduceName = registry.head? := rfl
  rw [checkKind, hn, hinfo] at h
  exact mapError_ok.mp h

theorem checkReduce_of_verify (hv : p.verify catalogue root = .ok ()) (wf : p.WellFormed) (hi : p.Within root i)
    (hn : (p.op i).name = reduceName) : checkReduce p i = .ok () :=
  checkReduce_of_checkKind (verifyOp_ok.mp (verify_ok.mp hv i (wf.mem_nested.mpr hi))).2.2 hn

theorem ground_of_verify (wf : p.WellFormed) (hr : p.HasOp root) (hv : p.verify catalogue root = .ok ()) :
    Ground root p where
  wellFormed := wf
  hasRoot := hr
  sees y hy slot hslot := by
    obtain ⟨hops, -, -⟩ := verifyOp_ok.mp (verify_ok.mp hv y (wf.mem_nested.mpr hy))
    obtain ⟨v, rfl, hvis⟩ := hops slot hslot
    exact ⟨v, rfl, visible_unisolated (wf.visible_ok.mp hvis)⟩
  region j hj hn := by
    obtain ⟨_, _, _, _, c, hc⟩ := checked_of_checkReduce (checkReduce_of_verify hv wf hj.within hn)
    obtain ⟨bs, rs, hregions⟩ := hc.body
    exact ⟨c :: bs, by rw [hregions]; rfl⟩

/-- Between two steps the program is at the end of a chain, and of what is still on the list nothing holds
something on the list before it, or something that was distributed. -/
structure Underway (sel : Selector) (root : OpId) (p : Program) (worklist : List OpId) (s : Session Unit) : Prop
    extends Covered .full root (target sel) worklist s where
  chain : Chain sel root p s.erased s.work.program
  listed : ∀ j ∈ worklist, s.work.program.Within root j ∧ j ≠ root
  outwards : worklist.Pairwise fun a c => p.HasOp c → ¬ s.work.program.Within c a
  done : ∀ e ∈ s.erased, ∀ a ∈ worklist, p.HasOp a → ¬ s.work.program.Within a e
  counted : s.rewritten = s.erased.length

namespace Underway

theorem start (hp : Ground root p) : Underway sel root p
    (p.preorder (fun j => !(target sel).isRecursivelyLegal p j) root)
    { work := { program := p }, deferred := true, extra := () } where
  toCovered := .start () hp.wellFormed hp.hasRoot
  chain := .start
  listed j hj := by
    have hout : p.Outside (target sel).shut root j := hp.wellFormed.mem_preorder.mp hj
    exact ⟨hout.within, hout.ne_root hp.wellFormed⟩
  outwards := by
    refine List.Pairwise.imp ?_ (hp.wellFormed.preorder_outwards _ root)
    intro a c hac _
    exact hac
  done _ he := by cases he
  counted := rfl

theorem skip (h : Underway sel root p (i :: rest) s) (hi : Skipped root (target sel) s i) :
    Underway sel root p rest s where
  toCovered := h.toCovered.skip hi
  chain := h.chain
  listed j hj := h.listed j (mem_cons_of_mem _ hj)
  outwards := (pairwise_cons.mp h.outwards).2
  done e he a ha := h.done e he a (mem_cons_of_mem _ ha)
  counted := h.counted

theorem hasOp (h : Underway sel root p worklist s) (hj : j ∈ worklist) : s.work.program.HasOp j := by
  obtain ⟨hw, hne⟩ := h.listed j hj
  obtain ⟨a, ha, -⟩ := hw.of_ne hne.symm
  exact hasOp_of_parent ha

theorem outside (h : Underway sel root p worklist s) (hi : i ∈ worklist)
    (hin : (target sel).isInside s.work.program i root = false) : s.work.program.Outside isLaunch root i := by
  obtain ⟨hw, hne⟩ := h.listed i hi
  rw [← shut_target sel]
  exact (isInside_iff h.wellFormed hw hne).mp hin

theorem sees (h : Underway sel root p worklist s) (hp : Ground root p) : s.work.program.Sees [] root :=
  h.chain.sees hp.wellFormed hp.hasRoot hp.region rfl (.inl rfl) hp.sees

theorem workable (h : Underway sel root p (i :: rest) s) (hp : Ground root p)
    (hin : (target sel).isInside s.work.program i root = false) (hn : (s.work.program.op i).name = reduceName)
    (hb : (s.work.program.op i).block = some b) (hidx : (s.work.program.block b).ops.idxOf? i = some place)
    (loc : String) : ∃ bs, Workable [] root i b bs (placed s b place loc) := by
  have hout := h.outside mem_cons_self hin
  have hold := h.chain.hasOp_reduce hp.hasRoot hout hn
  have hframe := h.chain.frame
  obtain ⟨bs, hbs⟩ := hp.region i ((hframe.outside_iff hp.wellFormed hold).mp hout)
    (by rwa [hframe.op i hold] at hn)
  refine ⟨bs, h.deferred, h.wellFormed, rfl, ?_, ?_, fun y hy _ slot hslot => ?_⟩
  · obtain ⟨c, l, r, hc, -, hops, hplace⟩ := Build.before_of_idxOf?
      (c := (placed s b place loc).work) hb hidx rfl rfl
    obtain rfl : b = c := Option.some.inj hc
    exact ⟨l, r, hops, hplace⟩
  · show (s.work.program.op i).regions[0]? = some bs
    rwa [hframe.op i hold]
  · exact h.sees hp y (hout.within.trans hy) slot hslot

theorem rewrite (h : Underway sel root p (i :: rest) s) (hp : Ground root p) (hns : ¬ Skipped root (target sel) s i)
    (hn : (s.work.program.op i).name = reduceName) {loc : String}
    (ha : Applied sel i b extents x f m (placed s b place loc) s') :
    Underway sel root p (followUp (target sel) s' ++ rest) (afterRewrite s') := by
  have hx := ha.exchanged
  have htracked := ha.tracked h.deferred
  have hin : (target sel).isInside s.work.program i root = false := by
    by_contra hin
    exact hns (.inr (.inl (by simpa using hin)))
  have hout := h.outside mem_cons_self hin
  have hi := h.hasOp mem_cons_self
  have hold := h.chain.hasOp_reduce hp.hasRoot hout hn
  have hframe := h.chain.frame
  obtain ⟨hfirst, hpairs⟩ := pairwise_cons.mp h.outwards
  have hrest : ∀ j ∈ rest, s.work.program.HasOp j := fun j hj => h.hasOp (mem_cons_of_mem _ hj)
  have hwithin : ∀ {a j}, s.work.program.HasOp j → (s'.work.program.Within a j ↔ s.work.program.Within a j) :=
    fun hj => hx.frame.within_iff hx.wf hj
  have hnew : ∀ j ∈ followUp (target sel) s', ¬ s.work.program.HasOp j ∧ s'.work.program.Within root j :=
    fun j hj => ha.of_mem_followUp h.created hout.within (hout.ne_root h.wellFormed) hj
  have hnewp : ∀ j ∈ followUp (target sel) s', ¬ p.HasOp j := fun j hj hjp => (hnew j hj).1 (hframe.hasOp hjp)
  have hapart : ∀ e ∈ s.erased, ¬ s.work.program.Within e i ∧ ¬ s.work.program.Within i e := fun e he =>
    ⟨fun hw => hns (.inl ((erasedAt_iff h.wellFormed).mpr ⟨e, he, hw⟩)), h.done e he i mem_cons_self hold⟩
  refine {
    toCovered := ?_, chain := ?_, listed := fun j hj => ?_, outwards := ?_
    done := fun e he a hmem hap => ?_, counted := ?_ }
  · have hplaced : Covered .full root (target sel) (i :: rest) (placed s b place loc) :=
      { h.toCovered with covered := h.covered }
    refine hplaced.rewrite htracked (fun j hj _ => legality_congr (htracked.name j hj) (hx.unchanged hj)) (.inl ?_)
    exact (erasedAt_iff htracked.wellFormed).mpr ⟨i, by rw [ha.erased]; exact mem_cons_self, .refl⟩
  · show Chain sel root p s'.erased s'.work.program
    rw [ha.erased]
    exact .step h.chain hout hn ha.chosen hapart hx
  · rcases mem_append.mp hj with hj | hj
    · exact ⟨(hnew j hj).2, fun heq => (hnew j hj).1 (heq ▸ h.hasRoot)⟩
    · obtain ⟨hw, hne⟩ := h.listed j (mem_cons_of_mem _ hj)
      exact ⟨(hwithin (hrest j hj)).mpr hw, hne⟩
  · refine pairwise_append.mpr ⟨?_, ?_, fun a hmem c hc hcp hw => ?_⟩
    · exact pairwise_of_forall_mem_list fun a _ c hc hcp => absurd hcp (hnewp c hc)
    · exact hpairs.imp_of_mem fun hmem _ hac hcp hw => hac hcp ((hwithin (hrest _ hmem)).mp hw)
    · exact hfirst c hc hcp (hx.within_of_new (hrest c hc) hw (hnew a hmem).1).1
  · have harest : a ∈ rest := (mem_append.mp hmem).resolve_left fun hf => hnewp a hf hap
    have he : e ∈ i :: s.erased := by rw [← show s'.erased = i :: s.erased from ha.erased]; exact he
    intro hw
    rcases mem_cons.mp he with rfl | he
    · exact hfirst a harest hap ((hwithin hi).mp hw)
    · have hes := hframe.hasOp (h.chain.of_mem hp.wellFormed hp.hasRoot he).1
      exact h.done e he a (mem_cons_of_mem _ harest) hap ((hwithin hes).mp hw)
  · show s'.rewritten + 1 = s'.erased.length
    rw [ha.rewritten, ha.erased, length_cons]
    exact congrArg (· + 1) h.counted

end Underway

def patterns (sel : Selector) : List (Pattern Unit) := [⟨Reduction.reduceName, distributeReduction sel⟩]

theorem quiet_patterns (sel : Selector) : Quiet (patterns sel) := by
  intro pattern hmem i s s' h
  obtain rfl := mem_singleton.mp hmem
  simp only [distributeReduction, bind_ok, program_ok, fail_ok] at h
  obtain ⟨_, _, ⟨rfl, rfl⟩, o, _, ⟨-, rfl⟩, h⟩ := h
  cases o with
  | none =>
    simp only [pure_ok, true_and] at h
    exact h.symm
  | some extents =>
    simp only [bind_ok, pure_ok] at h
    obtain ⟨_, _, _, _, _, _, h, _⟩ := h
    cases h

theorem keeps_underway (hp : Ground root p) : Keeps root (target sel) (patterns sel) (Underway sel root p) where
  skip _ _ _ h hi := h.skip hi
  rewrite i rest s b place pattern s' h hns hl hb hidx hmem hk ht := by
    obtain rfl := mem_singleton.mp hmem
    have hin : (target sel).isInside s.work.program i root = false := by
      by_contra hin
      exact hns (.inr (.inl (by simpa using hin)))
    obtain ⟨bs, hwork⟩ := h.workable hp hin hk.symm hb hidx (s.work.program.op i).loc
    obtain ⟨extents, x, f, m, ha⟩ := hwork.applied ht
    exact h.rewrite hp hns hk.symm ha

/-! ## The end of a run -/

structure Finished (sel : Selector) (root : OpId) (p : Program) (es fs : List OpId) (t q : Program) : Prop where
  chain : Chain sel root p es t
  cleared : Cleared fs t q
  subset : ∀ e ∈ fs, e ∈ es
  kept : ∀ i, q.Within root i → ∀ e ∈ es, ¬ t.Within e i
  legal : ∀ i, q.Outside isLaunch root i → (q.op i).name = Reduction.reduceName → sel.select q i = .ok none

theorem unchanged_of_cleared {fs : List OpId} {t : Program} (h : Cleared fs t q) (hi : ∀ e ∈ fs, ¬ t.Within e i) :
    Unchanged i t q := by
  have hop := h.stays i hi
  refine ⟨by rw [hop], by rw [hop], ?_⟩
  rw [hop]
  refine map_congr_left fun slot _ => ?_
  cases slot with
  | none => rfl
  | some v => exact congrArg some (h.typeOf v)

theorem Underway.finished {t : Session Unit} (h : Underway sel root p [] s) (hp : Ground root p)
    (hc : (commit : Rewriting Unit _) s = .ok none t) :
    ∃ fs, Finished sel root p s.erased fs s.work.program t.work.program := by
  have hroot : erasedAt t root = false := by
    by_contra hgone
    obtain ⟨e, he, hw⟩ := (erasedAt_iff h.wellFormed).mp (erasedAt_of_commit h.wellFormed hc (by simpa using hgone))
    obtain ⟨hep, hout, -⟩ := h.chain.of_mem hp.wellFormed hp.hasRoot he
    have hout := (h.chain.frame.outside_iff hp.wellFormed hep).mpr hout
    exact hout.ne_root h.wellFormed (h.wellFormed.within_antisymm hw hout.within)
  obtain ⟨-, fs, hcleared, hsub, hkept⟩ := commit_cleared h.toCovered hc hroot
  have hkept' : ∀ i, t.work.program.Within root i → ∀ e ∈ s.erased, ¬ s.work.program.Within e i := by
    intro i hi e he hw
    have hgone := (erasedAt_iff h.wellFormed).mpr ⟨e, he, hw⟩
    rw [hkept i hi] at hgone
    cases hgone
  refine ⟨fs, h.chain, hcleared, hsub, hkept', fun i hi hn => ?_⟩
  have hin := hi.within
  rw [← shut_target sel] at hi
  have hsettled := (h.covered i (hcleared.outside hi) (hkept i hin)).resolve_left not_mem_nil
  have hop : t.work.program.op i = s.work.program.op i := hcleared.stays i fun e he => hkept' i hin e (hsub e he)
  rw [(unchanged_of_cleared hcleared fun e he => hkept' i hin e (hsub e he)).select]
  exact settled_iff.mp hsettled (by rwa [← hop])

/-! ## The pass -/

def outside (p : Program) (root : OpId) : List OpId :=
  p.preorder (fun j => (p.op j).name ≠ Workgroup.launchName) root

theorem mem_outside (wf : p.WellFormed) : i ∈ outside p root ↔ p.Outside isLaunch root i := by
  have hdescend : (fun j => decide ((p.op j).name ≠ Workgroup.launchName)) = fun j => !isLaunch (p.op j).name := by
    funext j
    simp [isLaunch]
  rw [outside, hdescend, wf.mem_preorder]

theorem firstOnMemory_eq_none : ∀ {l : List OpId}, firstOnMemory p l = .ok none ↔
    ∀ i ∈ l, (p.op i).name = reduceName → onTensors p i = .ok true
  | [] => by simp [firstOnMemory]
  | j :: l => by
    rw [firstOnMemory, forall_mem_cons, ← firstOnMemory_eq_none (l := l)]
    by_cases hn : (p.op j).name = reduceName
    · rw [if_pos hn]
      cases ht : onTensors p j with
      | error e => simp [hn, bind, Except.bind]
      | ok b => cases b <;> simp [hn, bind, Except.bind, pure, Except.pure]
    · rw [if_neg hn]
      simp [hn]

theorem asEdit_ok {α : Type} {deferred : Bool} {y : Rewriting Unit α} {r : α} : asEdit deferred y p = .ok r q ↔
    ∃ s, Rewrite.start deferred () y p = .ok r s ∧ s.work.program = q := by
  rw [asEdit]
  cases Rewrite.start deferred () y p with
  | ok r' s => simp
  | error e s => simp

def run (sel : Selector) (root : OpId) (p : Program) :
    EStateM.Result Fault (Session Unit) (Stats × Option ConversionError) :=
  Rewrite.start true () (convert .full root (target sel) (patterns sel) p.ops.size) p

theorem distribute_ok : distribute sel root p = .ok (stats, none) q ↔
    firstOnMemory p (outside p root) = .ok none ∧ ∃ s, run sel root p = .ok (stats, none) s ∧
      s.work.program = q := by
  rw [distribute, bind_of_ok (get_ok.mpr ⟨rfl, rfl⟩)]
  dsimp only
  cases hf : firstOnMemory p (outside p root) with
  | error e =>
    rw [outside] at hf
    rw [hf]
    simp
  | ok o =>
    rw [outside] at hf
    rw [hf]
    cases o with
    | some i => simp
    | none =>
      simp only [bind_ok, asEdit_ok, pure_ok, Prod.mk.injEq, Option.map_eq_none_iff, true_and]
      constructor
      · rintro ⟨⟨st, error⟩, _, ⟨s, hs, rfl⟩, ⟨rfl, rfl⟩, rfl⟩
        exact ⟨s, hs, rfl⟩
      · rintro ⟨s, hs, rfl⟩
        exact ⟨(stats, none), _, ⟨s, hs, rfl⟩, ⟨rfl, rfl⟩, rfl⟩

theorem finished_of_distribute (hp : Ground root p) (h : distribute sel root p = .ok (stats, none) q) :
    ∃ es fs t, Finished sel root p es fs t q := by
  obtain ⟨-, s, hs, rfl⟩ := distribute_ok.mp h
  obtain ⟨t, ht, hc⟩ := convert_ok hs
  have hend := steps_ok rfl (quiet_patterns sel) (keeps_underway hp) _ _ (.start hp) ht
  obtain ⟨fs, hf⟩ := hend.finished hp hc
  exact ⟨_, fs, _, hf⟩

end Offload.Distribution
