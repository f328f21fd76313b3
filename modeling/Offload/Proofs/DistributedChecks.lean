import Offload.Proofs.LaunchChecks
import Offload.Proofs.ReductionRuns

/-!
# A distribution keeps what passes

What was there looks as it did, what was copied looks like the original, and the rest of what is written passes as
it is written.
-/

namespace Offload

open Program List Reduction

variable {c : BlockId}

/-! ## Copies -/

section
variable {α β : Type} {R : α → β → Prop} {l : List α} {l' : List β}

theorem eq_map_of_forall₂ {φ : α → β} (h : Forall₂ (fun a b => b = φ a) l l') : l' = l.map φ := by
  induction h with
  | nil => rfl
  | cons hab _ ih => rw [map_cons, hab, ih]

theorem rel_head? (h : Forall₂ R l l') : Option.Rel R l.head? l'.head? := by
  cases h with
  | nil => exact .none
  | cons hab _ => exact .some hab

theorem rel_getLast? (h : Forall₂ R l l') : Option.Rel R l.getLast? l'.getLast? := by
  rw [getLast?_eq_head?_reverse, getLast?_eq_head?_reverse]
  exact rel_head? (rel_reverse h)

end

namespace Mirrored

variable {depth n : Nat} {φ : ValueId → ValueId} {i inner x y : OpId} {bs cs : List BlockId} {t m : Program}
  (h : Mirrored depth φ i inner bs cs t m) (hold : ∀ v, t.HasValue v → m.typeOf v = t.typeOf v)
include h hold

theorem typeOf_rename {v : ValueId} (hv : t.HasValue v) : m.typeOf (φ v) = t.typeOf v := by
  by_cases hheld : ∃ b ∈ bs, t.Holds b v
  · obtain ⟨b, hb, hheld⟩ := hheld
    exact (h.copied.new b hb v hheld).2.2
  · rw [h.copied.old v hv fun b hb hv' => hheld ⟨b, hb, hv'⟩, hold v hv]

theorem alikeBlocks {b c : BlockId} (hbc : Cloning.BlockCopied (fun v w => w = φ v) t m t.blocks.size
    (Cloning.Copied (fun v w => w = φ v) t m t.ops.size t.blocks.size n) b c) : AlikeBlocks t b m c where
  args := by
    rw [argTypes, argTypes, eq_map_of_forall₂ hbc.2.2.1, map_map]
    exact map_congr_left fun v hv => h.typeOf_rename hold (h.source.hasValue_argument hv)
  ending := by
    refine ending_of_rel (rel_getLast? (hbc.2.2.2.imp fun k l hkl => ?_))
    cases n with
    | zero => exact hkl.elim
    | succ n => exact ⟨hkl.2.2.1.name, hkl.2.2.1.operands.length_eq.symm⟩

theorem alike (haround : AlikeAround t i m inner) (hp : Pair t m bs cs depth n x y) : Alike t x m y := by
  have hop := h.opCopied hp
  refine ⟨hop.name, hop.attrs, ?_, ?_, ?_, ?_⟩
  · have hmap : (m.op y).operands = (t.op x).operands.map (Option.map φ) := by
      refine eq_map_of_forall₂ (hop.operands.imp fun s s' hss => ?_)
      cases hss with
      | none => rfl
      | some heq => exact congrArg some heq
    rw [hmap, map_map]
    refine map_congr_left fun s hs => ?_
    cases s with
    | none => rfl
    | some v => exact congrArg some (h.typeOf_rename hold (h.source.hasValue_operand hs))
  · rw [resultTypes, resultTypes, eq_map_of_forall₂ hop.results, map_map]
    exact map_congr_left fun v hv => h.typeOf_rename hold (h.source.hasValue_result hv)
  · have hcop := h.copied_of_pair hp
    cases n with
    | zero => exact hcop.elim
    | succ n => exact hcop.2.2.2.imp fun _ _ hds => hds.imp fun _ _ hbc => h.alikeBlocks hold hbc
  · obtain ⟨b, c, -, -, -, -, -, hup⟩ := h.located hp
    rcases hup with ⟨hxi, hyi⟩ | ⟨a, k, hxa, hyk, hak⟩
    · rw [hxi, hyi]
      exact .some haround
    · rw [hxa, hyk]
      exact .some ⟨(h.opCopied hak).name, fun _ => (h.opCopied hak).attrs⟩

omit hold in
theorem isLast_of_pair (hp : Pair t m bs cs depth n x y) (hx : t.isLast x = true) : m.isLast y = true := by
  obtain ⟨b, c, hb, hc, ⟨k, hkx, hky⟩, hbc, -, -⟩ := h.located hp
  have hlen := hbc.2.2.2.length_eq
  have hlast := (isLast_iff hb).mp hx
  rw [last?, getLast?_eq_getElem?] at hlast
  have hplace : (t.block b).ops.length - 1 = k := by
    obtain ⟨hj, hjx⟩ := List.getElem?_eq_some_iff.mp hlast
    obtain ⟨hk, hkx⟩ := List.getElem?_eq_some_iff.mp hkx
    exact (h.source.once b).getElem_inj_iff.mp (hjx.trans hkx.symm)
  refine (isLast_iff hc).mpr ?_
  rw [last?, getLast?_eq_getElem?, ← hlen, hplace, hky]

end Mirrored

/-! ## One distribution -/

namespace Distribution

open Transfer

variable {t m q : Program} {root i j : OpId} {b : BlockId} {place n rows width : Nat} {dims axes extents : List Int}
  {x : Lowering} {f : ValueId → ValueId}

namespace Lowered

variable (h : Lowered i b place extents x t m) (wf : t.WellFormed) (hi : Spot t b place i)
include h wf

theorem checked_inner (hp : Portions sel t i n dims axes extents rows width) {k k' : Int} {axes' : List Int}
    {shapes : List Shape} (hc : Reduction.Checked t i k k' axes' shapes c) (hk : k.toNat = n) :
    checkReduce m x.body.inner = .ok () := by
  obtain ⟨shapes', hfit⟩ := h.fitting_inner hp
  obtain ⟨hlen, -⟩ := h.typeOf_seen hp
  have hpos := hp.some_inputs
  have hinits := hp.some_inits
  have hwords := hp.words
  have hdrop : ((m.block x.block).args.drop n).length = (t.op i).operands.length - n := by
    rw [length_drop, h.length_args]
  have hattrs : (m.op x.body.inner).attrs = [(dimensionsAttr, .ints x.body.view.axes),
      (segmentsAttr, .ints [(n : Int), ((t.op i).operands.length - n : Nat)])] := by
    rw [show (m.op x.body.inner).attrs = _ from congrArg Instr.attrs h.body.inner, reduceCode,
      h.inputs_eq hp, hlen, hdrop]
  have htypes : ((m.op x.body.inner).operands.filterMap m.slotType?).length = (t.op i).operands.length := by
    rw [h.operandTypes_inner hp, length_map, length_append, hlen, hdrop]
    omega
  have hslots : ((t.op i).operands.filterMap t.slotType?).length = (t.op i).operands.length := by
    have hsome : ∀ s ∈ (t.op i).operands, ∃ ty, t.slotType? s = some ty := by
      intro s hs
      rw [← take_append_drop n (t.op i).operands] at hs
      rcases mem_append.mp hs with hs | hs
      · obtain ⟨e, he, -⟩ := hp.inputs s hs
        exact ⟨_, he⟩
      · obtain ⟨e, he, -⟩ := hp.inits s hs
        exact ⟨_, he⟩
    simpa using (congrArg List.length (map_eq_some_filterMap hsome)).symm
  -- the first block of the body and its copy
  obtain ⟨bs, rs, hregions⟩ := hc.body
  have hbs : (t.op i).regions[0]? = some (c :: bs) := by rw [hregions]; rfl
  obtain ⟨c', cs, hcc, -, hcopies⟩ := forall₂_cons_left_iff.mp (h.body.copied _ hbs).blocks
  obtain ⟨l, hl, hname, hcount⟩ := hc.ending
  have hargs : (m.block c').args.length = (t.op i).operands.length := by
    rw [← hcc.2.2.1.length_eq, hc.args, hslots]
  have hend : ending m c' = ending t c :=
    ((h.mirrored wf hbs).alikeBlocks (fun v hv => h.later.typeOf hv) hcc).ending
  rw [(ending_eq_some (show (catalogue.traits yieldName).terminator = true by decide)).mpr
    ⟨l, hl, hname, hcount⟩] at hend
  obtain ⟨l', hl', hname', hcount'⟩ := (ending_eq_some (by decide)).mp hend
  have hinner : Reduction.Checked m x.body.inner n
      ((t.op i).operands.length - n : Nat) x.body.view.axes shapes' c' := by
    refine ⟨?_, by omega, ?_, ?_, by simpa using hfit, ⟨cs, [], by rw [h.body.region, hcopies]⟩, by
      rw [hargs, htypes], l', hl', hname', ?_⟩
    · rw [Op.attr?, hattrs, lookup_cons,
        show (segmentsAttr == dimensionsAttr) = false by decide, lookup_cons_self]
      rfl
    · rw [htypes, Word.add_eq (by omega) (by omega) (by omega)]
      omega
    · rw [Op.attr?, hattrs, lookup_cons_self]
      rfl
    · rw [hcount', hslots, htypes, hk, Int.toNat_natCast]
  exact hinner.checkReduce

include hi

omit wf in
theorem last_eq (hc : t.HasBlock c) : m.last? c = t.last? c := by
  by_cases hcb : c = b
  · obtain ⟨l, r, hops, hm⟩ := h.list_at hi
    rw [hcb, last?, last?, hops, hm]
    simp [getLast?_append, getLast?_cons]
  · rw [last?, last?, h.later.list c hc hcb]

theorem ending_old (hc : t.HasBlock c) : ending m c = ending t c := by
  refine ending_of_rel ?_
  rw [h.last_eq hi hc]
  cases hk : t.last? c with
  | none => exact .none
  | some k =>
    have hkt : t.HasOp k := hasOp_of_block ((wf.listed k c).mpr (mem_of_getLast? hk))
    exact .some (by rw [h.later.op k hkt id]; exact ⟨rfl, rfl⟩)

theorem passing_old (hj : t.HasOp j) (hpass : Passing t j) : Passing m j := by
  have hop := h.later.op j hj id
  have halike : Alike t j m j := by
    refine h.later.frame.alike wf hj ?_ fun bs hbs c hc => h.ending_old wf hi (wf.owner_of_mem hbs hc).1
    rw [hop]
    exact map_congr_left fun s hs => h.later.slotType? fun v hv => wf.hasValue_operand (hv ▸ hs)
  refine halike.passing hpass (isLast_of_isLast (by rw [hop]) fun c hc => ?_)
  have hjc := (wf.listed j c).mpr (mem_of_getLast? hc)
  rw [h.last_eq hi (wf.hasBlock_of_block hjc), hc]

section
variable (hp : Portions sel t i n dims axes extents rows width) (hn : (t.op i).name = reduceName)
include hp hn

omit hi in
theorem passing_inner (hpass : Passing t i) : Passing m x.body.inner := by
  obtain ⟨k, k', axes', shapes, c, hc⟩ := checked_of_checkReduce (checkReduce_of_checkKind hpass.check hn)
  exact passing_of_check checkReduce (congrArg Instr.name h.body.inner) rfl rfl
    (h.checked_inner wf hp hc (hc.inputCount hp.count).2)

theorem passing (hroot : t.HasOp root) (hin : t.Within root i) (hpass : ∀ y, t.Within root y → Passing t y) :
    ∀ y, m.Within root y → Passing m y := by
  intro y hy
  by_cases hold : t.HasOp y
  · exact h.passing_old wf hi hold (hpass y ((h.later.frame.within_iff wf hold).mp hy))
  rcases h.new_cases wf hi hroot hy hold with hmem | hmem | ⟨hw, hne⟩
  · simp only [Lowering.ops, mem_append, mem_cons] at hmem
    rcases hmem with hmem | rfl | hmem
    · exact h.passing_head wf hp y hmem
    · exact h.passing_launch hp
    · exact h.passing_tail wf hp y hmem
  · simp only [Body.ops, mem_append, mem_cons, not_mem_nil, or_false] at hmem
    rcases hmem with hmem | rfl | rfl
    · exact h.passing_views hp y hmem
    · exact h.passing_inner wf hp hn (hpass i hin)
    · exact h.passing_last
  · obtain ⟨bs, hbs⟩ := hp.region
    have hmir := h.mirrored wf hbs
    obtain ⟨d, a, hpair⟩ := hmir.exists_pair hw hne
    obtain ⟨c, hac, hwc⟩ := hmir.parent_of_pair hpair
    have haround : AlikeAround t i m x.body.inner := by
      refine ⟨?_, fun hf => ?_⟩
      · rw [hn]
        exact congrArg Instr.name h.body.inner
      · rw [hn] at hf
        exact absurd hf (by decide)
    exact (hmir.alike (fun v hv => h.later.typeOf hv) haround hpair).passing (hpass a (hin.trans (.step hac hwc)))
      (hmir.isLast_of_pair hpair)

end

end Lowered

theorem Exchanged.passing (h : Exchanged i b place extents x f t m q) (hj : m.HasOp j) (hpass : Passing m j) :
    Passing q j :=
  h.rewired.passing h.lowered.wellFormed
    (fun v => (h.rewired.same.typeOf (f v)).symm.trans (h.typeOf_renamed v)) hj hpass

/-! ## One after the other -/

theorem Chain.passing {sel : Selector} {p : Program} {es : List OpId} (h : Chain sel root p es t) (wf : p.WellFormed)
    (hr : p.HasOp root) (hc : ∀ extents ∈ sel.candidates, Countable extents)
    (hm : ∀ i, p.Outside isLaunch root i → (p.op i).name = reduceName → Measured p i)
    (hpass : ∀ y, p.Within root y → Passing p y) : ∀ y, t.Within root y → Passing t y := by
  induction h with
  | start => exact hpass
  | @step es t m q i b place extents x f hch ho hn hsel happart hx ih =>
    have hold := hch.hasOp_reduce hr ho hn
    have hmeasured : Measured t i :=
      (hm i ((hch.frame.outside_iff wf hold).mp ho) (by rwa [hch.frame.op i hold] at hn)).congr (hch.unchanged hold)
    have hrt := hch.frame.hasOp hr
    obtain ⟨n, dims, axes, rows, width, hp⟩ :=
      portions_of_select (checkReduce_of_checkKind (ih i ho.within).check hn) hmeasured hc hsel
    intro y hy
    have hym : m.HasOp y := by
      cases hy with
      | refl => exact hx.lowered.later.hasOp hrt
      | step hpar _ => exact (hx.rewired.same.hasOp y).mp (hasOp_of_parent hpar)
    exact hx.passing hym (hx.lowered.passing hx.wf hx.spot hp hn hrt ho.within ih y
      ((hx.rewired.frame.within_iff hx.lowered.wellFormed hym).mp hy))

end Distribution

end Offload
