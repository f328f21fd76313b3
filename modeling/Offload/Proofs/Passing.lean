import Offload.Proofs.Conversions
import Offload.Proofs.Likeness
import Offload.Proofs.Scopes

/-!
# What the verifier looks at one by one

What passes the checks that look at one operation goes on passing in another program in which it looks alike, also
after other operations were taken out.
-/

namespace Offload

open Program List

variable {p q : Program} {root i j : OpId} {b c : BlockId}

structure Passing (p : Program) (i : OpId) : Prop where
  last : catalogue.isTerminator (p.op i) = true → p.isLast i = true
  check : p.checkKind catalogue i = .ok ()

theorem Program.WellFormed.verify_iff (wf : p.WellFormed) : p.verify catalogue root = .ok () ↔
    p.Sees catalogue root ∧ ∀ i, p.Within root i → Passing p i := by
  simp only [verify_ok, verifyOp_ok, wf.mem_nested, wf.visible_ok]
  constructor
  · intro h
    exact ⟨fun x hx => (h x hx).1, fun x hx => ⟨(h x hx).2.1, (h x hx).2.2⟩⟩
  · intro h x hx
    exact ⟨h.1 x hx, (h.2 x hx).last, (h.2 x hx).check⟩

theorem Alike.passing (h : Alike p i q j) (hp : Passing p i) (hlast : p.isLast i = true → q.isLast j = true) :
    Passing q j where
  last ht := hlast (hp.last (by rwa [Registry.isTerminator, ← h.name]))
  check := (checkKind_eq h).trans hp.check

/-! ## Endings -/

theorem ending_of_rel (h : Option.Rel (fun k l => (q.op l).name = (p.op k).name ∧
    (q.op l).operands.length = (p.op k).operands.length) (p.last? b) (q.last? c)) : ending q c = ending p b := by
  rw [ending, ending, Registry.terminator?, Registry.terminator?]
  cases hk : p.last? b with
  | none =>
    rw [hk] at h
    cases hl : q.last? c with
    | none => rfl
    | some l =>
      rw [hl] at h
      cases h
  | some k =>
    rw [hk] at h
    cases hl : q.last? c with
    | none =>
      rw [hl] at h
      cases h
    | some l =>
      rw [hl] at h
      cases h with
      | some h =>
      simp only [Option.filter_some, Registry.isTerminator, h.1]
      split
      · rw [Option.map_some, Option.map_some, h.1, h.2]
      · rfl

theorem ending_eq_none (h : ∀ k, p.last? b = some k → catalogue.isTerminator (p.op k) = false) :
    ending p b = none := by
  rw [ending, Option.map_eq_none_iff, Registry.terminator?, Option.filter_eq_none_iff]
  intro k hk
  simpa using h k hk

theorem isLast_iff (hb : (p.op i).block = some b) : p.isLast i = true ↔ p.last? b = some i := by
  rw [isLast, hb, Option.all_some, decide_eq_true_eq]

theorem isLast_of_isLast (hb : (q.op i).block = (p.op i).block) (hl : ∀ c, p.last? c = some i → q.last? c = some i)
    (h : p.isLast i = true) : q.isLast i = true := by
  cases hc : (p.op i).block with
  | none => rw [isLast, hb, hc]; rfl
  | some c => exact (isLast_iff (hb.trans hc)).mpr (hl c ((isLast_iff hc).mp h))

/-! ## In a later program -/

theorem rel_parent {a : Option OpId} (h : ∀ o, a = some o → AlikeAround p o q o) :
    Option.Rel (fun a d => AlikeAround p a q d) a a := by
  cases a with
  | none => exact .none
  | some o => exact .some (h o rfl)

theorem Frame.alike (h : Frame p q) (wf : p.WellFormed) (hj : p.HasOp j)
    (htypes : (q.op j).operands.map q.slotType? = (p.op j).operands.map p.slotType?)
    (hend : ∀ bs ∈ (p.op j).regions, ∀ b ∈ bs, ending q b = ending p b) : Alike p j q j where
  name := by rw [h.op j hj]
  attrs := by rw [h.op j hj]
  operands := htypes
  results := by
    have hres : (q.op j).results = (p.op j).results := by rw [h.op j hj]
    rw [resultTypes, resultTypes, hres]
    exact map_congr_left fun v hv => h.typeOf (wf.hasValue_result hv)
  regions := by
    have hregions : (q.op j).regions = (p.op j).regions := by rw [h.op j hj]
    rw [hregions]
    refine forall₂_same.mpr fun bs hbs => forall₂_same.mpr fun b hb => ⟨?_, hend bs hbs b hb⟩
    have hargs : (q.block b).args = (p.block b).args := by rw [h.block b (wf.owner_of_mem hbs hb).1]
    rw [argTypes, argTypes, hargs]
    exact map_congr_left fun v hv => h.typeOf (wf.hasValue_argument hv)
  parent := by
    rw [h.parent? wf hj]
    refine rel_parent fun a ha => ?_
    rw [AlikeAround, h.op a (wf.hasOp_parent ha)]
    exact ⟨rfl, fun _ => rfl⟩

theorem Rewired.passing {f : ValueId → ValueId} (h : Rewired f p q) (wf : p.WellFormed)
    (htype : ∀ v, p.typeOf (f v) = p.typeOf v) (hj : p.HasOp j) (hpass : Passing p j) : Passing q j := by
  have hlast : ∀ c, q.last? c = p.last? c := fun c => by rw [last?, last?, h.same.block c]
  have htypes : ∀ k, (q.op k).operands.map q.slotType? = (p.op k).operands.map p.slotType? := by
    intro k
    rw [h.operands, map_map]
    refine map_congr_left fun s _ => ?_
    cases s with
    | none => rfl
    | some v => exact congrArg some ((h.same.typeOf (f v)).trans (htype v))
  have hends : ∀ c, ending q c = ending p c := fun c => by
    refine ending_of_rel ?_
    rw [hlast c]
    cases hk : p.last? c with
    | none => exact .none
    | some k => exact .some ⟨by rw [h.same.op k], by simpa using congrArg List.length (htypes k)⟩
  exact (h.frame.alike wf hj (htypes j) fun _ _ c _ => hends c).passing hpass
    (isLast_of_isLast (by rw [h.same.op j]) fun c hc => by rw [hlast, hc])

/-! ## With operations taken out -/

theorem Program.Precedes.filter {l : List OpId} {d : OpId} {P : OpId → Bool} (h : Precedes l d i) (hd : P d = true)
    (hi : P i = true) : Precedes (l.filter P) d i := by
  obtain ⟨x, y, z, rfl⟩ := h
  exact ⟨x.filter P, y.filter P, z.filter P, by simp [hd, hi]⟩

namespace Rewrite.Cleared

variable {es : List OpId}

theorem stays_beside (hi : ∀ e ∈ es, ¬ p.Within e i) (hb : (p.op i).block = some b) (hj : (p.op j).block = some b)
    (hje : j ∉ es) : ∀ e ∈ es, ¬ p.Within e j := by
  intro e he hw
  obtain ⟨a, ha, hw⟩ := hw.of_ne fun heq => hje (heq ▸ he)
  obtain ⟨c, hc, ho⟩ := parent?_eq_some.mp ha
  obtain rfl : c = b := Option.mem_unique hc hj
  exact hi e he (.step (parent?_eq_some.mpr ⟨c, hb, ho⟩) hw)

theorem not_mem_of_stays (hi : ∀ e ∈ es, ¬ p.Within e i) : i ∉ es := fun he => hi i he .refl

variable (h : Cleared es p q) (wf : p.WellFormed)
include h

theorem last_of_last (hb : p.last? b = some i) (hi : i ∉ es) : q.last? b = some i := by
  obtain ⟨l, hl⟩ := getLast?_eq_some_iff.mp hb
  rw [last?, h.block, hl, filter_append, filter_cons_of_pos (by simpa using hi), filter_nil,
    getLast?_append]
  rfl

include wf

theorem visible {r : Registry} {v : ValueId} (hv : p.HasValue v) (hdef : ∀ e ∈ es, v ∉ (p.op e).results)
    (hvis : Visible r p root v i) (hi : ∀ e ∈ es, ¬ p.Within e i) : Visible r q root v i := by
  induction hvis with
  | @here i b hb hh hd =>
    have hd' : ∀ d, p.definingOp? v = some d → d ∉ es := fun d hd' he =>
      hdef d he (wf.definingOp?_eq_some hv hd')
    refine .here (by rw [h.stays i hi, hb]) ?_ fun d hdq => ?_
    · cases hs : (p.value v).source with
      | argument c k =>
        simp only [homeOf, h.source, hs] at hh ⊢
        exact hh
      | result d k =>
        simp only [homeOf, h.source, hs] at hh ⊢
        have hde : d ∉ es := hd' d (by simp only [definingOp?, hs])
        rw [h.stays d (stays_beside hi hb hh hde), hh]
    · rw [definingOp?, h.source, ← definingOp?] at hdq
      rw [h.block]
      exact (hd d hdq).filter (by simpa using hd' d hdq) (by simpa using not_mem_of_stays hi)
  | @up i a hp hne hiso _ ih =>
    have hie := not_mem_of_stays hi
    refine .up (by rw [h.parent, if_neg hie, hp]) hne (by rwa [Registry.isIsolated, h.name]) (ih fun e he hw => ?_)
    exact hi e he (.step hp hw)

variable (hpass : ∀ k, p.Within root k → Passing p k) (hes : ∀ e ∈ es, catalogue.isTerminator (p.op e) = false)
include hpass hes

theorem ending_eq (hi : p.Within root i) (hkept : ∀ e ∈ es, ¬ p.Within e i) (hb : (p.block b).owner = i) :
    ending q b = ending p b := by
  have hin : ∀ {k}, k ∈ (p.block b).ops → p.parent? k = some i ∧ p.Within root k := fun {k} hk => by
    have hp : p.parent? k = some i := parent?_eq_some.mpr ⟨b, (wf.listed k b).mpr hk, hb⟩
    exact ⟨hp, .step hp hi⟩
  cases hl : p.last? b with
  | none =>
    have hnil : (p.block b).ops = [] := getLast?_eq_none_iff.mp hl
    refine ending_of_rel ?_
    rw [hl, last?, h.block, hnil]
    exact .none
  | some k =>
    have hmem : k ∈ (p.block b).ops := mem_of_getLast? hl
    by_cases hk : k ∈ es
    · -- what comes before the last operation is no terminator
      rw [ending_eq_none fun k' hk' => ?_, ending_eq_none fun k' hk' => ?_]
      · rw [hl] at hk'
        exact Option.some.inj hk' ▸ hes k hk
      · have hmem' : k' ∈ (q.block b).ops := mem_of_getLast? hk'
        rw [h.block, mem_filter] at hmem'
        obtain ⟨hmem', hnot⟩ := hmem'
        rw [Registry.isTerminator, h.name]
        by_contra hterm
        have hlast := (isLast_iff ((wf.listed k' b).mpr hmem')).mp
          ((hpass k' (hin hmem').2).last (by rw [Registry.isTerminator]; simpa using hterm))
        rw [hl] at hlast
        rw [← Option.some.inj hlast] at hnot
        simp [hk] at hnot
    · refine ending_of_rel ?_
      have hstay : q.op k = p.op k := h.stays k fun e he hw => by
        obtain ⟨a, ha, hw⟩ := hw.of_ne fun heq => hk (heq ▸ he)
        obtain rfl := Option.some.inj (ha.symm.trans (hin hmem).1)
        exact hkept e he hw
      rw [hl, h.last_of_last hl hk]
      exact .some (by rw [hstay]; exact ⟨rfl, rfl⟩)

theorem alike (hi : p.Within root i) (hkept : ∀ e ∈ es, ¬ p.Within e i) : Alike p i q i := by
  have hop := h.stays i hkept
  refine ⟨by rw [hop], by rw [hop], ?_, ?_, ?_, ?_⟩
  · rw [hop]
    refine map_congr_left fun s _ => ?_
    cases s with
    | none => rfl
    | some v => exact congrArg some (h.typeOf v)
  · rw [resultTypes, resultTypes, hop]
    exact map_congr_left fun v _ => h.typeOf v
  · rw [hop]
    refine forall₂_same.mpr fun bs hbs => forall₂_same.mpr fun b hb => ⟨?_, ?_⟩
    · rw [argTypes, argTypes, h.block]
      exact map_congr_left fun v _ => h.typeOf v
    · exact h.ending_eq wf hpass hes hi hkept (wf.owner_of_mem hbs hb).2
  · rw [h.parent, if_neg (not_mem_of_stays hkept)]
    refine rel_parent fun a ha => ?_
    have ha : ∀ e ∈ es, ¬ p.Within e a := fun e he hw => hkept e he (.step ha hw)
    rw [AlikeAround, h.stays a ha]
    exact ⟨rfl, fun _ => rfl⟩

theorem passing (hi : p.Within root i) (hkept : ∀ e ∈ es, ¬ p.Within e i) : Passing q i := by
  refine (h.alike wf hpass hes hi hkept).passing (hpass i hi) (isLast_of_isLast ?_ fun c hc => ?_)
  · rw [h.stays i hkept]
  · exact h.last_of_last hc (not_mem_of_stays hkept)

end Rewrite.Cleared

end Offload
