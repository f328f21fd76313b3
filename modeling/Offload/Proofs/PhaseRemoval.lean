import Offload.Proofs.Circuits
import Offload.Proofs.PhaseChains

/-!
# Exactly what the pass removes

Each step keeps the gates that lead to a measurement and the pure operations that nothing needs, apart from the one
that is taken out. At the end there are none left, so all of them were taken out, and nothing else.
-/

namespace Offload.Qubits

open Program Rewrite List

variable {p q m : Program} {root i j g k : OpId} {f : ValueId → ValueId} {v w : ValueId}

/-- A pure operation without regions whose results are used by operations like that only. -/
inductive Unneeded (root : OpId) (p : Program) : OpId → Prop
  | intro {i : OpId} : p.Within root i → i ≠ root → catalogue.isPure (p.op i) = true →
    (p.op i).results ≠ [] →
      (p.op i).regions = [] → (∀ v ∈ (p.op i).results, ∀ x, some v ∈ (p.op x).operands →
        Unneeded root p x) →
      Unneeded root p i

/-- `w` is where the chain of gates ends that `v` comes from, going backwards. -/
inductive Skips (root : OpId) (p : Program) : ValueId → ValueId → Prop
  | stop {v : ValueId} : (∀ g k, Leads root p g k → v ∉ (p.op g).results) → Skips root p v v
  | skip {g k : OpId} {v x w : ValueId} : Leads root p g k → v ∈ (p.op g).results →
      (p.op g).operands = [some x] → Skips root p x w → Skips root p v w

/-- The programs that the pass is exact on. -/
structure Plain (root : OpId) (p : Program) : Prop extends Valid root p where
  flat : ∀ i, p.Within root i → i ≠ root → isQuantum (p.op i) = true → (p.op i).regions = []
  pure : ∀ i, p.Within root i → i ≠ root → catalogue.isPure (p.op i) = true →
    ∀ v, some v ∈ (p.op i).operands → (p.typeOf v).qubits = 0

theorem Leads.measure (h : Leads root p g k) : (p.op k).name = Register.measureName := by
  induction h with
  | last _ _ _ _ _ hn => exact hn
  | next _ _ _ _ _ _ ih => exact ih

theorem Removable.not_measure (h : Removable p i) : (p.op i).name ≠ Register.measureName := by
  rcases h with hph | ⟨hpure, -⟩
  · exact not_measure_of_isPhase hph
  · intro hn
    rw [Registry.isPure, hn] at hpure
    revert hpure
    decide

theorem Unneeded.pure (h : Unneeded root p i) : catalogue.isPure (p.op i) = true := by
  cases h
  assumption

theorem Unneeded.removable (h : Unneeded root p i) : Removable p i := by
  cases h with
  | intro _ _ hpure hres hnil => exact .inr ⟨hpure, hres, hnil⟩

namespace Takes

variable (hp : Plain root p) (h : Takes root p i f q)
include hp h

theorem alone (hw : p.Within i j) : j = i := by
  refine Build.not_within_of_no_children hp.wellFormed ?_ hw
  have hnil : (p.op i).regions = [] := by
    rcases h.ripe.removable with ⟨g, hg, hn⟩ | ⟨-, -, hnil⟩
    · refine hp.flat i h.inside h.proper ?_
      rw [isQuantum, Op.dialect, hn]
      clear hn
      revert g
      decide
    · exact hnil
  simp [children, hnil]

theorem op_other (hj : j ≠ i) : q.op j = { p.op j with operands := (p.op j).operands.map (Option.map f) } :=
  (h.effect hp.wellFormed).op j fun hw => hj (h.alone hp hw)

theorem within_iff (hj : j ≠ i) : q.Within root j ↔ p.Within root j :=
  ⟨h.within hp.wellFormed, fun hw => h.still hp.toValid hw fun hin => hj (h.alone hp hin)⟩

theorem gone : ¬ q.Within root i := fun hw => h.outside hp.wellFormed hw .refl

theorem mem_operands (hj : j ≠ i) : some v ∈ (q.op j).operands ↔
    ∃ w, some w ∈ (p.op j).operands ∧ f w = v := by
  rw [h.op_other hp hj]
  simp [mem_map, Option.map_eq_some_iff]

theorem plain : Plain root q := by
  have hv := hp.toValid
  have hname := (h.effect hp.wellFormed).name
  have hne : ∀ {j}, q.Within root j → j ≠ i := fun hw heq => h.gone hp (heq ▸ hw)
  refine { h.valid hv with flat := fun j hw hj hq => ?_, pure := fun j hw hj hpure v hmem => ?_ }
  · rw [h.op_other hp (hne hw)]
    exact hp.flat j ((h.within_iff hp (hne hw)).mp hw) hj (by rwa [isQuantum, Op.dialect, hname] at hq)
  · obtain ⟨w, hw', rfl⟩ := (h.mem_operands hp (hne hw)).mp hmem
    rw [(h.effect hp.wellFormed).typeOf, hv.typeOf_eq h.inside h.ripe]
    exact hp.pure j ((h.within_iff hp (hne hw)).mp hw) hj (by rwa [Registry.isPure, hname] at hpure) w hw'

/-! ## The same gates -/

theorem uses_back (hj : q.Within root j) (hph : IsPhase p j) (hr : v ∈ (p.op j).results) {u : Use}
    (hu : (q.value v).uses = [u]) : (p.value v).uses = [u] ∨
      Leads root p i u.op ∧ (p.op u.op).name = Register.measureName ∧ ∃ n, (p.value v).uses = [⟨i, n⟩] := by
  have wf := hp.wellFormed
  have heff := h.effect wf
  by_cases hused : some v ∈ (p.op i).operands
  · right
    have hripe := h.ripe
    cases hripe with
    | dead hd =>
      -- a register is not used by a pure operation
      obtain ⟨x, y, -, hres, -, h0⟩ := hp.gate_shape (h.within wf hj) hph
      obtain rfl : v = y := by simpa [hres] using hr
      simp only [isDead, Bool.and_eq_true] at hd
      exact absurd (hp.pure i h.inside h.proper hd.1.1.1 v hused) h0
    | @measured x y u' hphi hop hres hu' hn =>
      obtain rfl : v = x := by simpa [hop] using hused
      have hvy : v ≠ y := by
        rintro rfl
        exact hp.not_own h.inside h.proper (by simp [hres]) hused
      have hslot : ∀ {x : OpId} {n : Nat} {w}, x ≠ i → (p.op x).operands[n]? = some (some w) →
          bypass y v w = v → (⟨x, n⟩ : Use) = u := fun hx hs hw => by
        have hmem := (heff.wellFormed.consistent.mem_uses (v := v) (u := ⟨_, _⟩)).mpr
          (by rw [h.op_other hp hx, getElem?_map, hs]; simp [hw])
        simpa [hu] using hmem
      -- the measurement has the use now, so that only the gate had one
      have hmeasure : u' = u := by
        have hs := (wf.consistent.mem_uses (v := y) (u := u')).mp (by simp [hu'])
        exact hslot (fun heq => not_measure_of_isPhase hphi (heq ▸ hn)) hs (if_pos rfl)
      have huses : ∀ u'', u'' ∈ (p.value v).uses ↔ u'' = ⟨i, 0⟩ := by
        intro u''
        rw [wf.consistent.mem_uses]
        constructor
        · intro hs
          by_cases hx : u''.op = i
          · obtain ⟨x, n⟩ := u''
            obtain rfl : x = i := hx
            rw [hop] at hs
            cases n with
            | zero => rfl
            | succ n => simp at hs
          · obtain rfl : u'' = u' := (hslot hx hs (if_neg hvy)).trans hmeasure.symm
            have hy := (wf.consistent.mem_uses (v := y) (u := u'')).mp (by simp [hu'])
            exact absurd (Option.some.inj (Option.mem_unique hs hy)) hvy
        · rintro rfl
          simp [hop]
      subst hmeasure
      refine ⟨.last h.inside h.proper hphi hres hu' hn, hn, 0, perm_singleton.mp ?_⟩
      exact (perm_ext_iff_of_nodup (wf.consistent.nodup_uses v) (nodup_singleton _)).mpr (by simpa using huses)
  · refine .inl (singleton_perm.mp (hu ▸ h.uses_eq hp.toValid hj hr fun x hx => ?_)).symm
    rwa [h.alone hp hx]

theorem leads_iff (hj : j ≠ i) : Leads root q j k ↔ Leads root p j k := by
  have wf := hp.wellFormed
  have hname := (h.effect wf).name
  constructor
  · intro hl
    clear hj
    have hback : ∀ {j v}, q.Within root j → IsPhase q j → (q.op j).results = [v] →
        p.Within root j ∧ IsPhase p j ∧ (p.op j).results = [v] := fun hw hph hres =>
      ⟨h.within wf hw, by rwa [IsPhase, hname] at hph, by rwa [h.op_inside hp.toValid hw] at hres⟩
    induction hl with
    | last hw hne hph hres hu hn =>
      obtain ⟨hwp, hphp, hresp⟩ := hback hw hph hres
      rcases h.uses_back hp hw hphp (by simp [hresp]) hu with hu | ⟨hl, -, n, hu⟩
      · exact .last hwp hne hphp hresp hu (hname _ ▸ hn)
      · exact .next hwp hne hphp hresp hu hl
    | next hw hne hph hres hu _ ih =>
      obtain ⟨hwp, hphp, hresp⟩ := hback hw hph hres
      rcases h.uses_back hp hw hphp (by simp [hresp]) hu with hu | ⟨-, hn, -⟩
      · exact .next hwp hne hphp hresp hu ih
      · exact absurd hn (not_measure_of_isPhase ih.phase.2.2)
  · intro hl
    refine h.leads hp.toValid hl (fun hw => ?_) (fun _ _ hw => (h.alone hp hw).symm)
      ((h.within_iff hp hj).mpr hl.phase.1)
    exact h.ripe.removable.not_measure (h.alone hp hw ▸ hl.measure)

/-! ## The same unneeded operations -/

theorem sound : (∃ k, Leads root p i k) ∨ Unneeded root p i := by
  have hripe := h.ripe
  cases hripe with
  | dead hd =>
    rcases h.ripe.removable with hph | ⟨hpure, hres, hnil⟩
    · exact absurd hd (not_dead_of_isPhase hph)
    · refine .inr (.intro h.inside h.proper hpure hres hnil fun v hv x hx => ?_)
      exact absurd rfl (hp.redirected h.inside h.proper h.ripe hv hx)
  | @measured x y u hph hop hres hu hn =>
    exact .inl ⟨u.op, .last h.inside h.proper hph hres hu hn⟩

theorem fixes (hj : j ≠ i) (hr : v ∈ (p.op j).results) : f v = v := by
  cases h.ripe with
  | dead => rfl
  | @measured x y u _ _ hres =>
    refine if_neg ?_
    rintro rfl
    have hi := (hp.wellFormed.source_result (j := i) (v := v) (by simp [hres])).2.2
    exact hj (Option.some.inj ((hp.wellFormed.source_result hr).2.2.symm.trans hi))

theorem unneeded_iff (hj : j ≠ i) : Unneeded root q j ↔ Unneeded root p j := by
  have wf := hp.wellFormed
  have hname := (h.effect wf).name
  have hripe := h.ripe
  constructor
  · intro hu
    clear hj
    induction hu with
    | @intro j hw hne hpure hres hnil _ ih =>
      have hj : j ≠ i := fun heq => h.gone hp (heq ▸ hw)
      rw [h.op_other hp hj] at hres hnil ih
      rw [Registry.isPure, hname] at hpure
      refine .intro (h.within wf hw) hne hpure hres hnil fun v hv x hx => ?_
      by_cases hxi : x = i
      · subst hxi
        refine (h.sound hp).resolve_left ?_
        rintro ⟨k, hl⟩
        -- the measurement would be unneeded
        cases hripe with
        | dead hd => exact not_dead_of_isPhase hl.phase.2.2 hd
        | @measured x' y u hph hop hres' hu hn =>
          obtain rfl : v = x' := by simpa [hop] using hx
          have hux : u.op ≠ x := fun heq => not_measure_of_isPhase hph (heq ▸ hn)
          have huse := (h.mem_operands hp (v := v) hux).mpr ⟨y, (users_eq wf hu).mpr rfl, if_pos rfl⟩
          exact (ih v hv u.op huse).removable.not_measure hn
      · exact ih v hv x ((h.mem_operands hp hxi).mpr ⟨v, hx, h.fixes hp hj hv⟩)
  · intro hu
    induction hu with
    | @intro j hw hne hpure hres hnil hall ih =>
      have hop := h.op_other hp hj
      refine .intro ((h.within_iff hp hj).mpr hw) hne (by rwa [Registry.isPure, hname]) (by rwa [hop]) (by rwa [hop])
        fun v hv x hx => ?_
      rw [hop] at hv
      have hxi : x ≠ i := by
        rintro rfl
        exact (h.effect wf).emptied x .refl v hx
      obtain ⟨w, hw', hwv⟩ := (h.mem_operands hp hxi).mp hx
      refine ih v hv x ?_ hxi
      cases hripe with
      | dead => exact hwv ▸ hw'
      | @measured x' y u hph hop' _ _ _ =>
        unfold bypass at hwv
        split at hwv
        · -- the gate that used it would be unneeded
          have hi := (hall v hv i (by simp [hop', hwv])).pure
          rw [Registry.isPure, traits_of_isPhase hph] at hi
          cases hi
        · exact hwv ▸ hw'

/-! ## The same values -/

omit hp in
theorem skips_of_redirected (hs : Skips root p (f v) w) : Skips root p v w := by
  have hripe := h.ripe
  cases hripe with
  | dead => exact hs
  | @measured x y u hph hop hres hu hn =>
    unfold bypass at hs
    split at hs
    · exact .skip (.last h.inside h.proper hph hres hu hn) (by simp [*]) hop hs
    · exact hs

theorem skips (hs : Skips root q v w) (hvi : v ∉ (p.op i).results) : Skips root p v w := by
  have hne : ∀ {g k}, Leads root q g k → g ≠ i := fun hl heq => h.gone hp (heq ▸ hl.phase.1)
  induction hs with
  | stop hnone =>
    refine .stop fun g k hl hr => ?_
    have hg : g ≠ i := fun heq => hvi (heq ▸ hr)
    exact hnone g k ((h.leads_iff hp hg).mpr hl) (by rwa [h.op_other hp hg])
  | @skip g k v x w hl hr hop _ ih =>
    rw [h.op_other hp (hne hl)] at hr hop
    obtain ⟨s, hs, hsx⟩ := map_eq_singleton_iff.mp hop
    obtain ⟨x', rfl, rfl⟩ := Option.map_eq_some_iff.mp hsx
    refine .skip ((h.leads_iff hp (hne hl)).mp hl) hr hs (h.skips_of_redirected (ih fun hmem => ?_))
    exact hp.redirected h.inside h.proper h.ripe hmem (j := g) (v := x') (by simp [hs]) rfl

end Takes

theorem Settled.not_unneeded (h : Settled root p) (wf : p.WellFormed) : ¬ Unneeded root p i := by
  intro hu
  induction hu with
  | @intro i hw hne hpure hres hnil _ ih =>
    refine h i hw hne id (.dead ?_)
    have hnone : p.hasUses i = false := by
      refine any_eq_false.mpr fun v hv => ?_
      simp only [Bool.not_eq_true, Bool.not_eq_false', List.isEmpty_iff, eq_nil_iff_forall_not_mem]
      exact fun u hu => ih v hv u.op (mem_of_getElem? (wf.consistent.mem_uses.mp hu))
    simp [isDead, hpure, hnone, hres, hnil]

/-- What became of the program: `removed` is gone, and everything else is in its place, with operands that skip it. -/
structure Trimmed (root : OpId) (p : Program) (removed : List OpId) (q : Program) : Prop where
  mem : ∀ i, i ∈ removed ↔ (∃ k, Leads root p i k) ∨ Unneeded root p i
  block : ∀ b, q.block b = { p.block b with ops := (p.block b).ops.filter (· ∉ removed) }
  op : ∀ i, i ∉ removed → q.op i = { p.op i with operands := (q.op i).operands }
  operands : ∀ i, i ∉ removed → Forall₂ (Option.Rel (Skips root p)) (p.op i).operands (q.op i).operands
  typeOf : ∀ v, q.typeOf v = p.typeOf v

theorem Settled.trimmed (h : Settled root p) (hv : Valid root p) : Trimmed root p [] p where
  mem i := by simp [h.not_leads hv, h.not_unneeded hv.wellFormed]
  block b := by simp
  op i _ := rfl
  operands i _ := by
    refine forall₂_same.mpr fun s _ => ?_
    cases s with
    | none => exact .none
    | some v => exact .some (.stop fun g k hl => absurd hl (h.not_leads hv))
  typeOf _ := rfl

theorem Takes.trimmed (hp : Plain root p) (h : Takes root p i f m) {removed : List OpId}
    (ht : Trimmed root m removed q) : Trimmed root p (i :: removed) q := by
  have heff := h.effect hp.wellFormed
  refine ⟨fun j => ?_, fun b => ?_, fun j hj => ?_, fun j hj => ?_, fun v => (ht.typeOf v).trans (heff.typeOf v)⟩
  · by_cases hj : j = i
    · simp [hj, h.sound hp]
    · simp only [mem_cons, hj, false_or, ht.mem, h.leads_iff hp hj, h.unneeded_iff hp hj]
  · rw [ht.block, heff.block]
    simp [filter_filter, Bool.and_comm]
  · rw [mem_cons, not_or] at hj
    rw [ht.op j hj.2, h.op_other hp hj.1]
  · rw [mem_cons, not_or] at hj
    have hrest := ht.operands j hj.2
    rw [h.op_other hp hj.1, forall₂_map_left_iff] at hrest
    refine forall₂_imp_of_mem hrest fun s hs s' _ hrel => ?_
    cases s with
    | none =>
      cases hrel
      exact .none
    | some v =>
      cases hrel with
      | some hskips =>
        refine .some (h.skips_of_redirected (h.skips hp hskips fun hmem => ?_))
        exact hp.redirected h.inside h.proper h.ripe hmem hs rfl

/-- If the pass ends in time, it removed exactly the phase gates that lead to a measurement and the pure operations that
nothing needs. All else is as it was, apart from operands, which skip the gates; and the verifier accepts it. -/
theorem drop_exact (wf : p.WellFormed) (hv : p.verify catalogue root = .ok ())
    (flat : ∀ i ∈ p.preorder (fun _ => true) root, isQuantum (p.op i) = true → (p.op i).regions = [])
    (hpure : ∀ i ∈ p.preorder (fun _ => true) root, catalogue.isPure (p.op i) = true →
      ∀ v, some v ∈ (p.op i).operands → (p.typeOf v).qubits = 0) (maxSweeps : Int) {stats : Stats}
    (h : dropPhaseGates catalogue maxSweeps root p = .ok (stats, none) q) :
    (∃ removed, Trimmed root p removed q) ∧ q.verify catalogue root = .ok () := by
  have hvalid := (valid_iff wf).mpr hv
  obtain ⟨_, e, q', hrun, hrounds, -⟩ := drop_runs hvalid maxSweeps
  rw [h] at hrun
  cases hrun
  have hvq := hrounds.steps.valid hvalid
  refine ⟨?_, (valid_iff hvq.wellFormed).mp hvq⟩
  have hsettled := hrounds.settled hvalid rfl
  have hplain : Plain root p := ⟨hvalid, fun i hi hne => flat i ((mem_preorder wf).mpr ⟨hi, hne⟩),
    fun i hi hne => hpure i ((mem_preorder wf).mpr ⟨hi, hne⟩)⟩
  have hsteps := hrounds.steps
  clear hrounds h flat hpure hvalid hv wf
  induction hsteps using Relation.ReflTransGen.head_induction_on with
  | refl => exact ⟨[], hsettled.trimmed hvq⟩
  | head ht _ ih =>
    obtain ⟨i, f, ht⟩ := ht
    obtain ⟨removed, hremoved⟩ := ih (ht.plain hplain)
    exact ⟨i :: removed, ht.trimmed hplain hremoved⟩

theorem drop_exact_phaseChain : ∃ stats q, dropPhaseGates catalogue 0 0 (phaseChain 3) = .ok (stats, none) q ∧
    (∃ removed, Trimmed 0 (phaseChain 3) removed q) ∧ q.verify catalogue 0 = .ok () := by
  have hrun : (converted? (dropPhaseGates catalogue 0 0 (phaseChain 3))).any (fun _ => true) = true := by decide +kernel
  have himpure : ∀ i ∈ (phaseChain 3).preorder (fun _ => true) 0,
    ¬ catalogue.isPure ((phaseChain 3).op i) = true := by
    decide +kernel
  obtain ⟨stats, q, hq, -⟩ := of_converted? hrun
  exact ⟨stats, q, hq, drop_exact (.of_check (by decide +kernel)) (by decide +kernel) (by decide +kernel)
    (fun i hi hpure => absurd hpure (himpure i hi)) 0 hq⟩

end Offload.Qubits
