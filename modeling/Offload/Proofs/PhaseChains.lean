import Offload.Proofs.PhaseSteps

/-!
# How many sweeps it takes

What becomes ripe in a sweep was used by something that was taken out, so each sweep but the last one removes one
operation of some chain. Hence the pass ends within its number of sweeps unless there is a chain that long.
-/

namespace Offload.Qubits

open Program Rewrite List Register

variable {c : Bool} {k x : OpId} {l : List OpId} {n : Nat}
variable {p q m : Program} {root i j a b g : OpId} {f : ValueId → ValueId} {v : ValueId}

/-- What the pass looks at: phase gates, and pure operations without regions that give something. -/
def Removable (p : Program) (i : OpId) : Prop :=
  IsPhase p i ∨ catalogue.isPure (p.op i) = true ∧ (p.op i).results ≠ [] ∧ (p.op i).regions = []

structure Feeds (root : OpId) (p : Program) (a b : OpId) : Prop where
  source : p.Within root a ∧ Removable p a
  target : p.Within root b ∧ Removable p b
  uses : ∃ v ∈ (p.op a).results, ∃ x, p.Within b x ∧ some v ∈ (p.op x).operands

def Starts (root : OpId) (p : Program) (i : OpId) : Prop := p.Within root i ∧ i ≠ root ∧ ∃ f, Ripe p i f

theorem Ripe.removable (h : Ripe p i f) : Removable p i := by
  cases h with
  | dead h =>
    simp only [isDead, Bool.and_eq_true, Bool.not_eq_true', isEmpty_eq_false_iff, List.isEmpty_iff] at h
    exact .inr ⟨h.1.1.1, h.1.1.2, h.2⟩
  | measured h => exact .inl h

/-! ## What a step does to uses -/

theorem uses_perm (wf : p.WellFormed) (wfq : q.WellFormed)
    (h : ∀ x (k : Nat), (q.op x).operands[k]? = some (some v) ↔ (p.op x).operands[k]? = some (some v)) :
    (q.value v).uses.Perm (p.value v).uses := by
  refine (perm_ext_iff_of_nodup (wfq.consistent.nodup_uses v) (wf.consistent.nodup_uses v)).mpr fun u => ?_
  rw [wfq.consistent.mem_uses, wf.consistent.mem_uses, h]

theorem users_eq (wf : p.WellFormed) {x y : OpId} (hu : (p.value v).uses = [⟨x, n⟩]) :
    some v ∈ (p.op y).operands ↔ y = x := by
  rw [mem_iff_getElem?]
  constructor
  · rintro ⟨k, hk⟩
    have hmem : (⟨y, k⟩ : Use) ∈ (p.value v).uses := wf.consistent.mem_uses.mpr hk
    rw [hu, mem_singleton] at hmem
    exact (Use.mk.inj hmem).1
  · rintro rfl
    exact ⟨n, (wf.consistent.mem_uses (u := ⟨y, n⟩)).mp (by simp [hu])⟩

namespace Takes

variable (hv : Valid root p) (h : Takes root p i f q)
include hv h

theorem op_inside (hj : q.Within root j) :
    q.op j = { p.op j with operands := (p.op j).operands.map (Option.map f) } :=
  (h.effect hv.wellFormed).op j (h.outside hv.wellFormed hj)

theorem still (hj : p.Within root j) (hout : ¬ p.Within i j) : q.Within root j := by
  obtain ⟨m, hm, -, hq, -⟩ := h.cleared hv.wellFormed
  refine (hq.still_within (hm.within_iff.mpr hj)).resolve_right ?_
  rintro ⟨k, hk, hw⟩
  exact hout (mem_singleton.mp hk ▸ h.within hv.wellFormed hw)

theorem removable (hj : q.Within root j) : Removable q j ↔ Removable p j := by
  simp only [Removable, IsPhase, h.op_inside hv hj, Registry.isPure]

theorem uses_eq (hj : q.Within root j) (hr : v ∈ (p.op j).results)
    (hout : ∀ x, p.Within i x → some v ∉ (p.op x).operands) : (q.value v).uses.Perm (p.value v).uses := by
  have wf := hv.wellFormed
  have heff := h.effect wf
  refine uses_perm wf heff.wellFormed fun x k => ?_
  by_cases hx : p.Within i x
  · exact ⟨fun hk => absurd (mem_of_getElem? hk) (heff.emptied x hx v),
      fun hk => absurd (mem_of_getElem? hk) (hout x hx)⟩
  rw [heff.op x hx, getElem?_map]
  -- the slots of `v` are left alone, and no other slot gets it
  have hfix : ∀ w, f w = v ↔ w = v := by
    intro w
    cases h.ripe with
    | dead => rfl
    | @measured x y u hph hop hres =>
      have hvy : v ≠ y := by
        rintro rfl
        have hi := (wf.source_result (j := i) (v := v) (by simp [hres])).2.2
        obtain rfl := Option.some.inj (hi.symm.trans (wf.source_result hr).2.2)
        exact h.outside wf hj .refl
      have hvx : x ≠ v := by
        rintro rfl
        exact hout i .refl (by simp [hop])
      unfold bypass
      split <;> simp_all [eq_comm]
  cases hs : (p.op x).operands[k]? with
  | none => simp
  | some s => cases s <;> simp [hfix]

theorem feeds (hab : Feeds root q a b) : Relation.TransGen (Feeds root p) a b := by
  have wf := hv.wellFormed
  obtain ⟨⟨ha, hra⟩, ⟨hb, hrb⟩, v, hva, x, hx, hvx⟩ := hab
  have hra := (h.removable hv ha).mp hra
  have hrb := (h.removable hv hb).mp hrb
  rw [h.op_inside hv ha] at hva
  rw [h.op_inside hv (hb.trans hx), mem_map] at hvx
  obtain ⟨s, hs, hsv⟩ := hvx
  obtain ⟨w, rfl, hw⟩ := Option.map_eq_some_iff.mp hsv
  have hpa := h.within wf ha
  have hpb := h.within wf hb
  have hpx := h.within wf hx
  have hdirect : w = v → Relation.TransGen (Feeds root p) a b := fun heq =>
    .single ⟨⟨hpa, hra⟩, ⟨hpb, hrb⟩, v, hva, x, hpx, heq ▸ hs⟩
  have hripe := h.ripe
  cases hripe with
  | dead => exact hdirect hw
  | @measured x' y u hph hop hres =>
    unfold bypass at hw
    split at hw
    · -- `b` used the gate, and the gate used `a`
      rename_i hwy
      have hmid : p.Within root i ∧ Removable p i := ⟨h.inside, .inl hph⟩
      exact .tail (.single ⟨⟨hpa, hra⟩, hmid, v, hva, i, .refl, by simp [hop, hw]⟩)
        ⟨hmid, ⟨hpb, hrb⟩, y, by simp [hres], x, hpx, hwy ▸ hs⟩
    · exact hdirect hw

theorem starts (hj : Starts root q j) : Starts root p j ∨ Starts root p i ∧ Feeds root p j i := by
  have wf := hv.wellFormed
  obtain ⟨hw, hne, g, hg⟩ := hj
  have hpj := h.within wf hw
  by_cases hused : ∃ v ∈ (p.op j).results, ∃ x, p.Within i x ∧ some v ∈ (p.op x).operands
  · exact .inr ⟨⟨h.inside, h.proper, f, h.ripe⟩, ⟨hpj, (h.removable hv hw).mp hg.removable⟩,
      ⟨h.inside, h.ripe.removable⟩, hused⟩
  have huses : ∀ v ∈ (p.op j).results, (q.value v).uses.Perm (p.value v).uses := fun v hr =>
    h.uses_eq hv hw hr fun x hx hmem => hused ⟨v, hr, x, hx, hmem⟩
  have hop := h.op_inside hv hw
  refine .inl ⟨hpj, hne, ?_⟩
  cases hg with
  | dead hd =>
    have hnone : p.hasUses j = false := by
      refine any_eq_false.mpr fun v hr => ?_
      have hnil : (q.value v).uses = [] := unused_of_dead hd (by rw [hop]; exact hr)
      simp [nil_perm.mp (hnil ▸ huses v hr)]
    simp only [isDead, hop, Bool.and_eq_true] at hd
    exact ⟨id, .dead (by simp only [isDead, hnone, Bool.and_eq_true]; exact ⟨⟨hd.1.1, rfl⟩, hd.2⟩)⟩
  | @measured x y u hph hops hres hu hn =>
    have hres : (p.op j).results = [y] := by rwa [hop] at hres
    rw [hop] at hops
    obtain ⟨s, hs, hsx⟩ := map_eq_singleton_iff.mp hops
    obtain ⟨x', rfl, -⟩ := Option.map_eq_some_iff.mp hsx
    have hone := singleton_perm.mp (hu ▸ huses y (by simp [hres]))
    rw [IsPhase, (h.effect wf).name] at hph
    exact ⟨_, .measured hph hs hres hone.symm ((h.effect wf).name _ ▸ hn)⟩

end Takes

/-! ## Chains -/

theorem Takes.feeds_trans (hv : Valid root p) (h : Takes root p i f q) (hab : Relation.TransGen (Feeds root q) a b) :
    Relation.TransGen (Feeds root p) a b :=
  Relation.TransGen.closed (fun _ _ => h.feeds hv) _ _ hab

theorem Steps.feeds_trans (h : Steps root p q) (hv : Valid root p) (hab : Relation.TransGen (Feeds root q) a b) :
    Relation.TransGen (Feeds root p) a b := by
  induction h with
  | refl => exact hab
  | tail h ht ih =>
    obtain ⟨_, _, ht⟩ := ht
    exact ih (ht.feeds_trans (Steps.valid h hv) hab)

theorem Steps.starts (h : Steps root p q) (hv : Valid root p) (hj : Starts root q j) :
    Starts root p j ∨ ∃ i, Starts root p i ∧ Relation.TransGen (Feeds root p) j i := by
  induction h generalizing j with
  | refl => exact .inl hj
  | tail h ht ih =>
    obtain ⟨i, _, ht⟩ := ht
    have hvm := Steps.valid h hv
    rcases ht.starts hvm hj with hj | ⟨hi, hfeeds⟩
    · exact ih hj
    · have hji := Steps.feeds_trans h hv (.single hfeeds)
      rcases ih hi with hi | ⟨i', hi', hfeeds'⟩
      · exact .inr ⟨i, hi, hji⟩
      · exact .inr ⟨i', hi', hji.trans hfeeds'⟩

theorem Swept.starts (h : Swept root l p q c) (hv : Valid root p) (hj : j ∈ l)
    (hs : Starts root q j) : ∃ i, Starts root p i ∧ Relation.TransGen (Feeds root p) j i := by
  induction h with
  | nil => cases hj
  | keep hkeep hrest ih =>
    rcases mem_cons.mp hj with rfl | hj
    · refine (hrest.steps.starts hv hs).resolve_left ?_
      rintro ⟨hw, -, f, hf⟩
      exact hkeep hw f hf
    · exact ih hv hj hs
  | @take p m q k f l c ht hrest ih =>
    rcases mem_cons.mp hj with rfl | hj
    · exact absurd .refl (ht.outside hv.wellFormed (hrest.steps.within (ht.valid hv) hs.1))
    · obtain ⟨i, hi, hji⟩ := ih (ht.valid hv) hj hs
      have hji := ht.feeds_trans hv hji
      rcases ht.starts hv hi with hi | ⟨hk, hik⟩
      · exact ⟨i, hi, hji⟩
      · exact ⟨k, hk, hji.tail hik⟩

theorem Swept.changed (h : Swept root l p q c) (hc : c = true) : ∃ i, Starts root p i := by
  induction h with
  | nil => cases hc
  | keep _ _ ih => exact ih hc
  | take ht _ _ => exact ⟨_, ht.inside, ht.proper, _, ht.ripe⟩

theorem Starts.removable_of_chain (hi : Starts root p i) (h : (l ++ [i]).IsChain (Relation.TransGen (Feeds root p))) :
    ∀ j ∈ l ++ [i], p.Within root j ∧ Removable p j := by
  induction l with
  | nil =>
    obtain ⟨hin, -, f, hf⟩ := hi
    simpa using ⟨hin, hf.removable⟩
  | cons a l ih =>
    obtain ⟨hhead, hl⟩ := isChain_cons.mp h
    -- some operation comes after `a`, and `a` feeds it
    obtain ⟨b, hac, -⟩ := Relation.TransGen.head'_iff.mp (hhead _ (head_mem_head? (l := l ++ [i]) (by simp)))
    exact forall_mem_cons.mpr ⟨hac.source, ih hl⟩

theorem Rounds.chain (h : Rounds root (n + 1) p q c) (hv : Valid root p) (hc : c = false) :
    ∃ l i, l.length = n ∧ (l ++ [i]).IsChain (Relation.TransGen (Feeds root p)) ∧ Starts root p i := by
  induction n generalizing p with
  | zero =>
    cases h with
    | still => cases hc
    | again h _ =>
      obtain ⟨i, hi⟩ := h.changed rfl
      exact ⟨[], i, rfl, .singleton i, hi⟩
  | succ n ih =>
    cases h with
    | still => cases hc
    | again h hrest =>
      obtain ⟨l, i, hl, hchain, hi⟩ := ih hrest (h.steps.valid hv)
      have hmem := (mem_preorder hv.wellFormed).mpr ⟨h.steps.within hv hi.1, hi.2.1⟩
      obtain ⟨k, hk, hik⟩ := h.starts hv hmem hi
      refine ⟨l ++ [i], k, by simp [hl], ?_, hk⟩
      have hchain := hchain.imp fun _ _ => h.steps.feeds_trans hv
      rw [isChain_append]
      refine ⟨hchain, .singleton k, fun x hx y hy => ?_⟩
      simp only [getLast?_append, getLast?_singleton, Option.some_or, Option.mem_def, Option.some.injEq,
        head?_cons] at hx hy
      exact hx ▸ hy ▸ hik

/-! ## Gates before a measurement -/

/-- A chain of phase gates inside of the root from `g` to the measurement `m`, each used by the next one only. -/
inductive Leads (root : OpId) (p : Program) : OpId → OpId → Prop
  | last {g m : OpId} {v : ValueId} {k : Nat} : p.Within root g → g ≠ root → IsPhase p g →
      (p.op g).results = [v] → (p.value v).uses = [⟨m, k⟩] → (p.op m).name = measureName → Leads root p g m
  | next {g g' m : OpId} {v : ValueId} {k : Nat} : p.Within root g → g ≠ root → IsPhase p g →
      (p.op g).results = [v] → (p.value v).uses = [⟨g', k⟩] → Leads root p g' m → Leads root p g m

theorem Leads.phase (h : Leads root p g k) : p.Within root g ∧ g ≠ root ∧ IsPhase p g := by
  cases h with
  | last hg hne hph => exact ⟨hg, hne, hph⟩
  | next hg hne hph => exact ⟨hg, hne, hph⟩

theorem not_dead_of_isPhase (h : IsPhase p i) : ¬ isDead catalogue p i = true := by
  simp [isDead, Registry.isPure, traits_of_isPhase h]

theorem not_measure_of_isPhase (h : IsPhase p i) : (p.op i).name ≠ measureName := by
  obtain ⟨g, hg, hn⟩ := h
  rw [hn]
  exact (by decide : ∀ g ∈ phaseGates, gateName g ≠ measureName) g hg

theorem Settled.not_leads (h : Settled root p) (hv : Valid root p) : ¬ Leads root p g k := by
  intro hl
  induction hl with
  | last hg hne hph hres hu hn =>
    obtain ⟨x, y, hop, hres', -⟩ := hv.gate_shape hg hph
    obtain rfl := singleton_inj.mp (hres.symm.trans hres')
    exact h _ hg hne _ (.measured hph hop hres hu hn)
  | next _ _ _ _ _ _ ih => exact ih

theorem parent_of_visible (wf : p.WellFormed) (hr : v ∈ (p.op j).results) (hj : p.Within i j) (hne : i ≠ j)
    (h : Visible catalogue p root v x) : ∃ a, p.parent? x = some a ∧ p.Within i a := by
  induction h with
  | @here x b hb hh _ =>
    obtain ⟨a, ha, hw⟩ := hj.of_ne hne
    obtain ⟨c, hc, ho⟩ := parent?_eq_some.mp ha
    have hbc := (wf.source_result hr).2.1
    rw [hh, hc] at hbc
    exact ⟨a, parent?_eq_some.mpr ⟨b, hb, Option.some.inj hbc ▸ ho⟩, hw⟩
  | up hp _ _ _ ih =>
    obtain ⟨a, ha, hw⟩ := ih
    exact ⟨_, hp, .step ha hw⟩

theorem Leads.inside (h : Leads root p g k) (hv : Valid root p) (hk : p.Within root k) (hg : p.Within i g)
    (hne : i ≠ g) : p.Within i k := by
  have wf := hv.wellFormed
  induction h with
  | last _ _ _ hres hu _ =>
    obtain ⟨a, ha, hw⟩ := parent_of_visible wf (by simp [hres]) hg hne
      (hv.visible_operand hk ((users_eq wf hu).mpr rfl))
    exact .step ha hw
  | next _ _ _ hres hu hl ih =>
    obtain ⟨a, ha, hw⟩ := parent_of_visible wf (by simp [hres]) hg hne
      (hv.visible_operand hl.phase.1 ((users_eq wf hu).mpr rfl))
    refine ih hk (.step ha hw) ?_
    rintro rfl
    exact wf.not_within_of_parent ha hw

theorem Takes.measured_uses (hv : Valid root p) (h : Takes root p i f q) {n n' : Nat} {w : ValueId}
    (hph : IsPhase p i) (hres : (p.op i).results = [w]) (hw : (p.value w).uses = [⟨k, n⟩]) (hk : ¬ p.Within i k)
    (hu : (p.value v).uses = [⟨i, n'⟩]) : (q.value v).uses = [⟨k, n⟩] := by
  have wf := hv.wellFormed
  have heff := h.effect wf
  have hripe := h.ripe
  cases hripe with
  | dead hd => exact absurd hd (not_dead_of_isPhase hph)
  | @measured x y u _ hop hres' _ _ =>
    obtain rfl := singleton_inj.mp (hres.symm.trans hres')
    obtain rfl : v = x := by
      have hmem : some v ∈ (p.op i).operands := (users_eq wf hu).mpr rfl
      simpa [hop] using hmem
    refine perm_singleton.mp ((perm_ext_iff_of_nodup (heff.wellFormed.consistent.nodup_uses v)
      (nodup_singleton _)).mpr fun u => ?_)
    rw [heff.wellFormed.consistent.mem_uses, ← hw, wf.consistent.mem_uses]
    by_cases hx : p.Within i u.op
    · refine ⟨fun hs => absurd (mem_of_getElem? hs) (heff.emptied _ hx v), fun hs => ?_⟩
      exact absurd ((users_eq wf hw).mp (mem_of_getElem? hs) ▸ hx) hk
    rw [heff.op _ hx, getElem?_map]
    -- nothing else used the operand of the gate
    have hnot : (p.op u.op).operands[u.index]? ≠ some (some v) := fun hs =>
      hx ((users_eq wf hu).mp (mem_of_getElem? hs) ▸ .refl)
    cases hs : (p.op u.op).operands[u.index]? with
    | none => simp
    | some slot =>
      cases slot with
      | none => simp
      | some x =>
        have hxv : x ≠ v := fun heq => hnot (heq ▸ hs)
        by_cases hxw : x = w
        · simp [bypass, hxw]
        · simp [bypass, hxw, hxv]

theorem Takes.use_stays (hv : Valid root p) (h : Takes root p i f q) (hg : q.Within root g)
    (hr : v ∈ (p.op g).results)
    (hu : (p.value v).uses = [⟨x, n⟩]) (hx : ¬ p.Within i x) : (q.value v).uses = [⟨x, n⟩] :=
  perm_singleton.mp (hu ▸ h.uses_eq hv hg hr fun _ hy hmem => hx ((users_eq hv.wellFormed hu).mp hmem ▸ hy))

theorem Takes.leads (hv : Valid root p) (h : Takes root p i f q) (hl : Leads root p g k) (hk : ¬ p.Within i k)
    (hthrough : ∀ j, Leads root p j k → p.Within i j → i = j) (hg : q.Within root g) : Leads root q g k := by
  have wf := hv.wellFormed
  have hphase : ∀ {j}, IsPhase p j → IsPhase q j := fun hph => by rwa [IsPhase, (h.effect wf).name]
  have hmeasure : ∀ {j}, (p.op j).name = measureName → (q.op j).name = measureName :=
    fun hn => by rwa [(h.effect wf).name]
  induction hl with
  | @last g k v n _ hne hph hres hu hn =>
    have hres' : (q.op g).results = [v] := by rw [h.op_inside hv hg, hres]
    exact .last hg hne (hphase hph) hres' (h.use_stays hv hg (by simp [hres]) hu hk) (hmeasure hn)
  | @next g g' k v n _ hne hph hres hu hl ih =>
    have hres' : (q.op g).results = [v] := by rw [h.op_inside hv hg, hres]
    by_cases hin : p.Within i g'
    · -- what is taken out is the last gate of the chain
      obtain rfl := hthrough g' hl hin
      cases hl with
      | last _ _ hphi hresi hui hn =>
        exact .last hg hne (hphase hph) hres' (h.measured_uses hv hphi hresi hui hk hu) (hmeasure hn)
      | next _ _ hphi hresi hui hl =>
        have hripe := h.ripe
        cases hripe with
        | dead hd => exact absurd hd (not_dead_of_isPhase hphi)
        | measured _ _ hresi' hui' hn =>
          obtain rfl := singleton_inj.mp (hresi.symm.trans hresi')
          obtain rfl := singleton_inj.mp (hui.symm.trans hui')
          exact absurd hn (not_measure_of_isPhase hl.phase.2.2)
    · exact .next hg hne (hphase hph) hres' (h.use_stays hv hg (by simp [hres]) hu hin)
        (ih hk hthrough (h.still hv hl.phase.1 hin))

theorem Steps.leads (h : Steps root p q) (hv : Valid root p) (hl : Leads root p g k)
    (hk : q.Within root k) (hg : q.Within root g) : Leads root q g k := by
  induction h with
  | refl => exact hl
  | tail h ht ih =>
    obtain ⟨_, _, ht⟩ := ht
    have hvm := Steps.valid h hv
    have hkm := ht.within hvm.wellFormed hk
    have hout := ht.outside hvm.wellFormed hk
    refine ht.leads hvm (ih hkm (ht.within hvm.wellFormed hg)) hout (fun j hj hw => ?_) hg
    exact Classical.byContradiction fun hne => hout (hj.inside hvm hkm hw hne)

/-- On what the verifier accepts the pass never fails. If it ends in time, no phase gate is left that is only measured,
and every chain of phase gates before a measurement is gone; if not, there is a chain of as many removable operations as
there are sweeps, and the last of them could go at once. -/
theorem drop_settles_or_chain (wf : p.WellFormed) (hv : p.verify catalogue root = .ok ()) (maxSweeps : Int) :
    ∃ stats e q n, n = (if maxSweeps ≤ 0 then defaultSweeps else maxSweeps.toNat) ∧
      dropPhaseGates catalogue maxSweeps root p = .ok (stats, e) q ∧
      (e = none ∧
          (∀ i, q.Within root i → i ≠ root → IsPhase q i → ∀ v ∈ (q.op i).results,
            isOnlyMeasured q v = false) ∧
          (∀ g m, Leads root p g m → q.Within root m → ¬ q.Within root g) ∨
        e = some (.notConverged n) ∧
          ∃ (l : List OpId) (i : OpId), l.length + 1 = n ∧ Starts root p i ∧
            (l ++ [i]).IsChain (Relation.TransGen (Feeds root p)) ∧
            ∀ j ∈ l ++ [i], p.Within root j ∧ Removable p j) := by
  have hvalid := (valid_iff wf).mpr hv
  obtain ⟨stats, e, q, hrun, hrounds, he⟩ := drop_runs hvalid maxSweeps
  refine ⟨stats, e, q, _, rfl, hrun, ?_⟩
  cases e with
  | none =>
    have hsettled := hrounds.settled hvalid rfl
    have hvq := hrounds.steps.valid hvalid
    refine .inl ⟨rfl, fun i hi hne hph v hr => ?_, fun g m hl hm hg => ?_⟩
    · obtain ⟨x, y, hop, hres, -⟩ := hvq.gate_shape hi hph
      obtain rfl : v = y := by simpa [hres] using hr
      refine Bool.eq_false_iff.mpr fun hm => ?_
      obtain ⟨u, hu, hn⟩ := isOnlyMeasured_iff.mp hm
      exact hsettled i hi hne _ (.measured hph hop hres hu hn)
    · exact hsettled.not_leads hvq (hrounds.steps.leads hvalid hl hm hg)
  | some x =>
    obtain rfl := he x rfl
    have hpos : ∃ n, (if maxSweeps ≤ 0 then defaultSweeps else maxSweeps.toNat) = n + 1 := by
      refine Nat.exists_eq_succ_of_ne_zero ?_
      split
      · decide
      · omega
    obtain ⟨n, hn⟩ := hpos
    rw [hn] at hrounds ⊢
    obtain ⟨l, i, hl, hchain, hi⟩ := hrounds.chain hvalid rfl
    exact .inr ⟨rfl, l, i, by rw [hl], hi, hchain, hi.removable_of_chain hchain⟩

/-- A qubit goes through `n` gates and is measured. -/
def phaseChain (n : Nat) : Program :=
  { ops := #[
        { name := "builtin.module", regions := [[0]] },
        { name := "quantum.alloc", results := [0], block := some 0 }] ++
      ((List.range n).map fun k =>
        { name := "quantum.z", operands := [some ⟨k⟩], results := [⟨k + 1⟩], block := some 0 }).toArray ++ #[
        { name := "quantum.measure", operands := [some ⟨n⟩],
          results := [⟨n + 1⟩, ⟨n + 2⟩], block := some 0 },
        { name := "quantum.dealloc", operands := [some ⟨n + 2⟩], block := some 0 }]
    blocks := #[{ owner := 0, ops := (List.range (n + 3)).map fun k => ⟨k + 1⟩ }]
    values := ((List.range (n + 1)).map fun k => ⟨.register 1, .result ⟨k + 1⟩ 0,
      [⟨⟨k + 2⟩, 0⟩]⟩).toArray ++ #[ ⟨.scalar .bool, .result ⟨n + 2⟩ 0, []⟩,
      ⟨.register 1, .result ⟨n + 2⟩ 1, [⟨⟨n + 3⟩, 0⟩]⟩] }

theorem drop_settles_phaseChain : ∃ stats q, dropPhaseGates catalogue 0 0 (phaseChain 9) = .ok (stats, none) q ∧
    ∀ g m, Leads 0 (phaseChain 9) g m → q.Within 0 m → ¬ q.Within 0 g := by
  have hrun : (converted? (dropPhaseGates catalogue 0 0 (phaseChain 9))).any (fun _ => true) = true := by decide +kernel
  obtain ⟨stats, q, hq, -⟩ := of_converted? hrun
  have hv : (phaseChain 9).verify catalogue 0 = .ok () := by decide +kernel
  obtain ⟨_, e, _, _, -, hq', hcases⟩ :=
    drop_settles_or_chain (.of_check (by decide)) hv 0
  rw [hq] at hq'
  cases hq'
  rcases hcases with ⟨-, -, hgone⟩ | ⟨he, -⟩
  · exact ⟨stats, q, hq, hgone⟩
  · cases he

/-- The default number of sweeps is not enough for ten gates. -/
theorem drop_exhausted_phaseChain : (phaseChain 10).WellFormed ∧ (phaseChain 10).verify catalogue 0 = .ok () ∧
    ∃ stats q, dropPhaseGates catalogue 0 0 (phaseChain 10) = .ok (stats, some (.notConverged 10)) q := by
  have wf : (phaseChain 10).WellFormed := .of_check (by decide)
  have hv : (phaseChain 10).verify catalogue 0 = .ok () := by decide +kernel
  have hrun : (converted? (dropPhaseGates catalogue 0 0 (phaseChain 10))).isNone = true := by decide +kernel
  obtain ⟨stats, e, q, hq, -, he⟩ := drop_runs ((valid_iff wf).mpr hv) 0
  rw [hq] at hrun
  cases e with
  | none => cases hrun
  | some x => exact ⟨wf, hv, stats, q, he x rfl ▸ hq⟩

end Offload.Qubits
