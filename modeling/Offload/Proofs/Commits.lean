import Offload.Proofs.Conversions
import Offload.Proofs.Dominance
import Offload.Proofs.Driver

/-!
# Values that a commit leaves behind

A commit looks at the results of the outermost erased operations only. What is inside of those goes with
them, and a value from there that is used by something that stays remains in its slot.
-/

namespace Offload

open Program List

variable {r : Registry} {root : OpId}

namespace Program

variable {p : Program} {i : OpId} {v : ValueId}

theorem WellFormed.mem_users (wf : p.WellFormed) : i ∈ p.users v ↔ some v ∈ (p.op i).operands := by
  rw [users, mem_eraseDups, mem_map]
  constructor
  · rintro ⟨⟨i, k⟩, hu, rfl⟩
    rw [← count_pos_iff, wf.uses] at hu
    by_contra hv
    rw [if_neg fun hk => hv (mem_of_getElem? hk)] at hu
    exact Nat.lt_irrefl 0 hu
  · intro hv
    obtain ⟨k, hk⟩ := getElem?_of_mem hv
    refine ⟨⟨i, k⟩, ?_, rfl⟩
    rw [← count_pos_iff, wf.uses, if_pos hk]
    exact Nat.one_pos

end Program

namespace Rewrite

open Rewriting

variable {σ : Type} {extra : σ} {p q : Program} {s t : Session σ} {i : OpId} {v : ValueId}

/-! ## Sessions of a conversion -/

/-- What a pattern can ask of the session of a conversion. An operation is created at any place. -/
inductive Request where
  | create (b : Builder) (spec : Edit.Spec)
  | replaceAllUses (v : ValueId) (w : Slot)
  | replaceOp (i : OpId) (values : List Slot)
  | erase (i : OpId)

namespace Request

def run : Request → Rewriting σ Unit
  | create b spec => do
    build (Build.setBuilder b)
    discard (build (Build.create spec))
  | replaceAllUses v w => Rewriting.replaceAllUses (some v) w
  | replaceOp i values => Rewriting.replaceOp i values
  | erase i => eraseOp i

def Fits (p : Program) : Request → Prop
  | create b spec => (∀ x ∈ b.block, p.HasBlock x) ∧ ∀ v, some v ∈ spec.operands → p.HasValue v
  | replaceAllUses _ w => ∀ v, w = some v → p.HasValue v
  | replaceOp _ values => ∀ v, some v ∈ values → p.HasValue v
  | erase _ => True

end Request

/-- The sessions that requests lead to in a conversion of `p`. -/
inductive Reached (p : Program) (extra : σ) : Session σ → Prop
  | start : Reached p extra { work := { program := p }, deferred := true, extra }
  | request {s t : Session σ} (x : Request) : Reached p extra s → x.Fits s.work.program → x.run s = .ok () t →
      Reached p extra t

structure Deferring (s : Session σ) : Prop where
  wellFormed : s.work.program.WellFormed
  deferred : s.deferred = true
  pending : ∀ k, k ∈ s.erased ↔ k ∈ s.pending

namespace Deferring

theorem tracked (h : Deferring s) (ht : Tracked s t) : Deferring t :=
  ⟨ht.wellFormed, ht.deferred.trans h.deferred, ht.pending h.pending⟩

theorem create {spec : Edit.Spec} {w : Construction} {m : Nat} (h : Deferring s)
    (hb : ∀ b ∈ s.work.builder.block, s.work.program.HasBlock b)
    (hv : ∀ v, some v ∈ spec.operands → s.work.program.HasValue v) (hw : Build.create spec s.work = .ok i w) :
    Deferring { s with work := w, mutations := m } := by
  cases hbl : s.work.builder.block with
  | some b =>
    obtain ⟨ts, n, -, -, hc⟩ := Build.create_at h.wellFormed hbl (hb b hbl) hv hw
    exact h.tracked (create_tracked hc)
  | none =>
    simp only [Build.create, Build.insert, bind_ok, get_ok, Build.liftEdit_ok, pure_ok] at hw
    obtain ⟨_, _, ⟨rfl, rfl⟩, _, _, ⟨q, hq, rfl⟩, _, _, ⟨_, _, ⟨rfl, rfl⟩, hw⟩, rfl, rfl⟩ := hw
    simp only [hbl, modify_ok] at hw
    subst hw
    obtain ⟨ts, n, -, -, -, -, hn⟩ := Edit.newOp_ok (by exact hv) hq
    exact ⟨hn.wellFormed h.wellFormed, h.deferred, h.pending⟩

theorem request {x : Request} (h : Deferring s) (hx : x.Fits s.work.program) (hrun : x.run s = .ok () t) :
    Deferring t := by
  cases x with
  | create b spec =>
    simp only [Request.run, bind_ok, build_ok, Build.setBuilder_ok, discard_ok] at hrun
    obtain ⟨_, _, ⟨_, rfl, rfl⟩, i, w, hw, rfl⟩ := hrun
    have hs : Deferring { s with work := { s.work with builder := b } } := { h with }
    exact hs.create hx.1 hx.2 hw
  | replaceAllUses v w => exact h.tracked (replaceAllUses_tracked h.wellFormed hx hrun).1
  | replaceOp i values => exact h.tracked (replaceOp_tracked h.wellFormed h.deferred hx hrun)
  | erase i => exact h.tracked (eraseOp_tracked h.wellFormed h.deferred hrun)

end Deferring

theorem Reached.deferring (wf : p.WellFormed) (h : Reached p extra s) : Deferring s := by
  induction h with
  | start => exact ⟨wf, rfl, fun _ => Iff.rfl⟩
  | request x _ hx hrun ih => exact ih.request hx hrun

/-! ## Slots after a commit -/

theorem eraseAll_slots : ∀ {es : List OpId} {p q : Program}, p.WellFormed → es.forM Edit.erase p = .ok () q →
    (some v ∈ (q.op i).operands ↔ some v ∈ (p.op i).operands ∧ ∀ e ∈ es, ¬ p.Within e i)
  | [], p, q, _, h => by
    rw [forM_nil_ok] at h
    simp [h]
  | e :: es, p, q, wf, h => by
    obtain ⟨m, hm, h⟩ := forM_cons_ok.mp h
    have he := Edit.erase_ok wf hm
    have hcleared : Cleared [e] p m := eraseAll_cleared wf (by simpa [forM_eq_forM, bind_ok] using hm)
    rw [eraseAll_slots he.wellFormed h, forall_mem_cons]
    by_cases hw : p.Within e i
    · simp [he.inside i hw, hw]
    · -- what is around `i` is the same without `e`
      have hwithin : ∀ a, m.Within a i ↔ p.Within a i := by
        refine fun a => ⟨hcleared.within, fun ha => (hcleared.still_within ha).resolve_right ?_⟩
        rintro ⟨c, hc, hci⟩
        exact hw (mem_singleton.mp hc ▸ hcleared.within hci)
      simp [he.outside i hw, hw, hwithin]

/-- The value is a result of an erased operation, or comes from inside of one. -/
def Gone (s : Session σ) (v : ValueId) : Prop := erasedAt s (s.work.program.anchorOf v) = true

/-- The value comes from inside of an erased operation: it is an argument there, or the result of another
operation. -/
def Buried (s : Session σ) (v : ValueId) : Prop :=
  ∃ a ∈ s.erased, s.work.program.Within a (s.work.program.anchorOf v) ∧ v ∉ (s.work.program.op a).results

theorem Buried.gone (wf : s.work.program.WellFormed) (h : Buried s v) : Gone s v := by
  obtain ⟨a, ha, hw, -⟩ := h
  exact (erasedAt_iff wf).mpr ⟨a, ha, hw⟩

theorem not_buried_of_root (wf : s.work.program.WellFormed) (hi : i ∈ roots s)
    (hv : v ∈ (s.work.program.op i).results) : ¬ Buried s v := by
  rintro ⟨a, ha, hw, hva⟩
  rw [wf.anchorOf_result hv] at hw
  obtain ⟨m, hm, hwm⟩ := hw.of_ne fun heq => hva (heq ▸ hv)
  have hout := (mem_filter.mp hi).2
  simp only [hm, Option.all_some, (erasedAt_iff wf).mpr ⟨a, ha, hwm⟩] at hout
  cases hout

theorem Gone.root_or_buried (h : Deferring s) (hv : Gone s v) :
    (∃ i ∈ roots s, v ∈ (s.work.program.op i).results) ∨ Buried s v := by
  obtain ⟨r, hr, hw⟩ := exists_mem_roots h.wellFormed h.pending hv
  by_cases hres : v ∈ (s.work.program.op r).results
  · exact .inl ⟨r, hr, hres⟩
  · exact .inr ⟨r, (h.pending r).mpr (mem_filter.mp hr).1, hw, hres⟩

theorem buried_of_commit (h : Deferring s) (hc : (commit : Rewriting σ _) s = .ok none t)
    (hv : some v ∈ (s.work.program.op i).operands) (hi : erasedAt s i = false) (hg : Gone s v) : Buried s v := by
  refine (hg.root_or_buried h).resolve_left fun ⟨r, hr, hres⟩ => ?_
  rw [(commit_ok hc).1 r hr v hres i (h.wellFormed.mem_users.mpr hv)] at hi
  cases hi

theorem commit_slots (h : Deferring s) (hc : (commit : Rewriting σ _) s = .ok none t) :
    some v ∈ (t.work.program.op i).operands ↔ some v ∈ (s.work.program.op i).operands ∧
      erasedAt s i = false := by
  obtain ⟨-, es, q, hperm, hq, rfl⟩ := commit_ok hc
  rw [eraseAll_slots h.wellFormed hq]
  refine and_congr_right fun _ => ⟨fun hout => ?_, fun hi e he hw => ?_⟩
  · by_contra hi
    obtain ⟨r, hr, hw⟩ := exists_mem_roots h.wellFormed h.pending (by simpa using hi)
    exact hout r (hperm.mem_iff.mpr hr) hw
  · have he := (h.pending e).mpr (mem_filter.mp (hperm.mem_iff.mp he)).1
    rw [(erasedAt_iff h.wellFormed).mpr ⟨e, he, hw⟩] at hi
    cases hi

/-- A commit gives an error if, and only if, something that stays uses a result of an erased operation that is
not inside of another one; then it removes nothing. Otherwise the uses of erased values that are left are
those of values from inside of erased operations. -/
theorem commit_leaves_buried (wf : p.WellFormed) (h : Reached p extra s) {e : Option StillUsed}
    (hc : commit s = .ok e t) :
    (e = none ↔ ∀ i v, some v ∈ (s.work.program.op i).operands → erasedAt s i = false →
      Gone s v → Buried s v) ∧
    (e = none → ∀ i v, some v ∈ (t.work.program.op i).operands ∧ Gone s v ↔
      some v ∈ (s.work.program.op i).operands ∧ erasedAt s i = false ∧ Buried s v) ∧
    (e ≠ none → t = s) := by
  have hd := h.deferring wf
  cases e with
  | none =>
    refine ⟨iff_of_true rfl fun i v => buried_of_commit hd hc, fun _ i v => ?_, fun hne => absurd rfl hne⟩
    rw [commit_slots hd hc, and_assoc]
    refine and_congr_right fun hv => and_congr_right fun hi => ?_
    exact ⟨buried_of_commit hd hc hv hi, Buried.gone hd.wellFormed⟩
  | some e =>
    obtain ⟨rfl, r, hr, v, hv, i, hu, hi⟩ := commit_error hc
    refine ⟨iff_of_false (by simp) fun hall => ?_, nofun, fun _ => rfl⟩
    have hgone : Gone t v := by
      rw [Gone, hd.wellFormed.anchorOf_result hv]
      exact (erasedAt_iff hd.wellFormed).mpr ⟨r, (hd.pending r).mpr (mem_filter.mp hr).1, .refl⟩
    exact not_buried_of_root hd.wellFormed hr hv (hall i v (hd.wellFormed.mem_users.mp hu) hi hgone)

def committed? : EStateM.Result Fault (Session σ) (Option StillUsed) → Option (Session σ)
  | .ok none t => some t
  | _ => none

theorem of_committed? {r : EStateM.Result Fault (Session σ) (Option StillUsed)} {f : Session σ → Bool}
    (h : (committed? r).any f = true) : ∃ t, r = .ok none t ∧ f t = true := by
  rcases r with ⟨_ | e, t⟩ | ⟨e, t⟩
  · exact ⟨t, rfl, h⟩
  · cases h
  · cases h

/-- An `a.x` is used inside of an `a.box`, and what is made of it there is used outside. -/
def boxed : Program :=
  { ops := #[
      { name := "t.module", regions := [[0]] },
      { name := "a.x", results := [0], block := some 0 },
      { name := "a.box", regions := [[1]], block := some 0 },
      { name := "a.y", operands := [some 0], results := [1], block := some 1 },
      { name := "b.user", operands := [some 1], block := some 0 }]
    blocks := #[{ owner := 0, ops := [1, 2, 4] }, { owner := 2, ops := [3] }]
    values := #[⟨.index, .result 1 0, [⟨3, 0⟩]⟩, ⟨.index, .result 3 0, [⟨4, 0⟩]⟩] }

def withErased (es : List OpId) : Session Unit :=
  { work := { program := boxed }, deferred := true, pending := es.reverse, erased := es,
    mutations := es.length, extra := () }

theorem reached_withErased : ∀ {es : List OpId}, es.Nodup → Reached boxed () (withErased es)
  | [], _ => .start
  | i :: es, h => by
    obtain ⟨hi, hes⟩ := nodup_cons.mp h
    refine .request (.erase i) (reached_withErased hes) trivial ((eraseOp_ok rfl).mpr ⟨hi, ?_⟩)
    simp [withErased]

theorem commit_leaves_buried_boxed : ∃ t, commit (withErased [2, 1, 3]) = .ok none t ∧
    Buried (withErased [2, 1, 3]) 1 ∧
    ∀ i v, some v ∈ (t.work.program.op i).operands ∧ Gone (withErased [2, 1, 3]) v ↔
      some v ∈ (boxed.op i).operands ∧ erasedAt (withErased [2, 1, 3]) i = false ∧
        Buried (withErased [2, 1, 3]) v := by
  have hrun : (committed? (commit (withErased [2, 1, 3]))).any (fun _ => true) = true := by decide
  obtain ⟨t, ht, -⟩ := of_committed? hrun
  obtain ⟨-, huses, -⟩ := commit_leaves_buried (.of_check (by decide +kernel))
    (reached_withErased (by decide)) ht
  have hin : boxed.parent? 3 = some 2 := by decide
  exact ⟨t, ht, ⟨2, by decide, .single hin, by decide⟩, huses rfl⟩

/-- The result of an erased operation stays in use if the operation is inside of another one. -/
theorem commit_misses_nested_result : boxed.WellFormed ∧
    ∃ s t, Reached boxed () s ∧ commit s = .ok none t ∧ 3 ∈ s.erased ∧ 1 ∈ (s.work.program.op 3).results ∧
      erasedAt s 4 = false ∧ some 1 ∈ (t.work.program.op 4).operands := by
  have hrun : (committed? (commit (withErased [2, 1, 3]))).any
      (fun t => some 1 ∈ (t.work.program.op 4).operands) = true := by decide
  obtain ⟨t, ht, hv⟩ := of_committed? hrun
  exact ⟨.of_check (by decide), _, t, reached_withErased (by decide), ht, by decide, by decide,
    by decide, of_decide_eq_true hv⟩

/-! ## A commit ends -/

theorem exists_top (wf : p.WellFormed) (i : OpId) : ∃ a, p.Within a i ∧ ∀ c, p.Within c a → c = a := by
  obtain ⟨depth, hdepth⟩ := wf.nesting
  induction hn : depth i using Nat.strongRecOn generalizing i with
  | ind n ih =>
    cases hp : p.parent? i with
    | none =>
      refine ⟨i, .refl, fun c hc => ?_⟩
      cases hc with
      | refl => rfl
      | step hi _ => cases hp.symm.trans hi
    | some o =>
      obtain ⟨a, hw, ha⟩ := ih (depth o) (hn ▸ hdepth i o hp) o rfl
      exact ⟨a, .step hp hw, ha⟩

/-- A use of a root is in a root that comes later: if that one were around the definition too, the definition would
be no root. -/
theorem layered_of_visible (h : Deferring s)
    (hs : ∀ i v, some v ∈ (s.work.program.op i).operands → Visible r s.work.program root v i)
    (hr : Released s (roots s)) : ∃ rank, Layered s.work.program rank (roots s) := by
  have wf := h.wellFormed
  choose top hin hout using exists_top wf
  refine ⟨fun i => (s.work.program.nested (top i)).idxOf i, fun i hi v hv u hu => ?_⟩
  have huse := mem_of_getElem? (wf.consistent.mem_uses.mp hu)
  obtain ⟨j, hj, hju⟩ := exists_mem_roots wf h.pending (hr i hi v hv u.op (wf.mem_users.mpr huse))
  obtain ⟨a, b, hau, hab, hhome, hdef⟩ := (hs u.op v huse).home
  obtain ⟨-, hhome', hdo⟩ := wf.source_result hv
  have hib : (s.work.program.op i).block = some b := hhome'.symm.trans hhome
  have hparent : s.work.program.parent? i = some (s.work.program.block b).owner := parent?_eq_some.mpr ⟨b, hib, rfl⟩
  have haj : s.work.program.Within a j := by
    rcases hau.total hju with haj | hja
    · exact haj
    · by_cases heq : j = a
      · exact heq ▸ .refl
      · obtain ⟨o, ho, hjo⟩ := hja.of_ne heq
        obtain ⟨c, hc, rfl⟩ := parent?_eq_some.mp ho
        obtain rfl : b = c := Option.mem_unique hab hc
        have houter := (mem_filter.mp hi).2
        simp only [hparent, Option.all_some, (erasedAt_iff wf).mpr
          ⟨j, (h.pending j).mpr (mem_filter.mp hj).1, hjo⟩] at houter
        cases houter
  have hne : top i ≠ i := fun heq => by
    have ho := hout i _ (heq.symm ▸ Within.single hparent)
    exact wf.not_within_of_parent hparent (ho.trans heq ▸ .refl)
  have htop : top j = top i := by
    obtain ⟨o, ho, hwo⟩ := (hin i).of_ne hne
    obtain rfl := Option.mem_unique hparent ho
    have hj : s.work.program.Within (top i) j := (Within.step (parent?_eq_some.mpr ⟨b, hab, rfl⟩) hwo).trans haj
    rcases (hin j).total hj with hw | hw
    · exact hout i _ hw
    · exact (hout j _ hw).symm
  have hpre := wf.precedes_within hib (hin i) hne.symm hab (hdef i hdo) haj
  refine ⟨j, hj, hju, ?_⟩
  simp only [htop]
  exact ((precedes_iff_idxOf (wf.nodup_nested _) hpre.mem.1).mp hpre).2

/-- If every operation sees what it uses, and what stays uses nothing that is erased, a commit takes out what was
erased with all that is inside of it, and leaves the rest in its place. -/
theorem commit_finishes (h : Deferring s)
    (hs : ∀ i v, some v ∈ (s.work.program.op i).operands → s.work.program.visible r root i v = .ok ())
    (hu : ∀ i v, some v ∈ (s.work.program.op i).operands → erasedAt s i = false → ¬ Gone s v) :
    ∃ q, commit s = .ok none { s with work := { s.work with program := q }, pending := [] } ∧
      (∀ i, erasedAt s i = false → q.op i = s.work.program.op i) ∧
      (∀ b, erasedAt s (s.work.program.block b).owner = false →
        (q.block b).ops = (s.work.program.block b).ops.filter (· ∉ s.erased)) ∧
      ∀ a i, erasedAt s a = false → (q.Within a i ↔ s.work.program.Within a i ∧ erasedAt s i = false) := by
  have wf := h.wellFormed
  have hr : Released s (roots s) := by
    intro i hi v hv k hk
    by_contra hlive
    refine hu k v (wf.mem_users.mp hk) (by simpa using hlive) ?_
    rw [Gone, wf.anchorOf_result hv]
    exact (erasedAt_iff wf).mpr ⟨i, (h.pending i).mpr (mem_filter.mp hi).1, .refl⟩
  obtain ⟨e, -, hn⟩ | ⟨t, ht, -⟩ := commit_total wf (layered_of_visible h fun i v hv =>
    wf.visible_ok.mp (hs i v hv))
  · exact absurd hr hn
  · obtain ⟨-, es, q, hperm, hq, rfl⟩ := commit_ok ht
    have hc := eraseAll_cleared wf hq
    have hmem : ∀ e ∈ es, e ∈ s.erased := fun e he => (h.pending e).mpr (mem_filter.mp (hperm.mem_iff.mp he)).1
    have hlive : ∀ {k}, erasedAt s k = false ↔ ∀ e ∈ es, ¬ s.work.program.Within e k := by
      intro k
      rw [← Bool.not_eq_true]
      refine ⟨fun hk e he hw => hk ((erasedAt_iff wf).mpr ⟨e, hmem e he, hw⟩), fun hk he => ?_⟩
      obtain ⟨e, he, hw⟩ := exists_mem_roots wf h.pending he
      exact hk e (hperm.mem_iff.mpr he) hw
    refine ⟨q, ht, fun i hi => hc.stays i (hlive.mp hi), fun b hb => ?_,
      fun a i ha => ⟨fun hw => ?_, fun ⟨hw, hi⟩ => ?_⟩⟩
    · rw [hc.block]
      refine filter_congr fun j hj => decide_eq_decide.mpr (not_congr ⟨hmem j, fun he => ?_⟩)
      have hparent := parent?_eq_some.mpr ⟨b, (wf.listed j b).mpr hj, rfl⟩
      by_contra hno
      refine absurd (hlive.mpr fun e he' hw => ?_) (by simpa using (erasedAt_iff wf).mpr ⟨j, he, .refl⟩)
      obtain ⟨o, ho, hwo⟩ := hw.of_ne fun heq => hno (heq ▸ he')
      exact hlive.mp hb e he' (Option.mem_unique hparent ho ▸ hwo)
    · exact ⟨hc.within hw, hlive.mpr fun e he hwe => hlive.mp ha e he (hc.within_root hw he hwe)⟩
    · refine (hc.still_within hw).resolve_right ?_
      rintro ⟨e, he, hwe⟩
      exact hlive.mp hi e he (hc.within hwe)

/-- The session in which all but the module and the user are erased, and the user uses nothing. -/
def freed : Session Unit :=
  let values := boxed.values.modify 1 fun x => { x with uses := [] }
  let ops := boxed.ops.modify 4 fun o => { o with operands := [] }
  { withErased [2, 1, 3] with work := { program := { boxed with ops, values } } }

theorem commit_finishes_freed : ∃ q, commit freed = .ok none
    { freed with work := { program := q }, pending := [] } ∧
    (q.block 0).ops = [4] := by
  have hslots : ∀ i v, some v ∈ (freed.work.program.op i).operands → i = 3 ∧ v = 0 := by
    have hall : ∀ i ∈ List.range 5, ∀ slot ∈ (freed.work.program.op ⟨i⟩).operands, i = 3 ∧
      slot = some 0 := by
      decide
    rintro ⟨i⟩ v hv
    obtain ⟨rfl, heq⟩ := hall i (mem_range.mpr (hasOp_of_operand hv)) _ hv
    exact ⟨rfl, Option.some.inj heq⟩
  have hd : Deferring freed := ⟨.of_check (by decide), rfl, fun _ => mem_reverse.symm⟩
  have hs : ∀ i v, some v ∈ (freed.work.program.op i).operands →
    freed.work.program.visible [] 0 i v = .ok () := by
    intro i v hv
    obtain ⟨rfl, rfl⟩ := hslots i v hv
    decide
  have hu : ∀ i v, some v ∈ (freed.work.program.op i).operands → erasedAt freed i = false →
    ¬ Gone freed v := by
    intro i v hv hi
    obtain ⟨rfl, rfl⟩ := hslots i v hv
    exact absurd hi (by decide)
  obtain ⟨q, hq, -, hops, -⟩ := commit_finishes hd hs hu
  exact ⟨q, hq, (hops 0 (by decide +kernel)).trans (by decide +kernel)⟩

end Rewrite

end Offload
