import Offload.Proofs.Commits
import Offload.Rewrite.Greedy

/-!
# Where greedy rewriting stops

A greedy rewrite ends without an error only after a sweep that changed nothing. Unless the root itself was erased,
no pattern matches anything inside of it then, and nothing is dead.
-/

namespace Offload.Rewrite

open Program Rewriting List

variable {b : BlockId} {c c' : Bool} {l : List OpId} {operands values : List Slot} {p : Program} {place : Nat}
  {stats : Stats} {x : Unit}
variable {σ : Type} {r : Registry} {patterns : List (Pattern σ)} {root i : OpId} {s t u : Session σ}

/-! ## Sessions with immediate erasure -/

namespace Rewriting

theorem eraseOp_now (hd : s.deferred = false) : (eraseOp i : Rewriting σ Unit) s = .ok x t ↔
    i ∉ s.erased ∧ ∃ q, Edit.erase i s.work.program = .ok () q ∧
      t = { s with work := { s.work with program := q }, mutations := s.mutations + 1, erased := i :: s.erased } := by
  obtain ⟨work, deferred, pending, erased, mutations, rewritten, extra⟩ := s
  obtain rfl : deferred = false := hd
  simp only [eraseOp, bind_ok, get_ok]
  constructor
  · rintro ⟨_, _, ⟨rfl, rfl⟩, h⟩
    by_cases hi : i ∈ erased
    · simp [hi] at h
    · simp only [contains_iff_mem, hi, if_false, Bool.false_eq_true, bind_ok, countMutation_ok,
        modify_ok, edit_ok] at h
      obtain ⟨_, _, rfl, _, _, rfl, q, hq, rfl⟩ := h
      exact ⟨hi, q, hq, rfl⟩
  · rintro ⟨hi, q, hq, rfl⟩
    refine ⟨_, _, ⟨rfl, rfl⟩, ?_⟩
    simp only [contains_iff_mem, hi, if_false, Bool.false_eq_true, bind_ok, countMutation_ok, modify_ok, edit_ok]
    exact ⟨(), _, rfl, (), _, rfl, q, hq, rfl⟩

end Rewriting

structure Tidy (s : Session σ) : Prop where
  wellFormed : s.work.program.WellFormed
  deferred : s.deferred = false
  detached : ∀ e ∈ s.erased, s.work.program.HasOp e ∧ (s.work.program.op e).block = none

/-- What a pattern may do with its session: build and edit, as long as the program is well formed and nothing that was
erased gets back into a block, redirect uses, erase, and remember something. -/
inductive Works (s : Session σ) : Session σ → Prop
  | nothing : Works s s
  | build {t u : Session σ} {α : Type} (x : Build α) (a : α) : Works s t → Rewriting.build x t = .ok a u →
      u.work.program.WellFormed → (∀ e ∈ t.erased, u.work.program.HasOp e ∧
        (u.work.program.op e).block = none) → Works s u
  | replaceAllUses {t u : Session σ} (v : ValueId) (w : Slot) : Works s t →
      (∀ y, w = some y → t.work.program.HasValue y) → Rewriting.replaceAllUses (some v) w t =
        .ok () u → Works s u
  | eraseOp {t u : Session σ} (i : OpId) : Works s t → t.work.program.HasOp i →
    Rewriting.eraseOp i t = .ok () u → Works s u
  | count {t : Session σ} (mutations : Nat) : Works s t → Works s { t with mutations }
  | remember {t : Session σ} (extra : σ) : Works s t → Works s { t with extra }

namespace Tidy

theorem eraseOp (h : Tidy s) (hi : s.work.program.HasOp i) (he : Rewriting.eraseOp i s = .ok () t) : Tidy t := by
  obtain ⟨-, q, hq, rfl⟩ := (eraseOp_now h.deferred).mp he
  have hgone := Edit.erase_ok h.wellFormed hq
  refine ⟨hgone.wellFormed, h.deferred, fun e hmem => ?_⟩
  have hthere : s.work.program.HasOp e := (mem_cons.mp hmem).elim (fun heq => heq ▸ hi) fun he => (h.detached e he).1
  refine ⟨by rw [HasOp, hgone.ops]; exact hthere, ?_⟩
  by_cases hin : s.work.program.Within i e
  · rw [hgone.inside e hin]
    -- what was erased before and is inside of `i` can only be `i`
    by_cases hei : e = i
    · exact if_pos hei
    · obtain ⟨a, ha, -⟩ := hin.of_ne (Ne.symm hei)
      obtain ⟨b, hb, -⟩ := parent?_eq_some.mp ha
      rw [(h.detached e ((mem_cons.mp hmem).resolve_left hei)).2] at hb
      cases hb
  · rw [hgone.outside e hin]
    exact (h.detached e ((mem_cons.mp hmem).resolve_left fun hei => hin (hei ▸ .refl))).2

theorem replaceAllUses {v : ValueId} {w : Slot} (h : Tidy s) (hw : ∀ y, w = some y → s.work.program.HasValue y)
    (hr : Rewriting.replaceAllUses (some v) w s = .ok () t) : Tidy t := by
  obtain ⟨hsame, hwf, -, he, -, hd⟩ := replaceAllUses_same h.wellFormed hw hr
  refine ⟨hwf, hd.trans h.deferred, fun e hmem => ?_⟩
  obtain ⟨hop, hblock⟩ := h.detached e (he ▸ hmem)
  exact ⟨(hsame.hasOp e).mpr hop, by rw [hsame.op e]; exact hblock⟩

theorem works (h : Tidy s) (hw : Works s t) : Tidy t := by
  induction hw with
  | nothing => exact h
  | build x a _ hx hwf hout ih =>
    obtain ⟨w, -, rfl⟩ := build_ok.mp hx
    exact ⟨hwf, ih.deferred, hout⟩
  | replaceAllUses v w _ hv hr ih => exact ih.replaceAllUses hv hr
  | eraseOp i _ hi he ih => exact ih.eraseOp hi he
  | count n _ ih => exact { ih with }
  | remember extra _ ih => exact { ih with }

theorem erasedAt_root (h : Tidy s) (hi : s.work.program.Within root i) (he : erasedAt s i = true) :
    erasedAt s root = true := by
  obtain ⟨e, hmem, hin⟩ := (erasedAt_iff h.wellFormed).mp he
  refine (erasedAt_iff h.wellFormed).mpr ⟨e, hmem, (hin.total hi).elim id fun hroot => ?_⟩
  -- an erased operation is in nothing, so it is the root
  cases hroot with
  | refl => exact .refl
  | step hp _ =>
    obtain ⟨b, hb, -⟩ := parent?_eq_some.mp hp
    rw [(h.detached e hmem).2] at hb
    cases hb

end Tidy

/-! ## Patterns -/

def Idles (s t : Session σ) : Prop := ∃ builder extra, t = { s with work := { s.work with builder }, extra }

theorem Idles.program_eq (h : Idles s t) : t.work.program = s.work.program := by
  obtain ⟨_, _, rfl⟩ := h
  rfl

theorem Idles.erased_eq (h : Idles s t) : t.erased = s.erased := by
  obtain ⟨_, _, rfl⟩ := h
  rfl

theorem Idles.trans (h : Idles s t) (h' : Idles t u) : Idles s u := by
  obtain ⟨_, _, rfl⟩ := h
  obtain ⟨builder, extra, rfl⟩ := h'
  exact ⟨builder, extra, rfl⟩

theorem Idles.tidy (h : Idles s t) (hs : Tidy s) : Tidy t := by
  obtain ⟨_, _, rfl⟩ := h
  exact { hs with }

/-- The session as a sweep hands it to a pattern: the operation is there, and so is the block to build in. -/
structure Handed (i : OpId) (s : Session σ) : Prop extends Tidy s where
  hasOp : s.work.program.HasOp i
  stands : ∃ b, s.work.builder.block = some b ∧ s.work.program.HasBlock b

/-- The pattern does not match, whatever the session is besides the program. -/
def Pattern.Rejects (pattern : Pattern σ) (p : Program) (i : OpId) : Prop :=
  ∀ s : Session σ, s.work.program = p → ∃ t, pattern.rewrite i s = .ok .noMatch t

/-- A pattern that decides from the program alone whether it matches. It changes nothing where it does not, and works
through its session where it does. -/
structure Decisive (pattern : Pattern σ) : Prop where
  decides : ∀ i s t, pattern.rewrite i s = .ok .noMatch t → pattern.Rejects s.work.program i
  quiet : ∀ i s t, pattern.rewrite i s = .ok .noMatch t → Idles s t ∧ (Handed i s → Handed i t)
  works : ∀ i s t, Handed i s → pattern.rewrite i s = .ok .applied t → Works s t

section
variable (hp : ∀ pattern ∈ patterns, Decisive pattern)
include hp

theorem tryPatterns_rejected (h : tryPatterns i patterns s = .ok .noMatch t) :
    Idles s t ∧ ∀ pattern ∈ patterns, pattern.Rejects s.work.program i := by
  induction patterns generalizing s with
  | nil =>
    simp only [tryPatterns, pure_ok, true_and] at h
    exact ⟨⟨s.work.builder, s.extra, h.symm⟩, fun _ hmem => absurd hmem not_mem_nil⟩
  | cons pattern rest ih =>
    rw [tryPatterns, program_bind, bind_of_ok (setLoc_eq ..), bind_ok] at h
    obtain ⟨outcome, m, hm, h⟩ := h
    cases outcome with
    | applied => simp at h
    | failed cause => simp at h
    | noMatch =>
      rw [forall_mem_cons] at hp ⊢
      have hidle := (hp.1.quiet _ _ _ hm).1
      obtain ⟨hrest, hrejects⟩ := ih hp.2 h
      have hall : Idles s t := .trans ⟨_, _, rfl⟩ (hidle.trans hrest)
      have hfirst := hp.1.decides i _ m hm
      exact ⟨hall, hfirst, fun x hx => hidle.program_eq ▸ hrejects x hx⟩

theorem tryPatterns_works (hs : Handed i s) (h : tryPatterns i patterns s = .ok .applied t) :
    ∃ m, Tidy m ∧ Works m t := by
  induction patterns generalizing s with
  | nil => simp [tryPatterns] at h
  | cons pattern rest ih =>
    rw [tryPatterns, program_bind, bind_of_ok (setLoc_eq ..), bind_ok] at h
    obtain ⟨outcome, m, hm, h⟩ := h
    have hloc : Handed i (located s (s.work.program.op i).loc) := { hs with stands := hs.stands }
    rw [forall_mem_cons] at hp
    cases outcome with
    | applied =>
      simp only [pure_ok, true_and] at h
      subst h
      exact ⟨_, hloc.toTidy, hp.1.works _ _ _ hloc hm⟩
    | failed cause => simp at h
    | noMatch => exact ih hp.2 ((hp.1.quiet _ _ _ hm).2 hloc) h

end

theorem handed_placed {loc : String} (hs : Tidy s) (hb : (s.work.program.op i).block = some b) :
    Handed i (placed s b place loc) :=
  { hs with
    hasOp := hasOp_of_block hb
    stands := ⟨b, rfl, hs.wellFormed.hasBlock_of_block hb⟩ }

/-! ## Stock patterns -/

namespace Stock

theorem works_replaceAll (l : List (ValueId × Slot)) (hs : Works s t)
    (hl : ∀ x ∈ l, ∀ y, x.2 = some y → t.work.program.HasValue y)
    (ht : Tidy t) (h : l.forM (fun x => replaceAllUses (some x.1) x.2) t = .ok () u) :
    Works s u ∧ u.work.program.ops.size = t.work.program.ops.size := by
  induction l generalizing t with
  | nil =>
    rw [forM_nil_ok] at h
    exact h ▸ ⟨hs, rfl⟩
  | cons x l ih =>
    obtain ⟨m, hm, h⟩ := forM_cons_ok.mp h
    have hx := hl x mem_cons_self
    obtain ⟨hsame, -⟩ := replaceAllUses_same ht.wellFormed hx hm
    have hrest : ∀ z ∈ l, ∀ y, z.2 = some y → m.work.program.HasValue y := by
      intro z hz y hy
      rw [HasValue, hsame.values]
      exact hl z (mem_cons_of_mem _ hz) y hy
    obtain ⟨hworks, hops⟩ := ih (.replaceAllUses _ _ hs hx hm) hrest (ht.replaceAllUses hx hm) h
    exact ⟨hworks, hops.trans hsame.ops⟩

theorem works_replaceOp (hs : Works s t) (ht : Tidy t) (hi : t.work.program.HasOp i)
    (hv : ∀ v, some v ∈ values → t.work.program.HasValue v) (h : replaceOp i values t = .ok x u) : Works s u := by
  obtain ⟨m, hm, h⟩ := replaceOp_ok h
  obtain ⟨hworks, hops⟩ := works_replaceAll _ hs (fun x hx y hy => hv y (hy ▸ (of_mem_zip hx).2)) ht hm
  exact .eraseOp i hworks (by rw [HasOp, hops]; exact hi) h

theorem works_createLike {name : String} (hs : Works s t) (ht : Handed i t)
    (hv : ∀ v, some v ∈ operands → t.work.program.HasValue v) (h : createLike i name operands t = .ok values u) :
    Works s u ∧ Handed i u ∧ ∀ v, some v ∈ values → u.work.program.HasValue v := by
  simp only [createLike, bind_ok, program_ok, pure_ok] at h
  obtain ⟨_, t, ⟨rfl, rfl⟩, j, _, hbuild, _, _, ⟨rfl, rfl⟩, rfl, rfl⟩ := h
  obtain ⟨w, hw, rfl⟩ := build_ok.mp hbuild
  obtain ⟨b, hb, hB⟩ := ht.stands
  obtain ⟨ts, n, -, -, hc⟩ := Build.create_at ht.wellFormed hb hB hv hw
  have hthere : ∀ k, t.work.program.HasOp k → w.program.HasOp k := by
    intro k hk
    rw [HasOp, hc.made.ops]
    exact Nat.lt_succ_of_lt hk
  have hout : ∀ e ∈ t.erased, w.program.HasOp e ∧ (w.program.op e).block = none := by
    intro e he
    obtain ⟨hop, hblock⟩ := ht.detached e he
    exact ⟨hthere e hop, by rw [hc.op e hop, hblock]⟩
  refine ⟨.build _ _ hs hbuild hc.wellFormed hout, ⟨⟨hc.wellFormed, ht.deferred, hout⟩, hthere i ht.hasOp, b,
    ?_, ?_⟩, fun v hv => ?_⟩
  · show w.builder.block = some b
    rw [hc.builder]
    exact hb
  · show b.index < w.program.blocks.size
    rw [hc.made.blocks]
    exact hB
  · exact hc.wellFormed.hasValue_result (by simpa using hv)

theorem works_chain (names : List String) (hs : Works s t) (ht : Handed i t)
    (hv : ∀ v, some v ∈ operands → t.work.program.HasValue v)
    (h : names.foldlM (fun values name => createLike i name values) operands t = .ok values u) :
    Works s u ∧ Handed i u ∧ ∀ v, some v ∈ values → u.work.program.HasValue v := by
  induction names generalizing t operands with
  | nil =>
    simp only [foldlM_nil, pure_ok] at h
    obtain ⟨rfl, rfl⟩ := h
    exact ⟨hs, ht, hv⟩
  | cons name names ih =>
    simp only [foldlM_cons, bind_ok] at h
    obtain ⟨next, m, hm, h⟩ := h
    obtain ⟨hworks, hhanded, hnext⟩ := works_createLike hs ht hv hm
    exact ih hworks hhanded hnext h

theorem decisive_of_applied {pattern : Pattern σ} (hmatch : ∀ i s t, pattern.rewrite i s ≠ .ok .noMatch t)
    (works : ∀ i s t, Handed i s → pattern.rewrite i s = .ok .applied t → Works s t) : Decisive pattern where
  decides i s t h := absurd h (hmatch i s t)
  quiet i s t h := absurd h (hmatch i s t)
  works := works

theorem chain_decisive (kind : String) (names : List String) : Decisive (⟨kind, chain names⟩ : Pattern σ) := by
  refine decisive_of_applied (fun i s t h => ?_) fun i s t hs h => ?_
  · simp [chain] at h
  · simp only [chain, bind_ok, program_ok, pure_ok, true_and] at h
    obtain ⟨_, _, ⟨rfl, rfl⟩, values, m, hm, _, _, h, rfl⟩ := h
    obtain ⟨hbuilt, hhanded, hvalues⟩ := works_chain names .nothing hs (fun v => hs.wellFormed.hasValue_operand) hm
    exact works_replaceOp hbuilt hhanded.toTidy hhanded.hasOp hvalues h

def Single (p : Program) (i : OpId) : Prop :=
  ∃ v, (p.op i).operands[0]? = some (some v) ∧ ∀ j, p.definingOp? v = some j → (p.op j).name ≠ (p.op i).name

theorem operand_ok {o : Op} {k : Nat} {v : Slot} :
    (operand o k : Rewriting σ Slot) s = .ok v t ↔ o.operands[k]? = some v ∧ s = t := by
  unfold operand
  cases o.operands[k]? with
  | none => simp
  | some w => simp [pure_ok]

theorem cancel_ok {outcome : Outcome} (h : (cancel i : Rewriting σ Outcome) s = .ok outcome t) :
    (outcome = .noMatch ∧ Single s.work.program i ∧ t = s) ∨
    (outcome = .applied ∧ ∃ j w, ¬ Single s.work.program i ∧ (s.work.program.op j).operands[0]? = some w ∧
      replaceOp i [w] s = .ok () t) := by
  simp only [cancel, bind_ok, program_ok, operand_ok] at h
  obtain ⟨_, s, ⟨rfl, rfl⟩, v, _, ⟨hv, rfl⟩, h⟩ := h
  cases v with
  | none => simp at h
  | some v =>
    cases hj : s.work.program.definingOp? v with
    | none =>
      simp only [hj, pure_ok] at h
      exact .inl ⟨h.1.symm, ⟨v, hv, by simp [hj]⟩, h.2.symm⟩
    | some j =>
      by_cases hname : (s.work.program.op j).name = (s.work.program.op i).name
      · simp only [hj, hname, ne_eq, not_true, if_false, bind_ok, operand_ok, pure_ok] at h
        obtain ⟨w, _, ⟨hw, rfl⟩, _, _, hreplace, rfl, rfl⟩ := h
        refine .inr ⟨rfl, j, w, ?_, hw, hreplace⟩
        rintro ⟨v', hv', hne⟩
        obtain rfl : v = v' := by simpa using hv.symm.trans hv'
        exact hne j hj hname
      · simp only [hj, hname, ne_eq, not_false_eq_true, if_true, pure_ok] at h
        obtain ⟨rfl, rfl⟩ := h
        refine .inl ⟨rfl, ⟨v, hv, fun k hk => ?_⟩, rfl⟩
        obtain rfl := Option.mem_unique hj hk
        exact hname

theorem cancel_of_single (h : Single s.work.program i) : (cancel i : Rewriting σ Outcome) s = .ok .noMatch s := by
  obtain ⟨v, hv, hne⟩ := h
  simp only [cancel, bind_ok, program_ok, operand_ok]
  refine ⟨_, _, ⟨rfl, rfl⟩, some v, _, ⟨hv, rfl⟩, ?_⟩
  cases hj : s.work.program.definingOp? v with
  | none => simp [hj, pure_ok]
  | some j => simp [hj, hne j hj, pure_ok]

theorem cancel_decisive (kind : String) : Decisive (⟨kind, cancel⟩ : Pattern σ) where
  decides i s t h := by
    rcases cancel_ok h with ⟨-, hsingle, -⟩ | ⟨h, -⟩
    · rintro s' hs'
      exact ⟨s', cancel_of_single (hs' ▸ hsingle)⟩
    · cases h
  quiet i s t h := by
    rcases cancel_ok h with ⟨-, -, rfl⟩ | ⟨h, -⟩
    · exact ⟨⟨_, _, rfl⟩, id⟩
    · cases h
  works i s t hs h := by
    rcases cancel_ok h with ⟨h, -⟩ | ⟨-, j, w, -, hw, h⟩
    · cases h
    · refine works_replaceOp .nothing hs.toTidy hs.hasOp (fun v hv => ?_) h
      exact hs.wellFormed.hasValue_operand (mem_of_getElem? (mem_singleton.mp hv ▸ hw))

theorem works_eraseAll (is : List OpId) (hs : Works s t) (ht : Tidy t) (hi : ∀ i ∈ is, t.work.program.HasOp i)
    (h : is.forM eraseOp t = .ok () u) : Works s u := by
  induction is generalizing t with
  | nil =>
    rw [forM_nil_ok] at h
    exact h ▸ hs
  | cons i is ih =>
    obtain ⟨m, hm, h⟩ := forM_cons_ok.mp h
    have hthere := hi i mem_cons_self
    refine ih (.eraseOp i hs hthere hm) (ht.eraseOp hthere hm) (fun j hj => ?_) h
    obtain ⟨-, q, hq, rfl⟩ := (eraseOp_now ht.deferred).mp hm
    show j.index < q.ops.size
    rw [(Edit.erase_ok ht.wellFormed hq).ops]
    exact hi j (mem_cons_of_mem _ hj)

theorem erase_ne_noMatch {is : List OpId} : (erase is : Rewriting σ Outcome) s ≠ .ok .noMatch t := by
  simp [erase]

theorem erase_decisive (kind : String) : Decisive (⟨kind, fun i => erase [i]⟩ : Pattern σ) := by
  refine decisive_of_applied (fun i s t => erase_ne_noMatch) fun i s t hs h => ?_
  simp only [erase, bind_ok, pure_ok, true_and] at h
  obtain ⟨_, _, h, rfl⟩ := h
  exact works_eraseAll [i] .nothing hs.toTidy (fun j hj => mem_singleton.mp hj ▸ hs.hasOp) h

theorem eraseWithUsers_decisive (kind : String) : Decisive (⟨kind, eraseWithUsers⟩ : Pattern σ) := by
  refine decisive_of_applied (fun i s t h => ?_) fun i s t hs h => ?_
  · cases (eraseWithUsers_ok h).1
  · obtain ⟨-, v, -, h⟩ := eraseWithUsers_ok h
    refine works_eraseAll _ .nothing hs.toTidy (fun j hj => ?_) h
    rcases mem_append.mp hj with hj | hj
    · exact hasOp_of_operand (hs.wellFormed.mem_users.mp hj)
    · exact mem_singleton.mp hj ▸ hs.hasOp

end Stock

/-! ## Sweeps -/

theorem sweepOver_cons {rest : List OpId} (h : sweepOver r patterns c (i :: rest) s = .ok (.ok c') u) :
    (erasedAt s i = true ∧ sweepOver r patterns c rest s = .ok (.ok c') u) ∨
    (erasedAt s i = false ∧ isDead r s.work.program i = true ∧
      ∃ t, eraseOp i s = .ok () t ∧ sweepOver r patterns true rest t = .ok (.ok c') u) ∨
    (erasedAt s i = false ∧ isDead r s.work.program i = false ∧
      ∃ b place t, (s.work.program.op i).block = some b ∧
      ((applyPatterns patterns i (placed s b place s.work.builder.loc) = .ok .noMatch t ∧
          sweepOver r patterns c rest t = .ok (.ok c') u) ∨
        applyPatterns patterns i (placed s b place s.work.builder.loc) = .ok .applied t ∧
          sweepOver r patterns true rest { t with rewritten := t.rewritten + 1 } = .ok (.ok c') u)) := by
  simp only [sweepOver, bind_ok, isErased_ok] at h
  obtain ⟨_, s, ⟨rfl, rfl⟩, h⟩ := h
  cases he : (s.work.program.enclosing i).any s.erased.contains with
  | true =>
    rw [he, if_pos rfl] at h
    exact .inl ⟨he, h⟩
  | false =>
    rw [he, if_neg Bool.false_ne_true] at h
    simp only [bind_ok, program_ok] at h
    obtain ⟨_, s, ⟨rfl, rfl⟩, h⟩ := h
    cases hdead : isDead r s.work.program i with
    | true =>
      rw [hdead, if_pos rfl] at h
      obtain ⟨_, t, ht, h⟩ := bind_ok.mp h
      exact .inr (.inl ⟨he, rfl, t, ht, h⟩)
    | false =>
      rw [hdead, if_neg Bool.false_ne_true] at h
      simp only [bind_ok, toBefore_ok, program_ok] at h
      obtain ⟨_, _, ⟨b, place, hb, -, rfl⟩, _, _, ⟨rfl, rfl⟩, outcome, t, ht, h⟩ := h
      refine .inr (.inr ⟨he, rfl, b, place, t, hb, ?_⟩)
      cases outcome with
      | failed cause => simp at h
      | noMatch => exact .inl ⟨ht, h⟩
      | applied =>
        simp only [bind_ok, countRewrite_ok] at h
        obtain ⟨_, _, rfl, h⟩ := h
        exact .inr ⟨ht, h⟩

section
variable (hp : ∀ pattern ∈ patterns, Decisive pattern)
include hp

theorem applyPatterns_rejected (h : applyPatterns patterns i s = .ok .noMatch t) :
    Idles s t ∧ ∀ pattern ∈ patterns, pattern.kind = (s.work.program.op i).name →
      pattern.Rejects s.work.program i := by
  obtain ⟨hidle, hall⟩ := tryPatterns_rejected (fun x hx => hp x (mem_filter.mp hx).1) h
  exact ⟨hidle, fun x hx hk => hall x (mem_filter.mpr ⟨hx, by simpa using hk⟩)⟩

theorem applyPatterns_tidy (hs : Handed i s) (h : applyPatterns patterns i s = .ok .applied t) : Tidy t := by
  obtain ⟨m, hm, hworks⟩ := tryPatterns_works (fun x hx => hp x (mem_filter.mp hx).1) hs h
  exact hm.works hworks

theorem idles_of_rejected
    (h : applyPatterns patterns i (placed s b place s.work.builder.loc) = .ok .noMatch t) : Idles s t :=
  .trans ⟨_, _, rfl⟩ (applyPatterns_rejected hp h).1

omit hp in
theorem hasOp_of_isDead (h : isDead r p i = true) : p.HasOp i := by
  by_contra hn
  simp [isDead, op_of_not_hasOp hn] at h

theorem sweepOver_tidy (hs : Tidy s) (h : sweepOver r patterns c l s = .ok (.ok c') t) :
    Tidy t ∧ (c = true → c' = true) := by
  induction l generalizing s c with
  | nil =>
    simp only [sweepOver, pure_ok, Except.ok.injEq] at h
    obtain ⟨rfl, rfl⟩ := h
    exact ⟨hs, id⟩
  | cons i rest ih =>
    rcases sweepOver_cons h with ⟨-, h⟩ | ⟨-, hdead, m, hm, h⟩ |
      ⟨-, -, b, place, m, hb, ⟨hm, h⟩ | ⟨hm, h⟩⟩
    · exact ih hs h
    · obtain ⟨ht, hc⟩ := ih (hs.eraseOp (hasOp_of_isDead hdead) hm) h
      exact ⟨ht, fun _ => hc rfl⟩
    · exact ih ((idles_of_rejected hp hm).tidy hs) h
    · have htidy : Tidy { m with rewritten := m.rewritten + 1 } :=
        { applyPatterns_tidy hp (handed_placed hs hb) hm with }
      obtain ⟨ht, hc⟩ := ih htidy h
      exact ⟨ht, fun _ => hc rfl⟩

theorem sweepOver_unchanged (hs : Tidy s) (h : sweepOver r patterns false l s = .ok (.ok false) t) :
    Idles s t ∧ ∀ i ∈ l, erasedAt s i = true ∨ (isDead r s.work.program i = false ∧
      ∀ pattern ∈ patterns, pattern.kind = (s.work.program.op i).name → pattern.Rejects s.work.program i) := by
  induction l generalizing s with
  | nil =>
    simp only [sweepOver, pure_ok, true_and] at h
    exact ⟨⟨_, _, h.symm⟩, fun _ hmem => absurd hmem not_mem_nil⟩
  | cons i rest ih =>
    rw [forall_mem_cons]
    rcases sweepOver_cons h with ⟨he, h⟩ | ⟨-, hdead, m, hm, h⟩ |
      ⟨-, hdead, b, place, m, hb, ⟨hm, h⟩ | ⟨hm, h⟩⟩
    · obtain ⟨hidle, hall⟩ := ih hs h
      exact ⟨hidle, .inl he, hall⟩
    · exact absurd ((sweepOver_tidy hp (hs.eraseOp (hasOp_of_isDead hdead) hm) h).2 rfl) Bool.false_ne_true
    · have hfirst := idles_of_rejected hp hm
      obtain ⟨hidle, hall⟩ := ih (hfirst.tidy hs) h
      refine ⟨hfirst.trans hidle, .inr ⟨hdead, (applyPatterns_rejected hp hm).2⟩, fun j hj => ?_⟩
      have hj := hall j hj
      rwa [erasedAt, hfirst.erased_eq, hfirst.program_eq] at hj
    · have htidy : Tidy { m with rewritten := m.rewritten + 1 } :=
        { applyPatterns_tidy hp (handed_placed hs hb) hm with }
      exact absurd ((sweepOver_tidy hp htidy h).2 rfl) Bool.false_ne_true

theorem sweeps_none {total n : Nat} (hs : Tidy s) (h : sweeps r patterns root total n s = .ok none t) :
    ∃ m u, Tidy m ∧ sweepOver r patterns false (m.work.program.preorder (fun _ => true) root) m =
      .ok (.ok false) u ∧ t = { u with work := { u.work with created := [] } } := by
  induction n generalizing s with
  | zero => simp [sweeps] at h
  | succ n ih =>
    simp only [sweeps, bind_ok, program_ok] at h
    obtain ⟨_, s, ⟨rfl, rfl⟩, outcome, u, hu, h⟩ := h
    cases outcome with
    | error e => simp at h
    | ok changed =>
      simp only [bind_ok, discard_ok, takeInserted_ok] at h
      obtain ⟨_, _, ⟨_, -, rfl⟩, h⟩ := h
      cases changed with
      | true =>
        have htidy : Tidy { u with work := { u.work with created := [] } } := { (sweepOver_tidy hp hs hu).1 with }
        exact ih htidy h
      | false =>
        simp only [Bool.false_eq_true, if_false, pure_ok, true_and] at h
        exact ⟨s, u, hs, hu, h.symm⟩

end

theorem sweeps_of_greedily {maxSweeps : Int} {e : Option GreedyError}
    (h : greedily r patterns root maxSweeps s = .ok (stats, e) t) :
    ∃ n, sweeps r patterns root n n s = .ok e t := by
  simp only [greedily, bind_ok, pure_ok, Prod.mk.injEq, Rewriting.stats, get_ok] at h
  obtain ⟨_, _, he, _, _, ⟨_, _, ⟨rfl, rfl⟩, _, rfl⟩, ⟨-, rfl⟩, rfl⟩ := h
  exact ⟨_, he⟩

theorem tidy_start (extra : σ) (wf : p.WellFormed) :
    Tidy ({ work := { program := p }, deferred := false, extra } : Session σ) :=
  ⟨wf, rfl, fun _ he => absurd he not_mem_nil⟩

/-- If greedy rewriting ends without an error, no pattern matches anything inside of the root and nothing there is dead;
unless the root was erased, or something around it. -/
theorem greedily_fixpoint (r : Registry) (patterns : List (Pattern σ))
    (hp : ∀ pattern ∈ patterns, Decisive pattern)
    (root : OpId) (maxSweeps : Int) (extra : σ) (wf : p.WellFormed)
    (h : start false extra (greedily r patterns root maxSweeps) p = .ok (stats, none) s)
    (hroot : erasedAt s root = false) :
    ∀ i, s.work.program.Within root i → i ≠ root → isDead r s.work.program i = false ∧
      ∀ pattern ∈ patterns, pattern.kind = (s.work.program.op i).name → pattern.Rejects s.work.program i := by
  obtain ⟨n, hn⟩ := sweeps_of_greedily h
  obtain ⟨m, u, hm, hu, rfl⟩ := sweeps_none hp (tidy_start extra wf) hn
  obtain ⟨hidle, hall⟩ := sweepOver_unchanged hp hm hu
  intro i hi hne
  have hprogram : u.work.program = m.work.program := hidle.program_eq
  have hroot : erasedAt m root = false := by rwa [erasedAt, ← hidle.erased_eq, ← hprogram]
  show isDead r u.work.program i = false ∧ ∀ pattern ∈ patterns, pattern.kind = (u.work.program.op i).name →
    pattern.Rejects u.work.program i
  have hi : m.work.program.Within root i := hprogram ▸ hi
  rw [hprogram]
  refine (hall i ?_).resolve_left fun he => ?_
  · have hmem := hm.wellFormed.mem_nested.mpr hi
    rw [hm.wellFormed.nested_eq_preorder] at hmem
    exact (mem_cons.mp hmem).resolve_left hne
  · rw [hm.erasedAt_root hi he] at hroot
    cases hroot

/-- Twice an `a.inv` on an `a.x`. -/
def inverted : Program :=
  { ops := #[
      { name := "b.root", regions := [[0]] },
      { name := "a.x", results := [0], block := some 0 },
      { name := "a.inv", operands := [some 0], results := [1], block := some 0 },
      { name := "a.inv", operands := [some 1], results := [2], block := some 0 },
      { name := "b.use", operands := [some 2], block := some 0 }]
    blocks := #[{ owner := 0, ops := [1, 2, 3, 4] }]
    values := #[
      ⟨.index, .result 1 0, [⟨2, 0⟩]⟩,
      ⟨.index, .result 2 0, [⟨3, 0⟩]⟩,
      ⟨.index, .result 3 0, [⟨4, 0⟩]⟩] }

def invIsPure : Registry := [{ name := "a.inv", traits := { pure := true } }]

def cancelInv : List (Pattern Unit) := [⟨"a.x", Stock.chain ["b.x"]⟩, ⟨"a.inv", Stock.cancel⟩]

/-- The first sweep cancels the outer `a.inv`, the second one finds that the inner one is dead. -/
theorem greedily_fixpoint_inverted :
    ∃ s, start false () (greedily invIsPure cancelInv 0 3) inverted = .ok (⟨2, 6⟩, none) s ∧
      ∀ i, s.work.program.Within 0 i → i ≠ 0 → isDead invIsPure s.work.program i = false ∧
        ∀ pattern ∈ cancelInv, pattern.kind = (s.work.program.op i).name → pattern.Rejects s.work.program i := by
  have hdecisive : ∀ pattern ∈ cancelInv, Decisive pattern := by
    simp [cancelInv, Stock.chain_decisive, Stock.cancel_decisive]
  have hrun : (converted? (start false () (greedily invIsPure cancelInv 0 3) inverted)).any
      (fun x => x.1 = ⟨2, 6⟩ ∧ erasedAt x.2 0 = false) = true := by decide +kernel
  obtain ⟨stats, s, hs, hx⟩ := of_converted? hrun
  obtain ⟨rfl, hroot⟩ : stats = ⟨2, 6⟩ ∧ erasedAt s 0 = false := by simpa using hx
  exact ⟨s, hs, greedily_fixpoint invIsPure cancelInv hdecisive 0 3 ()
    (.of_check (by decide +kernel)) hs hroot⟩

def erasing : List (Pattern Unit) := [⟨"a.x", Stock.eraseWithUsers⟩, ⟨"a.y", fun i => Stock.erase [i]⟩]

/-- If the root is erased, what is inside of it is not looked at any more, and stays although a pattern matches it. -/
theorem greedily_leaves_erased_root : inward.WellFormed ∧ (∀ pattern ∈ erasing, Decisive pattern) ∧
    ∃ s, start false () (greedily [] erasing 2 0) inward = .ok (⟨1, 2⟩, none) s ∧ s.work.program.Within 2 1 ∧
      ∃ pattern ∈ erasing, pattern.kind = (s.work.program.op 1).name ∧ ¬ pattern.Rejects s.work.program 1 := by
  have hrun : (converted? (start false () (greedily [] erasing 2 0) inward)).any
      (fun x => x.1 = ⟨1, 2⟩ ∧ x.2.work.program.parent? 1 = some 2 ∧
        (x.2.work.program.op 1).name = "a.y") = true := by
    decide +kernel
  obtain ⟨stats, s, hs, hx⟩ := of_converted? hrun
  obtain ⟨rfl, hy, hname⟩ := of_decide_eq_true hx
  refine ⟨.of_check (by decide +kernel), ?_, s, hs, .single hy,
    ⟨"a.y", fun i => Stock.erase [i]⟩, by simp [erasing], hname.symm, fun hrejects => ?_⟩
  · simp [erasing, Stock.eraseWithUsers_decisive, Stock.erase_decisive]
  · obtain ⟨t, ht⟩ := hrejects s rfl
    exact Stock.erase_ne_noMatch ht

end Offload.Rewrite
