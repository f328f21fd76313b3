import Offload.Proofs.Checking
import Offload.Proofs.Removal
import Offload.Proofs.Tracking

/-!
# What a conversion leaves behind

While a conversion works off its list, everything outside of what is left alone is still on the list, is
erased, or may stay. So at the end only what may stay is left, as long as nothing around it was erased.
-/

namespace Offload

open Program List

variable {a i j r : OpId} {p : Program} {shut : String → Bool} {stats : Stats} {α β ε τ : Type}

theorem bind_congr_of_eq {x y : EStateM ε τ α} {f g : α → EStateM ε τ β} {s : τ} (hxy : x s = y s)
    (h : ∀ a t, y s = .ok a t → f a t = g a t) : (x >>= f) s = (y >>= g) s := by
  cases hy : y s with
  | ok a t => rw [bind_of_ok (hxy.trans hy), bind_of_ok hy, h a t hy]
  | error e t => rw [bind_of_error (hxy.trans hy), bind_of_error hy]

theorem bind_congr_of_ok {x : EStateM ε τ α} {f g : α → EStateM ε τ β} {s : τ}
    (h : ∀ a t, x s = .ok a t → f a t = g a t) : (x >>= f) s = (x >>= g) s := bind_congr_of_eq rfl h

theorem Program.Within.depth_le {depth : OpId → Nat} (hd : ∀ i q, p.parent? i = some q → depth q < depth i)
    (h : p.Within a i) : depth a ≤ depth i := by
  induction h with
  | refl => exact Nat.le_refl _
  | step hp _ ih => exact Nat.le_trans ih (Nat.le_of_lt (hd _ _ hp))

theorem Program.Outside.rest {root i k : OpId} (h : p.Outside shut root i)
    (hk : p.Within k i) (hn : ¬ p.Within k root) : i = k ∨ shut (p.op k).name = false ∧ p.Outside shut k i := by
  induction h with
  | child hp =>
    cases hk with
    | refl => exact .inl rfl
    | step hp' hw => exact absurd (Option.mem_unique hp' hp ▸ hw) hn
  | deeper hp hs _ ih =>
    cases hk with
    | refl => exact .inl rfl
    | step hp' hw =>
      obtain rfl := Option.mem_unique hp' hp
      rcases ih hw with rfl | ⟨hsk, hout⟩
      · exact .inr ⟨hs, .child hp⟩
      · exact .inr ⟨hsk, .deeper hp hs hout⟩

namespace Rewrite

open Rewriting

variable {σ : Type} {mode : Mode} {root : OpId} {target : Target} {patterns : List (Pattern σ)} {s s' t : Session σ}
  {worklist rest : List OpId} {i : OpId} {p q : Program}

/-! ## The list -/

def Settled (mode : Mode) (target : Target) (p : Program) (i : OpId) : Prop :=
  ∃ l, target.legality p i = .ok l ∧ (target.accepts l = true ∨ mode = .partly ∧ l ≠ .illegal)

theorem Settled.congr (h : Settled mode target p i) (hl : target.legality q i = target.legality p i) :
    Settled mode target q i := by
  rwa [Settled, hl]

theorem settled_of_isLegal (h : target.isLegal p i = .ok true) : Settled mode target p i := by
  obtain ⟨l, hl, ha⟩ := except_bind_ok.mp h
  exact ⟨l, hl, .inl (Except.ok.inj ha)⟩

structure Covered (mode : Mode) (root : OpId) (target : Target) (worklist : List OpId) (s : Session σ) : Prop where
  wellFormed : s.work.program.WellFormed
  hasRoot : s.work.program.HasOp root
  deferred : s.deferred = true
  created : s.work.created = []
  pending : ∀ k, k ∈ s.erased ↔ k ∈ s.pending
  covered : ∀ i, s.work.program.Outside target.shut root i → erasedAt s i = false →
    i ∈ worklist ∨ Settled mode target s.work.program i

namespace Covered

theorem start (extra : σ) (wf : p.WellFormed) (hr : p.HasOp root) :
    Covered mode root target (p.preorder (fun j => !target.isRecursivelyLegal p j) root)
      { work := { program := p }, deferred := true, extra } where
  wellFormed := wf
  hasRoot := hr
  deferred := rfl
  created := rfl
  pending _ := Iff.rfl
  covered _ hi _ := .inl (wf.mem_preorder.mpr hi)

theorem skip (h : Covered mode root target (i :: rest) s) (hi : Skipped root target s i) :
    Covered mode root target rest s := by
  refine { h with covered := fun j hj he => ?_ }
  rcases h.covered j hj he with hmem | hs
  · rcases mem_cons.mp hmem with rfl | hmem
    · rcases hi with her | hin | ⟨l, hl, ha⟩
      · rw [show erasedAt s j = true from her] at he
        cases he
      · rw [(isInside_iff h.wellFormed hj.within (hj.ne_root h.wellFormed)).mpr hj] at hin
        cases hin
      · exact .inr ⟨l, hl, .inl ha⟩
    · exact .inl hmem
  · exact .inr hs

theorem pass (h : Covered mode root target (i :: rest) s) (hm : mode = .partly) {l : Legality}
    (hl : target.legality s.work.program i = .ok l) (hill : l ≠ .illegal) (b : BlockId) (place : Nat) (loc : String) :
    Covered mode root target rest (placed s b place loc) := by
  refine { h with covered := fun j hj he => ?_ }
  rcases h.covered j hj he with hmem | hs
  · rcases mem_cons.mp hmem with rfl | hmem
    · exact .inr ⟨l, hl, .inr ⟨hm, hill⟩⟩
    · exact .inl hmem
  · exact .inr hs

theorem mem_followUp (h : Covered mode root target worklist s) (ht : Tracked s t)
    (hj : t.work.program.Outside target.shut root j) (hnew : ¬ s.work.program.HasOp j) : j ∈ followUp target t := by
  obtain ⟨k, hk, hw⟩ := ht.inserted root j h.hasRoot hnew hj.within
  have hks : ¬ s.work.program.HasOp k := by
    rcases ht.created k hk with hk | hk
    · rw [h.created] at hk
      cases hk
    · exact hk
  -- the root was there before, so it is not inside of what came in
  have hroot : ¬ t.work.program.Within k root := fun hw =>
    hks (h.wellFormed.within_hasOp ((ht.within_iff h.wellFormed h.hasRoot).mp hw) h.hasRoot)
  rw [followUp, mem_eraseDups, mem_flatMap]
  refine ⟨k, hk, ?_⟩
  rcases hj.rest hw hroot with rfl | ⟨hsk, hout⟩
  · exact mem_cons_self
  · refine mem_cons_of_mem _ ?_
    rw [insideOf, if_pos (by simpa [Target.isRecursivelyLegal, Target.shut] using hsk)]
    exact ht.wellFormed.mem_preorder.mpr hout

theorem rewrite (h : Covered mode root target (i :: rest) s) (ht : Tracked s t)
    (hstable : ∀ j, s.work.program.HasOp j → j ≠ i →
      target.legality t.work.program j = target.legality s.work.program j)
    (hdone : erasedAt t i = true ∨ target.isLegal t.work.program i = .ok true) :
    Covered mode root target (followUp target t ++ rest) (afterRewrite t) where
  wellFormed := ht.wellFormed
  hasRoot := ht.hasOp _ h.hasRoot
  deferred := ht.deferred.trans h.deferred
  created := rfl
  pending := ht.pending h.pending
  covered j hj he := by
    have he : erasedAt t j = false := he
    by_cases hold : s.work.program.HasOp j
    · have hes : erasedAt s j = false := by
        by_contra hes
        rw [erasedAt_of_tracked ht h.wellFormed hold (by simpa using hes)] at he
        cases he
      by_cases hji : j = i
      · subst hji
        rcases hdone with her | hlegal
        · rw [her] at he
          cases he
        · exact .inr (settled_of_isLegal hlegal)
      · rcases h.covered j ((ht.outside_iff h.wellFormed hold).mp hj) hes with hmem | hs
        · exact .inl (mem_append_right _ ((mem_cons.mp hmem).resolve_left hji))
        · exact .inr (hs.congr (hstable j hold hji))
    · exact .inl (mem_append_left _ (h.mem_followUp ht hj hold))

end Covered

/-! ## Rules by name -/

theorem legality_of_name (hs : target.dynamic = []) (hn : (q.op i).name = (p.op i).name) :
    target.legality q i = target.legality p i := by
  have hstatic : ∀ o o' : Op, o.name = o'.name → target.staticLegality o = target.staticLegality o' := by
    rintro ⟨⟩ ⟨⟩ rfl
    rfl
  simp only [Target.legality, hs, lookup_nil, hstatic _ _ hn]

theorem ready_placed {b : BlockId} {place : Nat} (wf : s.work.program.WellFormed) (hd : s.deferred = true)
    (hb : (s.work.program.op i).block = some b) (hidx : (s.work.program.block b).ops.idxOf? i = some place)
    (loc : String) : Ready i b (placed s b place loc) where
  stands := by
    refine ⟨wf, wf.hasBlock_of_block hb, rfl, ?_⟩
    exact Nat.le_of_lt (findIdx?_eq_some_iff_getElem.mp hidx).1
  block := hb
  deferred := hd

theorem carries_covered (hs : target.dynamic = []) (hp : ∀ pattern ∈ patterns, Honest pattern) :
    Carries mode root target patterns (Covered mode root target) where
  skip _ _ _ h hi := h.skip hi
  pass _ _ _ b place loc _ h hm hl _ hill := h.pass hm hl hill b place loc
  rewrite i rest s b place pattern l t h _ _ _ hb hidx hmem _ ht hdone := by
    have htracked := (hp pattern hmem).tracked i b _ t (ready_placed h.wellFormed h.deferred hb hidx _) ht
    have hplaced : Covered mode root target (i :: rest) (placed s b place (s.work.program.op i).loc) :=
      { h with covered := h.covered }
    exact hplaced.rewrite htracked (fun j hj _ => legality_of_name hs (htracked.name j hj)) hdone

theorem quiet_of_honest (hp : ∀ pattern ∈ patterns, Honest pattern) : Quiet patterns :=
  fun pattern hmem => (hp pattern hmem).quiet

/-! ## The commit -/

structure Cleared (es : List OpId) (p q : Program) : Prop where
  wellFormed : q.WellFormed
  ops : q.ops.size = p.ops.size
  name : ∀ j, (q.op j).name = (p.op j).name
  parent : ∀ j, q.parent? j = if j ∈ es then none else p.parent? j
  stays : ∀ j, (∀ e ∈ es, ¬ p.Within e j) → q.op j = p.op j
  block : ∀ c, q.block c = { p.block c with ops := (p.block c).ops.filter (· ∉ es) }
  source : ∀ v, (q.value v).source = (p.value v).source
  typeOf : ∀ v, q.typeOf v = p.typeOf v

theorem eraseAll_cleared : ∀ {es : List OpId} {p q : Program}, p.WellFormed → es.forM Edit.erase p = .ok () q →
    Cleared es p q
  | [], p, q, wf, h => by
    rw [forM_nil_ok] at h
    subst h
    exact ⟨wf, rfl, fun _ => rfl, by simp, fun _ _ => rfl, by simp, fun _ => rfl, fun _ => rfl⟩
  | e :: es, p, q, wf, h => by
    obtain ⟨m, hm, h⟩ := forM_cons_ok.mp h
    have he := Edit.erase_ok wf hm
    have hrest := eraseAll_cleared he.wellFormed h
    have hop : ∀ j, (m.op j).name = (p.op j).name ∧
        (m.op j).block = if j = e then none else (p.op j).block := by
      intro j
      by_cases hj : p.Within e j
      · rw [he.inside j hj]
        exact ⟨rfl, rfl⟩
      · rw [he.outside j hj, if_neg fun heq : j = e => hj (heq ▸ .refl)]
        exact ⟨rfl, rfl⟩
    have hparent : ∀ j, m.parent? j = if j = e then none else p.parent? j := by
      intro j
      simp only [parent?, (hop j).2]
      by_cases hj : j = e
      · simp [hj]
      · simp [hj, he.block]
    refine ⟨hrest.wellFormed, hrest.ops.trans he.ops, fun j => (hrest.name j).trans (hop j).1,
      fun j => ?_, fun j hj => ?_, fun c => ?_, fun v => by rw [hrest.source, he.value], fun v => ?_⟩
    · rw [hrest.parent, hparent]
      by_cases hj : j = e
      · simp [hj]
      · simp [hj]
    · rw [hrest.stays j fun k hk hw => hj k (mem_cons_of_mem _ hk) ?_, he.outside j (hj e mem_cons_self)]
      clear hj
      induction hw with
      | refl => exact .refl
      | step hp _ ih =>
        rw [hparent] at hp
        split at hp
        · cases hp
        · exact .step hp ih
    · have hlist : ((p.block c).ops.filter (· ≠ e)).filter (· ∉ es) =
        (p.block c).ops.filter (· ∉ e :: es) := by
        rw [filter_filter]
        exact filter_congr fun j _ => by simp [Bool.and_comm]
      rw [hrest.block, he.block, ← hlist]
    · rw [hrest.typeOf, Program.typeOf, he.value]
      rfl

namespace Cleared

variable {es : List OpId} (h : Cleared es p q)
include h

theorem parent_of_parent (hp : q.parent? j = some a) : j ∉ es ∧ p.parent? j = some a := by
  rw [h.parent] at hp
  by_cases hj : j ∈ es
  · rw [if_pos hj] at hp
    cases hp
  · exact ⟨hj, by rwa [if_neg hj] at hp⟩

theorem within (hw : q.Within a i) : p.Within a i := by
  induction hw with
  | refl => exact .refl
  | step hp _ ih => exact .step (h.parent_of_parent hp).2 ih

theorem outside (ho : q.Outside shut root i) : p.Outside shut root i :=
  ho.congr fun _ a _ hp => ⟨(h.parent_of_parent hp).2, (h.name a).symm⟩

theorem within_root (hw : q.Within root i) (hr : r ∈ es) (hri : p.Within r i) : p.Within r root := by
  induction hw with
  | refl => exact hri
  | step hp _ ih =>
    obtain ⟨hnot, hp⟩ := h.parent_of_parent hp
    obtain ⟨a, ha, hra⟩ := hri.of_ne fun heq => hnot (heq ▸ hr)
    obtain rfl := Option.mem_unique ha hp
    exact ih hra

theorem still_within (hri : p.Within r i) : q.Within r i ∨ ∃ a ∈ es, q.Within a i := by
  induction hri with
  | refl => exact .inl .refl
  | @step j a hp _ ih =>
    by_cases hj : j ∈ es
    · exact .inr ⟨j, hj, .refl⟩
    · have hp : q.parent? j = some a := by rw [h.parent, if_neg hj, hp]
      rcases ih with hw | ⟨k, hk, hw⟩
      · exact .inl (.step hp hw)
      · exact .inr ⟨k, hk, .step hp hw⟩

end Cleared

theorem exists_mem_roots (wf : s.work.program.WellFormed) (hp : ∀ k, k ∈ s.erased ↔ k ∈ s.pending)
    (he : erasedAt s i = true) : ∃ r ∈ roots s, s.work.program.Within r i := by
  obtain ⟨depth, hdepth⟩ := wf.nesting
  obtain ⟨a, ha, hw⟩ := (erasedAt_iff wf).mp he
  -- going outwards from one erased operation to the next ends at one that is not inside of another
  induction hn : depth a using Nat.strongRecOn generalizing a with
  | ind n ih =>
    by_cases hroot : a ∈ roots s
    · exact ⟨a, hroot, hw⟩
    · have hout : ∃ m, s.work.program.parent? a = some m ∧ erasedAt s m = true := by
        by_contra hno
        refine hroot (mem_filter.mpr ⟨(hp a).mp ha, ?_⟩)
        cases hm : s.work.program.parent? a with
        | none => rfl
        | some m =>
          by_contra hem
          exact hno ⟨m, hm, by simpa using hem⟩
      obtain ⟨m, hm, hem⟩ := hout
      obtain ⟨c, hc, hcm⟩ := (erasedAt_iff wf).mp hem
      have hle := hcm.depth_le hdepth
      have hlt := hdepth a m hm
      exact ih (depth c) (by omega) c hc ((hcm.trans (.single hm)).trans hw) rfl

theorem erasedAt_of_commit (wf : s.work.program.WellFormed) (hc : (commit : Rewriting σ _) s = .ok none t)
    (he : erasedAt t i = true) : erasedAt s i = true := by
  obtain ⟨-, es, q, -, hq, rfl⟩ := commit_ok hc
  have hcleared := eraseAll_cleared wf hq
  obtain ⟨a, ha, hw⟩ := (erasedAt_iff hcleared.wellFormed).mp he
  exact (erasedAt_iff wf).mpr ⟨a, ha, hcleared.within hw⟩

theorem commit_cleared (h : Covered mode root target [] s) (hc : (commit : Rewriting σ _) s = .ok none t)
    (hroot : erasedAt t root = false) : t.erased = s.erased ∧ ∃ es, Cleared es s.work.program t.work.program ∧
      (∀ e ∈ es, e ∈ s.erased) ∧ ∀ i, t.work.program.Within root i → erasedAt s i = false := by
  obtain ⟨-, es, q, hperm, hq, rfl⟩ := commit_ok hc
  have hcleared := eraseAll_cleared h.wellFormed hq
  have herased : ∀ r ∈ es, r ∈ s.erased := fun r hr =>
    (h.pending r).mpr (mem_filter.mp (hperm.mem_iff.mp hr)).1
  refine ⟨rfl, es, hcleared, herased, fun i hw => ?_⟩
  by_contra hi
  obtain ⟨r, hr, hri⟩ := exists_mem_roots h.wellFormed h.pending (by simpa using hi)
  have hr := hperm.mem_iff.mpr hr
  have hrroot := hcleared.within_root hw hr hri
  have hgone : ∃ a ∈ s.erased, q.Within a root := by
    rcases hcleared.still_within hrroot with hw | ⟨a, ha, hw⟩
    · exact ⟨r, herased r hr, hw⟩
    · exact ⟨a, herased a ha, hw⟩
  rw [(erasedAt_iff hcleared.wellFormed).mpr hgone] at hroot
  cases hroot

/-! ## Where patterns are tried -/

def guarded (root : OpId) (target : Target) (alarm : Rewriting σ Outcome) (pattern : Pattern σ) : Pattern σ where
  kind := pattern.kind
  rewrite i := do
    if target.isInside (← Rewriting.program) i root then alarm else pattern.rewrite i

section
variable (alarm : Rewriting σ Outcome)

theorem guarded_rewrite (pattern : Pattern σ) (h : target.isInside s.work.program i root = false) :
    (guarded root target alarm pattern).rewrite i s = pattern.rewrite i s := by
  have hrun : (guarded root target alarm pattern).rewrite i s =
      (if target.isInside s.work.program i root then alarm else pattern.rewrite i) s :=
    program_bind
  rw [hrun, h]
  rfl

theorem tryPatterns_guarded (alarm : Rewriting σ Outcome) :
    ∀ {patterns : List (Pattern σ)} {s : Session σ}, Quiet patterns →
    target.isInside s.work.program i root = false →
    tryPatterns i (patterns.map (guarded root target alarm)) s = tryPatterns i patterns s
  | [], _, _, _ => rfl
  | pattern :: rest, s, hq, h => by
    have hloc := setLoc_eq s (s.work.program.op i).loc
    rw [map_cons, tryPatterns, tryPatterns, program_bind,
      program_bind, bind_of_ok hloc, bind_of_ok hloc]
    refine bind_congr_of_eq (guarded_rewrite alarm pattern h) fun outcome t hx => ?_
    cases outcome with
    | applied => rfl
    | failed cause => rfl
    | noMatch =>
      obtain rfl := hq pattern mem_cons_self _ _ _ hx
      exact tryPatterns_guarded alarm (fun q hq' => hq q (mem_cons_of_mem _ hq')) h

theorem applyPatterns_guarded (hq : Quiet patterns) (h : target.isInside s.work.program i root = false) :
    applyPatterns (patterns.map (guarded root target alarm)) i s = applyPatterns patterns i s := by
  rw [applyPatterns, applyPatterns, program_bind, program_bind]
  have hfilter : (patterns.map (guarded root target alarm)).filter (·.kind = (s.work.program.op i).name) =
      (patterns.filter (·.kind = (s.work.program.op i).name)).map (guarded root target alarm) := by
    rw [filter_map]
    rfl
  rw [hfilter]
  exact tryPatterns_guarded alarm (fun q hq' => hq q (mem_filter.mp hq').1) h

theorem step_guarded (alarm : Rewriting σ Outcome) (hq : Quiet patterns) : ∀ (worklist : List OpId) (s : Session σ),
    step mode root target (patterns.map (guarded root target alarm)) worklist s =
      step mode root target patterns worklist s
  | [], _ => rfl
  | i :: rest, s => by
    rw [step, step]
    refine bind_congr_of_ok fun e u hu => bind_congr_of_ok fun p t ht => ?_
    obtain ⟨rfl, rfl⟩ := program_ok.mp ht
    by_cases hc : (e || target.isInside t.work.program i root) = true
    · rw [if_pos hc, if_pos hc]
      exact step_guarded alarm hq rest _
    · rw [if_neg hc, if_neg hc]
      have hin : target.isInside t.work.program i root = false :=
        (Bool.or_eq_false_iff.mp (by simpa using hc)).2
      refine bind_congr_of_ok fun p u hu => bind_congr_of_ok fun l v hv => ?_
      obtain ⟨-, rfl⟩ := fail_ok.mp hv
      obtain ⟨rfl, rfl⟩ := program_ok.mp hu
      by_cases ha : target.accepts l = true
      · rw [if_pos ha, if_pos ha]
        exact step_guarded alarm hq rest _
      · rw [if_neg ha, if_neg ha]
        refine bind_congr_of_ok fun _ u hu => bind_congr_of_ok fun p v hv => ?_
        obtain ⟨b, place, _, _, rfl⟩ := toBefore_ok.mp hu
        obtain ⟨rfl, rfl⟩ := program_ok.mp hv
        refine bind_congr_of_eq (applyPatterns_guarded alarm hq hin) fun outcome u _ => ?_
        cases outcome with
        | applied => rfl
        | failed cause => rfl
        | noMatch =>
          by_cases hm : mode = .partly ∧ l ≠ .illegal
          · simp only [if_pos hm]
            exact step_guarded alarm hq rest _
          · simp only [if_neg hm]

theorem steps_guarded (hq : Quiet patterns) : ∀ (limit : Nat) (worklist : List OpId) (s : Session σ),
    steps mode root target (patterns.map (guarded root target alarm)) limit worklist s =
      steps mode root target patterns limit worklist s
  | limit, worklist, s => by
    rw [steps, steps]
    refine bind_congr_of_eq (step_guarded alarm hq worklist s) fun o t _ => ?_
    cases o with
    | finished => rfl
    | failed cause => rfl
    | rewrote rest =>
      cases limit with
      | zero => rfl
      | succ limit => exact steps_guarded hq limit rest t

theorem convert_guarded (hq : Quiet patterns) (limit : Nat) (s : Session σ) :
    convert mode root target (patterns.map (guarded root target alarm)) limit s =
      convert mode root target patterns limit s := by
  rw [convert, convert]
  exact bind_congr_of_ok fun p t _ => bind_congr_of_eq (steps_guarded alarm hq limit _ t) fun _ _ _ => rfl

end

/-! ## The whole conversion -/

theorem convert_ok {limit : Nat} (h : convert mode root target patterns limit s = .ok (stats, none) s') :
    ∃ t, steps mode root target patterns limit
        (s.work.program.preorder (fun j => !target.isRecursivelyLegal s.work.program j) root) s = .ok none t ∧
      (commit : Rewriting σ _) t = .ok none s' := by
  simp only [convert, bind_ok, program_ok] at h
  obtain ⟨_, _, ⟨rfl, rfl⟩, o, t, ht, h⟩ := h
  cases o with
  | some e => simp at h
  | none =>
    simp only [bind_ok, pure_ok, Prod.mk.injEq, Option.map_eq_none_iff] at h
    obtain ⟨used, u, hu, _, v, hv, ⟨_, rfl⟩, rfl⟩ := h
    simp only [Rewriting.stats, bind_ok, get_ok, pure_ok] at hv
    obtain ⟨_, _, ⟨rfl, rfl⟩, _, rfl⟩ := hv
    exact ⟨t, ht, hu⟩

/-- A conversion without an error leaves what may stay, nothing that was to go, and tried no pattern inside of
what is left alone; unless the root was erased, or something around it. -/
theorem convert_delivers (mode : Mode) (root : OpId) (target : Target) (hstatic : target.dynamic = [])
    (patterns : List (Pattern σ)) (hp : ∀ pattern ∈ patterns, Honest pattern) (limit : Nat) (extra : σ)
    (wf : p.WellFormed) (hr : p.HasOp root)
    (h : start true extra (convert mode root target patterns limit) p = .ok (stats, none) s)
    (hroot : erasedAt s root = false) :
    (∀ i, s.work.program.Within root i → i ≠ root → target.isInside s.work.program i root = false →
      (mode = .full → target.isLegal s.work.program i = .ok true) ∧
      (mode = .partly → ∃ l, target.legality s.work.program i = .ok l ∧ l ≠ .illegal)) ∧
    (∀ i ∈ s.erased, ¬ s.work.program.Within root i) ∧
    ∀ alarm, start true extra (convert mode root target (patterns.map (guarded root target alarm)) limit) p =
      .ok (stats, none) s := by
  obtain ⟨t, ht, hc⟩ := convert_ok h
  have hcovered := (carries_covered hstatic hp).steps_ok (quiet_of_honest hp) limit _ (.start extra wf hr) ht
  obtain ⟨herased, es, hcleared, -, hkept⟩ := commit_cleared hcovered hc hroot
  refine ⟨fun i hw hne hin => ?_, fun i hi hw => ?_, fun alarm => ?_⟩
  · have hout := (isInside_iff hcleared.wellFormed hw hne).mp hin
    have hsettled := (hcovered.covered i (hcleared.outside hout) (hkept i hw)).resolve_left not_mem_nil
    obtain ⟨l, hl, hmay⟩ := hsettled.congr (legality_of_name hstatic (hcleared.name i))
    constructor
    · rintro rfl
      have ha : target.accepts l = true := hmay.resolve_right fun h => nomatch h.1
      simp [Target.isLegal, hl, ha, bind, Except.bind, pure, Except.pure]
    · rintro -
      refine ⟨l, hl, ?_⟩
      rcases hmay with ha | hill
      · rintro rfl
        cases ha
      · exact hill.2
  · have hgone := (erasedAt_iff hcovered.wellFormed).mpr ⟨i, herased ▸ hi, .refl⟩
    rw [hkept i hw] at hgone
    cases hgone
  · exact (convert_guarded alarm (quiet_of_honest hp) limit _).trans h

def converted? {α ε : Type} : EStateM.Result Fault α (Stats × Option ε) → Option (Stats × α)
  | .ok (stats, none) s => some (stats, s)
  | _ => none

theorem of_converted? {r : EStateM.Result Fault α (Stats × Option ε)} {f : Stats × α → Bool}
    (h : (converted? r).any f = true) : ∃ stats s, r = .ok (stats, none) s ∧ f (stats, s) = true := by
  rcases r with ⟨⟨stats, _ | e⟩, s⟩ | ⟨e, s⟩
  · exact ⟨stats, s, rfl, h⟩
  · cases h
  · cases h

/-- Operations of the dialect `b` may stay, and `b.shut` with everything in it. -/
def keepsB : Target :=
  { legalDialects := .ofList ["b"], illegalDialects := .ofList ["a"], recursivelyLegal := .ofList ["b.shut"] }

/-- An `a.x`, its users, and an `a.y` in a `b.shut`. -/
def mixed : Program :=
  { ops := #[
      { name := "b.root", regions := [[0]] },
      { name := "a.x", results := [0], block := some 0 },
      { name := "b.shut", operands := [some 0], regions := [[1]], block := some 0 },
      { name := "a.y", operands := [some 0], block := some 1 }]
    blocks := #[
      { owner := 0, ops := [1, 2] },
      { owner := 2, ops := [3] }]
    values := #[⟨.index, .result 1 0, [⟨2, 0⟩, ⟨3, 0⟩]⟩] }

/-- The first pattern puts in something that only the second one makes legal. -/
def viaZ : List (Pattern Unit) := [⟨"a.x", Stock.chain ["a.z", "b.x"]⟩, ⟨"a.z", Stock.chain ["b.z"]⟩]

theorem convert_delivers_mixed : ∃ s, start true () (convert .full 0 keepsB viaZ 2) mixed =
    .ok (⟨2, 7⟩, none) s ∧
    (∀ i, s.work.program.Within 0 i → i ≠ 0 → keepsB.isInside s.work.program i 0 = false →
      keepsB.isLegal s.work.program i = .ok true) ∧
    (∀ i ∈ s.erased, ¬ s.work.program.Within 0 i) ∧
    ∀ alarm, start true () (convert .full 0 keepsB (viaZ.map (guarded 0 keepsB alarm)) 2) mixed =
      .ok (⟨2, 7⟩, none) s := by
  have hhonest : ∀ pattern ∈ viaZ, Honest pattern := by
    simp [viaZ, Stock.chain_honest]
  have hrun : (converted? (start true () (convert .full 0 keepsB viaZ 2) mixed)).any
      (fun x => x.1 = ⟨2, 7⟩ ∧ erasedAt x.2 0 = false) = true := by decide +kernel
  obtain ⟨stats, s, hs, hx⟩ := of_converted? hrun
  obtain ⟨rfl, hroot⟩ : stats = ⟨2, 7⟩ ∧ erasedAt s 0 = false := by simpa using hx
  obtain ⟨h1, h2, h3⟩ := convert_delivers .full 0 keepsB rfl viaZ hhonest 2 ()
    (.of_check (by decide)) (by decide) hs hroot
  exact ⟨s, hs, fun i hw hne hin => (h1 i hw hne hin).1 rfl, h2, h3⟩

def withoutA : Target := { illegalDialects := .ofList ["a"], unknownLegal := true }

/-- An operation that uses what is defined inside of it, next to an `a.y`. -/
def inward : Program :=
  { ops := #[
      { name := "a.x", results := [0], block := some 0 },
      { name := "a.y", block := some 0 },
      { name := "b.r", operands := [some 0], regions := [[0]] }]
    blocks := #[{ owner := 2, ops := [0, 1] }]
    values := #[⟨.index, .result 0 0, [⟨2, 0⟩]⟩] }

/-- If the root is erased, what is inside of it is not looked at any more, and stays. -/
theorem convert_leaves_erased_root : inward.WellFormed ∧ inward.HasOp 2 ∧
    Honest (⟨"a.x", Stock.eraseWithUsers⟩ : Pattern Unit) ∧
    ∃ s, start true () (convert .full 2 withoutA [⟨"a.x", Stock.eraseWithUsers⟩] 1) inward =
      .ok (⟨1, 2⟩, none) s ∧ (s.work.program.Within 2 1 ∧ withoutA.isInside s.work.program 1 2 = false ∧
        withoutA.isLegal s.work.program 1 ≠ .ok true) ∧
      0 ∈ s.erased ∧ s.work.program.Within 2 0 := by
  have hrun : (converted? (start true () (convert .full 2 withoutA [⟨"a.x", Stock.eraseWithUsers⟩] 1) inward)).any
      (fun x => x.1 = ⟨1, 2⟩ ∧ x.2.work.program.parent? 1 = some 2 ∧
        withoutA.isInside x.2.work.program 1 2 = false ∧ (x.2.work.program.op 1).name = "a.y" ∧
        0 ∈ x.2.erased ∧ x.2.work.program.parent? 0 = some 2) = true := by decide +kernel
  obtain ⟨stats, s, hs, hx⟩ := of_converted? hrun
  obtain ⟨rfl, hy, hin, hname, hgone, hx⟩ := of_decide_eq_true hx
  refine ⟨.of_check (by decide), by decide, Stock.eraseWithUsers_honest "a.x", s, hs,
    ⟨.single hy, hin, ?_⟩, hgone, .single hx⟩
  have hl : withoutA.legality s.work.program 1 = .ok .illegal :=
    legality_of_name (p := inward) rfl hname
  rw [Target.isLegal, hl]
  exact fun h => Bool.false_ne_true (Except.ok.inj h)

end Rewrite

end Offload
