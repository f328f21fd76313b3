import Offload.Proofs.Lockstep
import Offload.Proofs.TensorValues

/-!
# Workers that keep to themselves

Two workers never share a cell, whatever buffers they look at. In whatever order the workers of a launch run, each
of them does what it would do alone.
-/

namespace Offload

open EStateM.Result List Workgroup

variable {args : List ValueId} {b : BlockId} {buffers : List (List Ref)} {k n : Nat} {o : Slot}
  {run : RunBody}

namespace Pool

variable {ε : Type}

theorem lowestFailure_eq_none {es : List (Nat × ε)} : lowestFailure es = none ↔ es = [] := by
  cases es with
  | nil => exact ⟨fun _ => rfl, fun _ => rfl⟩
  | cons x es =>
    refine ⟨fun h => ?_, nofun⟩
    rw [lowestFailure] at h
    split at h
    · split at h <;> cases h
    · cases h

theorem lowestFailure_eq_some {es : List (Nat × ε)} {e : ε} (h : lowestFailure es = some (k, e)) :
    (k, e) ∈ es ∧ ∀ x ∈ es, k ≤ x.1 := by
  induction es generalizing k e with
  | nil => cases h
  | cons x es ih =>
    rw [lowestFailure] at h
    split at h
    · rename_i j e' hrest
      obtain ⟨hmem, hle⟩ := ih hrest
      split at h
      · rename_i hlt
        obtain ⟨rfl, rfl⟩ := Prod.mk.inj (Option.some.inj h)
        exact ⟨mem_cons_of_mem _ hmem, forall_mem_cons.mpr ⟨Nat.le_of_lt hlt, hle⟩⟩
      · rename_i hge
        obtain ⟨rfl, rfl⟩ := Prod.mk.inj (Option.some.inj h)
        refine ⟨mem_cons_self, forall_mem_cons.mpr ⟨Nat.le_refl _, fun y hy => ?_⟩⟩
        exact Nat.le_trans (Nat.not_lt.mp hge) (hle y hy)
    · rename_i hrest
      obtain rfl := lowestFailure_eq_none.mp hrest
      obtain ⟨rfl, rfl⟩ := Prod.mk.inj (Option.some.inj h)
      exact ⟨mem_cons_self, by simp⟩

theorem lowestFailure_eq_findSome? {f : Nat → Option ε} {es : List (Nat × ε)}
    (h : ∀ k e, (k, e) ∈ es ↔ k < n ∧ f k = some e) :
    (lowestFailure es).map Prod.snd = (List.range n).findSome? f := by
  cases hes : lowestFailure es with
  | none =>
    obtain rfl := lowestFailure_eq_none.mp hes
    refine (findSome?_eq_none_iff.mpr fun k hk => Option.eq_none_iff_forall_ne_some.mpr fun e he => ?_).symm
    exact not_mem_nil ((h k e).mpr ⟨mem_range.mp hk, he⟩)
  | some x =>
    obtain ⟨hmem, hle⟩ := lowestFailure_eq_some hes
    obtain ⟨hk, hx⟩ := (h x.1 x.2).mp hmem
    refine (findSome?_eq_some_iff.mpr ⟨List.range x.1, x.1, List.range' (x.1 + 1) (n - (x.1 + 1)), ?_, hx, ?_⟩).symm
    · have happend := @range'_append_1 0 x.1 (n - (x.1 + 1) + 1)
      rw [Nat.zero_add, range'_succ, show x.1 + (n - (x.1 + 1) + 1) = n by omega] at happend
      rw [range_eq_range', range_eq_range', happend]
    · refine fun j hj => Option.eq_none_iff_forall_ne_some.mpr fun e he => ?_
      have hj := mem_range.mp hj
      have := hle (j, e) ((h j e).mpr ⟨Nat.lt_trans hj hk, he⟩)
      omega

end Pool

namespace Execution

variable {p : Program} {i : OpId} {R : Link} {env env' : Env} {s s' t : Store}

/-! ## Tasks with cells of their own -/

def failureOf : EStateM.Result (Stop RunError) Store (Option RunError) → Option RunError
  | .ok e _ => e
  | .error _ _ => none

/-- If every task, wherever its own cells are as in `s`, does what another task does on `s`, and no two tasks share
a cell, then in any order all of them do so. -/
theorem runAll_alone {task task' : Nat → Exec (Option RunError)} {own : Nat → Link}
    (hown : ∀ k k' a a' b, own k a b → own k' a' b → k = k') {l : List Nat}
    (hends : ∀ k ∈ l, ∃ e t, task k s = .ok e t)
    (htask : ∀ k ∈ l, ∀ u, Linked (own k) s u → Paired (own k) (fun _ e e' => e = e') s u (task k) (task' k))
    {u : Store}
    (hnodup : l.Nodup) (hl : ∀ k ∈ l, Linked (own k) s u) :
    ∃ es t, Pool.runAll task' l u = .ok es t ∧ (∀ k e, (k, e) ∈ es ↔ k ∈ l ∧
      failureOf (task k s) = some e) ∧
      (∀ k ∈ l, ∀ a b, own k a b → t.cells[b]? = (storeAfter (task k s)).cells[a]?) ∧
      Frame (fun b => b < u.cells.size ∧ ∀ k ∈ l, ∀ a, ¬ own k a b) u t := by
  induction l generalizing u with
  | nil => exact ⟨[], u, rfl, by simp, nofun, .refl _ u⟩
  | cons k l ih =>
    obtain ⟨hk, hnodup⟩ := nodup_cons.mp hnodup
    rw [forall_mem_cons] at hends htask hl
    obtain ⟨e, t₁, he⟩ := hends.1
    obtain ⟨R', e', u₁, hu₁, hadv, rfl⟩ := (htask.1 u hl.1).ok he
    -- the task left the cells of the others alone
    have hothers : ∀ j ∈ l, ∀ a b, own j a b → u₁.cells[b]? = u.cells[b]? := fun j hj a b hb =>
      hadv.right.same b ⟨(hl.2 j hj).lt_right hb, fun c hc => hk (hown _ _ _ _ _ hc hb ▸ hj)⟩
    have hl₁ : ∀ j ∈ l, Linked (own j) s u₁ := fun j hj =>
      ⟨(hl.2 j hj).left, (hl.2 j hj).right, fun hb => hothers j hj _ _ hb ▸ (hl.2 j hj).same hb⟩
    obtain ⟨es, t, hrest, hes, hcells, hframe⟩ := ih hends.2 htask.2 hnodup hl₁
    refine ⟨e.toList.map (k, ·) ++ es, t, ?_, fun j e' => ?_, ?_, ?_⟩
    · rw [Pool.runAll, bind_of_ok hu₁]
      cases e with
      | none => exact hrest
      | some e => exact bind_of_ok hrest
    · have hj : failureOf (task k s) = e := by rw [he, failureOf]
      rw [mem_append, hes, mem_cons, or_and_right]
      refine or_congr_left ?_
      rw [mem_map]
      constructor
      · rintro ⟨e'', he'', hx⟩
        obtain ⟨rfl, rfl⟩ := Prod.mk.inj hx
        exact ⟨rfl, hj.trans (Option.mem_toList.mp he'')⟩
      · rintro ⟨rfl, hx⟩
        exact ⟨e', Option.mem_toList.mpr (hj.symm.trans hx), rfl⟩
    · refine forall_mem_cons.mpr ⟨fun a b hb => ?_, hcells⟩
      obtain ⟨data, ht₁, hu₁⟩ := hadv.linked.same (hadv.keeps hb)
      rw [hframe.same b ⟨hadv.linked.lt_right (hadv.keeps hb),
        fun j hj a' hb' => hk (hown _ _ _ _ _ hb hb' ▸ hj)⟩, hu₁, he, storeAfter, ht₁]
    · refine (hadv.right.mono fun b hb => ⟨hb.1, hb.2 k mem_cons_self⟩).trans (hframe.mono fun b hb => ?_)
      exact ⟨Nat.lt_of_lt_of_le hb.1 hadv.right.grows, fun j hj => hb.2 j (mem_cons_of_mem _ hj)⟩

/-! ## Launches -/

theorem still_launchParts (he : EnvLike R env env') :
    Still (fun x y => x.1 = y.1 ∧ x.2.1 = y.2.1 ∧ Forall₂ (Forall₂ (Ref.Like R)) x.2.2 y.2.2) s s'
      (launchParts p env i) (launchParts p env' i) := by
  refine (still_operandAt 0).andThen fun ho => ho ▸ (still_lookupWorkgroup he _).andThen fun hw => hw ▸ ?_
  refine (Still.mapM (forall₂_same.mpr fun o _ => still_lookupBuffer he o)).andThen fun hbs => ?_
  cases (p.op i).regions with
  | nil => exact .crash
  | cons blocks _ =>
    refine (still_except _).andThen fun hn => ?_
    cases blocks.head? with
    | none => exact .crash
    | some b => exact .pure ⟨hn, rfl, hbs⟩

/-! ## One worker -/

theorem workerEnv_exists (hk : ∀ rs ∈ buffers, k < rs.length)
    (hn : args.length ≤ buffers.length) : ∃ env, workerEnv k args buffers = .ok env := by
  induction args generalizing buffers with
  | nil => exact ⟨[], rfl⟩
  | cons v args ih =>
    cases buffers with
    | nil => simp at hn
    | cons rs buffers =>
      rw [forall_mem_cons] at hk
      obtain ⟨env, he⟩ := ih hk.2 (by simpa using hn)
      rw [workerEnv, getElem?_eq_getElem hk.1]
      exact ⟨_, except_bind_ok.mpr ⟨env, he, rfl⟩⟩

theorem workerEnv_like {buffers buffers' : List (List Ref)}
    (hb : Forall₂ (fun rs rs' => ∀ r, rs[k]? = some r → ∃ r', rs'[k]? = some r' ∧
      r.Like R r') buffers buffers')
    (h : workerEnv k args buffers = .ok env) :
    ∃ env', workerEnv k args buffers' = .ok env' ∧ Forall₂ (BindingLike R) env env' := by
  induction args generalizing buffers buffers' env with
  | nil =>
    obtain rfl := Except.ok.inj h
    exact ⟨[], rfl, .nil⟩
  | cons v args ih =>
    cases hb with
    | nil => cases h
    | @cons rs rs' _ _ hrs hbs =>
      rw [workerEnv] at h ⊢
      cases hr : rs[k]? with
      | none => simp [hr, throw, throwThe, MonadExceptOf.throw] at h
      | some r =>
        rw [hr] at h
        obtain ⟨rest, hrest, he⟩ := except_bind_ok.mp h
        obtain rfl := Except.ok.inj he
        obtain ⟨r', hr', hlike⟩ := hrs r hr
        obtain ⟨rest', hrest', hbind⟩ := ih hbs hrest
        rw [hr']
        exact ⟨_, except_bind_ok.mpr ⟨rest', hrest', rfl⟩, .cons ⟨rfl, .ref hlike⟩ hbind⟩

/-- A way to run blocks that never waits forever. -/
def Unstuck (run : RunBody) : Prop := ∀ env b s t, run env b s ≠ .error (.fault .stuck) t

theorem runWorker_ends (hrun : Unstuck run) (b : BlockId) (k : Nat) :
    ∃ e t, runWorker run env b k s = .ok e t := by
  unfold runWorker
  split
  case h_3 hstuck => exact (hrun _ _ _ _ hstuck).elim
  all_goals exact ⟨_, _, rfl⟩

theorem runWorker_fault {e : Fault} (h : run env b s = .error (.fault e) t) (hne : e ≠ .stuck)
    (k : Nat) : runWorker run env b k s = .ok (some (.workerFault k e)) t := by
  unfold runWorker
  split <;> simp_all

theorem paired_runWorker {run run' : RunBody} (hrun : Unstuck run)
    {Q : Link → List Datum → List Datum → Prop} (h : Paired R Q s s' (run env b) (run' env' b)) (k : Nat) :
    Paired R (fun _ e e' => e = e') s s' (runWorker run env b k) (runWorker run' env' b k) where
  ok {e t} hx := by
    unfold runWorker at hx
    split at hx
    · obtain ⟨rfl, rfl⟩ := ok.inj hx
      obtain ⟨R', _, t', hy, hadv, -⟩ := h.ok ‹_›
      exact ⟨R', _, t', by rw [runWorker, hy], hadv, rfl⟩
    · obtain ⟨rfl, rfl⟩ := ok.inj hx
      obtain ⟨R', t', hy, hadv⟩ := h.error ‹_›
      exact ⟨R', _, t', by rw [runWorker, hy], hadv, rfl⟩
    · cases hx
    · rename_i hne hfault
      obtain ⟨rfl, rfl⟩ := ok.inj hx
      obtain ⟨R', t', hy, hadv⟩ := h.error hfault
      exact ⟨R', _, t', runWorker_fault hy hne k, hadv, rfl⟩
  error {e t} hx := by
    obtain ⟨e', t', ht⟩ := runWorker_ends hrun b k
    cases ht.symm.trans hx

/-! ## Buffers -/

/-- No cell is of one worker in one buffer and of another worker in the other. -/
def WorkersApart (rs rs' : List Ref) : Prop :=
  ∀ (k k' : Nat) (r r' : Ref), rs[k]? = some r → rs'[k']? = some r' → r.cell = r'.cell → k = k'

structure DealtBuffers (n : Nat) (buffers : List (List Ref)) : Prop where
  length : ∀ rs ∈ buffers, rs.length = n
  apart : ∀ rs ∈ buffers, ∀ rs' ∈ buffers, WorkersApart rs rs'

/-- The visible workgroups are of their types, and so are the visible buffers, in which no cell is of two workers. -/
structure Dealt (p : Program) (env : Env) : Prop where
  workgroup : ∀ {v extents}, env.lookup v = some (.workgroup extents) → p.typeOf v = .workgroup extents
  buffer : ∀ {v rs}, env.lookup v = some (.buffer rs) →
    ∃ shape extents level, p.typeOf v = .buffer shape extents level ∧ checkLength (workers extents) = .ok rs.length
  apart : ∀ {v w rs rs'}, env.lookup v = some (.buffer rs) → env.lookup w = some (.buffer rs') →
    WorkersApart rs rs'

theorem lookup_ok {d : Datum} (h : lookup p env o s = .ok d t) :
    t = s ∧ ∃ v, o = some v ∧ env.lookup v = some d := by
  cases o with
  | none => cases h
  | some v =>
    rw [lookup] at h
    cases hd : env.lookup v with
    | none =>
      rw [hd] at h
      cases h
    | some d' =>
      rw [hd] at h
      obtain ⟨rfl, rfl⟩ := ok.inj h
      exact ⟨rfl, v, rfl, hd⟩

theorem lookupWorkgroup_ok {extents : List Int} (h : lookupWorkgroup p env o s = .ok extents t) :
    ∃ v, o = some v ∧ env.lookup v = some (.workgroup extents) := by
  obtain ⟨d, u, hd, h⟩ := bind_ok.mp h
  obtain ⟨-, v, rfl, hv⟩ := lookup_ok hd
  cases d with
  | workgroup extents' =>
    obtain ⟨rfl, -⟩ := ok.inj h
    exact ⟨v, rfl, hv⟩
  | _ => cases h

theorem lookupBuffer_ok {rs : List Ref} (h : lookupBuffer p env o s = .ok rs t) :
    ∃ v, o = some v ∧ env.lookup v = some (.buffer rs) := by
  obtain ⟨d, u, hd, h⟩ := bind_ok.mp h
  obtain ⟨-, v, rfl, hv⟩ := lookup_ok hd
  cases d with
  | buffer rs' =>
    obtain ⟨rfl, -⟩ := ok.inj h
    exact ⟨v, rfl, hv⟩
  | _ => cases h

theorem mapM_lookupBuffer_ok : ∀ {os : List Slot} {s t : Store} {buffers : List (List Ref)},
    os.mapM (lookupBuffer p env) s = .ok buffers t →
      Forall₂ (fun o rs => ∃ v, o = some v ∧ env.lookup v = some (.buffer rs)) os buffers
  | [], s, t, buffers, h => by
    rw [mapM_nil] at h
    obtain ⟨rfl, -⟩ := ok.inj h
    exact .nil
  | o :: os, s, t, buffers, h => by
    rw [mapM_cons] at h
    obtain ⟨rs, u, hrs, h⟩ := bind_ok.mp h
    obtain ⟨rest, u', hrest, h⟩ := bind_ok.mp h
    obtain ⟨rfl, -⟩ := ok.inj h
    exact .cons (lookupBuffer_ok hrs) (mapM_lookupBuffer_ok hrest)

theorem launch_operands (hc : p.checkKind catalogue i = .ok ()) (hn : (p.op i).name = launchName)
    (hops : ∀ o ∈ (p.op i).operands, ∃ v, o = some v) :
    ∃ (w : ValueId) (vs : List ValueId) (extents : List Int) (b : BlockId) (blocks : List BlockId)
      (rest : List (List BlockId)), (p.op i).operands = some w :: vs.map some ∧ p.typeOf w = .workgroup extents ∧
      (∀ v ∈ vs, ∃ shape level, p.typeOf v = .buffer shape extents level) ∧
        (p.op i).regions = (b :: blocks) :: rest ∧
      (p.block b).args.length = vs.length := by
  obtain ⟨extents, params, b, blocks, rest, htypes, hr, hargs⟩ := launch_ok hc hn
  obtain ⟨vs, hvs⟩ := Program.exists_map_some hops
  rw [hvs, filterMap_map, show p.slotType? ∘ some = some ∘ p.typeOf from rfl, filterMap_eq_map] at htypes
  obtain ⟨w, vs, rfl, hw, rfl⟩ := map_eq_cons_iff.mp htypes
  refine ⟨w, vs, extents, b, blocks, rest, hvs, hw, fun v hv => ?_, hr, by
    simpa [Program.argTypes] using hargs.length_eq.symm⟩
  obtain ⟨arg, -, shape, level, ht, -⟩ := forall₂_mem_right hargs.flip (mem_map_of_mem hv)
  exact ⟨shape, level, ht⟩

theorem launchParts_ok (hd : Dealt p env) (hc : p.checkKind catalogue i = .ok ()) (hn : (p.op i).name = launchName)
    (hops : ∀ o ∈ (p.op i).operands, ∃ v, o = some v) {x : Nat × BlockId × List (List Ref)}
    (h : launchParts p env i s = .ok x t) :
    DealtBuffers x.1 x.2.2 ∧ (p.block x.2.1).args.length = x.2.2.length ∧
      (∃ blocks ∈ (p.op i).regions, x.2.1 ∈ blocks) ∧
      ∀ rs ∈ x.2.2, ∃ v, env.lookup v = some (.buffer rs) := by
  obtain ⟨w, vs, extents, b, blocks, rest, hvs, hw, hbuffers, hr, hargs⟩ := launch_operands hc hn hops
  obtain ⟨o, s₁, ho, h⟩ := bind_ok.mp h
  obtain ⟨extents', s₂, he, h⟩ := bind_ok.mp h
  obtain ⟨bs, s₃, hbs, h⟩ := bind_ok.mp h
  rw [operandAt, hvs] at ho
  obtain ⟨rfl, -⟩ := ok.inj ho
  obtain ⟨w', hw', hlookup⟩ := lookupWorkgroup_ok he
  obtain rfl := Option.some.inj hw'
  obtain rfl : extents = extents' := by simpa [hw] using hd.workgroup hlookup
  simp only [hr, head?_cons] at h
  obtain ⟨n, s₄, hcount, h⟩ := bind_ok.mp h
  obtain ⟨rfl, -⟩ := ok.inj h
  have hcount : checkLength (workers extents) = .ok n := by
    cases hl : checkLength (workers extents) with
    | ok n' =>
      rw [hl] at hcount
      rw [(ok.inj hcount).1]
    | error e =>
      rw [hl] at hcount
      cases hcount
  rw [hvs, drop_one, tail_cons] at hbs
  have hlookups := mapM_lookupBuffer_ok hbs
  have hmem : ∀ rs ∈ bs, ∃ v ∈ vs, env.lookup v = some (.buffer rs) := fun rs hrs => by
    obtain ⟨k, hk, rfl⟩ := getElem_of_mem hrs
    obtain ⟨hlen, hget⟩ := forall₂_iff_get.mp hlookups
    obtain ⟨v, hv, hl⟩ := hget k (hlen ▸ hk) hk
    refine ⟨v, ?_, hl⟩
    have := getElem_mem (hlen ▸ hk : k < (vs.map some).length)
    rw [get_eq_getElem] at hv
    simpa [hv] using this
  refine ⟨⟨fun rs hrs => ?_, fun rs hrs rs' hrs' => ?_⟩, ?_, ⟨b :: blocks, by simp [hr], mem_cons_self⟩,
    fun rs hrs => (hmem rs hrs).imp fun _ h => h.2⟩
  · obtain ⟨v, hv, hl⟩ := hmem rs hrs
    obtain ⟨shape, level, ht⟩ := hbuffers v hv
    obtain ⟨shape', extents', level', ht', hlen⟩ := hd.buffer hl
    obtain ⟨-, rfl, -⟩ := Ty.buffer.inj (ht.symm.trans ht')
    exact (Except.ok.inj (hcount.symm.trans hlen)).symm
  · obtain ⟨v, -, hl⟩ := hmem rs hrs
    obtain ⟨v', -, hl'⟩ := hmem rs' hrs'
    exact hd.apart hl hl'
  · rw [hargs, ← hlookups.length_eq, length_map]

/-! ## All workers of a launch -/

def ownLink (R : Link) (buffers : List (List Ref)) (k : Nat) : Link := fun a b =>
  R a b ∧ ∃ rs ∈ buffers, ∃ r : Ref, rs[k]? = some r ∧ r.cell = a

theorem Linked.restrict {R' : Link} (h : Linked R s s') (hr : ∀ {a b}, R' a b → R a b) : Linked R' s s' :=
  ⟨fun hb hb' => h.left (hr hb) (hr hb'), fun ha ha' => h.right (hr ha) (hr ha'), fun hb => h.same (hr hb)⟩

theorem DealtBuffers.own (hb : DealtBuffers n buffers) (hl : Linked R s s')
    {k k' a a' b : Nat} (h : ownLink R buffers k a b) (h' : ownLink R buffers k' a' b) : k = k' := by
  obtain ⟨hr, rs, hrs, r, hk, rfl⟩ := h
  obtain ⟨hr', rs', hrs', r', hk', rfl⟩ := h'
  exact hb.apart rs hrs rs' hrs' k k' r r' hk hk' (hl.right hr hr')

/-- Two ways to run the good blocks that do the same, failures included, from stores that are linked. -/
def Agreeing (p : Program) (good : BlockId → Prop) (run run' : RunBody) : Prop :=
  ∀ {R : Link} {env env' : Env} {b : BlockId} {s s' : Store}, good b → Linked R s s' → EnvLike R env env' →
    Dealt p env → Paired R (fun R' => Forall₂ (Datum.Like R')) s s' (run env b) (run' env' b)

theorem dealt_workerEnv (h : workerEnv k args buffers = .ok env) :
    Dealt p env := by
  have href : ∀ {v d}, env.lookup v = some d → ∃ r, d = .ref r := fun hd => by
    obtain ⟨_, -, r, -, hr⟩ := (workerEnv_ok h).2 _ (mem_of_lookup hd)
    exact ⟨r, hr⟩
  refine ⟨fun hd => ?_, fun hd => ?_, fun hd => ?_⟩
  all_goals
    obtain ⟨r, hr⟩ := href hd
    cases hr

section
variable {good : BlockId → Prop} {run run' : RunBody} {b : BlockId} {n : Nat} {buffers buffers' : List (List Ref)}
  (hself : Unstuck run) (hb : good b) (hbuffers : DealtBuffers n buffers)
  (hargs : (p.block b).args.length = buffers.length)
include hself hb hbuffers hargs

omit hb in
theorem launchWorker_ends (hk : k < n) : ∃ e t, launchWorker p run b buffers k s = .ok e t := by
  obtain ⟨env, he⟩ := workerEnv_exists (fun rs hrs => (hbuffers.length rs hrs).symm ▸ hk) (Nat.le_of_eq hargs)
  rw [launchWorker, he]
  exact runWorker_ends hself b k

variable (hrun : Agreeing p good run run') (hlike : Forall₂ (Forall₂ (Ref.Like R)) buffers buffers')
include hrun hlike

theorem paired_launchWorker (hk : k < n) (hl : Linked (ownLink R buffers k) s s') :
    Paired (ownLink R buffers k) (fun _ e e' => e = e') s s' (launchWorker p run b buffers k)
      (launchWorker p run' b buffers' k) := by
  obtain ⟨env, he⟩ := workerEnv_exists (fun rs hrs => (hbuffers.length rs hrs).symm ▸ hk) (Nat.le_of_eq hargs)
  have hown : Forall₂ (fun rs rs' => ∀ r, rs[k]? = some r → ∃ r', rs'[k]? = some r' ∧
    r.Like (ownLink R buffers k) r')
      buffers buffers' := by
    refine forall₂_iff_get.mpr ⟨hlike.length_eq, fun m hm hm' r hr => ?_⟩
    obtain ⟨hlen, hget⟩ := forall₂_iff_get.mp ((forall₂_iff_get.mp hlike).2 m hm hm')
    obtain ⟨hk, hr'⟩ := List.getElem?_eq_some_iff.mp hr
    have hlike := hget k hk (hlen ▸ hk)
    refine ⟨_, getElem?_eq_getElem (hlen ▸ hk), ?_⟩
    rw [get_eq_getElem, hr'] at hlike
    exact ⟨hlike.1, hlike.2, _, get_mem .., r, hr, rfl⟩
  obtain ⟨env', he', hbind⟩ := workerEnv_like hown he
  rw [launchWorker, launchWorker, he, he']
  exact paired_runWorker hself (hrun hb hl (.of_bindings hbind) (dealt_workerEnv he)) k

/-- In any order, every worker does what the same worker of the other run does alone. -/
theorem launch_alone (hl : Linked R s s') {order : List Nat} (horder : order.Perm (List.range n)) :
    ∃ t', Pool.runIn order (launchWorker p run' b buffers') s' =
        .ok ((List.range n).findSome? fun k => failureOf (launchWorker p run b buffers k s)) t' ∧
      (∀ k < n, ∀ a b', ownLink R buffers k a b' → t'.cells[b']? =
        (storeAfter (launchWorker p run b buffers k s)).cells[a]?) ∧
      Frame (fun b' => b' < s'.cells.size ∧ ∀ k < n, ∀ a, ¬ ownLink R buffers k a b') s' t' := by
  have hmem : ∀ {k}, k ∈ order ↔ k < n := horder.mem_iff.trans mem_range
  have hown : ∀ k, Linked (ownLink R buffers k) s s' := fun k => hl.restrict fun hr => hr.1
  have hapart : ∀ k k' a a' c, ownLink R buffers k a c → ownLink R buffers k' a' c → k = k' :=
    fun _ _ _ _ _ => hbuffers.own hl
  obtain ⟨es, t', hrunAll, hes, hcells, hframe⟩ := runAll_alone hapart
    (fun k hk => launchWorker_ends hself hbuffers hargs (hmem.mp hk))
    (fun k hk u hu => paired_launchWorker hself hb hbuffers hargs hrun hlike (hmem.mp hk) hu)
    (horder.nodup_iff.mpr nodup_range) fun k _ => hown k
  refine ⟨t', ?_, fun k hk => hcells k (hmem.mpr hk), hframe.mono fun c hc =>
    ⟨hc.1, fun k hk => hc.2 k (hmem.mp hk)⟩⟩
  rw [Pool.runIn, bind_of_ok hrunAll, Pool.lowestFailure_eq_findSome? fun k e => (hes k e).trans (and_congr_left' hmem)]
  rfl

end

end Execution

end Offload
