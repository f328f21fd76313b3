import Offload.Proofs.Links

/-!
# Operations in lockstep

In environments that go together an operation runs side by side with itself, and leaves environments that go
together.
-/

namespace Offload.Execution

open List Reduction

variable {l l' : Env} {r r' : Reduce}
variable {α : Type} {p : Program} {i : OpId} {R R' : Link} {env env' : Env} {s s' : Store}

/-! ## Environments -/

def BindingLike (R : Link) (x y : ValueId × Datum) : Prop := x.1 = y.1 ∧ x.2.Like R y.2

structure EnvLike (R : Link) (env env' : Env) : Prop where
  found : ∀ {v d}, env.lookup v = some d → ∃ d', env'.lookup v = some d' ∧ d.Like R d'
  missing : ∀ {v}, env.lookup v = none → env'.lookup v = none

namespace EnvLike

theorem mono (h : EnvLike R env env') (hk : ∀ {a b}, R a b → R' a b) : EnvLike R' env env' where
  found hd := (h.found hd).imp fun _ hd' => ⟨hd'.1, hd'.2.mono hk⟩
  missing := h.missing

theorem cons (h : EnvLike R env env') (v : ValueId) {d d' : Datum} (hd : d.Like R d') :
    EnvLike R ((v, d) :: env) ((v, d') :: env') := by
  refine ⟨@fun u e he => ?_, @fun u he => ?_⟩
  all_goals
    rw [lookup_cons] at he ⊢
    cases hu : u == v <;> rw [hu] at he
  · exact h.found he
  · exact ⟨d', rfl, Option.some.inj he ▸ hd⟩
  · exact h.missing he
  · cases he

theorem append (h : EnvLike R env env') (hl : Forall₂ (BindingLike R) l l') : EnvLike R (l ++ env) (l' ++ env') := by
  induction hl with
  | nil => exact h
  | @cons x y _ _ hxy _ ih =>
    obtain ⟨v, d⟩ := x
    obtain ⟨w, d'⟩ := y
    obtain ⟨rfl, hd⟩ := hxy
    exact ih.cons v hd

theorem of_bindings (hl : Forall₂ (BindingLike R) l l') : EnvLike R l l' := by
  have hnil : EnvLike R [] [] := ⟨nofun, fun _ => rfl⟩
  simpa using hnil.append hl

end EnvLike

theorem bindings_zip (vs : List ValueId) {rs rs' : List Ref} (hr : Forall₂ (Ref.Like R) rs rs') :
    Forall₂ (BindingLike R) (vs.zip (rs.map Datum.ref)) (vs.zip (rs'.map Datum.ref)) := by
  induction vs generalizing rs rs' with
  | nil => exact .nil
  | cons v vs ih =>
    cases hr with
    | nil => exact .nil
    | cons hr hrs => exact .cons ⟨rfl, .ref hr⟩ (ih hrs)

/-! ## Reading operands -/

theorem still_operandAt (k : Nat) : Still Eq s s' (operandAt p i k) (operandAt p i k) := by
  rw [operandAt]
  cases (p.op i).operands[k]? with
  | some o => exact .pure rfl
  | none => exact .crash

theorem still_resultAt (k : Nat) : Still Eq s s' (resultAt p i k) (resultAt p i k) := by
  rw [resultAt]
  cases (p.op i).results[k]? with
  | some v => exact .pure rfl
  | none => exact .crash

theorem still_except (a : Except Fault α) : Still Eq s s' (Exec.ofExcept a) (Exec.ofExcept a) :=
  (Still.except a).weaken fun _ _ h => h.1

section
variable (he : EnvLike R env env')
include he

theorem still_lookup (o : Slot) : Still (Datum.Like R) s s' (lookup p env o) (lookup p env' o) := by
  cases o with
  | none => exact .crash
  | some v =>
    rw [lookup, lookup]
    cases hd : env.lookup v with
    | some d =>
      obtain ⟨d', hd', hlike⟩ := he.found hd
      rw [hd']
      exact .pure hlike
    | none =>
      rw [he.missing hd]
      exact .throw _

theorem still_lookupRef (o : Slot) : Still (Ref.Like R) s s' (lookupRef p env o) (lookupRef p env' o) := by
  refine (still_lookup he o).andThen fun hd => ?_
  cases hd with
  | ref hr => exact .pure hr
  | _ =>
    cases p.slotType? o with
    | some t => exact .throw _
    | none => exact .crash

theorem still_lookupWorkgroup (o : Slot) : Still Eq s s' (lookupWorkgroup p env o) (lookupWorkgroup p env' o) := by
  refine (still_lookup he o).andThen fun hd => ?_
  cases hd with
  | workgroup extents => exact .pure rfl
  | _ => exact .crash

theorem still_lookupBuffer (o : Slot) :
    Still (Forall₂ (Ref.Like R)) s s' (lookupBuffer p env o) (lookupBuffer p env' o) := by
  refine (still_lookup he o).andThen fun hd => ?_
  cases hd with
  | buffer hr => exact .pure hr
  | _ => exact .crash

end

/-! ## Single operations -/

section
variable (he : EnvLike R env env') (hl : Linked R s s')
include he hl

theorem paired_makeResult (v : ValueId) (a : Except Fault Tensor) : Paired R EnvLike s s'
    (Exec.ofExcept a >>= fun a => Exec.alloc a >>= fun r => pure ((v, .ref r) :: env))
    (Exec.ofExcept a >>= fun a => Exec.alloc a >>= fun r => pure ((v, .ref r) :: env')) :=
  (still_except a).same hl fun a => (Paired.alloc hl a).bind fun _ hadv hr =>
    .pure hadv.linked ((he.mono hadv.keeps).cons v (.ref hr))

theorem paired_runBinary (b : Arith.Binary) : Paired R EnvLike s s' (runBinary p b env i) (runBinary p b env' i) := by
  refine (still_resultAt 0).same hl fun v => ?_
  refine (still_operandAt 0).same hl fun o => (still_lookupRef he o).bind hl fun hr =>
    (Still.load hl hr).same hl fun x => ?_
  refine (still_operandAt 1).same hl fun o => (still_lookupRef he o).bind hl fun hr =>
    (Still.load hl hr).same hl fun y => ?_
  refine .ite (fun _ => ?_) fun _ => ?_
  · exact (still_except _).same hl fun shape => paired_makeResult he hl v _
  · exact Still.bind (Q := fun _ _ => False) (.throw _) hl False.elim

theorem paired_runConstant : Paired R EnvLike s s' (runConstant p env i) (runConstant p env' i) := by
  rw [runConstant, runConstant]
  cases Arith.constantValues? (p.op i) with
  | none => exact .throw hl _
  | some values => exact (still_resultAt 0).same hl fun v => (still_except _).same hl fun shape =>
      paired_makeResult he hl v _

theorem paired_runReshape : Paired R EnvLike s s' (runReshape p env i) (runReshape p env' i) := by
  refine (still_operandAt 0).same hl fun o => (still_lookupRef he o).bind hl fun hr =>
    (Still.load hl hr).same hl fun x => ?_
  exact (still_resultAt 0).same hl fun v => (still_except _).same hl fun shape => paired_makeResult he hl v _

theorem paired_runExpand : Paired R EnvLike s s' (runExpand p env i) (runExpand p env' i) := by
  refine (still_operandAt 0).same hl fun o => (still_lookupRef he o).bind hl fun hr => ?_
  refine (still_resultAt 0).same hl fun v => (still_except _).same hl fun shape => ?_
  exact (Still.view hl hr _).bind hl fun hr' => .pure hl (he.cons v (.ref hr'))

theorem paired_runWorkgroup : Paired R EnvLike s s' (runWorkgroup p env i) (runWorkgroup p env' i) := by
  refine (still_resultAt 0).same hl fun v => ?_
  cases p.typeOf v with
  | workgroup extents => exact .pure hl (he.cons v (.workgroup extents))
  | _ => exact .crash hl

theorem paired_runAlloc : Paired R EnvLike s s' (runAlloc p env i) (runAlloc p env' i) := by
  refine (still_resultAt 0).same hl fun v => ?_
  cases p.typeOf v with
  | buffer shape extents level =>
    refine (still_operandAt 0).same hl fun o => (still_lookupWorkgroup he o).same hl fun extents => ?_
    refine (still_except _).same hl fun n => ?_
    refine (Paired.mapM (P := Ref.Like) Ref.Like.mono (forall₂_same.mpr fun k _ R' t t' hadv => ?_) hl).bind
      fun _ hadv hrs => ?_
    · exact (still_except _).same hadv.linked fun a => Paired.alloc hadv.linked a
    · exact .pure hadv.linked ((he.mono hadv.keeps).cons v (.buffer hrs))
  | _ => exact .crash hl

omit he in
theorem paired_stopTransfer {Q : Link → α → α → Prop} (e : Stop TransferError) :
    Paired R Q s s' (stopTransfer e) (stopTransfer e) := by
  cases e with
  | error e => exact .throw hl _
  | fault e => exact .throw hl _

omit he in
theorem paired_stores {ws ws' : List Ref} (hws : Forall₂ (Ref.Like R) ws ws') (bs : List Tensor) :
    Paired R (fun _ _ _ => True) s s' ((ws.zip bs).forM fun x => Exec.store x.1 x.2.data)
      ((ws'.zip bs).forM fun x => Exec.store x.1 x.2.data) := by
  refine Paired.forM ?_ hl
  induction hws generalizing bs with
  | nil => exact .nil
  | cons hr _ ih =>
    cases bs with
    | nil => exact .nil
    | cons b bs => exact .cons (fun R' t t' hadv => .store hadv.linked (hr.mono hadv.keeps) _) (ih bs)

theorem paired_runScatter : Paired R EnvLike s s' (runScatter p env i) (runScatter p env' i) := by
  refine (still_operandAt 1).same hl fun o => (still_lookupBuffer he o).bind hl fun hws => ?_
  refine (still_operandAt 2).same hl fun o => (still_lookupWorkgroup he o).same hl fun extents => ?_
  refine (still_operandAt 0).same hl fun o => (still_lookupRef he o).bind hl fun hr =>
    (Still.load hl hr).same hl fun x => ?_
  refine (Still.loads hl hws).same hl fun buffers => ?_
  dsimp only
  refine (paired_stores hl hws _).bind fun _ hadv _ => ?_
  cases (Transfer.scatter _ _ _ _).2 with
  | some e => exact paired_stopTransfer hadv.linked e
  | none => exact .pure hadv.linked (he.mono hadv.keeps)

theorem paired_runGather : Paired R EnvLike s s' (runGather p env i) (runGather p env' i) := by
  refine (still_operandAt 0).same hl fun o => (still_lookupBuffer he o).bind hl fun hws => ?_
  refine (still_operandAt 1).same hl fun o => (still_lookupWorkgroup he o).same hl fun extents => ?_
  refine (still_resultAt 0).same hl fun v => (still_except _).same hl fun shape =>
    (Still.loads hl hws).same hl fun buffers => ?_
  cases Transfer.gather _ _ _ _ with
  | error e => exact paired_stopTransfer hl e
  | ok a =>
    refine (Paired.alloc hl a).bind fun _ hadv hr => (still_resultAt 1).same hadv.linked fun order => ?_
    exact .pure hadv.linked (((he.mono hadv.keeps).cons v (.ref hr)).cons order .token)

end

/-! ## Reductions -/

structure ReduceLike (R : Link) (r r' : Reduce) : Prop where
  inputs : Forall₂ (Ref.Like R) r.inputs r'.inputs
  accumulators : Forall₂ (Ref.Like R) r.accumulators r'.accumulators
  scalars : Forall₂ (Ref.Like R) r.scalars r'.scalars
  axes : r.axes = r'.axes
  body : r.body = r'.body

theorem ReduceLike.mono (h : ReduceLike R r r') (hk : ∀ {a b}, R a b → R' a b) : ReduceLike R' r r' :=
  { h with
    inputs := h.inputs.imp fun _ _ hr => hr.mono hk
    accumulators := h.accumulators.imp fun _ _ hr => hr.mono hk
    scalars := h.scalars.imp fun _ _ hr => hr.mono hk }

theorem forall₂_zip {as bs cs ds : List Ref} (h : Forall₂ (Ref.Like R) as bs) (h' : Forall₂ (Ref.Like R) cs ds) :
    Forall₂ (fun x y => x.1.Like R y.1 ∧ x.2.Like R y.2) (as.zip cs) (bs.zip ds) := by
  induction h generalizing cs ds with
  | nil => exact .nil
  | cons hp _ ih =>
    cases h' with
    | nil => exact .nil
    | cons hq hqs => exact .cons ⟨hp, hq⟩ (ih hqs)

theorem paired_loadScalars (place : Int) {l l' : List (Ref × Ref)}
    (h : Forall₂ (fun x y => x.1.Like R y.1 ∧ x.2.Like R y.2) l l') (hl : Linked R s s') :
    Paired R (fun _ _ _ => True) s s' (loadScalars place l) (loadScalars place l') := by
  induction l generalizing l' R s s' with
  | nil =>
    obtain rfl := forall₂_nil_left_iff.mp h
    exact .pure hl trivial
  | cons x l ih =>
    obtain ⟨y, l', hxy, hrest, rfl⟩ := forall₂_cons_left_iff.mp h
    rw [loadScalars, loadScalars]
    refine (Still.element hl hxy.1 place).same hl fun z => (Paired.setElement hl hxy.2 0 z).bind fun _ hadv _ => ?_
    exact ih (hrest.imp fun _ _ h => ⟨h.1.mono hadv.keeps, h.2.mono hadv.keeps⟩) hadv.linked

theorem paired_storeAccumulators (place : Int) {accs accs' : List Ref} {data data' : List Datum}
    (ha : Forall₂ (Ref.Like R) accs accs') (hd : Forall₂ (Datum.Like R) data data') (hl : Linked R s s') :
    Paired R (fun _ _ _ => True) s s' (storeAccumulators place accs data) (storeAccumulators place accs' data') := by
  induction accs generalizing accs' data data' R s s' with
  | nil =>
    obtain rfl := forall₂_nil_left_iff.mp ha
    exact .pure hl trivial
  | cons acc accs ih =>
    obtain ⟨acc', accs', hacc, hrest, rfl⟩ := forall₂_cons_left_iff.mp ha
    cases hd with
    | nil => exact .crash hl
    | cons hd hds =>
      cases hd with
      | ref hr =>
        rw [storeAccumulators, storeAccumulators, hacc.1]
        refine (Still.element hl hr 0).same hl fun z => (Paired.setElement hl hacc place _).bind fun _ hadv _ => ?_
        exact ih (hrest.imp fun _ _ h => h.mono hadv.keeps) (hds.imp fun _ _ h => h.mono hadv.keeps) hadv.linked
      | workgroup extents => exact .crash hl
      | buffer hr => exact .crash hl
      | token => exact .crash hl

def Reduce.scope (p : Program) (r : Reduce) : Env :=
  (((p.block r.body).args.zip (r.scalars.map Datum.ref)).take (r.inputs.length + r.accumulators.length)).reverse

theorem mem_scope {x : ValueId × Datum} (hx : x ∈ r.scope p) : ∃ a, x.2 = .ref a := by
  obtain ⟨a, -, he⟩ := mem_map.mp (of_mem_zip (mem_of_mem_take (mem_reverse.mp hx))).2
  exact ⟨a, he.symm⟩

theorem ReduceLike.scope (h : ReduceLike R r r') : Forall₂ (BindingLike R) (r.scope p) (r'.scope p) := by
  rw [Reduce.scope, Reduce.scope, h.inputs.length_eq, h.accumulators.length_eq, h.body]
  exact forall₂_reverse_iff.mpr (forall₂_take _ (bindings_zip _ h.scalars))

theorem rel_head? {P : α → α → Prop} {l l' : List α} (h : Forall₂ P l l') : Option.Rel P l.head? l'.head? := by
  cases h with
  | nil => exact .none
  | cons h _ => exact .some h

def PairedBodies (R : Link) (s s' : Store) (run run' : Exec (List Datum)) : Prop :=
  ∀ R' t t', Advanced R R' s s' t t' → Paired R' (fun R'' => Forall₂ (Datum.Like R'')) t t' run run'

section
variable {run run' : RunBody} {r r' : Reduce}

theorem paired_step (hr : ReduceLike R r r')
    (hrun : PairedBodies R s s' (run (r.bind p env) r.body) (run' (r'.bind p env') r'.body)) (hl : Linked R s s')
    (flat : Nat) (indices : List Int) :
    Paired R (fun _ _ _ => True) s s' (r.step p run env flat indices) (r'.step p run' env' flat indices) := by
  unfold Reduce.step
  rw [← hr.axes, hr.inputs.length_eq, hr.accumulators.length_eq, hr.scalars.length_eq]
  have hhead := rel_head? hr.accumulators
  generalize r.accumulators.head? = acc at hhead ⊢
  generalize r'.accumulators.head? = acc' at hhead ⊢
  cases hhead with
  | none => exact .crash hl
  | some hacc =>
    dsimp only
    rw [hacc.1]
    refine (still_except _).same hl fun place => ?_
    refine .ite (fun _ => Still.bind (Q := fun _ _ => False) .crash hl False.elim) fun _ => ?_
    refine (paired_loadScalars _ (forall₂_zip hr.inputs hr.scalars) hl).bind fun _ h₁ _ => ?_
    have hr₁ := hr.mono h₁.keeps
    refine (paired_loadScalars _ (forall₂_zip hr₁.accumulators (forall₂_drop _ hr₁.scalars)) h₁.linked).bind
      fun _ h₂ _ => ?_
    refine (hrun _ _ _ (h₁.trans h₂)).bind fun _ h₃ hdata => ?_
    exact paired_storeAccumulators _ (hr.mono ((h₁.trans h₂).trans h₃).keeps).accumulators hdata h₃.linked

theorem paired_steps (hr : ReduceLike R r r')
    (hrun : PairedBodies R s s' (run (r.bind p env) r.body) (run' (r'.bind p env') r'.body)) (hl : Linked R s s')
    (places : List (Nat × List Int)) :
    Paired R (fun _ _ _ => True) s s' (r.steps p run env places) (r'.steps p run' env' places) := by
  -- a step may link new cells, so the link and the stores are general
  induction places generalizing R s s' with
  | nil => exact .pure hl trivial
  | cons x places ih =>
    rw [Reduce.steps, Reduce.steps]
    exact (paired_step hr hrun hl x.1 x.2).bind fun _ hadv _ =>
      ih (hr.mono hadv.keeps) (fun R'' u u' hadv' => hrun R'' u u' (hadv.trans hadv')) hadv.linked

end

section
variable (he : EnvLike R env env') (hl : Linked R s s') {run run' : RunBody}
include he hl

theorem paired_accumulators (inits : List Slot) : Paired R (fun R' => Forall₂ (Ref.Like R')) s s'
    (inits.mapM fun o => do
      let r ← lookupRef p env o
      accumulatorOf (← Exec.ofExcept (onTensors p i)) r)
    (inits.mapM fun o => do
      let r ← lookupRef p env' o
      accumulatorOf (← Exec.ofExcept (onTensors p i)) r) := by
  refine Paired.mapM (P := Ref.Like) Ref.Like.mono (forall₂_same.mpr fun o _ R' t t' hadv => ?_) hl
  refine (still_lookupRef (he.mono hadv.keeps) o).bind hadv.linked fun hr =>
    (still_except _).same hadv.linked fun on => ?_
  exact .ite (fun _ => .clone hadv.linked hr) fun _ => .pure hadv.linked hr

theorem paired_runReduce (hrun : ∀ {b l l' R' t t'}, body? p i = .ok (some b) → Advanced R R' s s' t t' →
      (∀ x ∈ l, ∃ r, x.2 = .ref r) → EnvLike R' (l ++ env) (l' ++ env') →
        Paired R' (fun R'' => Forall₂ (Datum.Like R'')) t t' (run (l ++ env) b) (run' (l' ++ env') b)) :
    Paired R EnvLike s s' (runReduce p run env i) (runReduce p run' env' i) := by
  refine (still_except _).same hl fun ins => ?_
  refine (Still.mapM (forall₂_same.mpr fun o _ => still_lookupRef he o)).bind hl @fun inputs inputs' hinputs => ?_
  refine (still_except _).same hl fun inits => ?_
  refine (paired_accumulators he hl inits).bind @fun R₁ accs accs' _ _ _ h₁ haccs => ?_
  have hhead := rel_head? hinputs
  generalize inputs.head? = input at hhead ⊢
  generalize inputs'.head? = input' at hhead ⊢
  cases hhead with
  | none => exact .crash h₁.linked
  | some hin =>
    refine (Still.except _).bind h₁.linked @fun body body' hb => ?_
    obtain ⟨rfl, hb⟩ := hb
    cases body with
    | none => exact .crash h₁.linked
    | some b =>
      refine (Paired.mapM (P := Ref.Like) Ref.Like.mono (forall₂_same.mpr fun v _ R' t t' hadv => ?_)
        h₁.linked).bind
        @fun R₂ scalars scalars' _ _ _ h₂ hscalars => ?_
      · exact (still_except _).same hadv.linked fun shape => (still_except _).same hadv.linked fun a =>
          .alloc hadv.linked a
      · have h₂' := h₁.trans h₂
        have hr : ReduceLike R₂ ⟨inputs, accs, scalars, dimensions p i, b⟩
            ⟨inputs', accs', scalars', dimensions p i, b⟩ :=
          ⟨hinputs.imp fun _ _ hr => hr.mono h₂'.keeps, haccs.imp fun _ _ hr => hr.mono h₂.keeps,
            hscalars, rfl, rfl⟩
        dsimp only
        rw [hin.1]
        refine (paired_steps hr (fun R' t t' hadv => ?_) h₂.linked _).bind fun _ h₃ _ => ?_
        · refine hrun hb (h₂'.trans hadv) (fun x hx => mem_scope (r := ⟨inputs, accs, scalars, _, b⟩) hx) ?_
          exact (he.mono (h₂'.trans hadv).keeps).append (hr.mono hadv.keeps).scope
        · have h₃' := h₂'.trans h₃
          rw [haccs.length_eq]
          refine (still_except _).same h₃.linked fun on => .ite (fun _ => ?_) fun _ =>
            .pure h₃.linked (he.mono h₃'.keeps)
          refine .ite (fun _ => Still.bind (Q := fun _ _ => False) .crash h₃.linked False.elim) fun _ => ?_
          refine .pure h₃.linked ((he.mono h₃'.keeps).append (forall₂_reverse_iff.mpr ?_))
          exact bindings_zip _ (haccs.imp fun _ _ hr => hr.mono (h₂.trans h₃).keeps)

/-! ## All operations but launches -/

theorem paired_runOp (hne : (p.op i).name ≠ Workgroup.launchName)
    (hrun : ∀ {b l l' R' t t'}, body? p i = .ok (some b) → Advanced R R' s s' t t' →
      (∀ x ∈ l, ∃ r, x.2 = .ref r) → EnvLike R' (l ++ env) (l' ++ env') →
        Paired R' (fun R'' => Forall₂ (Datum.Like R'')) t t' (run (l ++ env) b) (run' (l' ++ env') b)) :
    Paired R EnvLike s s' (runOp p run env i) (runOp p run' env' i) := by
  unfold runOp
  dsimp only
  cases Arith.Binary.ofName? (p.op i).name with
  | some b => exact paired_runBinary he hl b
  | none =>
    cases hlookup : (runners p).lookup (p.op i).name with
    | none => exact .throw hl _
    | some runner =>
      have hm := mem_of_lookup hlookup
      simp only [runners, mem_cons, Prod.mk.injEq, not_mem_nil, or_false] at hm
      rcases hm with ⟨-, rfl⟩ | ⟨-, rfl⟩ | ⟨-, rfl⟩ | ⟨-, rfl⟩ | ⟨-, rfl⟩ | ⟨-, rfl⟩ |
        ⟨-, rfl⟩ | ⟨-, rfl⟩ | ⟨hn, rfl⟩
      · exact paired_runConstant he hl
      · exact paired_runReshape he hl
      · exact paired_runExpand he hl
      · exact paired_runReduce he hl hrun
      · exact paired_runWorkgroup he hl
      · exact paired_runAlloc he hl
      · exact paired_runScatter he hl
      · exact paired_runGather he hl
      · exact absurd hn hne

end

end Offload.Execution
