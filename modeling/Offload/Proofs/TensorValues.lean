import Offload.Proofs.Checking
import Offload.Proofs.OperationRuns
import Offload.Proofs.Verified
import Offload.Proofs.Writing

/-!
# Tensors are values

No visible tensor changes while a program runs, if every reduction that updates its inits in place has memory for
them.
-/

namespace Offload.Execution

open List Workgroup Reduction

variable {b : BlockId} {blocks : List BlockId} {good : BlockId → Prop} {ts : List Ty} {v : ValueId}
variable {p : Program} {K : Nat → Prop} {env : Env} {s t : Store} {i : OpId}

/-! ## Watched runs -/

def storeAfter {α : Type} : EStateM.Result (Stop RunError) Store α → Store
  | .ok _ s => s
  | .error _ s => s

def SameTensors (p : Program) (env : Env) (s t : Store) : Prop := ∀ c ∈ tensorCells p env, t.cells[c]? = s.cells[c]?

instance : Decidable (SameTensors p env s t) := inferInstanceAs (Decidable (∀ c ∈ tensorCells p env, _))

/-- Does the same, but ends in `alarm` if a visible tensor changed meanwhile. -/
def watch {α : Type} (p : Program) (alarm : EStateM.Result (Stop RunError) Store α) (env : Env) (x : Exec α) :
    Exec α := fun s =>
  if SameTensors p env s (storeAfter (x s)) then x s else alarm

/-- Runs operations as `runOps` does, and watches what is visible before each of them until the end. -/
def watchedOps (p : Program) (alarm : EStateM.Result (Stop RunError) Store (List Datum)) (r : Registry)
    (run : RunBody) : Env → List OpId → Exec (List Datum)
  | env, [] => watch p alarm env (return [])
  | env, i :: rest => watch p alarm env (do
    if r.isTerminator (p.op i) then (p.op i).operands.mapM (lookup p env)
    else
      let env ← withContext p i (runOp p run env i)
      watchedOps p alarm r run env rest)

/-- Runs a block as `runBlock` does, and watches the visible tensors in it and in all blocks below. -/
def watchedBlock (p : Program) (alarm : EStateM.Result (Stop RunError) Store (List Datum))
    (r : Registry) : Nat → RunBody
  | 0, _, _ => Exec.crash
  | depth + 1, env, b => watchedOps p alarm r (watchedBlock p alarm r depth) env (p.block b).ops

section
variable {alarm : EStateM.Result (Stop RunError) Store (List Datum)} {r : Registry}

theorem Safe.tensors_kept (h : Safe p K env s) : Safe p (fun c => K c ∨ c ∈ tensorCells p env) env s :=
  { h.toApart with
    below := fun c hc => hc.elim (h.below c) (h.tensors c)
    avoids := fun c hc hk => hk.elim (h.avoids c hc) fun hk => h.apart c hk hc }

theorem Held.watch {α : Type} {Q : α → Store → Prop} {alarm : EStateM.Result (Stop RunError) Store α}
    {x y : Exec α}
    (h : Held (fun c => K c ∨ c ∈ tensorCells p env) False Q s x y) : Held K False Q s (watch p alarm env x) y := by
  have hsame : SameTensors p env s (storeAfter (x s)) := by
    rw [h.same]
    intro c hc
    cases hy : y s with
    | ok a t => exact (h.ok a t hy).1.same c (.inr hc)
    | error e t => exact (h.error e t hy).1.same c (.inr hc)
  refine ⟨?_, fun a t ht => ?_, fun e t ht => ⟨(h.error e t ht).1.mono fun _ => .inl, (h.error e t ht).2⟩⟩
  · rw [Execution.watch, if_pos hsame, h.same]
  · exact ⟨(h.ok a t ht).1.mono fun _ => .inl, (h.ok a t ht).2⟩

structure Runs (p : Program) (good : BlockId → Prop) (i : OpId) : Prop extends Careful p i where
  bodies : ∀ blocks ∈ (p.op i).regions, ∀ b ∈ blocks, good b

theorem held_runOps {run run' : RunBody} (hrun : Trusted True False p good (fun _ _ => False) run run') :
    ∀ {ops : List OpId} {K : Nat → Prop} {env : Env} {s : Store}, (∀ i ∈ ops, Runs p good i) →
      Guarded True p K env s →
      Held K False (fun _ _ => True) s (watchedOps p alarm r run env ops) (runOps p r run' env ops)
  | [], _, _, _, _, _ => .watch (.pure trivial)
  | i :: ops, K, env, s, hops, h => by
    rw [watchedOps, runOps]
    refine .watch (.ite (fun _ => ?_) fun _ => ?_)
    · exact (Looks.mapM fun o _ => (looks_lookup nofun).any).weaken fun _ _ _ _ => trivial
    · have hi := hops i mem_cons_self
      have hs : Guarded True p (fun c => K c ∨ c ∈ tensorCells p env) env s :=
        ⟨fun _ _ => trivial, fun ha => (h.safe ha).tensors_kept⟩
      refine (held_runOp hrun hs (fun _ _ => nofun) (fun _ => hi.toCareful) nofun ⟨hi.bodies,
        nofun⟩).withContext.bind
        fun env' t _ hs' => ?_
      exact held_runOps hrun (fun j hj => hops j (mem_cons_of_mem _ hj)) hs'.1

theorem trusted_runBlock (alarm : EStateM.Result (Stop RunError) Store (List Datum)) (r : Registry)
    (hgood : ∀ b, good b → ∀ i ∈ (p.block b).ops, Runs p good i) :
    ∀ depth, Trusted True False p good (fun _ _ => False) (watchedBlock p alarm r depth) (runBlock p r depth)
  | 0, _, _, _, _, _, _, _ => .crash
  | depth + 1, _, _, b, _, hb, h, _ => held_runOps (trusted_runBlock alarm r hgood depth) (hgood b hb) h

end

/-! ## Calls -/

/-- A reduction that updates its inits in place has no tensor among them. -/
def UpdatesMemory (p : Program) (i : OpId) : Prop :=
  onTensors p i = .ok false → ∀ inits, Reduction.inits p i = .ok inits →
    ∀ v, some v ∈ inits → (p.typeOf v).isTensor = false

theorem typeOf_operand {t : Ty} (hv : (p.op i).operands[0]? = some (some v))
    (h : (p.op i).operands.filterMap p.slotType? = t :: ts) : p.typeOf v = t := by
  cases ho : (p.op i).operands with
  | nil => simp [ho] at hv
  | cons o rest =>
    obtain rfl : o = some v := by simpa [ho] using hv
    simpa [ho, Program.slotType?] using congrArg List.head? h

theorem typeOf_result {t : Ty} (hv : (p.op i).results[0]? = some v)
    (h : p.resultTypes i = t :: ts) : p.typeOf v = t := by
  have hfirst := congrArg (·[0]?) h
  simpa [Program.resultTypes, hv] using hfirst

theorem expand_checked (hc : p.checkKind catalogue i = .ok ()) (hn : (p.op i).name = Views.expandName) {v w : ValueId}
    (hv : (p.op i).operands[0]? = some (some v)) (hw : (p.op i).results[0]? = some w) :
    (p.typeOf v).isTensor = false ∧ (p.typeOf w).isTensor = false := by
  rw [Program.checkKind, hn] at hc
  have hcheck : Views.checkExpand p i = .ok () := mapError_ok.mp hc
  unfold Views.checkExpand at hcheck
  split at hcheck
  · rename_i source result hs hr
    rw [typeOf_operand hv hs, typeOf_result hw hr]
    unfold Views.checkExpandTypes at hcheck
    split at hcheck
    · exact ⟨rfl, rfl⟩
    · cases hcheck
  · cases hcheck

theorem checkParameters_ok {extents : List Int} : ∀ {params args : List Ty} {k : Nat}, args.length = params.length →
    checkParameters extents k (params.zip args) = .ok () →
      Forall₂ (fun param arg => ∃ shape level, param = .buffer shape extents level ∧
        arg = .memref shape) params args
  | [], [], _, _, _ => .nil
  | param :: params, arg :: args, k, hlen, h => by
    rw [zip_cons_cons, checkParameters] at h
    cases hs : perWorkerOf extents param with
    | error e => simp [hs] at h
    | ok shape =>
      simp only [hs] at h
      split at h
      · rename_i harg
        refine .cons ?_ (checkParameters_ok (Nat.succ.inj hlen) h)
        unfold perWorkerOf at hs
        split at hs
        · split at hs
          · rename_i hon
            obtain rfl := Except.ok.inj hs
            exact ⟨_, _, by rw [hon], harg.symm⟩
          · cases hs
        · cases hs
      · cases h

theorem launch_ok (hc : p.checkKind catalogue i = .ok ()) (hn : (p.op i).name = launchName) :
    ∃ extents params b blocks rest, (p.op i).operands.filterMap p.slotType? = .workgroup extents :: params ∧
      (p.op i).regions = (b :: blocks) :: rest ∧ Forall₂ (fun param arg => ∃ shape level,
        param = .buffer shape extents level ∧ arg = .memref shape) params (p.argTypes b) := by
  rw [Program.checkKind, hn] at hc
  have hcheck : checkLaunch p i = .ok () := mapError_ok.mp hc
  unfold checkLaunch at hcheck
  split at hcheck
  · cases hcheck
  rename_i w params hparams
  obtain ⟨extents, he, hbody⟩ := except_bind_ok.mp hcheck
  cases w <;> cases mapError_ok.mp he
  split at hbody
  · cases hbody
  rename_i blocks rest hr
  cases blocks with
  | nil => cases hbody
  | cons b blocks =>
    simp only [head?_cons] at hbody
    by_cases hlen : (p.argTypes b).length = params.length
    · rw [if_pos hlen] at hbody
      obtain ⟨_, htypes, -⟩ := except_bind_ok.mp hbody
      exact ⟨extents, params, b, blocks, rest, hparams, hr, checkParameters_ok hlen (mapError_ok.mp htypes)⟩
    · rw [if_neg hlen] at hbody
      cases hbody

theorem launch_checked (hc : p.checkKind catalogue i = .ok ()) (hn : (p.op i).name = launchName)
    {rest : List (List BlockId)} (hr : (p.op i).regions = blocks :: rest)
    (hb : blocks.head? = some b) : ∀ v ∈ (p.block b).args, (p.typeOf v).isTensor = false := by
  obtain ⟨extents, params, b', blocks', rest', -, hr', hargs⟩ := launch_ok hc hn
  cases hr.symm.trans hr'
  cases hb
  intro v hv
  obtain ⟨param, -, shape, level, -, ht⟩ := forall₂_mem_right hargs (mem_map_of_mem hv)
  rw [ht]
  rfl

theorem careful_of_check (hc : p.checkKind catalogue i = .ok ())
    (hr : (p.op i).name = reduceName → UpdatesMemory p i) : Careful p i :=
  ⟨fun hn _ _ hv hw => expand_checked hc hn hv hw, fun hn _ _ _ hregions hb => launch_checked hc hn hregions hb, hr⟩

section
variable {module f : OpId} {name : String} {args : List Ref} {body : BlockId}

theorem mem_children {i j : OpId} (hblocks : blocks ∈ (p.op i).regions) (hb : b ∈ blocks)
    (hj : j ∈ (p.block b).ops) : j ∈ p.children i :=
  mem_flatMap.mpr ⟨blocks, hblocks, mem_flatMap.mpr ⟨b, hb, hj⟩⟩

theorem runs_of_verified (wf : p.WellFormed) (hv : p.verify catalogue module = .ok ())
    (hr : ∀ i ∈ p.nested module, (p.op i).name = reduceName → UpdatesMemory p i)
    (hi : i ∈ p.nested module) : Runs p (fun b => ∀ i ∈ (p.block b).ops, i ∈ p.nested module) i :=
  { careful_of_check (Program.verifyOp_ok.mp (Program.verify_ok.mp hv i hi)).2.2 (hr i hi) with
    bodies := fun _ hblocks _ hb _ hj =>
      wf.mem_nested.mpr (.step (wf.mem_children.mp (mem_children hblocks hb hj)) (wf.mem_nested.mp hi)) }

theorem mem_nested_body (wf : p.WellFormed) (hf : Functions.lookup? p module name = some (some f))
    (hb : p.entryBlock? f 0 = some body) : ∀ i ∈ (p.block body).ops, i ∈ p.nested module := by
  have hchild : ∀ {i b j}, p.entryBlock? i 0 = some b → j ∈ (p.block b).ops → p.parent? j = some i := by
    intro i b j he hj
    obtain ⟨blocks, hblocks, hb⟩ := Option.bind_eq_some_iff.mp he
    exact wf.mem_children.mp (mem_children (mem_of_getElem? hblocks) (mem_of_head? hb) hj)
  obtain ⟨fs, hfs, hfind⟩ := Option.map_eq_some_iff.mp hf
  obtain ⟨entry, hentry, rfl⟩ := Option.map_eq_some_iff.mp hfs
  have hm := (mem_filter.mp (mem_of_find?_eq_some hfind)).1
  exact fun i hi => wf.mem_nested.mpr (.step (hchild hb hi) (.step (hchild hentry hm) .refl))

/-- The arguments for tensors share no cell with those for other parameters. -/
def ArgumentsApart (p : Program) (params : List ValueId) (args : List Ref) : Prop :=
  ∀ x ∈ params.zip args, ∀ y ∈ params.zip args, (p.typeOf x.1).isTensor = true →
    (p.typeOf y.1).isTensor = false → x.2.cell ≠ y.2.cell

instance {params : List ValueId} : Decidable (ArgumentsApart p params args) :=
  inferInstanceAs (Decidable (∀ x ∈ params.zip args, ∀ y ∈ params.zip args, _ → _ → _))

theorem mem_entryEnv {x : ValueId × Datum} (h : x ∈ entryEnv p body args) :
    ∃ r, (x.1, r) ∈ (p.block body).args.zip args ∧ x.2 = .ref r := by
  rw [entryEnv, mem_reverse, zip_map_right, mem_map] at h
  obtain ⟨y, hy, rfl⟩ := h
  exact ⟨y.2, hy, rfl⟩

theorem mem_cells_entry {c : Nat} :
    (c ∈ memoryCells p (entryEnv p body args) →
      ∃ x ∈ (p.block body).args.zip args, (p.typeOf x.1).isTensor = false ∧ x.2.cell = c) ∧
    (c ∈ tensorCells p (entryEnv p body args) →
      ∃ x ∈ (p.block body).args.zip args, (p.typeOf x.1).isTensor = true ∧ x.2.cell = c) := by
  refine ⟨fun h => ?_, fun h => ?_⟩
  all_goals
    obtain ⟨x, hx, hc⟩ := mem_flatMap.mp h
    obtain ⟨r, hr, he⟩ := mem_entryEnv hx
    simp only [memoryOf, tensorOf, he] at hc
    split at hc
    all_goals first | exact ⟨_, hr, by simp_all, (mem_singleton.mp hc).symm⟩ | cases hc

theorem safe_entry (hargs : ∀ a ∈ args, a.cell < s.cells.size) (hapart : ArgumentsApart p (p.block body).args args)
    (hK : ∀ c, K c → c < s.cells.size ∧ ∀ x ∈ (p.block body).args.zip args, (p.typeOf x.1).isTensor =
      false → x.2.cell ≠ c) :
    Safe p K (entryEnv p body args) s where
  memory c hc := by
    obtain ⟨x, hx, -, rfl⟩ := mem_cells_entry.1 hc
    exact hargs _ (of_mem_zip hx).2
  tensors c hc := by
    obtain ⟨x, hx, -, rfl⟩ := mem_cells_entry.2 hc
    exact hargs _ (of_mem_zip hx).2
  apart c hc hc' := by
    obtain ⟨x, hx, hx', rfl⟩ := mem_cells_entry.2 hc
    obtain ⟨y, hy, hy', he⟩ := mem_cells_entry.1 hc'
    exact hapart x hx y hy hx' hy' he.symm
  below c hc := (hK c hc).1
  avoids c hc hk := by
    obtain ⟨x, hx, hx', he⟩ := mem_cells_entry.1 hc
    exact (hK c hk).2 x hx hx' he

theorem frame_call (hf : Functions.lookup? p module name = some (some f)) (hb : p.entryBlock? f 0 = some body)
    {Q : List Datum → Store → Prop} {x : Exec (List Datum)}
    (h : Held K False Q s x (runBlock p catalogue (p.ops.size + 1) (entryEnv p body args) body)) :
    ∃ outcome, call p catalogue module name args s = .ok outcome ∧ Frame K s outcome.store := by
  simp only [call, callWith, hf, hb]
  split
  · exact ⟨_, rfl, .refl K s⟩
  · split
    · exact ⟨_, rfl, .refl K s⟩
    · refine ⟨_, rfl, ?_⟩
      unfold outcomeOf
      split
      · exact (h.ok _ _ ‹_›).1
      · exact (h.error _ _ ‹_›).1
      · exact (h.error _ _ ‹_›).1

/-- A call changes no cell but those of arguments for parameters that are not tensors. So it leaves the arguments
for tensors alone; and all the while no visible tensor changes, since the body runs in the same way if it is
watched, whatever alarm is raised. -/
theorem call_keeps_tensors (wf : p.WellFormed) (hv : p.verify catalogue module = .ok ())
    (hr : ∀ i ∈ p.nested module, (p.op i).name = reduceName → UpdatesMemory p i)
    (hf : Functions.lookup? p module name = some (some f)) (hb : p.entryBlock? f 0 = some body)
    (hargs : ∀ a ∈ args, a.cell < s.cells.size) (hapart : ArgumentsApart p (p.block body).args args) :
    ∃ outcome, call p catalogue module name args s = .ok outcome ∧
      (∀ c < s.cells.size, (∀ x ∈ (p.block body).args.zip args, (p.typeOf x.1).isTensor = false →
        x.2.cell ≠ c) → outcome.store.cells[c]? = s.cells[c]?) ∧
      (∀ x ∈ (p.block body).args.zip args, (p.typeOf x.1).isTensor = true →
        outcome.store.cells[x.2.cell]? = s.cells[x.2.cell]?) ∧
      ∀ alarm, runBlock p catalogue (p.ops.size + 1) (entryEnv p body args) body s =
        watchedBlock p alarm catalogue (p.ops.size + 1) (entryEnv p body args) body s := by
  have hrun := fun alarm => trusted_runBlock alarm catalogue
    (fun b hb i hi => runs_of_verified wf hv hr (hb i hi)) (p.ops.size + 1) _ _ body s (mem_nested_body wf hf hb)
    ⟨fun _ _ => trivial, fun _ => safe_entry hargs hapart fun c hc => hc⟩ nofun
  obtain ⟨outcome, hcall, hframe⟩ := frame_call hf hb (hrun (.error (.fault .crash) s))
  refine ⟨outcome, hcall, fun c hc hne => hframe.same c ⟨hc, hne⟩, fun x hx hx' => ?_,
    fun alarm => (hrun alarm).same.symm⟩
  exact hframe.same _ ⟨hargs _ (of_mem_zip hx).2, fun y hy hy' he => hapart x hx y hy hx' hy' he.symm⟩

end

/-- A function that copies its first argument over the second, by a reduction that updates it in place. -/
def copier (source target : Ty) : Program :=
  { ops := #[
      { name := "builtin.module", regions := [[0]] },
      { name := "func.func", regions := [[1]], block := some 0
        attrs := [("sym_name", .str "main"), ("function_type", .type (.function [source, target] []))] },
      { name := "linalg.reduce", operands := [some 0, some 1], regions := [[2]], block := some 1
        attrs := [("dimensions", .ints []), ("operand_segment_sizes", .ints [1, 1])] },
      { name := "linalg.yield", operands := [some 2], block := some 2 },
      { name := "func.return", block := some 1 }]
    blocks := #[
      { owner := 0, ops := [1] },
      { owner := 1, args := [0, 1], ops := [2, 4] },
      { owner := 2, args := [2, 3], ops := [3] }]
    values := #[
      ⟨source, .argument 1 0, [⟨2, 0⟩]⟩,
      ⟨target, .argument 1 1, [⟨2, 1⟩]⟩,
      ⟨.scalar .float64, .argument 2 0, [⟨3, 0⟩]⟩,
      ⟨.scalar .float64, .argument 2 1, []⟩] }

/-- If memory is copied over a tensor, the program is accepted and the tensor changes. -/
theorem call_changes_tensor :
    (copier (.memref ⟨.float64, [1]⟩) (.tensor ⟨.float64, [1]⟩)).WellFormed ∧
      (copier (.memref ⟨.float64, [1]⟩) (.tensor ⟨.float64, [1]⟩)).verify catalogue 0 = .ok () ∧
      ∃ outcome, call (copier (.memref ⟨.float64, [1]⟩) (.tensor ⟨.float64, [1]⟩)) catalogue 0 "main"
          [⟨⟨.float64, [1]⟩, 0⟩, ⟨⟨.float64, [1]⟩, 1⟩] ⟨#[#[2], #[1]]⟩ = .ok outcome ∧
        outcome.error = none ∧ outcome.store.cells[1]? = some #[2] :=
  ⟨.of_check (by decide), by decide, _, rfl, rfl, rfl⟩

/-- If a tensor is copied over memory, the memory changes and the tensor does not. -/
theorem call_keeps_tensors_copied : ∃ outcome,
    call (copier (.tensor ⟨.float64, [1]⟩) (.memref ⟨.float64, [1]⟩)) catalogue 0 "main"
        [⟨⟨.float64, [1]⟩, 0⟩, ⟨⟨.float64, [1]⟩, 1⟩] ⟨#[#[2], #[1]]⟩ = .ok outcome ∧
      outcome.store.cells[0]? = some #[2] ∧ outcome.store.cells[1]? = some #[2] := by
  have hr : ∀ i ∈ (copier (.tensor ⟨.float64, [1]⟩) (.memref ⟨.float64, [1]⟩)).nested 0,
      ((copier (.tensor ⟨.float64, [1]⟩) (.memref ⟨.float64, [1]⟩)).op i).name = reduceName →
        UpdatesMemory (copier (.tensor ⟨.float64, [1]⟩) (.memref ⟨.float64, [1]⟩)) i := by
    intro i hi hn
    obtain rfl : i = 2 := by revert i; decide
    intro _ inits hinits v hv
    obtain rfl : [some 1] = inits := Except.ok.inj hinits
    obtain rfl : v = 1 := by simpa using hv
    rfl
  obtain ⟨outcome, hcall, -, h, -⟩ := @call_keeps_tensors
    (copier (.tensor ⟨.float64, [1]⟩) (.memref ⟨.float64, [1]⟩))
    ⟨#[#[2], #[1]]⟩ 0 1 "main" [⟨⟨.float64, [1]⟩, 0⟩, ⟨⟨.float64, [1]⟩, 1⟩] 1
    (.of_check (by decide +kernel)) (by decide +kernel) hr rfl rfl (by decide) (by decide)
  refine ⟨outcome, hcall, h (0, ⟨⟨.float64, [1]⟩, 0⟩) (by decide) rfl, ?_⟩
  obtain rfl := Except.ok.inj hcall
  rfl

end Offload.Execution
