import Offload.Proofs.Schedules

/-!
# Waiting for places

A run on a pool with a limit does what it does without one, unless it waits forever. No run waits if there is no
limit, or no launch in the body of a launch, even with one place: a worker that starts workers keeps one for itself.
-/

namespace Offload.Execution

open Program Workgroup List

variable {kept : Nat} {run : RunBody}
variable {α β : Type} {p : Program} {i : OpId} {env : Env} {s : Store}

/-! ## Runs that do the same unless they are stuck -/

def Below (x y : Exec α) : Prop := ∀ s, x s = y s ∨ ∃ t, x s = .error (.fault .stuck) t

namespace Below

theorem refl (x : Exec α) : Below x x := fun _ => .inl rfl

theorem bind {x y : Exec α} {f g : α → Exec β} (hx : Below x y) (hf : ∀ a, Below (f a) (g a)) :
    Below (x >>= f) (y >>= g) := by
  intro s
  rcases hx s with h | ⟨t, h⟩
  · cases hy : y s with
    | ok a t =>
      rw [bind_of_ok (h.trans hy), bind_of_ok hy]
      exact hf a t
    | error e t => exact .inl ((bind_of_error (h.trans hy)).trans (bind_of_error hy).symm)
  · exact .inr ⟨t, bind_of_error h⟩

theorem after (x : Exec α) {f g : α → Exec β} (hf : ∀ a, Below (f a) (g a)) : Below (x >>= f) (x >>= g) :=
  (refl x).bind hf

theorem ite {c : Prop} [Decidable c] {x y x' y' : Exec α} (h : Below x y) (h' : Below x' y') :
    Below (if c then x else x') (if c then y else y') := by
  split
  · exact h
  · exact h'

theorem withContext {x y : Exec α} (h : Below x y) : Below (withContext p i x) (withContext p i y) := by
  intro s
  unfold Execution.withContext
  rcases h s with h | ⟨t, h⟩
  · rw [h]
    exact .inl rfl
  · rw [h]
    exact .inr ⟨t, rfl⟩

end Below

section
variable {run run' : RunBody} (hrun : ∀ env b, Below (run env b) (run' env b))
include hrun

theorem below_steps (r : Reduce) (env : Env) : ∀ places : List (Nat × List Int),
    Below (r.steps p run env places) (r.steps p run' env places)
  | [] => .refl _
  | (flat, indices) :: places => by
    refine .bind ?_ fun _ => below_steps r env places
    unfold Reduce.step
    split
    · exact .refl _
    · refine .after _ fun _ => .ite (.refl _) (.after _ fun _ => .after _ fun _ => ?_)
      exact (hrun _ _).bind fun _ => .refl _

theorem below_runReduce : Below (runReduce p run env i) (runReduce p run' env i) := by
  refine .after _ fun _ => .after _ fun inputs => .after _ fun _ => .after _ fun accs => ?_
  cases inputs.head? with
  | none => exact .refl _
  | some input =>
    refine .after _ fun body => ?_
    cases body with
    | none => exact .refl _
    | some body => exact .after _ fun _ => (below_steps hrun _ _ _).bind fun _ => .refl _

theorem below_launchWorker (b : BlockId) (buffers : List (List Ref)) (k : Nat) :
    Below (launchWorker p run b buffers k) (launchWorker p run' b buffers k) := by
  refine .after _ fun env s => ?_
  unfold runWorker
  rcases hrun env b s with h | ⟨t, h⟩
  · rw [h]
    exact .inl rfl
  · rw [h]
    exact .inr ⟨t, rfl⟩

omit hrun in
theorem below_runAll {task task' : Nat → Exec (Option RunError)} (h : ∀ k, Below (task k) (task' k)) :
    ∀ l, Below (Pool.runAll task l) (Pool.runAll task' l)
  | [] => .refl _
  | k :: l => by
    refine (h k).bind fun e => ?_
    cases e with
    | none => exact below_runAll h l
    | some e => exact (below_runAll h l).bind fun _ => .refl _

theorem below_runWorkers (pool : Pool) {pool' : Pool} {order : List Nat}
    (hroom : pool'.waits kept order.length = false) (b : BlockId) (buffers : List (List Ref)) :
    Below (runWorkers p pool kept order run env b buffers) (runWorkers p pool' kept order run' env b buffers) := by
  cases h : pool.waits kept order.length with
  | true =>
    rw [runWorkers, Pool.forEach, h, if_pos rfl, pure_bind]
    exact fun s => .inr ⟨s, rfl⟩
  | false =>
    rw [runWorkers_eq h, runWorkers_eq hroom]
    exact ((below_runAll (below_launchWorker hrun b buffers) order).bind fun _ => .refl _).bind fun _ => .refl _

theorem below_runOp : Below (runOp p run env i) (runOp p run' env i) := by
  unfold runOp
  dsimp only
  cases Arith.Binary.ofName? (p.op i).name with
  | some b => exact .refl _
  | none =>
    cases hl : (runners p).lookup (p.op i).name with
    | none => exact .refl _
    | some runner =>
      have hm := mem_of_lookup hl
      simp only [runners, mem_cons, Prod.mk.injEq, not_mem_nil, or_false] at hm
      -- only reductions and launches run bodies
      rcases hm with ⟨-, rfl⟩ | ⟨-, rfl⟩ | ⟨-, rfl⟩ | ⟨-, rfl⟩ | ⟨-, rfl⟩ | ⟨-, rfl⟩ |
        ⟨-, rfl⟩ | ⟨-, rfl⟩ | ⟨-, rfl⟩
      · exact .refl _
      · exact .refl _
      · exact .refl _
      · exact below_runReduce hrun
      · exact .refl _
      · exact .refl _
      · exact .refl _
      · exact .refl _
      · exact .after _ fun _ => below_runWorkers hrun _ rfl _ _

end

def Schedule.unlimited (σ : Schedule) : Schedule := { σ with pool := .sequential }

theorem Schedule.free_unlimited (σ : Schedule) : σ.unlimited.Free := free_of_limit (Int.le_refl 0)

section
variable {σ : Schedule} {r : Registry}

theorem below_scheduledOps {run run' : Nat → RunBody} (hrun : ∀ k env b, Below (run k env b) (run' k env b)) :
    ∀ (env : Env) (ops : List OpId),
      Below (scheduledOps p σ r kept run env ops) (scheduledOps p σ.unlimited r kept run' env ops)
  | _, [] => .refl _
  | env, i :: ops => by
    rw [scheduledOps, scheduledOps]
    refine .ite (.refl _) (.bind (.withContext ?_) fun env => below_scheduledOps hrun env ops)
    unfold scheduledOp
    refine .ite ?_ (below_runOp (hrun kept))
    exact .after _ fun _ => .after _ fun _ => below_runWorkers (hrun _) _ (σ.free_unlimited _ _) _ _

theorem below_scheduledBlock : ∀ (depth kept : Nat) (env : Env) (b : BlockId),
    Below (scheduledBlock p σ r depth kept env b) (scheduledBlock p σ.unlimited r depth kept env b)
  | 0, _, _, _ => .refl _
  | depth + 1, _, env, b => below_scheduledOps (below_scheduledBlock depth) env (p.block b).ops

end

/-! ## Calls -/

section
variable {module : OpId} {name : String} {args : List Ref}

theorem callWith_below {run run' : RunBody} (h : ∀ env b, Below (run env b) (run' env b)) :
    callWith p run module name args s = callWith p run' module name args s ∨
      ∃ t, callWith p run module name args s = .ok ⟨[], some (.fault name .stuck), t⟩ := by
  unfold callWith
  split
  · exact .inl rfl
  · exact .inl rfl
  · split
    · exact .inl rfl
    · dsimp only
      split
      · exact .inl rfl
      · split
        · exact .inl rfl
        · rcases h _ _ s with h | ⟨t, h⟩
          · exact .inl (by rw [h])
          · exact .inr ⟨t, by rw [h]; rfl⟩

theorem callWith_stuck {refs : List Ref} {name' : String} {t : Store}
    (h : callWith p run module name args s = .ok ⟨refs, some (.fault name' .stuck), t⟩) :
    ∃ f body t, Functions.lookup? p module name = some (some f) ∧ p.entryBlock? f 0 = some body ∧
      run (entryEnv p body args) body s = .error (.fault .stuck) t := by
  unfold callWith at h
  split at h
  · cases h
  · cases h
  · rename_i f hf
    split at h
    · cases h
    · rename_i body hb
      dsimp only at h
      split at h
      · cases h
      · split at h
        · cases h
        · have herror := congrArg CallOutcome.error (Except.ok.inj h)
          unfold outcomeOf at herror
          split at herror
          · obtain ⟨kind, hkind⟩ := returned_error herror
            cases hkind
          · cases herror
          · rename_i hrun
            cases herror
            exact ⟨f, body, _, hf, hb, hrun⟩

section
variable {σ : Schedule} {r : Registry}

theorem scheduledCall_some {y : Except Fault CallOutcome} (h : scheduledCall p σ r module name args s = some y) :
    y = callWith p (scheduledBlock p σ.unlimited r (p.ops.size + 1) 0) module name args s := by
  rw [scheduledCall] at h
  rcases callWith_below (p := p) (below_scheduledBlock (p.ops.size + 1) 0) with hsame | ⟨t, hstuck⟩
  · rw [hsame] at h
    split at h
    · cases h
    · exact (Option.some.inj h).symm
  · rw [hstuck] at h
    cases h

theorem scheduledCall_returns (hends : ∀ {f body t}, Functions.lookup? p module name = some (some f) →
    p.entryBlock? f 0 = some body →
      scheduledBlock p σ r (p.ops.size + 1) 0 (entryEnv p body args) body s ≠ .error (.fault .stuck) t) :
    ∃ y, scheduledCall p σ r module name args s = some y := by
  rw [scheduledCall]
  split
  · rename_i hcall
    obtain ⟨f, body, t, hf, hb, hrun⟩ := callWith_stuck hcall
    exact (hends hf hb hrun).elim
  · exact ⟨_, rfl⟩

end

/-- No launch is in the body of a launch. -/
def LaunchesApart (p : Program) (module : OpId) : Prop := ∀ i ∈ p.nested module, (p.op i).name = launchName →
  ∀ j, p.Within i j → (p.op j).name = launchName → i = j

/-- Where no launch is in the body of a launch, a place is kept only where no launch follows. -/
def Placed (p : Program) (module : OpId) (kept : Nat) (b : BlockId) : Prop :=
  ∀ i ∈ (p.block b).ops, i ∈ p.nested module ∧ (kept ≠ 0 → ∀ j, p.Within i j →
    (p.op j).name ≠ launchName)

theorem finds_of_apart (wf : p.WellFormed) {σ : Schedule} (hlimit : 0 < σ.pool.limit) (ha : LaunchesApart p module)
    {b : BlockId} (hb : Placed p module kept b) (hi : i ∈ (p.block b).ops) : Finds σ p (Placed p module) kept i := by
  obtain ⟨hin, hlater⟩ := hb i hi
  have hchild : ∀ blocks ∈ (p.op i).regions, ∀ c ∈ blocks, ∀ j ∈ (p.block c).ops, p.parent? j = some i :=
    fun _ hblocks _ hc _ hj => wf.mem_children.mp (mem_children hblocks hc hj)
  have hnested : ∀ {j}, p.parent? j = some i → j ∈ p.nested module := fun hj =>
    wf.mem_nested.mpr (.step hj (wf.mem_nested.mp hin))
  refine ⟨fun hn n => ?_, fun hn kept' blocks hblocks c hc j hj => ?_, fun _ blocks hblocks c hc j hj => ?_⟩
  · obtain rfl : kept = 0 := by_contra fun hne => hlater hne i .refl hn
    simp [Pool.waits, Pool.hasRoom, hlimit]
  · have hj := hchild blocks hblocks c hc j hj
    refine ⟨hnested hj, fun _ k hk hkn => ?_⟩
    obtain rfl := ha i hin hn k ((Within.single hj).trans hk) hkn
    exact wf.not_within_of_parent hj hk
  · have hj := hchild blocks hblocks c hc j hj
    exact ⟨hnested hj, fun hne k hk => hlater hne k ((Within.single hj).trans hk)⟩

/-- In whatever order the workers of a launch run, it ends as if each of them had run alone. So whatever the schedule, a
call that returns has the same outcome; and it returns if there is no limit, or no launch in the body of a launch. -/
theorem launch_order_immaterial (wf : p.WellFormed) (hv : p.verify catalogue module = .ok ()) :
    (∀ i ∈ p.nested module, (p.op i).name = launchName →
      ∀ (env : Env) (s : Store) (depth n : Nat) (body : BlockId)
      (buffers : List (List Ref)), Dealt p env → BuffersBelow env s.cells.size →
        launchParts p env i s = .ok (n, body, buffers) s → ∀ (pool : Pool) (kept : Nat) (order : List Nat),
          order.Perm (List.range n) → pool.waits kept n = false →
            EachAlone p (runBlock p catalogue depth) n body buffers env s
              (runWorkers p pool kept order (runBlock p catalogue depth) env body buffers s)) ∧
    ∀ (σ : Schedule) (name : String) (args : List Ref) (s : Store), (∀ a ∈ args, a.cell < s.cells.size) →
      (∀ y, scheduledCall p σ catalogue module name args s = some y →
        SameCall s (call p catalogue module name args s) y) ∧
      (σ.pool.limit ≤ 0 ∨ LaunchesApart p module → ∃ y,
        scheduledCall p σ catalogue module name args s = some y) := by
  refine ⟨fun i hi hn env s depth n body buffers hd hbelow hparts pool kept order ho hroom => ?_,
    fun σ name args s hargs => ⟨fun y hy => ?_, fun hfree => ?_⟩⟩
  · exact runWorkers_alone (unstuck_runBlock catalogue depth) (agreeing_runBlock wf hv depth)
      (launchable_of_verified wf hv hi) hn hd hbelow hparts ho hroom
  · rw [scheduledCall_some hy]
    exact sameCall_of_free wf hv σ.free_unlimited hargs
  · refine scheduledCall_returns fun hf hb => ?_
    rcases Int.lt_or_le 0 σ.pool.limit with hlimit | hlimit
    · have ha := hfree.resolve_left (Int.not_le.mpr hlimit)
      exact ne_stuck_of_ends (ends_scheduledBlock (fun _ _ hb _ hi => finds_of_apart wf hlimit ha hb hi) _ 0)
        fun i hi => ⟨mem_nested_body wf hf hb i hi, fun hne => absurd rfl hne⟩
    · exact unstuck_scheduledBlock (free_of_limit hlimit) _ _ _ _ _ _ _

end

def Schedule.descending : Schedule :=
  { pool := ⟨1⟩, order := fun _ _ n _ => (List.range n).reverse, perm := fun _ _ _ _ => reverse_perm _ }

/-- Both launches of the workers that double their elements, one after the other from the last, and both calls. -/
theorem launch_order_immaterial_descending :
    EachAlone doubling (runBlock doubling catalogue 3) 2 2
        [[⟨⟨.float64, [1]⟩, 0⟩, ⟨⟨.float64, [1]⟩, 1⟩]]
        [(2, .buffer [⟨⟨.float64, [1]⟩, 0⟩, ⟨⟨.float64, [1]⟩, 1⟩]), (1, .workgroup [2])] ⟨#[#[1], #[2]]⟩
        (runWorkers doubling ⟨1⟩ 0 [1, 0] (runBlock doubling catalogue 3)
          [(2, .buffer [⟨⟨.float64, [1]⟩, 0⟩, ⟨⟨.float64, [1]⟩, 1⟩]), (1, .workgroup [2])] 2
          [[⟨⟨.float64, [1]⟩, 0⟩, ⟨⟨.float64, [1]⟩, 1⟩]] ⟨#[#[1], #[2]]⟩) ∧
      ∃ y, scheduledCall doubling .descending catalogue 0 "main" [⟨⟨.float64, [2]⟩, 0⟩] ⟨#[#[1, 2]]⟩ = some y ∧
        SameCall ⟨#[#[1, 2]]⟩ (call doubling catalogue 0 "main" [⟨⟨.float64, [2]⟩, 0⟩] ⟨#[#[1, 2]]⟩) y := by
  have wf : doubling.WellFormed := .of_check (by decide +kernel)
  obtain ⟨hlaunch, hcall⟩ := @launch_order_immaterial doubling 0 wf (by decide +kernel)
  refine ⟨hlaunch 5 (by decide) rfl _ _ 3 2 2 _ ?_ ?_ rfl ⟨1⟩ 0 [1, 0] (by decide) rfl, ?_⟩
  · have hgroup : Dealt doubling [(1, .workgroup [2])] := dealt_nil.workgroup_cons rfl
    refine hgroup.buffer_cons (n := 0) (m := 0) rfl rfl (fun h => ?_) (Nat.le_refl 0) rfl
    rw [lookup_cons] at h
    split at h <;> cases h
  · intro v rs h r hr
    rw [lookup_cons] at h
    split at h
    · obtain rfl := Datum.buffer.inj (Option.some.inj h)
      revert r
      decide
    · rw [lookup_cons] at h
      split at h <;> cases h
  · obtain ⟨hsame, hreturns⟩ := hcall .descending "main"
      [⟨⟨.float64, [2]⟩, 0⟩] ⟨#[#[1, 2]]⟩ (by decide)
    have hone : ∀ i ∈ doubling.nested 0, (doubling.op i).name = launchName → i = 5 := by decide
    have hapart : LaunchesApart doubling 0 := fun i hi hn j hj hjn =>
      (hone i hi hn).trans (hone j (wf.mem_nested.mpr ((wf.mem_nested.mp hi).trans hj)) hjn).symm
    exact (hreturns (.inr hapart)).imp fun y hy => ⟨hy, hsame y hy⟩

/-- A function that starts one worker, which starts one worker itself. -/
def nested : Program :=
  { ops := #[
      { name := "builtin.module", regions := [[0]] },
      { name := "func.func", regions := [[1]], block := some 0
        attrs := [("sym_name", .str "main"), ("function_type", .type (.function [] []))] },
      { name := "cnm.workgroup", results := [0], block := some 1 },
      { name := "cnm.launch", operands := [some 0], regions := [[2]], block := some 1 },
      { name := "cnm.workgroup", results := [1], block := some 2 },
      { name := "cnm.launch", operands := [some 1], regions := [[3]], block := some 2 },
      { name := "cnm.terminator", block := some 3 },
      { name := "cnm.terminator", block := some 2 },
      { name := "func.return", block := some 1 }]
    blocks := #[
      { owner := 0, ops := [1] },
      { owner := 1, ops := [2, 3, 8] },
      { owner := 3, ops := [4, 5, 7] },
      { owner := 5, ops := [6] }]
    values := #[
      { type := .workgroup [1], source := .result 2 0, uses := [⟨3, 0⟩] },
      { type := .workgroup [1], source := .result 4 0, uses := [⟨5, 0⟩] }] }

/-- With one place, the inner worker waits for the place of the outer one. -/
theorem nested_launch_waits : nested.WellFormed ∧ nested.verify catalogue 0 = .ok () ∧
    (∃ outcome, call nested catalogue 0 "main" [] {} = .ok outcome ∧ outcome.error = none) ∧
    scheduledCall nested { pool := ⟨1⟩ } catalogue 0 "main" [] {} = none :=
  ⟨.of_check (by decide), by decide, ⟨_, rfl, rfl⟩, rfl⟩

end Offload.Execution
