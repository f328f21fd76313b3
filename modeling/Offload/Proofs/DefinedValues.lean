import Offload.Proofs.CheckedReductions
import Offload.Proofs.TensorValues
import Offload.Proofs.Visibility

/-!
# Values are defined before they are read

What an operation may see by the rules of the verifier is in the environment when the operation is run. So no
read fails, not even in a worker whose error is not reported.
-/

namespace Offload.Execution

open Program List Reduction Workgroup

variable {K : Nat → Prop} {b : Arith.Binary} {good : BlockId → Prop} {pre : List OpId}
variable {α : Type} {p : Program} {env : Env} {s : Store} {i : OpId} {v : ValueId}

/-! ## What the checks say about results -/

section
variable (hc : p.checkKind catalogue i = .ok ())
include hc

theorem checkBinary_of_ofName? (hb : Arith.Binary.ofName? (p.op i).name = some b) :
    Arith.checkBinary p i = .ok () := by
  have hn : (p.op i).name = b.name := by simpa [eq_comm] using find?_some hb
  have hm : ⟨b.name, { pure := true }, fun p i => (Arith.checkBinary p i).mapError (.of Arith.Flaw.message)⟩ ∈
      Arith.registry := mem_cons_of_mem _ (mem_map.mpr ⟨b, mem_of_find?_eq_some hb, rfl⟩)
  rw [checkKind_catalogue (mem_append_left _ (mem_append_left _ (mem_append_left _
    (mem_append_left _ (mem_append_left _ (mem_append_right _ hm)))))) hn] at hc
  exact mapError_ok.mp hc

theorem binary_checked (hb : Arith.Binary.ofName? (p.op i).name = some b) :
    (p.op i).results.length = 1 := by
  have hcheck := checkBinary_of_ofName? hc hb
  unfold Arith.checkBinary at hcheck
  dsimp only at hcheck
  split at hcheck
  · rename_i hr
    simpa [resultTypes] using congrArg List.length hr
  · cases hcheck

theorem count_checked {n : Nat} (hm : ((p.op i).name, n) ∈ resultCounts) : (p.op i).results.length = n := by
  have hlength : (p.op i).results.length = (p.resultTypes i).length := by rw [resultTypes, length_map]
  simp only [resultCounts, mem_cons, Prod.mk.injEq, not_mem_nil, or_false] at hm
  rw [hlength]
  rcases hm with ⟨hn, rfl⟩ | ⟨hn, rfl⟩ | ⟨hn, rfl⟩ | ⟨hn, rfl⟩ | ⟨hn, rfl⟩ |
    ⟨hn, rfl⟩ | ⟨hn, rfl⟩
  -- each of these checks compares the lists of types first
  all_goals
    rw [checkKind, hn] at hc
    replace hc := mapError_ok.mp hc
    simp only [Arith.checkConstant, Views.checkReshape, Views.checkExpand, checkWorkgroup, checkAlloc,
      checkScatter, checkGather] at hc
    split at hc
    · simp [*]
    · cases hc

omit hc in
theorem onTensors_false (h : onTensors p i = .ok false) :
    ((p.op i).operands.filterMap p.slotType?).all Ty.isTensor = false := by
  have hgo : ∀ l : List (Option Ty), onTensors.go l = .ok false → (l.filterMap id).all Ty.isTensor = false := by
    intro l hl
    induction l with
    | nil => cases hl
    | cons o l ih =>
      cases o with
      | none => cases hl
      | some t =>
        rw [onTensors.go] at hl
        cases ht : t.isTensor with
        | true =>
          rw [ht, if_pos rfl] at hl
          simpa [ht] using ih hl
        | false => simp [ht]
  simpa [filterMap_map] using hgo _ h

theorem reduce_checked (hn : (p.op i).name = reduceName) :
    (onTensors p i = .ok false → (p.op i).results = []) ∧
      ∀ b, body? p i = .ok (some b) → (p.block b).args.length ≤ (p.op i).operands.length := by
  rw [checkKind, hn] at hc
  obtain ⟨m, n, axes, shapes, c, h⟩ := checked_of_checkReduce (mapError_ok.mp hc)
  refine ⟨fun hon => ?_, fun b hb => ?_⟩
  · have hres := h.types.outputs
    rw [onTensors_false hon, if_neg Bool.false_ne_true, resultTypes] at hres
    exact map_eq_nil_iff.mp hres
  · obtain ⟨bs, rs, hregions⟩ := h.body
    simp only [body?, hregions, head?_cons] at hb
    obtain rfl := Option.some.inj (Except.ok.inj hb)
    rw [h.args]
    exact length_filterMap_le ..

theorem complete_of_check (hl : (p.op i).name = launchName → (p.op i).results = []) : Complete p i where
  binary _ := binary_checked hc
  count _ := count_checked hc
  reduce hn := (reduce_checked hc hn).1
  body hn := (reduce_checked hc hn).2
  launch := hl

end

/-! ## Blocks -/

section
variable {r : Registry} {root : OpId} {b : BlockId} {run run' : RunBody}

structure Entered (r : Registry) (p : Program) (root : OpId) (env : Env) (b : BlockId) : Prop where
  args : ∀ v ∈ (p.block b).args, v ∈ keys env
  around : r.isIsolated (p.op (p.block b).owner) = false → ∀ v, p.HasValue v →
    Visible r p root v (p.block b).owner → v ∈ keys env

theorem bodies_of_sees (wf : p.WellFormed) (hgood : ∀ blocks ∈ (p.op i).regions, ∀ b ∈ blocks, good b)
    (hsees : ∀ v, p.HasValue v → Visible catalogue p root v i → v ∈ keys env) :
    Bodies True p good (Entered catalogue p root) env i := by
  refine ⟨hgood, fun _ blocks hblocks b hb env' hargs henv => ⟨hargs, fun hiso v hval hv => ?_⟩⟩
  rw [(wf.owner_of_mem hblocks hb).2] at hiso hv
  rcases henv with hn | henv
  · -- a launch is isolated
    rw [Registry.isIsolated, hn] at hiso
    exact absurd hiso (by decide)
  · exact henv v (hsees v hval hv)

structure Behind (r : Registry) (p : Program) (root : OpId) (env : Env) (b : BlockId) (pre : List OpId) : Prop
    extends Entered r p root env b where
  results : ∀ j ∈ pre, ∀ v ∈ (p.op j).results, v ∈ keys env

theorem Behind.sees (wf : p.WellFormed) {pre rest : List OpId} (hb : (p.block b).ops = pre ++ i :: rest)
    (h : Behind r p root env b pre) (hval : p.HasValue v) (hv : Visible r p root v i) : v ∈ keys env := by
  have hi : (p.op i).block = some b := (wf.listed i b).mpr (by simp [hb])
  cases hv with
  | here hi' hhome hdef =>
    obtain rfl := Option.mem_unique hi hi'
    cases hs : (p.value v).source with
    | argument c k =>
      obtain rfl : c = b := by simpa [homeOf, hs] using hhome
      exact h.args v (mem_of_getElem? ((wf.argument c k v).mpr ⟨hval, hs⟩))
    | result d k =>
      have hd : d ∈ pre := by
        have hn := wf.once b
        have hprec := hdef d (by simp [definingOp?, hs])
        rw [hb] at hn hprec
        exact hprec.mem_before hn
      exact h.results d hd v (mem_of_getElem? ((wf.result d k v).mpr ⟨hval, hs⟩))
  | up hp _ hiso hv =>
    obtain rfl : (p.block b).owner = _ := Option.some.inj ((parent?_eq_some.mpr ⟨b, hi, rfl⟩).symm.trans hp)
    exact h.around hiso v hval hv

theorem Behind.step {env' : Env} (h : Behind r p root env b pre) (he : Extends p i env env') :
    Behind r p root env' b (pre ++ [i]) where
  args v hv := he v (.inl (h.args v hv))
  around hiso v hval hv := he v (.inl (h.around hiso v hval hv))
  results j hj v hv := by
    rcases mem_append.mp hj with hj | hj
    · exact he v (.inl (h.results j hj v hv))
    · exact he v (.inr (mem_singleton.mp hj ▸ hv))

structure Sound (p : Program) (root : OpId) (good : BlockId → Prop) (i : OpId) : Prop extends Complete p i where
  operands : ∀ v, some v ∈ (p.op i).operands → p.HasValue v ∧ Visible catalogue p root v i
  bodies : ∀ blocks ∈ (p.op i).regions, ∀ b ∈ blocks, good b

theorem reads_runOps (wf : p.WellFormed) (hrun : Trusted False True p good (Entered catalogue p root) run run')
    (hsound : ∀ i ∈ (p.block b).ops, Sound p root good i) : ∀ (pre ops : List OpId) {env : Env} {s : Store},
      (p.block b).ops = pre ++ ops → Behind catalogue p root env b pre → Guarded False p K env s →
        Held K True (fun _ _ => True) s (runOps p catalogue run env ops) (runOps p catalogue run' env ops) := by
  intro pre ops
  induction ops generalizing pre with
  | nil => exact fun _ _ _ => .pure trivial
  | cons i ops ih =>
    intro env s hb h hs
    have hi := hsound i (by simp [hb])
    have hsees : ∀ v, p.HasValue v → Visible catalogue p root v i → v ∈ keys env := fun v => h.sees wf hb
    have hops : ∀ o ∈ (p.op i).operands, Readable True env o := fun o ho _ v hv =>
      hsees v (hi.operands v (hv ▸ ho)).1 (hi.operands v (hv ▸ ho)).2
    rw [runOps, runOps]
    refine .ite (fun _ => ?_) fun _ => ?_
    · exact (Looks.mapM fun o ho => (looks_lookup (hops o ho)).any).weaken fun _ _ _ _ => trivial
    · refine (held_runOp hrun hs hops (fun h => h.elim) (fun _ => hi.toComplete)
        (bodies_of_sees wf hi.bodies hsees)).withContext.bind fun env' t _ he => ?_
      exact ih (pre ++ [i]) (by simp [hb]) (h.step (he.2 trivial)) he.1

end

/-! ## Guarded runs -/

/-- Does the same, but goes on with `alarm` where an undefined value was read. -/
def orAlarm (alarm x : Exec α) : Exec α := fun s =>
  match x s with
  | .error (.fault (.undefinedValue _ _)) t => alarm t
  | result => result

/-- Runs a block as `runBlock` does, and raises an alarm as soon as an undefined value is read in it or in a block
below. -/
def guardedBlock (p : Program) (alarm : Exec (List Datum)) (r : Registry) : Nat → RunBody
  | 0, _, _ => Exec.crash
  | depth + 1, env, b => orAlarm alarm (runOps p r (guardedBlock p alarm r depth) env (p.block b).ops)

theorem Held.orAlarm {Q : α → Store → Prop} {x y : Exec α} (h : Held K True Q s x y) (alarm : Exec α) :
    Held K True Q s (orAlarm alarm x) y := by
  refine ⟨?_, h.ok, h.error⟩
  unfold Execution.orAlarm
  rw [h.same]
  split
  · rename_i hs
    cases (h.error _ _ hs).2 trivial
  · rfl

theorem reading_runBlock (wf : p.WellFormed) {root : OpId}
    (hgood : ∀ b, good b → ∀ i ∈ (p.block b).ops, Sound p root good i) (alarm : Exec (List Datum)) :
    ∀ depth, Trusted False True p good (Entered catalogue p root) (guardedBlock p alarm catalogue depth)
      (runBlock p catalogue depth)
  | 0, _, _, _, _, _, _, _ => .crash
  | depth + 1, _, _, b, _, hb, hs, h => by
    rw [guardedBlock, runBlock]
    exact (reads_runOps wf (reading_runBlock wf hgood alarm depth) (hgood b hb) [] _ rfl ⟨h trivial,
      nofun⟩ hs).orAlarm alarm

/-! ## Calls -/

section
variable {module f : OpId} {name : String} {args : List Ref} {body : BlockId}

theorem sound_of_verified (wf : p.WellFormed) (hv : p.verify catalogue module = .ok ())
    (hl : ∀ i ∈ p.nested module, (p.op i).name = launchName → (p.op i).results = [])
    (hi : i ∈ p.nested module) : Sound p module (fun b => ∀ i ∈ (p.block b).ops, i ∈ p.nested module) i := by
  obtain ⟨hops, -, hc⟩ := verifyOp_ok.mp (verify_ok.mp hv i hi)
  refine { complete_of_check hc (hl i hi) with
    operands := fun v hv => ?_
    bodies := fun blocks hblocks b hb j hj => ?_ }
  · obtain ⟨w, hw, hvis⟩ := hops _ hv
    obtain rfl := Option.some.inj hw
    exact ⟨wf.hasValue_operand hv, wf.visible_ok.mp hvis⟩
  · exact wf.mem_nested.mpr (.step (wf.mem_children.mp (mem_children hblocks hb hj)) (wf.mem_nested.mp hi))

theorem entered_body (wf : p.WellFormed) (hf : Functions.lookup? p module name = some (some f))
    (hb : p.entryBlock? f 0 = some body) (hargs : args.length = (p.block body).args.length) :
    Entered catalogue p module (entryEnv p body args) body := by
  refine ⟨fun v hv => ?_, fun hiso => ?_⟩
  · rw [keys, entryEnv, map_reverse, mem_reverse, map_fst_zip (by simp [hargs])]
    exact hv
  · -- a function is isolated
    obtain ⟨blocks, hblocks, hhead⟩ := Option.bind_eq_some_iff.mp hb
    obtain ⟨fs, hfs, hfind⟩ := Option.map_eq_some_iff.mp hf
    obtain ⟨entry, -, rfl⟩ := Option.map_eq_some_iff.mp hfs
    have hname := (mem_filter.mp (mem_of_find?_eq_some hfind)).2
    rw [(wf.owner_of_mem (mem_of_getElem? hblocks) (mem_of_head? hhead)).2, Registry.isIsolated,
      of_decide_eq_true hname] at hiso
    exact absurd hiso (by decide +kernel)

theorem returned_error {data : List Datum} {e : CallError} (h : (returned name data).2 = some e) :
    ∃ kind, e = .returnKind name kind := by
  induction data with
  | nil => cases h
  | cons d data ih =>
    cases d with
    | ref r => exact ih h
    | _ => exact ⟨_, (Option.some.inj h).symm⟩

/-- The body of a function runs in the same way whatever is done where an undefined value is read, and no such read
ends a call. -/
theorem call_reads_defined (wf : p.WellFormed) (hv : p.verify catalogue module = .ok ())
    (hl : ∀ i ∈ p.nested module, (p.op i).name = launchName → (p.op i).results = [])
    (hf : Functions.lookup? p module name = some (some f)) (hb : p.entryBlock? f 0 = some body)
    (hargs : args.length = (p.block body).args.length) :
    (∀ alarm, guardedBlock p alarm catalogue (p.ops.size + 1) (entryEnv p body args) body =
      runBlock p catalogue (p.ops.size + 1) (entryEnv p body args) body) ∧
    ∀ s, ∃ outcome, call p catalogue module name args s = .ok outcome ∧
      ∀ index type, outcome.error ≠ some (.fault name (.undefinedValue index type)) := by
  have hrun := fun alarm s => reading_runBlock wf (fun b hb i hi => sound_of_verified wf hv hl (hb i hi)) alarm
    (p.ops.size + 1) (fun _ => False) _ body s (mem_nested_body wf hf hb) ⟨nofun, nofun⟩ fun _ =>
      entered_body wf hf hb hargs
  refine ⟨fun alarm => funext fun s => (hrun alarm s).same, fun s => ?_⟩
  simp only [call, callWith, hf, hb, hargs, ne_eq, not_true_eq_false, if_false]
  split
  · exact ⟨_, rfl, fun _ _ he => by cases he⟩
  · refine ⟨_, rfl, fun index type he => ?_⟩
    unfold outcomeOf at he
    split at he
    · obtain ⟨kind, hkind⟩ := returned_error he
      cases hkind
    · cases he
    · rename_i e t herr
      obtain rfl : e = .undefinedValue index type := by simpa using he
      cases ((hrun Exec.crash s).error _ _ herr).2 trivial

end

/-- A function that deals its argument out to two workers, each of which doubles its element in place. -/
def doubling : Program :=
  { ops := #[
      { name := "builtin.module", regions := [[0]] },
      { name := "func.func", regions := [[1]], block := some 0
        attrs := [("sym_name", .str "main"),
          ("function_type", .type (.function [.tensor ⟨.float64, [2]⟩] [.tensor ⟨.float64, [2]⟩]))] },
      { name := "cnm.workgroup", results := [1], block := some 1 },
      { name := "cnm.alloc", operands := [some 1], results := [2], block := some 1 },
      { name := "cnm.scatter", operands := [some 0, some 2, some 1], block := some 1
        attrs := [("scatter_map", .map { dims := 2, results := [.dim 1, .dim 0] })] },
      { name := "cnm.launch", operands := [some 1, some 2], regions := [[2]], block := some 1 },
      { name := "linalg.reduce", operands := [some 3, some 3], regions := [[3]], block := some 2
        attrs := [("dimensions", .ints []), ("operand_segment_sizes", .ints [1, 1])] },
      { name := "arith.addf", operands := [some 4, some 5], results := [6], block := some 3 },
      { name := "linalg.yield", operands := [some 6], block := some 3 },
      { name := "cnm.terminator", block := some 2 },
      { name := "cnm.gather", operands := [some 2, some 1], results := [7, 8], block := some 1
        attrs := [("gather_map", .map { dims := 2, results := [.dim 1, .dim 0] })] },
      { name := "func.return", operands := [some 7], block := some 1 }]
    blocks := #[
      { owner := 0, ops := [1] },
      { owner := 1, args := [0], ops := [2, 3, 4, 5, 10, 11] },
      { owner := 5, args := [3], ops := [6, 9] },
      { owner := 6, args := [4, 5], ops := [7, 8] }]
    values := #[
      ⟨.tensor ⟨.float64, [2]⟩, .argument 1 0, [⟨4, 0⟩]⟩,
      ⟨.workgroup [2], .result 2 0, [⟨3, 0⟩, ⟨4, 2⟩, ⟨5, 0⟩, ⟨10, 1⟩]⟩,
      ⟨.buffer ⟨.float64, [1]⟩ [2] 0, .result 3 0, [⟨4, 1⟩, ⟨5, 1⟩, ⟨10, 0⟩]⟩,
      ⟨.memref ⟨.float64, [1]⟩, .argument 2 0, [⟨6, 0⟩, ⟨6, 1⟩]⟩,
      ⟨.scalar .float64, .argument 3 0, [⟨7, 0⟩]⟩,
      ⟨.scalar .float64, .argument 3 1, [⟨7, 1⟩]⟩,
      ⟨.scalar .float64, .result 7 0, [⟨8, 0⟩]⟩,
      ⟨.tensor ⟨.float64, [2]⟩, .result 10 0, [⟨11, 0⟩]⟩,
      ⟨.token, .result 10 1, []⟩] }

theorem call_reads_defined_doubling : ∃ outcome,
    call doubling catalogue 0 "main" [⟨⟨.float64, [2]⟩, 0⟩] ⟨#[#[1, 2]]⟩ = .ok outcome ∧
      (∀ index type, outcome.error ≠ some (.fault "main" (.undefinedValue index type))) ∧
      ∀ alarm, guardedBlock doubling alarm catalogue (doubling.ops.size + 1)
          (entryEnv doubling 1 [⟨⟨.float64, [2]⟩, 0⟩]) 1 =
        runBlock doubling catalogue (doubling.ops.size + 1) (entryEnv doubling 1 [⟨⟨.float64, [2]⟩, 0⟩]) 1 := by
  obtain ⟨hsame, hcall⟩ := @call_reads_defined doubling 0 1 "main" [⟨⟨.float64, [2]⟩, 0⟩] 1
    (.of_check (by decide +kernel)) (by decide +kernel) (by decide +kernel) (by decide +kernel)
    (by decide +kernel) (by decide +kernel)
  obtain ⟨outcome, hc, herr⟩ := hcall ⟨#[#[1, 2]]⟩
  exact ⟨outcome, hc, herr, hsame⟩

end Offload.Execution
