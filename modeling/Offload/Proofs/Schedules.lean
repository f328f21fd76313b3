import Offload.Execution.Schedule
import Offload.Proofs.DefinedValues
import Offload.Proofs.Workers

/-!
# The order of workers

In whatever order the workers of a launch run, errors, results and memory are the same. So a call has the same outcome
with every schedule under which no launch waits for places.
-/

namespace Offload.Execution

open Program Workgroup List

variable {b : BlockId} {buffers : List (List Ref)} {data data' : List Datum} {extents : List Int}
  {kept n : Nat} {level : Int} {order : List Nat} {pool : Pool} {shape : Shape} {v : ValueId}
  {σ σ' : Schedule}
variable {α β : Type} {p : Program} {i : OpId} {R : Link} {env env' l : Env} {s s' t : Store}
    {good : BlockId → Prop}
  {run run' : RunBody}

/-! ## What operations make visible -/

def Plain (x : ValueId × Datum) : Prop := (∃ r, x.2 = .ref r) ∨ x.2 = .token

theorem Dealt.append (hd : Dealt p env) (hl : ∀ x ∈ l, Plain x) : Dealt p (l ++ env) := by
  have hold : ∀ {v d}, (l ++ env).lookup v = some d → (∃ r, d = .ref r) ∨ d = .token ∨
    env.lookup v = some d := by
    intro v d h
    rw [lookup_append] at h
    cases hv : l.lookup v with
    | none => exact .inr (.inr (by simpa [hv] using h))
    | some d' =>
      obtain rfl : d' = d := by simpa [hv] using h
      exact (hl _ (mem_of_lookup hv)).imp_right .inl
  have hbuffer : ∀ {v rs}, (l ++ env).lookup v = some (.buffer rs) → env.lookup v = some (.buffer rs) := fun h => by
    simpa using hold h
  refine ⟨fun h => hd.workgroup (by simpa using hold h), fun h => hd.buffer (hbuffer h), fun h h' => ?_⟩
  exact hd.apart (hbuffer h) (hbuffer h')

theorem Dealt.workgroup_cons (hd : Dealt p env) (hv : p.typeOf v = .workgroup extents) :
    Dealt p ((v, .workgroup extents) :: env) := by
  have hbuffer : ∀ {w rs}, List.lookup w ((v, Datum.workgroup extents) :: env) = some (.buffer rs) →
      env.lookup w = some (.buffer rs) := fun h => by
    rw [lookup_cons] at h
    split at h
    · cases h
    · exact h
  refine ⟨fun h => ?_, fun h => hd.buffer (hbuffer h), fun h h' => hd.apart (hbuffer h) (hbuffer h')⟩
  rw [lookup_cons] at h
  split at h
  · rename_i hw
    obtain rfl := Datum.workgroup.inj (Option.some.inj h)
    exact beq_iff_eq.mp hw ▸ hv
  · exact hd.workgroup h

def BuffersBelow (env : Env) (n : Nat) : Prop := ∀ {v rs}, env.lookup v = some (.buffer rs) →
    ∀ r ∈ rs, r.cell < n

theorem Dealt.buffer_cons (hd : Dealt p env)
    (hv : p.typeOf v = .buffer shape extents level) {rs : List Ref} {n m : Nat}
    (hn : checkLength (workers extents) = .ok rs.length) (hbelow : BuffersBelow env n) (hnm : n ≤ m)
    (hrs : rs.map Ref.cell = List.range' m rs.length) : Dealt p ((v, .buffer rs) :: env) := by
  have hold : ∀ {w rs'}, List.lookup w ((v, Datum.buffer rs) :: env) = some (.buffer rs') →
      w = v ∧ rs' = rs ∨ env.lookup w = some (.buffer rs') := fun h => by
    rw [lookup_cons] at h
    split at h
    · rename_i hw
      exact .inl ⟨beq_iff_eq.mp hw, (Datum.buffer.inj (Option.some.inj h)).symm⟩
    · exact .inr h
  -- the cell of a worker is told by its number
  have hcell : ∀ {k r}, rs[k]? = some r → r.cell = m + k := fun {k r} hr => by
    obtain ⟨hk, rfl⟩ := List.getElem?_eq_some_iff.mp hr
    simpa [hk] using congrArg (·[k]?) hrs
  have hlow : ∀ {w : ValueId} {rs' : List Ref} {k : Nat} {r : Ref}, env.lookup w = some (.buffer rs') →
      rs'[k]? = some r → r.cell < m := fun h hr =>
    Nat.lt_of_lt_of_le (hbelow h _ (mem_of_getElem? hr)) hnm
  refine ⟨fun h => ?_, fun h => ?_, fun h h' k k' r r' hr hr' hc => ?_⟩
  · rw [lookup_cons] at h
    split at h
    · cases h
    · exact hd.workgroup h
  · rcases hold h with ⟨rfl, rfl⟩ | h
    · exact ⟨shape, extents, level, hv, hn⟩
    · exact hd.buffer h
  · rcases hold h with ⟨-, rfl⟩ | ho <;> rcases hold h' with ⟨-, rfl⟩ | ho'
    · have := hcell hr
      have := hcell hr'
      omega
    · have := hcell hr
      have := hlow ho' hr'
      omega
    · have := hlow ho hr
      have := hcell hr'
      omega
    · exact hd.apart ho ho' k k' r r' hr hr' hc

def Yields (Q : α → Prop) (x : Exec α) : Prop := ∀ s a t, x s = .ok a t → Q a

namespace Yields

variable {Q : α → Prop}

theorem pure {a : α} (h : Q a) : Yields Q (pure a) := fun _ _ _ hx => (EStateM.Result.ok.inj hx).1 ▸ h

theorem throw (e : Stop RunError) : Yields Q (throw e) := fun _ _ _ hx => nomatch hx

theorem bind {x : Exec β} {f : β → Exec α} (h : ∀ b, Yields Q (f b)) : Yields Q (x >>= f) := fun _ _ _ hx => by
  obtain ⟨b, t, -, hf⟩ := bind_ok.mp hx
  exact h b _ _ _ hf

theorem ite {c : Prop} [Decidable c] {x y : Exec α} (hx : Yields Q x) (hy : Yields Q y) :
    Yields Q (if c then x else y) := by
  split
  · exact hx
  · exact hy

end Yields

def AddsPlain (env env' : Env) : Prop := ∃ l, env' = l ++ env ∧ ∀ x ∈ l, Plain x

theorem AddsPlain.refl : AddsPlain env env := ⟨[], rfl, nofun⟩

theorem AddsPlain.ref (v : ValueId) (r : Ref) : AddsPlain env ((v, .ref r) :: env) :=
  ⟨[(v, .ref r)], rfl, forall_mem_singleton.mpr (.inl ⟨r, rfl⟩)⟩

theorem yields_stopTransfer {Q : α → Prop} (e : Stop TransferError) : Yields Q (stopTransfer e) := by
  cases e with
  | error e => exact .throw _
  | fault e => exact .throw _

theorem yields_runReduce : Yields (AddsPlain env) (runReduce p run env i) := by
  refine .bind fun _ => .bind fun inputs => .bind fun _ => .bind fun accs => ?_
  cases inputs.head? with
  | none => exact .throw _
  | some input =>
    refine .bind fun body => ?_
    cases body with
    | none => exact .throw _
    | some body =>
      refine .bind fun _ => .bind fun _ => .bind fun copied => .ite (.ite (.bind fun _ => ?_) ?_) (.pure .refl)
      all_goals
        refine .pure ⟨_, rfl, fun x hx => ?_⟩
        obtain ⟨r, -, hr⟩ := mem_zip_ref (mem_reverse.mp hx)
        exact .inl ⟨r, hr⟩

theorem yields_runWorkers :
    Yields (AddsPlain env) (runWorkers p pool kept order run env b buffers) := by
  refine .bind fun e => ?_
  rcases e with _ | _ | e
  · exact .throw _
  · exact .pure .refl
  · exact .throw _

theorem yields_runOp (hw : (p.op i).name ≠ workgroupName) (ha : (p.op i).name ≠ allocName) :
    Yields (AddsPlain env) (runOp p run env i) := by
  unfold runOp
  dsimp only
  cases Arith.Binary.ofName? (p.op i).name with
  | some b =>
    repeat refine .bind fun _ => ?_
    refine .ite ?_ ?_
    all_goals
      repeat refine .bind fun _ => ?_
      exact .pure (.ref _ _)
  | none =>
    cases hl : (runners p).lookup (p.op i).name with
    | none => exact .throw _
    | some runner =>
      have hm := mem_of_lookup hl
      simp only [runners, mem_cons, Prod.mk.injEq, not_mem_nil, or_false] at hm
      rcases hm with ⟨-, rfl⟩ | ⟨-, rfl⟩ | ⟨-, rfl⟩ | ⟨-, rfl⟩ | ⟨hn, rfl⟩ | ⟨hn, rfl⟩ |
        ⟨-, rfl⟩ | ⟨-, rfl⟩ | ⟨-, rfl⟩
      · dsimp only
        unfold runConstant
        split
        · exact .throw _
        · repeat refine .bind fun _ => ?_
          exact .pure (.ref _ _)
      · repeat refine .bind fun _ => ?_
        exact .pure (.ref _ _)
      · repeat refine .bind fun _ => ?_
        exact .pure (.ref _ _)
      · exact yields_runReduce
      · exact absurd hn hw
      · exact absurd hn ha
      · repeat refine .bind fun _ => ?_
        split
        · exact yields_stopTransfer _
        · exact .pure .refl
      · repeat refine .bind fun _ => ?_
        split
        · exact yields_stopTransfer _
        · refine .bind fun r => .bind fun order => .pure ⟨[(order, .token), (_, .ref r)], rfl, ?_⟩
          exact forall_mem_cons.mpr ⟨.inr rfl, forall_mem_singleton.mpr (.inl ⟨r, rfl⟩)⟩
      · exact .bind fun _ => yields_runWorkers

theorem alloc_operand (hc : p.checkKind catalogue i = .ok ()) (hn : (p.op i).name = allocName) {w v : ValueId}
    (hw : (p.op i).operands[0]? = some (some w)) (hv : (p.op i).results[0]? = some v) {extents on : List Int}
    (hwt : p.typeOf w = .workgroup extents) (hvt : p.typeOf v = .buffer shape on level) : extents = on := by
  rw [checkKind, hn] at hc
  have hcheck : checkAlloc p i = .ok () := mapError_ok.mp hc
  unfold checkAlloc at hcheck
  split at hcheck
  · rename_i w' t' hw' ht'
    obtain rfl := typeOf_operand hw hw'
    obtain rfl := typeOf_result hv ht'
    obtain ⟨extents', he, hcheck⟩ := except_bind_ok.mp hcheck
    rw [hwt] at he
    obtain rfl := Except.ok.inj he
    by_contra hne
    rw [hvt, perWorkerOf, if_neg hne] at hcheck
    cases hcheck
  · cases hcheck

theorem dealt_runAlloc (hd : Dealt p env) (hbelow : BuffersBelow env s.cells.size)
    (hc : p.checkKind catalogue i = .ok ())
    (hn : (p.op i).name = allocName) (h : runAlloc p env i s = .ok env' t) : Dealt p env' := by
  obtain ⟨v, s₁, hv, h⟩ := bind_ok.mp h
  obtain ⟨-, h₁, hv⟩ := (looks_resultAt (K := fun _ => False) (D := False) 0).ok _ _ hv
  cases ht : p.typeOf v with
  | buffer shape on level =>
    rw [ht] at h
    obtain ⟨o, s₂, ho, h⟩ := bind_ok.mp h
    have hread : ∀ x ∈ (p.op i).operands, Readable False env x := fun _ _ => nofun
    obtain ⟨-, h₂, ho, -⟩ := (looks_operandAt (K := fun _ => False) hread 0).ok _ _ ho
    obtain ⟨extents, s₃, he, h⟩ := bind_ok.mp h
    obtain ⟨-, h₃, -⟩ := (looks_workgroup (K := fun _ => False) (D := False) nofun).ok _ _ he
    obtain ⟨w, hsome, hw⟩ := lookupWorkgroup_ok he
    have hon := alloc_operand hc hn (hsome ▸ ho) hv (hd.workgroup hw) ht
    obtain ⟨n, s₄, hcount, h⟩ := bind_ok.mp h
    obtain ⟨-, h₄, hcount⟩ := (Looks.ofExcept (K := fun _ => False)
      (D := False) (spares_checkLength _)).ok _ _ hcount
    obtain ⟨rs, s₅, hrs, h⟩ := bind_ok.mp h
    obtain ⟨rfl, -⟩ := EStateM.Result.ok.inj h
    have hnew := (Held.mapM_new (K := fun _ => False) (D := False) nofun fun _ _ u _ =>
      held_new nofun (spares_zeros shape)).ok _ _ hrs
    obtain ⟨hlen, hcells, -⟩ := hnew.2
    rw [length_range] at hlen hcells
    exact hd.buffer_cons ht (hlen ▸ hon ▸ hcount) hbelow (by simp [h₁, h₂, h₃, h₄]) (hlen ▸ hcells)
  | _ =>
    rw [ht] at h
    cases h

theorem dealt_runWorkgroup (hd : Dealt p env) (h : runWorkgroup p env i s = .ok env' t) : Dealt p env' := by
  obtain ⟨v, s₁, -, h⟩ := bind_ok.mp h
  cases ht : p.typeOf v with
  | workgroup extents =>
    rw [ht] at h
    obtain ⟨rfl, -⟩ := EStateM.Result.ok.inj h
    exact hd.workgroup_cons ht
  | _ =>
    rw [ht] at h
    cases h

theorem dealt_runOp (hd : Dealt p env) (hbelow : BuffersBelow env s.cells.size) (hc : p.checkKind catalogue i = .ok ())
    (h : runOp p run env i s = .ok env' t) : Dealt p env' := by
  have hrunner : ∀ {name : String} {runner : RunBody → Env → OpId → Exec Env}, (p.op i).name = name →
      Arith.Binary.ofName? name = none → (runners p).lookup name = some runner → runner run env i s = .ok env' t :=
    fun hn hb hl => by simpa only [runOp, hn, hb, hl] using h
  by_cases hw : (p.op i).name = workgroupName
  · exact dealt_runWorkgroup hd (hrunner hw (by decide) rfl)
  · by_cases ha : (p.op i).name = allocName
    · exact dealt_runAlloc hd hbelow hc ha (hrunner ha (by decide) rfl)
    · obtain ⟨l, rfl, hl⟩ := yields_runOp hw ha s env' t h
      exact hd.append hl

/-! ## Launches in two orders -/

/-- No launch waits for places. -/
def Schedule.Free (σ : Schedule) : Prop := ∀ kept n, σ.pool.waits kept n = false

theorem free_of_limit (h : σ.pool.limit ≤ 0) : σ.Free := by
  intro kept n
  rcases Int.lt_or_eq_of_le h with h | h <;> simp [Pool.waits, Pool.isEnabled, Pool.hasRoom, Pool.isUnlimited, h]

structure Launchable (p : Program) (good : BlockId → Prop) (i : OpId) : Prop where
  checked : p.checkKind catalogue i = .ok ()
  operands : ∀ o ∈ (p.op i).operands, ∃ v, o = some v
  bodies : ∀ blocks ∈ (p.op i).regions, ∀ b ∈ blocks, good b

theorem EnvLike.below (he : EnvLike R env env') (hl : Linked R s s') : BuffersBelow env s.cells.size :=
  @fun v rs hv r hr => by
    obtain ⟨d', -, hlike⟩ := he.found hv
    cases hlike with
    | buffer hrs =>
      obtain ⟨k, hk, rfl⟩ := getElem_of_mem hr
      obtain ⟨hlen, hget⟩ := forall₂_iff_get.mp hrs
      exact hl.lt_left (hget k hk (hlen ▸ hk)).2

theorem paired_pool (hends : Unstuck run) (hself : Agreeing p good run run) (hrun : Agreeing p good run run')
    (hb : good b) {buffers buffers' : List (List Ref)} (hbuffers : DealtBuffers n buffers)
    (hargs : (p.block b).args.length = buffers.length) (hlike : Forall₂ (Forall₂ (Ref.Like R)) buffers buffers')
    (hl : Linked R s s') {order order' : List Nat} (ho : order.Perm (List.range n)) (ho' : order'.Perm (List.range n)) :
    Paired R (fun _ e e' => e = e') s s' (Pool.runIn order (launchWorker p run b buffers))
      (Pool.runIn order' (launchWorker p run' b buffers')) := by
  -- the first run is compared with itself along the linked cells
  let D : Link := fun a c => a = c ∧ ∃ d, R a d
  have hD : Linked D s s := by
    refine ⟨fun h h' => h.1.symm.trans h'.1, fun h h' => h.1.trans h'.1.symm, fun h => ?_⟩
    obtain ⟨rfl, d, hd⟩ := h
    obtain ⟨data, hdata, -⟩ := hl.same hd
    exact ⟨data, hdata, hdata⟩
  have hlikeD : Forall₂ (Forall₂ (Ref.Like D)) buffers buffers := by
    refine forall₂_same.mpr fun rs hrs => forall₂_same.mpr fun r hr => ⟨rfl, rfl, ?_⟩
    obtain ⟨m, hm, rfl⟩ := getElem_of_mem hrs
    obtain ⟨k, hk, rfl⟩ := getElem_of_mem hr
    obtain ⟨hlen, hget⟩ := forall₂_iff_get.mp hlike
    obtain ⟨hlen', hget'⟩ := forall₂_iff_get.mp (hget m hm (hlen ▸ hm))
    exact ⟨_, (hget' k hk (hlen' ▸ hk)).2⟩
  obtain ⟨t, ht, hcells, hframe⟩ := launch_alone hends hb hbuffers hargs hself hlikeD hD ho
  obtain ⟨t', ht', hcells', hframe'⟩ := launch_alone hends hb hbuffers hargs hrun hlike hl ho'
  have hadv : Advanced R R s s' t t' := by
    refine ⟨⟨hl.left, hl.right, @fun a c hac => ?_⟩, id, .inl, ?_, ?_⟩
    · suffices hsame : t.cells[a]? = t'.cells[c]? by
        have ha := Nat.lt_of_lt_of_le (hl.lt_left hac) hframe.grows
        exact ⟨_, Array.getElem?_eq_getElem ha, hsame ▸ Array.getElem?_eq_getElem ha⟩
      by_cases hown : ∃ k < n, ∃ rs ∈ buffers, ∃ r : Ref, rs[k]? = some r ∧ r.cell = a
      · obtain ⟨k, hk, hr⟩ := hown
        rw [hcells k hk a a ⟨⟨rfl, c, hac⟩, hr⟩, hcells' k hk a c ⟨hac, hr⟩]
      · obtain ⟨data, hdata, hdata'⟩ := hl.same hac
        rw [hframe.same a ⟨hl.lt_left hac, fun k hk a' h => hown ⟨k, hk, h.1.1 ▸ h.2⟩⟩, hdata,
          hframe'.same c ⟨hl.lt_right hac, fun k hk a' h => hown ⟨k, hk, hl.right h.1 hac ▸ h.2⟩⟩, hdata']
    · refine hframe.mono fun a ha => ⟨ha.1, fun k hk a' h => ?_⟩
      obtain ⟨⟨rfl, d, hd⟩, -⟩ := h
      exact ha.2 d hd
    · exact hframe'.mono fun c hc => ⟨hc.1, fun k hk a h => hc.2 a h.1⟩
  refine ⟨fun hx => ?_, fun hx => ?_⟩
  · obtain ⟨rfl, rfl⟩ := EStateM.Result.ok.inj (ht.symm.trans hx)
    exact ⟨R, _, t', ht', hadv, rfl⟩
  · cases ht.symm.trans hx

theorem still_get : Still (fun _ _ => True) s s' (get : Exec Store) get where
  ok hx := by
    obtain ⟨-, rfl⟩ := EStateM.Result.ok.inj hx
    exact ⟨rfl, s', rfl, trivial⟩
  error hx := nomatch hx

theorem paired_scheduledLaunch (hσ : σ.Free) (hσ' : σ'.Free) {run run' : Nat → RunBody}
    (hends : ∀ k, Unstuck (run k)) (hself : ∀ k, Agreeing p good (run k) (run k))
    (hrun : ∀ k k', Agreeing p good (run k) (run' k')) (hi : Launchable p good i) (hn : (p.op i).name = launchName)
    (hd : Dealt p env) (he : EnvLike R env env') (hl : Linked R s s') (kept kept' : Nat) :
    Paired R EnvLike s s' (scheduledLaunch p σ kept run env i) (scheduledLaunch p σ' kept' run' env' i) := by
  refine ((still_launchParts he).with_left fun x hx => launchParts_ok hd hi.checked hn hi.operands hx).bind hl
    @fun x y h => ?_
  obtain ⟨⟨hcount, hbody, hlike⟩, hbuffers, hargs, ⟨blocks, hblocks, hmem⟩, -⟩ := h
  obtain ⟨n, b, buffers⟩ := x
  obtain ⟨n', b', buffers'⟩ := y
  dsimp only at hcount hbody
  subst hcount hbody
  refine still_get.bind hl @fun t t' _ => ?_
  rw [runWorkers_eq (hσ _ _), runWorkers_eq (hσ' _ _)]
  refine (paired_pool (hends _) (hself _) (hrun _ _) (hi.bodies blocks hblocks _ hmem) hbuffers hargs hlike hl
    (σ.perm i env n t) (σ'.perm i env' n t')).bind @fun _ e _ _ _ _ hadv hfail => ?_
  subst hfail
  cases e with
  | none => exact .pure hadv.linked (he.mono hadv.keeps)
  | some e => exact .throw hadv.linked _

/-- A launch ended as if every worker had run alone: with the error of the lowest worker that fails alone, or well if
none does. The memory of each worker is as the worker leaves it alone, and all else is as it was. -/
structure EachAlone (p : Program) (run : RunBody) (n : Nat) (body : BlockId) (buffers : List (List Ref)) (env : Env)
    (s : Store) (result : EStateM.Result (Stop RunError) Store Env) : Prop where
  ending : result = ((List.range n).findSome? fun k => failureOf (launchWorker p run body buffers k s)).elim
    (.ok env (storeAfter result)) fun e => .error (.error e) (storeAfter result)
  memory : ∀ k < n, ∀ rs ∈ buffers, ∀ r : Ref, rs[k]? = some r →
    (storeAfter result).cells[r.cell]? = (storeAfter (launchWorker p run body buffers k s)).cells[r.cell]?
  others : ∀ c < s.cells.size, (∀ rs ∈ buffers, ∀ r ∈ rs, r.cell ≠ c) →
    (storeAfter result).cells[c]? = s.cells[c]?

def ownCells (s : Store) : Link := fun a b => a = b ∧ a < s.cells.size

theorem linked_ownCells : Linked (ownCells s) s s := by
  refine ⟨fun h h' => h.1.symm.trans h'.1, fun h h' => h.1.trans h'.1.symm, fun h => ?_⟩
  obtain ⟨rfl, hlt⟩ := h
  exact ⟨_, Array.getElem?_eq_getElem hlt, Array.getElem?_eq_getElem hlt⟩

theorem runWorkers_alone (hends : Unstuck run) (hrun : Agreeing p good run run) (hi : Launchable p good i)
    (hn : (p.op i).name = launchName) (hd : Dealt p env) (hbelow : BuffersBelow env s.cells.size) {body : BlockId}
    (hparts : launchParts p env i s = .ok (n, body, buffers) s)
    (ho : order.Perm (List.range n)) (hroom : pool.waits kept n = false) :
    EachAlone p run n body buffers env s (runWorkers p pool kept order run env body buffers s) := by
  obtain ⟨hbuffers, hargs, ⟨blocks, hblocks, hbody⟩, hvisible⟩ :=
    launchParts_ok hd hi.checked hn hi.operands hparts
  have hcells : ∀ rs ∈ buffers, ∀ r ∈ rs, ownCells s r.cell r.cell := fun rs hrs r hr => by
    obtain ⟨v, hv⟩ := hvisible rs hrs
    exact ⟨rfl, hbelow hv r hr⟩
  obtain ⟨t, ht, hworkers, hothers⟩ := launch_alone hends (hi.bodies blocks hblocks body hbody) hbuffers hargs hrun
    (forall₂_same.mpr fun rs hrs => forall₂_same.mpr fun r hr => ⟨rfl, hcells rs hrs r hr⟩) linked_ownCells ho
  have hlength : order.length = n := by rw [ho.length_eq, length_range]
  have hresult : runWorkers p pool kept order run env body buffers s = ((List.range n).findSome? fun k =>
      failureOf (launchWorker p run body buffers k s)).elim (.ok env t) fun e => .error (.error e) t := by
    rw [runWorkers_eq (hlength ▸ hroom), bind_of_ok ht]
    cases List.findSome? _ _ with
    | none => rfl
    | some e => rfl
  have hstore : storeAfter (runWorkers p pool kept order run env body buffers s) = t := by
    rw [hresult]
    cases List.findSome? _ _ with
    | none => rfl
    | some e => rfl
  refine ⟨by rw [hstore]; exact hresult, fun k hk rs hrs r hr => hstore ▸ ?_, fun c hc hne => hstore ▸ ?_⟩
  · exact hworkers k hk _ _ ⟨hcells rs hrs r (mem_of_getElem? hr), rs, hrs, r, hr, rfl⟩
  · refine hothers.same c ⟨hc, fun k _ a hown => ?_⟩
    obtain ⟨⟨rfl, -⟩, rs, hrs, r, hr, rfl⟩ := hown
    exact hne rs hrs r (mem_of_getElem? hr) rfl

/-! ## Schedules without waiting -/

theorem scheduledOp_default (kept : Nat) (run : RunBody) (env : Env) (i : OpId) :
    scheduledOp p {} kept (fun _ => run) env i = runOp p run env i := by
  rw [scheduledOp]
  split
  · rename_i hn
    have hb : Arith.Binary.ofName? launchName = none := by decide
    have hl : (runners p).lookup launchName = some (runLaunch p) := rfl
    simp only [runOp, hn, hb, hl]
    rfl
  · rfl

theorem scheduledOps_default (r : Registry) (kept : Nat) (run : RunBody) : ∀ (env : Env) (ops : List OpId),
    scheduledOps p {} r kept (fun _ => run) env ops = runOps p r run env ops
  | _, [] => rfl
  | env, i :: ops => by
    rw [scheduledOps, runOps, scheduledOp_default]
    simp only [scheduledOps_default r kept run]

theorem scheduledBlock_default (r : Registry) : ∀ depth kept, scheduledBlock p {} r depth kept = runBlock p r depth
  | 0, _ => rfl
  | depth + 1, kept => by
    funext env b
    have hrun : scheduledBlock p {} r depth = fun _ => runBlock p r depth := funext (scheduledBlock_default r depth)
    rw [scheduledBlock, runBlock, hrun, scheduledOps_default]

/-! ## Runs that end -/

/-- What is asked of an operation for launches in and below it to find places, where `good` blocks are those in which
they do. -/
structure Finds (σ : Schedule) (p : Program) (good : Nat → BlockId → Prop) (kept : Nat) (i : OpId) : Prop where
  room : (p.op i).name = launchName → ∀ n, σ.pool.waits kept n = false
  workers : (p.op i).name = launchName → ∀ kept', ∀ blocks ∈ (p.op i).regions, ∀ b ∈ blocks, good kept' b
  bodies : (p.op i).name ≠ launchName → ∀ blocks ∈ (p.op i).regions, ∀ b ∈ blocks, good kept b

section
variable {σ : Schedule} {r : Registry} {K : Nat → Prop} {good : Nat → BlockId → Prop}

/-- Nothing is asked of the values, so that only waiting is excluded. -/
abbrev Ends (p : Program) (good : BlockId → Prop) (run : RunBody) : Prop :=
  Trusted False False p good (fun _ _ => False) run run

theorem held_scheduledOp {run : Nat → RunBody} (hrun : ∀ k, Ends p (good k) (run k))
    (hi : Finds σ p good kept i) (h : Guarded False p K env s) :
    Held K False (fun env' t => Guarded False p K env' t) s (scheduledOp p σ kept run env i)
      (scheduledOp p σ kept run env i) := by
  have hops : ∀ o ∈ (p.op i).operands, Readable False env o := fun _ _ => nofun
  have hK : ∀ env' t, Guarded False p K env' t := fun _ _ => ⟨h.watched, nofun⟩
  rw [scheduledOp]
  refine .ite (fun hn => ?_) fun hn => ?_
  · refine (looks_launchParts hops).next fun x hx => ?_
    obtain ⟨n, b, buffers⟩ := x
    obtain ⟨⟨blocks, rest, hr, hb⟩, hbuffers⟩ := hx
    have hget : Looks K False (fun _ => True) s (get : Exec Store) := by
      refine ⟨rfl, fun a t ht => ?_, fun e t ht => nomatch ht⟩
      obtain ⟨-, rfl⟩ := EStateM.Result.ok.inj ht
      exact ⟨.refl K _, rfl, trivial⟩
    refine hget.next fun t _ => ?_
    have hgood : ∀ k, good k b := fun k => hi.workers hn k blocks (hr ▸ mem_cons_self) b (mem_of_head? hb)
    exact (held_runWorkers (hrun _) h (hi.room hn _) (hgood _) nofun nofun hbuffers).weaken fun _ _ _ _ => hK _ _
  · exact (held_runOp (hrun kept) h hops nofun nofun ⟨hi.bodies hn, nofun⟩).weaken fun _ _ _ _ => hK _ _

theorem held_scheduledOps {run : Nat → RunBody} (hrun : ∀ k, Ends p (good k) (run k)) :
    ∀ {ops : List OpId} {env : Env} {s : Store}, (∀ i ∈ ops, Finds σ p good kept i) →
      Guarded False p K env s →
      Held K False (fun _ _ => True) s (scheduledOps p σ r kept run env ops) (scheduledOps p σ r kept run env ops)
  | [], _, _, _, _ => .pure trivial
  | i :: ops, env, s, hops, h => by
    rw [forall_mem_cons] at hops
    rw [scheduledOps]
    refine .ite (fun _ => ?_) fun _ => ?_
    · exact (Looks.mapM fun o _ => (looks_lookup nofun).any).weaken fun _ _ _ _ => trivial
    · exact (held_scheduledOp hrun hops.1 h).withContext.bind fun _ _ _ h' => held_scheduledOps hrun hops.2 h'

theorem ends_scheduledBlock (hgood : ∀ kept b, good kept b → ∀ i ∈ (p.block b).ops, Finds σ p good kept i) :
    ∀ depth kept, Ends p (good kept) (scheduledBlock p σ r depth kept)
  | 0, _, _, _, _, _, _, _, _ => .crash
  | depth + 1, kept, _, _, b, _, hb, h, _ => held_scheduledOps (ends_scheduledBlock hgood depth) (hgood kept b hb) h

theorem ne_stuck_of_ends {good : BlockId → Prop} (h : Ends p good run) (hb : good b) :
    run env b s ≠ .error (.fault .stuck) t := fun hstuck =>
  ((h (fun _ => False) env b s hb ⟨nofun, nofun⟩ nofun).error _ _ hstuck).2 trivial

theorem unstuck_scheduledBlock (hσ : σ.Free) (r : Registry) (depth kept : Nat) :
    Unstuck (scheduledBlock p σ r depth kept) := by
  have hends : Ends p (fun _ => True) (scheduledBlock p σ r depth kept) :=
    ends_scheduledBlock
      (fun kept _ _ _ _ => ⟨fun _ => hσ kept, fun _ _ _ _ _ _ => trivial, fun _ _ _ _ _ => trivial⟩) depth kept
  exact fun _ _ _ _ => ne_stuck_of_ends hends trivial

end

/-! ## Agreement -/

section
variable {σ σ' : Schedule} (hσ : σ.Free) (hσ' : σ'.Free) {r : Registry}
include hσ hσ'

theorem paired_scheduledOp {run run' : Nat → RunBody} (hends : ∀ k, Unstuck (run k))
    (hself : ∀ k, Agreeing p good (run k) (run k)) (hrun : ∀ k k', Agreeing p good (run k) (run' k'))
    (hi : Launchable p good i) (hd : Dealt p env) (he : EnvLike R env env') (hl : Linked R s s') (kept kept' : Nat) :
    Paired R EnvLike s s' (scheduledOp p σ kept run env i) (scheduledOp p σ' kept' run' env' i) := by
  rw [scheduledOp, scheduledOp]
  refine .ite (fun hn => ?_) fun hn => ?_
  · exact paired_scheduledLaunch hσ hσ' hends hself hrun hi hn hd he hl kept kept'
  · refine paired_runOp he hl hn @fun b l l' R' t t' hb hadv hrefs henv => ?_
    obtain ⟨blocks, hblocks, hmem⟩ := body?_ok hb
    exact hrun _ _ (hi.bodies blocks hblocks b hmem) hadv.linked henv (hd.append fun x hx => .inl (hrefs x hx))

omit hσ hσ' in
theorem dealt_scheduledOp {run : Nat → RunBody} (hd : Dealt p env) (hbelow : BuffersBelow env s.cells.size)
    (hc : p.checkKind catalogue i = .ok ()) (h : scheduledOp p σ kept run env i s = .ok env' t) : Dealt p env' := by
  rw [scheduledOp] at h
  split at h
  · have hyields : Yields (AddsPlain env) (scheduledLaunch p σ kept run env i) :=
      .bind fun _ => .bind fun _ => yields_runWorkers
    obtain ⟨l, rfl, hl⟩ := hyields s env' t h
    exact hd.append hl
  · exact dealt_runOp hd hbelow hc h

omit hσ hσ' in
theorem withContext_ok {x : Exec α} {a : α} (h : withContext p i x s = .ok a t) : x s = .ok a t := by
  unfold withContext at h
  split at h
  · cases h
  · exact h

theorem paired_scheduledOps {run run' : Nat → RunBody} (hends : ∀ k, Unstuck (run k))
    (hself : ∀ k, Agreeing p good (run k) (run k)) (hrun : ∀ k k', Agreeing p good (run k) (run' k'))
    {kept kept' : Nat} :
    ∀ {ops : List OpId} {R : Link} {env env' : Env} {s s' : Store},
      (∀ i ∈ ops, Launchable p good i) → Dealt p env →
      EnvLike R env env' → Linked R s s' → Paired R (fun R' => Forall₂ (Datum.Like R')) s s'
        (scheduledOps p σ r kept run env ops) (scheduledOps p σ' r kept' run' env' ops)
  | [], _, _, _, _, _, _, _, _, hl => .pure hl .nil
  | i :: ops, R, env, env', s, s', hops, hd, he, hl => by
    rw [forall_mem_cons] at hops
    rw [scheduledOps, scheduledOps]
    refine .ite (fun _ => ?_) fun _ => ?_
    · exact (Still.mapM (forall₂_same.mpr fun o _ => still_lookup he o)).paired hl
    · refine (paired_scheduledOp hσ hσ' hends hself hrun hops.1 hd he hl kept kept').withContext.bind
        fun hx hadv he' => ?_
      have hd' := dealt_scheduledOp hd (he.below hl) hops.1.checked (withContext_ok hx)
      exact paired_scheduledOps hends hself hrun hops.2 hd' he' hadv.linked

omit hσ hσ' in
theorem agreeing_scheduledBlock (hgood : ∀ b, good b → ∀ i ∈ (p.block b).ops, Launchable p good i) :
    ∀ (depth : Nat) {σ σ' : Schedule}, σ.Free → σ'.Free → ∀ kept kept',
      Agreeing p good (scheduledBlock p σ r depth kept) (scheduledBlock p σ' r depth kept')
  | 0, _, _, _, _, _, _ => fun _ hl _ _ => .crash hl
  | depth + 1, _, _, hσ, hσ', _, _ => fun hb hl he hd =>
    paired_scheduledOps hσ hσ' (unstuck_scheduledBlock hσ r depth)
      (fun k => agreeing_scheduledBlock hgood depth hσ hσ k k)
        (agreeing_scheduledBlock hgood depth hσ hσ') (hgood _ hb)
      hd he hl

end

/-! ## Calls -/

/-- The same error, and results of the same shapes with the same elements. What was there before the call has the
same elements, too. -/
structure SameOutcome (s : Store) (o o' : CallOutcome) : Prop where
  error : o'.error = o.error
  results : Forall₂ (fun r r' => r.shape = r'.shape ∧
    ∃ data, o.store.cells[r.cell]? = some data ∧ o'.store.cells[r'.cell]? = some data) o.results o'.results
  before : ∀ c < s.cells.size, o'.store.cells[c]? = o.store.cells[c]?

theorem SameOutcome.refl_error {e : CallError} : SameOutcome s ⟨[], some e, s⟩ ⟨[], some e, s⟩ :=
  ⟨rfl, .nil, fun _ _ => rfl⟩

/-- Calls that end in the same fault, or with the same outcome. -/
structure SameCall (s : Store) (x y : Except Fault CallOutcome) : Prop where
  fault : ∀ e, x = .error e → y = .error e
  outcome : ∀ o, x = .ok o → ∃ o', y = .ok o' ∧ SameOutcome s o o'

theorem SameCall.error (e : Fault) : SameCall s (.error e) (.error e) := ⟨fun _ => id, fun _ ho => by cases ho⟩

theorem SameCall.ok {o o' : CallOutcome} (h : SameOutcome s o o') : SameCall s (.ok o) (.ok o') :=
  ⟨fun _ he => (by cases he), fun _ ho => ⟨o', rfl, Except.ok.inj ho ▸ h⟩⟩

theorem returned_like (name : String) (h : Forall₂ (Datum.Like R) data data') :
    Forall₂ (Ref.Like R) (returned name data).1 (returned name data').1 ∧
      (returned name data').2 = (returned name data).2 := by
  induction h with
  | nil => exact ⟨.nil, rfl⟩
  | cons hd _ ih =>
    cases hd with
    | ref hr => exact ⟨.cons hr ih.1, ih.2⟩
    | workgroup extents => exact ⟨.nil, rfl⟩
    | buffer hrs => exact ⟨.nil, rfl⟩
    | token => exact ⟨.nil, rfl⟩

section
variable {t t' : Store} (hadv : Advanced (ownCells s) R s s t t')
include hadv

theorem Advanced.same_before : ∀ c < s.cells.size, t'.cells[c]? = t.cells[c]? := by
  intro c hc
  obtain ⟨data, ht, ht'⟩ := hadv.linked.same (hadv.keeps ⟨rfl, hc⟩)
  rw [ht, ht']

theorem sameOutcome_of_like (h : Forall₂ (Datum.Like R) data data') (name : String) :
    SameOutcome s (outcomeOf name (.ok data t)) (outcomeOf name (.ok data' t')) := by
  obtain ⟨hrefs, herror⟩ := returned_like name h
  exact ⟨herror, hrefs.imp fun _ _ hr => ⟨hr.1, hadv.linked.same hr.2⟩, hadv.same_before⟩

end

theorem sameOutcome_of_paired {x y : Exec (List Datum)}
    (h : Paired (ownCells s) (fun R => Forall₂ (Datum.Like R)) s s x y) (name : String) :
    SameOutcome s (outcomeOf name (x s)) (outcomeOf name (y s)) := by
  cases hx : x s with
  | ok data t =>
    obtain ⟨R', data', t', hy, hadv, hlike⟩ := h.ok hx
    rw [hy]
    exact sameOutcome_of_like hadv hlike name
  | error e t =>
    obtain ⟨R', t', hy, hadv⟩ := h.error hx
    rw [hy]
    cases e with
    | error e => exact ⟨rfl, .nil, hadv.same_before⟩
    | fault e => exact ⟨rfl, .nil, hadv.same_before⟩

section
variable {module f : OpId} {name : String} {args : List Ref} {body : BlockId} {σ : Schedule}

theorem launchable_of_verified (wf : p.WellFormed) (hv : p.verify catalogue module = .ok ())
    (hi : i ∈ p.nested module) : Launchable p (fun b => ∀ i ∈ (p.block b).ops, i ∈ p.nested module) i := by
  obtain ⟨hops, -, hc⟩ := verifyOp_ok.mp (verify_ok.mp hv i hi)
  refine ⟨hc, fun o ho => (hops o ho).imp fun _ h => h.1, fun blocks hblocks b hb j hj => ?_⟩
  exact wf.mem_nested.mpr (.step (wf.mem_children.mp (mem_children hblocks hb hj)) (wf.mem_nested.mp hi))

theorem dealt_nil : Dealt p [] := ⟨nofun, nofun, nofun⟩

theorem paired_body (wf : p.WellFormed) (hv : p.verify catalogue module = .ok ())
    (hf : Functions.lookup? p module name = some (some f)) (hb : p.entryBlock? f 0 = some body)
    (hargs : ∀ a ∈ args, a.cell < s.cells.size) (depth : Nat) (hσ : σ.Free) (hσ' : σ'.Free) :
    Paired (ownCells s) (fun R => Forall₂ (Datum.Like R)) s s
      (scheduledBlock p σ catalogue depth 0 (entryEnv p body args) body)
      (scheduledBlock p σ' catalogue depth 0 (entryEnv p body args) body) := by
  have hrefs : ∀ x ∈ entryEnv p body args, ∃ r, x.2 = .ref r ∧ r.cell < s.cells.size := fun x hx => by
    obtain ⟨r, hr, he⟩ := mem_entryEnv hx
    exact ⟨r, he, hargs r (of_mem_zip hr).2⟩
  have henv : EnvLike (ownCells s) (entryEnv p body args) (entryEnv p body args) := by
    refine .of_bindings (forall₂_same.mpr fun x hx => ?_)
    obtain ⟨r, he, hr⟩ := hrefs x hx
    exact ⟨rfl, he ▸ .ref ⟨rfl, rfl, hr⟩⟩
  have hdealt : Dealt p (entryEnv p body args) := by
    simpa using (dealt_nil (p := p)).append fun x hx => .inl ((hrefs x hx).imp fun _ h => h.1)
  exact agreeing_scheduledBlock (fun b hb i hi => launchable_of_verified wf hv (hb i hi)) depth hσ hσ' 0 0
    (mem_nested_body wf hf hb) linked_ownCells henv hdealt

theorem sameCall_of_paired
    (h : ∀ {f body}, Functions.lookup? p module name = some (some f) → p.entryBlock? f 0 = some body →
      Paired (ownCells s) (fun R => Forall₂ (Datum.Like R)) s s (run (entryEnv p body args) body)
        (run' (entryEnv p body args) body)) :
    SameCall s (callWith p run module name args s) (callWith p run' module name args s) := by
  unfold callWith
  cases hf : Functions.lookup? p module name with
  | none => exact .error _
  | some found =>
    cases found with
    | none => exact .ok .refl_error
    | some f =>
      dsimp only
      cases hb : p.entryBlock? f 0 with
      | none => exact .error _
      | some body =>
        dsimp only
        by_cases hlen : args.length ≠ (p.block body).args.length
        · rw [if_pos hlen, if_pos hlen]
          exact .ok .refl_error
        · rw [if_neg hlen, if_neg hlen]
          cases wrongShape? p 0 ((p.block body).args.zip args) with
          | some wrong => exact .ok .refl_error
          | none => exact .ok (sameOutcome_of_paired (h hf hb) name)

theorem agreeing_runBlock (wf : p.WellFormed) (hv : p.verify catalogue module = .ok ()) (depth : Nat) :
    Agreeing p (fun b => ∀ i ∈ (p.block b).ops, i ∈ p.nested module) (runBlock p catalogue depth)
      (runBlock p catalogue depth) := by
  have hfree : ({} : Schedule).Free := free_of_limit (Int.le_refl 0)
  rw [← scheduledBlock_default catalogue depth 0]
  exact @fun _ _ _ _ _ _ =>
    agreeing_scheduledBlock (fun b hb i hi => launchable_of_verified wf hv (hb i hi)) depth hfree hfree 0 0

theorem unstuck_runBlock (r : Registry) (depth : Nat) : Unstuck (runBlock p r depth) :=
  scheduledBlock_default (p := p) r depth 0 ▸ unstuck_scheduledBlock (free_of_limit (Int.le_refl 0)) r depth 0

theorem sameCall_of_free (wf : p.WellFormed) (hv : p.verify catalogue module = .ok ()) (hσ : σ.Free)
    (hargs : ∀ a ∈ args, a.cell < s.cells.size) : SameCall s (call p catalogue module name args s)
      (callWith p (scheduledBlock p σ catalogue (p.ops.size + 1) 0) module name args s) := by
  rw [call, ← scheduledBlock_default catalogue _ 0]
  exact sameCall_of_paired fun hf hb => paired_body wf hv hf hb hargs _ (free_of_limit (Int.le_refl 0)) hσ

end

end Offload.Execution
