import Offload.Proofs.Checking
import Offload.Proofs.QubitPatterns

/-!
# The lowering refines the reference semantics

The driver takes the operations in program order, so that the simulation covers the whole walk. The commit then
takes the operations on registers out, and what is left has the code of their events in their place.
-/

namespace Offload.Qubits

open Program Build Rewrite List

variable {j : OpId} {l : Lowered} {p q : Program} {rest : List OpId}

/-! ## What is lowered -/

theorem legality_eq (p : Program) (i : OpId) : target.legality p i = .ok
    (if isQuantum (p.op i) then .illegal else if (p.op i).dialect = Handle.dialect then .legal else .unknown) := by
  have h1 : target.legalDialects.contains (p.op i).dialect = decide ((p.op i).dialect = Handle.dialect) := by
    simp [target, NameSet.ofList, NameSet.insertAll, NameSet.insert, NameSet.place, NameSet.contains]
  have h2 : target.illegalDialects.contains (p.op i).dialect = isQuantum (p.op i) := by
    simp [target, NameSet.ofList, NameSet.insertAll, NameSet.insert, NameSet.place, NameSet.contains, isQuantum]
  have hne : Handle.dialect ≠ Register.dialect := by decide
  refine congrArg Except.ok ?_
  rw [Target.staticLegality, h1, h2]
  by_cases hd : (p.op i).dialect = Handle.dialect
  · simp [target, NameSet.contains, isQuantum, hd, hne]
  · by_cases hq : isQuantum (p.op i) = true
    · simp [target, NameSet.contains, hd, hq]
    · simp [target, NameSet.contains, hd, hq]

theorem isInside_eq (p : Program) (i root : OpId) : target.isInside p i root = false := by
  simp [Target.isInside, Target.isRecursivelyLegal, target, NameSet.contains]

theorem isQuantum_congr {o o' : Op} (h : o.name = o'.name) : isQuantum o = isQuantum o' := by
  unfold isQuantum Op.dialect
  rw [h]

theorem quiet_patterns : Rewriting.Quiet patterns := by
  intro pattern hp i s s' h
  exfalso
  simp only [patterns, mem_append, mem_cons, not_mem_nil, or_false, mem_map] at hp
  rcases hp with (rfl | rfl | rfl | rfl | rfl | rfl) | ⟨g, _, rfl⟩
  · simp [lowerAlloc] at h
  · simp [lowerDealloc] at h
  · simp only [lowerSplit, bind_ok] at h
    obtain ⟨_, _, _, _, _, _, _, _, _, o, _, _, h⟩ := h
    cases o <;> simp at h
  · simp [lowerMerge] at h
  · simp only [lowerCnot, bind_ok] at h
    obtain ⟨_, _, _, x, _, _, h⟩ := h
    cases x with
    | error e => simp at h
    | ok c =>
      simp only [bind_ok] at h
      obtain ⟨_, _, _, x, _, _, h⟩ := h
      cases x <;> simp at h
  · simp only [lowerMeasure, bind_ok] at h
    obtain ⟨_, _, _, x, _, _, h⟩ := h
    cases x <;> simp at h
  · simp [lowerGate] at h

instance : DecidablePred Word.InRange := fun x => inferInstanceAs (Decidable (_ ∧ x < _))

theorem inRange_typeOf (h : ∀ x ∈ p.values, Word.InRange x.type.qubits) (v : ValueId) :
    Word.InRange (p.typeOf v).qubits := by
  by_cases hv : p.HasValue v
  · exact h _ (value_mem hv)
  · rw [Program.typeOf, value_of_not_hasValue hv]
    decide

/-! ## The run of the driver -/

section

variable {p : Program} {root : OpId}

def walk (p : Program) (root : OpId) : List OpId := p.preorder (fun _ => true) root

def Flat (p : Program) (root : OpId) : Prop :=
  ∀ i ∈ walk p root, isQuantum (p.op i) = true → (p.op i).regions = []

def Underway (p : Program) (root : OpId) (worklist : List OpId) (s : Session QubitMap) : Prop :=
  ∃ news done todo trace m n new, worklist = news ++ todo ∧ walk p root = done ++ todo ∧
    (∀ j ∈ news, isQuantum (s.work.program.op j) = false) ∧ Simulates p done trace m n new s

variable {done : List OpId} {trace : List (OpId × List Event)} {m : Machine} {n : Naming}
  {new : OpId → List OpId} {s : Session QubitMap} {i : OpId}

theorem mem_walk (wf : p.WellFormed) (h : i ∈ walk p root) : p.HasOp i ∧ p.Within root i ∧ i ≠ root := by
  rw [walk, wf.preorder_eq, mem_flatMap] at h
  obtain ⟨j, hj, hi⟩ := h
  have hpar := wf.mem_children.mp hj
  have hw := wf.mem_nested.mp hi
  refine ⟨?_, (Within.single hpar).trans hw, ?_⟩
  · cases hw with
    | refl => exact hasOp_of_parent hpar
    | step hp _ => exact hasOp_of_parent hp
  · rintro rfl
    exact wf.not_within_of_parent hpar hw

theorem nodup_walk (wf : p.WellFormed) (root : OpId) : (walk p root).Nodup := by
  have := wf.nodup_nested root
  rw [wf.nested_eq_preorder] at this
  exact (nodup_cons.mp this).2

theorem walk_next (wf : p.WellFormed) (hw : walk p root = done ++ i :: rest) :
    i ∉ done ∧ p.HasOp i := by
  have hnd := nodup_walk wf root
  rw [hw] at hnd
  have hi : i ∈ walk p root := by rw [hw]; simp
  exact ⟨fun hd => (nodup_append.mp hnd).2.2 i hd i (by simp) rfl, (mem_walk wf hi).1⟩

theorem Simulates.children_erased (h : Simulates p done trace m n new s) (wf : p.WellFormed)
    (flat : Flat p root) (hd : ∀ j ∈ done, j ∈ walk p root) {e : OpId} (he : e ∈ s.erased) :
    e ∈ done ∧ s.work.program.children e = [] := by
  rw [h.erased, h.pending, mem_filter] at he
  have hp := (mem_walk wf (hd e he.1)).1
  refine ⟨he.1, ?_⟩
  rw [children, h.op e hp]
  simp [flat e (hd e he.1) he.2]

theorem Simulates.erasedAt_iff (h : Simulates p done trace m n new s) (wf : p.WellFormed) (flat : Flat p root)
    (hd : ∀ j ∈ done, j ∈ walk p root) : Rewriting.erasedAt s j = true ↔ j ∈ s.pending := by
  rw [Rewriting.erasedAt, any_eq_true, ← h.erased]
  constructor
  · rintro ⟨e, he, hmem⟩
    rw [contains_iff_mem] at hmem
    have hc := (h.children_erased wf flat hd hmem).2
    rwa [not_within_of_no_children h.wellFormed hc (h.wellFormed.mem_enclosing.mp he)]
  · intro hj
    exact ⟨j, h.wellFormed.mem_enclosing.mpr .refl, contains_iff_mem.mpr hj⟩

theorem Simulates.roots_eq (h : Simulates p done trace m n new s) (wf : p.WellFormed) (flat : Flat p root)
    (hd : ∀ j ∈ done, j ∈ walk p root) : Rewriting.roots s = s.pending := by
  refine filter_eq_self.mpr fun i _ => ?_
  cases hpar : s.work.program.parent? i with
  | none => rfl
  | some a =>
    rw [Option.all_some, Bool.not_eq_true', ← Bool.not_eq_true, h.erasedAt_iff wf flat hd, ← h.erased]
    intro he
    have hci := h.wellFormed.mem_children.mpr hpar
    rw [(h.children_erased wf flat hd he).2] at hci
    cases hci

theorem Simulates.isQuantum_op (h : Simulates p done trace m n new s) (hi : p.HasOp i) :
    isQuantum (s.work.program.op i) = isQuantum (p.op i) := by
  rw [h.op i hi]
  exact isQuantum_congr rfl

theorem Simulates.pass (h : Simulates p done trace m n new s) (hi : i ∉ done) (hq : isQuantum (p.op i) = false) :
    Simulates p (done ++ [i]) (trace ++ [(i, [])]) m n new s := by
  have hni : new i = [] := by
    by_contra hne
    exact hi (h.built i hne).1
  refine { h with run := ?_, pending := ?_, built := ?_, code := ?_, bound := ?_ }
  · exact Machine.run_snoc h.run (by simp [Machine.step, hq])
  · simp [h.pending, hq]
  · exact fun j hj => ⟨mem_append_left _ (h.built j hj).1, (h.built j hj).2⟩
  · intro x hx
    rcases mem_append.mp hx with hx | hx
    · exact h.code x hx
    · obtain rfl := mem_singleton.mp hx
      simp [hni, Naming.code]
  · intro v hv
    obtain ⟨j, hj, hv⟩ := h.bound v hv
    exact ⟨j, mem_append_left _ hj, hv⟩

theorem Simulates.not_quantum_new (h : Simulates p done trace m n new s) {j k : OpId} (hk : k ∈ new j) :
    isQuantum (s.work.program.op k) = false := by
  have hj := (h.built j (ne_nil_of_mem hk)).1
  rw [← Machine.fst_run h.run] at hj
  obtain ⟨x, hx, rfl⟩ := mem_map.mp hj
  rw [← (Naming.code_instr (h.code x hx) _ (mem_map_of_mem hk)).2]
  exact isQuantum_congr rfl

theorem Underway.next (wf : p.WellFormed) (h : Underway p root (i :: rest) s)
    (hill : target.legality s.work.program i = .ok .illegal) :
    ∃ done trace m n new, walk p root = done ++ i :: rest ∧ isQuantum (p.op i) = true ∧
      Simulates p done trace m n new s := by
  obtain ⟨news, done, todo, trace, m, n, new, hl, hw, hnews, h⟩ := h
  have hqs : isQuantum (s.work.program.op i) = true := by
    rw [legality_eq] at hill
    by_contra hq
    simp only [hq, if_false] at hill
    split at hill <;> cases hill
  cases news with
  | cons j news =>
    obtain ⟨rfl, rfl⟩ := List.cons.inj hl
    rw [hnews i (mem_cons_self ..)] at hqs
    cases hqs
  | nil =>
    rw [nil_append] at hl
    subst hl
    exact ⟨done, trace, m, n, new, hw, h.isQuantum_op (walk_next wf hw).2 ▸ hqs, h⟩

theorem keeps_underway (wf : p.WellFormed) (hrange : ∀ v, Word.InRange (p.typeOf v).qubits)
    (flat : Flat p root) : Keeps root target patterns (Underway p root) where
  skip i rest s := by
    rintro ⟨news, done, todo, trace, m, n, new, hl, hw, hnews, h⟩ hs
    cases news with
    | cons j news =>
      obtain ⟨rfl, rfl⟩ := List.cons.inj hl
      exact ⟨news, done, todo, trace, m, n, new, rfl, hw, fun k hk => hnews k (mem_cons_of_mem _ hk), h⟩
    | nil =>
      rw [nil_append] at hl
      subst hl
      obtain ⟨hi, hp⟩ := walk_next wf hw
      have hq : isQuantum (p.op i) = false := by
        rcases hs with he | he | ⟨l, hl, ha⟩
        · have := (h.erasedAt_iff wf flat fun j hj => by rw [hw]; simp [hj]).mp he
          rw [h.pending, mem_filter] at this
          exact absurd this.1 hi
        · rw [isInside_eq] at he
          cases he
        · rw [legality_eq, h.isQuantum_op hp] at hl
          cases hq : isQuantum (p.op i) with
          | false => rfl
          | true =>
            rw [hq] at hl
            cases hl
            cases ha
      exact ⟨[], done ++ [i], rest, _, m, n, new, rfl, by simp [hw], by simp, h.pass hi hq⟩
  rewrite i rest s b place pattern s' := by
    intro hI hns hill hb hidx hpat hk hr
    obtain ⟨done, trace, m, n, new, hw, hq, h⟩ := hI.next wf hill
    obtain ⟨hi, hp⟩ := walk_next wf hw
    rw [h.op i hp] at hk
    obtain ⟨trace', m', n', new', h', hc⟩ :=
      (pattern_acts wf h hi hp hq hb hidx hrange False.elim hpat hk).ok s' hr
    refine ⟨followUp target s', done ++ [i], rest, trace', m', n', new', rfl, by simp [hw], ?_, h'⟩
    intro j hj
    rw [followUp, mem_eraseDups, mem_flatMap] at hj
    obtain ⟨k, hk, hj⟩ := hj
    rw [hc] at hk
    rcases mem_cons.mp hj with rfl | hj
    · exact h'.not_quantum_new hk
    · -- what was built holds nothing
      have hreg := (h'.fresh i k hk).2.2
      rw [insideOf, h'.wellFormed.preorder_eq (p := s'.work.program), children] at hj
      simp [show (s'.work.program.op k).regions = [] from hreg] at hj

theorem simulates_start (wf : p.WellFormed) :
    Simulates p [] [] {} {} (fun _ => []) { work := { program := p }, deferred := true, extra := {} } where
  run := rfl
  wellFormed := wf
  deferred := rfl
  created := rfl
  pending := rfl
  erased := by simp
  rewritten := rfl
  ops := Nat.le_refl _
  op j _ := by
    have : ∀ v, Naming.rename {} {} v = v := fun v => Naming.rename_of_not_mem (by simp)
    simp [funext this]
  blocks := rfl
  block b := by simp
  values := Nat.le_refl _
  value _ _ := rfl
  built := by simp
  fresh := by simp
  all _ hk := .inl hk
  code := by simp
  bound := by simp
  linked := ⟨by simp, by simp [AllocationMap.find?]⟩
  names := ⟨rfl, rfl, rfl, nodup_nil, nodup_nil, nodup_nil, by simp, by simp⟩

/-! ## The commit -/

theorem eraseAll_ok : ∀ (es : List OpId) {p q : Program}, p.WellFormed → (∀ e ∈ es, p.children e = []) →
    es.forM Edit.erase p = .ok () q →
      q.WellFormed ∧ q.ops.size = p.ops.size ∧ q.blocks.size = p.blocks.size ∧ q.values.size = p.values.size ∧
      (∀ j, j ∉ es → q.op j = p.op j) ∧
      (∀ b, q.block b = { p.block b with ops := (p.block b).ops.filter (· ∉ es) }) ∧
      ∀ v, q.typeOf v = p.typeOf v
  | [], p, q, wf, _, h => by
    rw [forM_nil_ok] at h
    subst h
    exact ⟨wf, rfl, rfl, rfl, fun _ _ => rfl, fun b => by simp, fun _ => rfl⟩
  | e :: es, p, q, wf, hc, h => by
    obtain ⟨t, ht, h⟩ := forM_cons_ok.mp h
    have he := Edit.erase_ok wf ht
    have hout : ∀ j, j ≠ e → t.op j = p.op j := fun j hj =>
      he.outside j fun hw => hj (not_within_of_no_children wf (hc e (mem_cons_self ..)) hw)
    have hreg : ∀ j, (t.op j).regions = (p.op j).regions := by
      intro j
      by_cases hj : j = e
      · rw [hj, he.inside e .refl]
      · rw [hout j hj]
    -- erasing adds nothing to any block
    have hct : ∀ j ∈ es, t.children j = [] := by
      intro j hj
      have := hc j (mem_cons_of_mem _ hj)
      simp only [children, flatMap_eq_nil_iff, hreg, he.block] at this ⊢
      intro bs hbs b hb
      simp [this bs hbs b hb]
    obtain ⟨wf', h1, h2, h3, h4, h5, h6⟩ := eraseAll_ok es he.wellFormed hct h
    refine ⟨wf', h1.trans he.ops, h2.trans he.blocks, h3.trans he.values, ?_, ?_, ?_⟩
    · intro j hj
      rw [mem_cons, not_or] at hj
      rw [h4 j hj.2, hout j hj.1]
    · intro b
      rw [h5, he.block, filter_filter]
      simp only [Block.mk.injEq, true_and]
      refine filter_congr fun j _ => ?_
      simp [Bool.and_comm]
    · intro v
      rw [h6, Program.typeOf, he.value]
      rfl

def isLowered (p : Program) (root j : OpId) : Bool := decide (j ∈ walk p root) && isQuantum (p.op j)

def inPlace (p : Program) (root : OpId) (new : OpId → List OpId) (j : OpId) : List OpId :=
  if isLowered p root j then new j else [j]

/-- What the lowering leaves: in every block the operations that were built stand in the place of an
operation on registers, and everything else is as it was, up to the measured bits. -/
structure Refines (p : Program) (root : OpId) (trace : List (OpId × List Event)) (m : Machine) (n : Naming)
    (new : OpId → List OpId) (e : QubitMap) (q : Program) : Prop where
  run : Machine.run p (walk p root) {} = some (trace, m)
  wellFormed : q.WellFormed
  op : ∀ j, p.HasOp j → isLowered p root j = false →
    q.op j = { p.op j with operands := (p.op j).operands.map (Option.map (n.rename m)) }
  block : ∀ b, q.block b = { p.block b with ops := (p.block b).ops.flatMap (inPlace p root new) }
  value : ∀ v, p.HasValue v → q.typeOf v = p.typeOf v
  fresh : ∀ j, ∀ k ∈ new j, ¬ p.HasOp k ∧ (q.op k).regions = []
  code : ∀ x ∈ trace, n.code x.2 = some ((new x.1).map (instr q))
  linked : Linked n m e
  names : n.Fits m p q

theorem Simulates.commit (wf : p.WellFormed) (flat : Flat p root)
    (h : Simulates p (walk p root) trace m n new s) {s' : Session QubitMap}
    (hc : (Rewriting.commit : Lowering _) s = .ok none s') :
    Refines p root trace m n new s'.extra s'.work.program := by
  obtain ⟨_, es, q, hp, he, rfl⟩ := Rewriting.commit_ok hc
  have hpend : ∀ j, j ∈ s.pending ↔ isLowered p root j = true := by
    simp [h.pending, isLowered]
  have hchild : ∀ e ∈ s.pending, s.work.program.children e = [] := fun e he =>
    (h.children_erased wf flat (fun _ hj => hj) ((h.erased e).mpr he)).2
  rw [h.roots_eq wf flat fun _ hj => hj] at hp
  have hes : ∀ j, j ∈ es ↔ isLowered p root j = true := fun j => hp.mem_iff.trans (hpend j)
  obtain ⟨wf', _, _, hval, hop, hblock, htype⟩ :=
    eraseAll_ok es h.wellFormed (fun e he => hchild e (hp.mem_iff.mp he)) he
  have hnew : ∀ j, ∀ k ∈ new j, q.op k = s.work.program.op k := by
    intro j k hk
    refine hop k fun hke => (h.fresh j k hk).1 ?_
    rw [hes, isLowered, Bool.and_eq_true, decide_eq_true_eq] at hke
    exact (mem_walk wf hke.1).1
  refine ⟨h.run, wf', ?_, ?_, ?_, ?_, ?_, h.linked, ?_⟩
  · intro j hj hl
    rw [show (Session.work _).program.op j = _ from hop j (by rw [hes, hl]; simp), h.op j hj]
  · intro b
    show q.block b = _
    rw [hblock, h.block]
    simp only [filter_flatMap, Block.mk.injEq, true_and]
    refine flatMap_congr fun j hj => ?_
    have hin : (new j).filter (· ∉ es) = new j := by
      refine filter_eq_self.mpr fun k hk => ?_
      have : ¬ isLowered p root k = true := by
        rw [isLowered, Bool.and_eq_true, decide_eq_true_eq]
        exact fun hk' => (h.fresh j k hk).1 (mem_walk wf hk'.1).1
      simpa [hes] using this
    rw [filter_append, hin, inPlace]
    by_cases hl : isLowered p root j = true
    · simp [hl, (hes j).mpr hl]
    · have hnj : new j = [] := by
        by_contra hne
        exact hl (by simpa [isLowered] using h.built j hne)
      have : j ∉ es := fun hje => hl ((hes j).mp hje)
      simp [hl, this, hnj]
  · intro v hv
    rw [show (Session.work _).program.typeOf v = _ from htype v, h.value v hv]
  · intro j k hk
    rw [show (Session.work _).program.op k = _ from hnew j k hk]
    exact ⟨(h.fresh j k hk).1, (h.fresh j k hk).2.2⟩
  · intro x hx
    rw [h.code x hx]
    refine congrArg some (map_congr_left fun k hk => (instr_congr (hnew x.1 k hk) fun v _ => htype v).symm)
  · exact h.names.mono (Nat.le_of_eq hval.symm)

theorem descends : (fun j => !target.isRecursivelyLegal p j) = fun _ => true := by
  funext j
  simp [Target.isRecursivelyLegal, target, NameSet.contains]

theorem refines_of_lower (wf : p.WellFormed) (hrange : ∀ v, Word.InRange (p.typeOf v).qubits)
    (flat : Flat p root) (h : lower root p = .ok l q) (he : l.error = none) :
    ∃ trace m n new, Refines p root trace m n new l.qubits q := by
  rw [lower] at h
  cases hs : start true {} (convert .partly root target patterns p.ops.size) p with
  | error e s =>
    simp only [hs, EStateM.Result.ok.injEq] at h
    rw [← h.1] at he
    cases he
  | ok r s =>
    simp only [hs, EStateM.Result.ok.injEq] at h
    obtain ⟨rfl, rfl⟩ := h
    simp only [start, convert, bind_ok, Rewriting.program_ok] at hs
    obtain ⟨p, _, ⟨rfl, rfl⟩, error, s1, hsteps, hs⟩ := hs
    cases error with
    | some e =>
      simp only [bind_ok, pure_ok] at hs
      obtain ⟨_, _, _, rfl, _⟩ := hs
      cases he
    | none =>
      simp only [bind_ok, pure_ok] at hs
      obtain ⟨used, s2, hcommit, stats, _, hstats, rfl, rfl⟩ := hs
      obtain rfl : used = none := by simpa using he
      rw [descends] at hsteps
      obtain ⟨news, done, todo, trace, m, n, new, hnil, hw, _, hsim⟩ :=
        steps_ok rfl quiet_patterns (keeps_underway wf hrange flat) _ _
          ⟨[], [], walk p root, [], {}, {}, fun _ => [], rfl, rfl, by simp, simulates_start wf⟩ hsteps
      obtain ⟨rfl, rfl⟩ := append_eq_nil_iff.mp hnil.symm
      rw [append_nil] at hw
      subst hw
      refine ⟨trace, m, n, new, ?_⟩
      have := hsim.commit wf flat hcommit
      simp only [Rewriting.stats, bind_ok, get_ok, pure_ok] at hstats
      obtain ⟨_, _, ⟨rfl, rfl⟩, _, rfl⟩ := hstats
      exact this

theorem Refines.walk_eq (wf : p.WellFormed) (hroot : p.HasOp root) (flat : Flat p root) {e : QubitMap}
    (h : Refines p root trace m n new e q) :
    walk q root = (walk p root).flatMap (inPlace p root new) := by
  have hnr : isLowered p root root = false := by
    rw [isLowered, Bool.and_eq_false_iff, decide_eq_false_iff_not]
    exact .inl fun hm => (mem_walk wf hm).2.2 rfl
  refine wf.flatMap_preorder h.wellFormed (P := fun i => p.Within root i ∧ i ≠ root) (fun b => by rw [h.block])
    ?_ ?_ (by rw [h.op root hroot hnr]) ?_
  · rintro i j ⟨hw, _⟩ hp
    refine ⟨.step hp hw, ?_⟩
    rintro rfl
    exact wf.not_within_of_parent hp hw
  · rintro i ⟨hw, hne⟩
    have hi : i ∈ walk p root := by
      have := wf.mem_nested.mpr hw
      rw [wf.nested_eq_preorder, mem_cons] at this
      exact this.resolve_left hne
    by_cases hl : isLowered p root i = true
    · refine .inr ⟨flat i hi (by simp_all [isLowered]), fun j hj => ?_⟩
      rw [inPlace, if_pos hl] at hj
      exact (h.fresh i j hj).2
    · have hl' : isLowered p root i = false := by simpa using hl
      refine .inl ⟨by rw [inPlace, if_neg hl], ?_⟩
      rw [h.op i (mem_walk wf hi).1 hl']
  · intro j hp
    refine ⟨.single hp, ?_⟩
    rintro rfl
    exact wf.not_within_of_parent hp .refl

end

/-- A lowering that succeeds refines the reference semantics: the program can be run, there are different
handles for its qubits and outcomes, and the walk through the result is the walk through the program with
every operation on registers replaced by the code of its events. Everything else is unchanged, but for
measured bits, which are the bits that are read now. -/
theorem lower_refines_run {root : OpId} (wf : p.WellFormed) (hroot : p.HasOp root)
    (hrange : ∀ x ∈ p.values, Word.InRange x.type.qubits)
    (flat : ∀ i ∈ p.preorder (fun _ => true) root, isQuantum (p.op i) = true → (p.op i).regions = [])
    (h : lower root p = .ok l q) (he : l.error = none) :
    ∃ (trace : List (OpId × List Event)) (m : Machine) (n : Naming) (new : OpId → List OpId),
      Machine.run p (p.preorder (fun _ => true) root) {} = some (trace, m) ∧
      (n.handles.Nodup ∧ n.handles.length = m.qubits) ∧
      (n.outcomes.Nodup ∧ n.outcomes.length = m.bits.length) ∧
      (n.reads.Nodup ∧ n.reads.length = m.bits.length) ∧
      q.preorder (fun _ => true) root = (p.preorder (fun _ => true) root).flatMap
        (fun i => if isQuantum (p.op i) then new i else [i]) ∧
      (∀ x ∈ trace, isQuantum (p.op x.1) = true → n.code x.2 = some ((new x.1).map (instr q)) ∧
        ∀ j ∈ new x.1, ¬ p.HasOp j ∧ (q.op j).regions = [] ∧ (q.op j).block = (p.op x.1).block) ∧
      (∀ i ∈ p.preorder (fun _ => true) root, isQuantum (p.op i) = false →
        q.op i = { p.op i with operands := (p.op i).operands.map (Option.map (n.rename m)) }) ∧
      (∀ b, (q.block b).owner = (p.block b).owner ∧ (q.block b).region = (p.block b).region ∧
        (q.block b).args = (p.block b).args) ∧
      ∀ v, p.HasValue v → q.typeOf v = p.typeOf v := by
  obtain ⟨trace, m, n, new, hr⟩ := refines_of_lower wf (inRange_typeOf hrange) flat h he
  have hnames := hr.names
  have hplace : ∀ i ∈ walk p root, inPlace p root new i = if isQuantum (p.op i) then new i else [i] := by
    intro i hi
    simp [inPlace, isLowered, hi]
  refine ⟨trace, m, n, new, hr.run, ⟨hnames.handlesNodup, hnames.qubits⟩,
    ⟨hnames.outcomesNodup, hnames.outcomes⟩, ⟨hnames.readsNodup, hnames.reads⟩, ?_, ?_, ?_, ?_, hr.value⟩
  · exact (hr.walk_eq wf hroot flat).trans (flatMap_congr hplace)
  · intro x hx hq
    refine ⟨hr.code x hx, fun j hj => ⟨(hr.fresh x.1 j hj).1, (hr.fresh x.1 j hj).2, ?_⟩⟩
    have hw : x.1 ∈ walk p root := by
      rw [← Machine.fst_run hr.run]
      exact mem_map_of_mem hx
    -- an operation of the walk is listed in a block, and so is what replaces it
    obtain ⟨_, hwithin, hne⟩ := mem_walk wf hw
    obtain ⟨a, hp, _⟩ := hwithin.of_ne (Ne.symm hne)
    obtain ⟨b, hb, _⟩ := parent?_eq_some.mp hp
    rw [hb, hr.wellFormed.listed, hr.block]
    refine mem_flatMap.mpr ⟨x.1, (wf.listed _ b).mp hb, ?_⟩
    rw [hplace _ hw, hq]
    exact hj
  · intro i hi hq
    exact hr.op i (mem_walk wf hi).1 (by simp [isLowered, hq])
  · intro b
    rw [hr.block]
    exact ⟨rfl, rfl, rfl⟩

/-- Two qubits are entangled, and one of them is measured. -/
def bell : Program :=
  { ops := #[
      { name := "builtin.module", regions := [[0]] },
      { name := "quantum.alloc", results := [0], block := some 0 },
      { name := "quantum.split", operands := [some 0], results := [1, 2], block := some 0 },
      { name := "quantum.h", operands := [some 1], results := [3], block := some 0 },
      { name := "quantum.cnot", operands := [some 3, some 2], results := [4, 5],
        block := some 0 },
      { name := "quantum.measure", operands := [some 4], results := [6, 7], block := some 0 },
      { name := "quantum.merge", operands := [some 7, some 5], results := [8],
        block := some 0 },
      { name := "quantum.dealloc", operands := [some 8], block := some 0 },
      { name := "test.print", operands := [some 6], block := some 0 }]
    blocks := #[{ owner := 0, ops := [1, 2, 3, 4, 5, 6, 7, 8] }]
    values := #[
      ⟨.register 2, .result 1 0, [⟨2, 0⟩]⟩,
      ⟨.register 1, .result 2 0, [⟨3, 0⟩]⟩,
      ⟨.register 1, .result 2 1, [⟨4, 1⟩]⟩,
      ⟨.register 1, .result 3 0, [⟨4, 0⟩]⟩,
      ⟨.register 1, .result 4 0, [⟨5, 0⟩]⟩,
      ⟨.register 1, .result 4 1, [⟨6, 1⟩]⟩,
      ⟨.scalar .bool, .result 5 0, [⟨8, 0⟩]⟩,
      ⟨.register 1, .result 5 1, [⟨6, 0⟩]⟩,
      ⟨.register 2, .result 6 0, [⟨7, 0⟩]⟩] }

def succeeded : EStateM.Result Fault Program Lowered → Bool
  | .ok l _ => l.error.isNone
  | .error _ _ => false

theorem exists_of_succeeded {r : EStateM.Result Fault Program Lowered} (h : succeeded r = true) :
    ∃ l q, r = .ok l q ∧ l.error = none := by
  cases r with
  | ok l q => exact ⟨l, q, rfl, by simpa [succeeded] using h⟩
  | error e q => cases h

theorem lower_bell : ∃ l q, lower 0 bell = .ok l q ∧ l.error = none :=
  exists_of_succeeded (by decide +kernel)

theorem lower_refines_run_bell : ∃ l q, lower 0 bell = .ok l q ∧ l.error = none ∧
    ∃ (trace : List (OpId × List Event)) (m : Machine) (n : Naming) (new : OpId → List OpId),
      Machine.run bell (bell.preorder (fun _ => true) 0) {} = some (trace, m) ∧
      n.handles.Nodup ∧ n.handles.length = m.qubits ∧
      q.preorder (fun _ => true) 0 = (bell.preorder (fun _ => true) 0).flatMap
        (fun i => if isQuantum (bell.op i) then new i else [i]) := by
  obtain ⟨l, q, h, he⟩ := lower_bell
  obtain ⟨trace, m, n, new, hrun, hh, _, _, hwalk, _⟩ := lower_refines_run
    (.of_check (by decide)) (by decide) (by decide) (by decide +kernel) h he
  exact ⟨l, q, h, he, trace, m, n, new, hrun, hh.1, hh.2, hwalk⟩

end Offload.Qubits
