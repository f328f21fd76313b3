import Mathlib.Tactic.IntervalCases
import Offload.IR.Printer
import Offload.Proofs.Bookkeeping
import Offload.Proofs.Checking
import Offload.Proofs.Isomorphisms

/-!
# Copies print alike

Values are named in the order in which they are first seen, results and arguments apart. A copy shows its values
in the order of the original, so the printer gives them the same names.
-/

namespace Offload

open Program List

variable {n : Nat} {r : Registry} {root : OpId} {s : Slot} {v : ValueId}

namespace Naming

def rename (φ : ValueId → ValueId) (s : Naming) : Naming := { s with names := s.names.map fun x => (φ x.1, x.2) }

end Naming

namespace Program

section
variable {α β γ : Type} {P : ValueId → Prop} {φ : ValueId → ValueId}

def Echoes (P : ValueId → Prop) (φ : ValueId → ValueId) (f g : Printing α) : Prop :=
  ∀ s : Naming, (∀ x ∈ s.names, P x.1) →
    (∃ a t, f s = .ok (a, t) ∧ g (s.rename φ) = .ok (a, t.rename φ) ∧ ∀ x ∈ t.names, P x.1) ∨
    ∃ e, f s = .error e ∧ g (s.rename φ) = .error e

theorem Echoes.pure (a : α) : Echoes P φ (pure a) (pure a) := fun s hs => .inl ⟨a, s, rfl, rfl, hs⟩

theorem Echoes.lift (x : Except Fault α) : Echoes P φ (liftM x) (liftM x) := by
  intro s hs
  cases x with
  | ok a => exact .inl ⟨a, s, rfl, rfl, hs⟩
  | error e => exact .inr ⟨e, rfl, rfl⟩

theorem Echoes.bind {f g : Printing α} {f' g' : α → Printing β} (h : Echoes P φ f g)
    (h' : ∀ a, Echoes P φ (f' a) (g' a)) : Echoes P φ (f >>= f') (g >>= g') := by
  intro s hs
  rcases h s hs with ⟨a, t, hf, hg, ht⟩ | ⟨e, hf, hg⟩
  · have hfs : (f >>= f') s = f' a t := by simp [Bind.bind, StateT.bind, Except.bind, hf]
    have hgs : (g >>= g') (s.rename φ) = g' a (t.rename φ) := by simp [Bind.bind, StateT.bind, Except.bind, hg]
    rw [hfs, hgs]
    exact h' a t ht
  · exact .inr ⟨e, by simp [Bind.bind, StateT.bind, Except.bind, hf], by
      simp [Bind.bind, StateT.bind, Except.bind, hg]⟩

theorem Echoes.mapM {f : α → Printing γ} {g : β → Printing γ} {h : α → β} :
    ∀ {l : List α}, (∀ a ∈ l, Echoes P φ (f a) (g (h a))) → Echoes P φ (l.mapM f) ((l.map h).mapM g)
  | [], _ => by
    rw [map_nil, mapM_nil, mapM_nil]
    exact .pure []
  | a :: l, hl => by
    rw [map_cons, mapM_cons, mapM_cons]
    refine (hl a (mem_cons_self ..)).bind fun x => ?_
    exact (Echoes.mapM fun b hb => hl b (mem_cons_of_mem _ hb)).bind fun xs => .pure _

end

/-! ## One name -/

section
variable {p : Program} {v : ValueId} {s : Naming}

theorem nameOf_seen {name : String} (h : s.names.lookup v = some name) : p.nameOf v s = .ok (name, s) := by
  simp only [nameOf, Bind.bind, StateT.bind, Except.bind, MonadState.get, getThe, MonadStateOf.get, StateT.get, pure,
    Except.pure, h]
  rfl

theorem nameOf_argument {b : BlockId} (h : s.names.lookup v = none) (hs : (p.value v).source = .argument b n) :
    p.nameOf v s = .ok ("%arg" ++ toString s.args,
      { s with names := (v, "%arg" ++ toString s.args) :: s.names, args := s.args + 1 }) := by
  simp only [nameOf, Bind.bind, StateT.bind, Except.bind, MonadState.get, getThe, MonadStateOf.get, StateT.get, pure,
    Except.pure, h, hs]
  rfl

theorem nameOf_result {d : OpId} (h : s.names.lookup v = none) (hs : (p.value v).source = .result d n) :
    p.nameOf v s = .ok ("%" ++ toString s.results,
      { s with names := (v, "%" ++ toString s.results) :: s.names, results := s.results + 1 }) := by
  simp only [nameOf, Bind.bind, StateT.bind, Except.bind, MonadState.get, getThe, MonadStateOf.get, StateT.get, pure,
    Except.pure, h, hs]
  rfl

end

structure Renamed (p q : Program) (P : ValueId → Prop) (φ : ValueId → ValueId) : Prop where
  inj : ∀ v w, P v → P w → φ v = φ w → v = w
  type : ∀ v, P v → q.typeOf (φ v) = p.typeOf v
  kind : ∀ v, P v → (p.definingOp? v).isSome = (q.definingOp? (φ v)).isSome

namespace Renamed

variable {p q : Program} {P : ValueId → Prop} {φ : ValueId → ValueId} (h : Renamed p q P φ)
include h

theorem lookup_rename (hv : P v) : ∀ {l : List (ValueId × String)}, (∀ x ∈ l, P x.1) →
    (l.map fun x => (φ x.1, x.2)).lookup (φ v) = l.lookup v
  | [], _ => rfl
  | (w, n) :: l, hl => by
    have ih := lookup_rename hv fun x hx => hl x (mem_cons_of_mem _ hx)
    rw [map_cons, lookup_cons, lookup_cons, ih]
    by_cases hvw : v = w
    · simp [hvw]
    · have hne : φ v ≠ φ w := fun heq => hvw (h.inj v w hv (hl (w, n) (mem_cons_self ..)) heq)
      simp [beq_eq_false_iff_ne.mpr hvw, beq_eq_false_iff_ne.mpr hne]

theorem nameOf (hv : P v) : Echoes P φ (p.nameOf v) (q.nameOf (φ v)) := by
  intro s hs
  have hlook := h.lookup_rename hv hs
  have hkind := h.kind v hv
  cases hname : s.names.lookup v with
  | some name => exact .inl ⟨name, s, nameOf_seen hname, nameOf_seen (hlook.trans hname), hs⟩
  | none =>
    refine .inl ?_
    unfold definingOp? at hkind
    cases hp : (p.value v).source with
    | argument b n =>
      obtain ⟨c, l, hq⟩ : ∃ c l, (q.value (φ v)).source = .argument c l := by
        cases hq : (q.value (φ v)).source with
        | argument c l => exact ⟨c, l, rfl⟩
        | result d l => simp [hp, hq] at hkind
      exact ⟨_, _, nameOf_argument hname hp, nameOf_argument (hlook.trans hname) hq,
        forall_mem_cons.mpr ⟨hv, hs⟩⟩
    | result d n =>
      obtain ⟨e, l, hq⟩ : ∃ e l, (q.value (φ v)).source = .result e l := by
        cases hq : (q.value (φ v)).source with
        | argument c l => simp [hp, hq] at hkind
        | result e l => exact ⟨e, l, rfl⟩
      exact ⟨_, _, nameOf_result hname hp, nameOf_result (hlook.trans hname) hq, forall_mem_cons.mpr ⟨hv, hs⟩⟩

theorem nameOfSlot (hs : ∀ v, s = some v → P v) :
    Echoes P φ (p.nameOfSlot s) (q.nameOfSlot (s.map φ)) := by
  cases s with
  | none => exact .pure _
  | some v => exact h.nameOf (hs v rfl)

theorem typeTextOfSlot (hs : ∀ v, s = some v → P v) : q.typeTextOfSlot (s.map φ) = p.typeTextOfSlot s := by
  cases s with
  | none => rfl
  | some v =>
    have ht : q.slotType? ((some v).map φ) = p.slotType? (some v) := congrArg some (h.type v (hs v rfl))
    rw [Program.typeTextOfSlot, Program.typeTextOfSlot, ht]

theorem printHead {o o' : Op} (hname : o'.name = o.name) (hattrs : o'.attrs = o.attrs)
    (hops : o'.operands = o.operands.map (Option.map φ)) (hres : o'.results = o.results.map φ)
    (hv : ∀ v, some v ∈ o.operands → P v) (hr : ∀ v ∈ o.results, P v) :
    Echoes P φ (p.printHead o) (q.printHead o') := by
  unfold Program.printHead
  rw [hname, hattrs, hops, hres]
  refine Echoes.bind (.mapM fun v hv => h.nameOf (hr v hv)) fun results => ?_
  refine Echoes.bind (.mapM fun s hs => h.nameOfSlot fun v hsv => hv v (hsv ▸ hs)) fun operands => ?_
  refine Echoes.bind (.mapM fun s hs => ?_) fun operandTypes => ?_
  · rw [h.typeTextOfSlot fun v hsv => hv v (hsv ▸ hs)]
    exact .lift _
  refine Echoes.bind (.mapM fun v hvr => ?_) fun resultTypes => .pure _
  rw [h.type v (hr v hvr)]
  exact .lift _

theorem printLabel {b b' : Block} (hargs : b'.args = b.args.map φ) (hv : ∀ v ∈ b.args, P v) (index : Nat) :
    Echoes P φ (p.printLabel index b) (q.printLabel index b') := by
  unfold Program.printLabel
  rw [hargs]
  refine Echoes.bind (.mapM fun v hvb => (h.nameOf (hv v hvb)).bind fun name => ?_) fun args => .pure _
  rw [h.type v (hv v hvb)]
  exact .pure _

end Renamed

end Program

/-! ## The whole text -/

namespace IsCopy

variable {p q : Program} {i k : OpId} {m : Substitution} {onOp : OpId → OpId} {onBlock : BlockId → BlockId}
  {onValue : ValueId → ValueId} (h : IsCopy p i m q k onOp onBlock onValue) (wf : p.WellFormed)
include h wf

theorem renamed (hm : m.values = []) : Renamed p q p.HasValue onValue := by
  have hout : ∀ v, ¬ p.Defines i v → onValue v = v := fun v hv => by
    rw [h.outside v hv, Substitution.apply, Substitution.value?, hm]
    rfl
  refine ⟨fun v w hv hw heq => ?_, fun v hv => ?_, fun v hv => ?_⟩
  · by_cases hvi : p.Defines i v <;> by_cases hwi : p.Defines i w
    · exact h.valueInj v w hvi hwi heq
    · exact absurd (by rwa [heq, hout w hwi]) (h.value v hvi).2.1
    · exact absurd (by rwa [← heq, hout v hvi]) (h.value w hwi).2.1
    · rwa [hout v hvi, hout w hwi] at heq
  · by_cases hvi : p.Defines i v
    · exact (h.value v hvi).2.2
    · rw [hout v hvi]
      exact h.original.typeOf hv
  · by_cases hvi : p.Defines i v
    · have hw := hvi.2
      unfold definingOp?
      cases hs : (p.value v).source with
      | result d n =>
        simp only [anchorOf, hs] at hw
        have hres : (q.op (onOp d)).results[n]? = some (onValue v) := by
          rw [(h.op d hw).2.2, getElem?_map, (wf.result d n v).mpr ⟨hv, hs⟩, Option.map_some]
        rw [((h.wellFormed.result _ _ _).mp hres).2]
        rfl
      | argument b n =>
        simp only [anchorOf, hs] at hw
        have hmem := (wf.argument b n v).mpr ⟨hv, hs⟩
        have harg : (q.block (onBlock b)).args[n]? = some (onValue v) := by
          rw [(h.block b (hasBlock_of_arg hmem) hw).2.2, getElem?_map, hmem, Option.map_some]
        rw [((h.wellFormed.argument _ _ _).mp harg).2]
    · rw [hout v hvi, definingOp?, definingOp?, (h.original.value v hv).2]

theorem printFrom (hr : Renamed p q p.HasValue onValue) :
    ∀ l x, p.Within i x → p.ops.size ≤ l + (p.enclosing x).length → ∀ n n' level, l < n → l < n' →
      Echoes p.HasValue onValue (p.printFrom n level x) (q.printFrom n' level (onOp x))
  | l, x, hx, hl, n + 1, n' + 1, level, hn, hn' => by
    rw [Program.printFrom, Program.printFrom, (h.op x hx).2.2]
    refine Echoes.bind (hr.printHead rfl rfl rfl rfl (fun v hv => wf.hasValue_operand hv) fun v hv =>
      wf.hasValue_result hv) fun head => Echoes.bind (.mapM fun bs hbs => ?_) fun regions => .pure _
    rw [zipIdx_map]
    refine Echoes.bind (.mapM ?_) fun texts => .pure _
    rintro ⟨b, index⟩ hb
    obtain ⟨hB, hw⟩ := member wf hx hbs (fst_mem_of_mem_zipIdx hb)
    simp only [Prod.map, id]
    rw [(h.block b hB hw).2.2]
    refine Echoes.bind (hr.printLabel rfl (fun v hv => wf.hasValue_argument hv) index) fun label =>
      Echoes.bind (.mapM fun y hy => ?_) fun ops => .pure _
    have hp : p.parent? y = some x :=
      (Cloning.parent_of_mem wf hy).trans (congrArg some (wf.owner_of_mem hbs (fst_mem_of_mem_zipIdx hb)).2)
    have hle := wf.length_enclosing_of_parent hp
    obtain ⟨l, rfl⟩ : ∃ l', l = l' + 1 := ⟨l - 1, by omega⟩
    exact printFrom hr l y (.trans hx (.single hp)) (by omega) n n' (level + 1) (by omega) (by omega)

theorem print_eq (hi : p.HasOp i) (hm : m.values = []) : q.print k = p.print i := by
  have hlen := wf.enclosingFrom_length_le (p.ops.size + 1) hi
  have hfuel := h.original.ops
  have hecho := h.printFrom wf (h.renamed wf hm) p.ops.size i .refl (by omega) (p.ops.size + 1)
    (q.ops.size + 1) 0 (by omega)
    (by omega)
  rw [Program.print, Program.print, ← h.top]
  show (q.printFrom _ _ _ (Naming.rename onValue {})).map Prod.fst = (p.printFrom _ _ _ {}).map Prod.fst
  rcases hecho {} (by simp) with ⟨text, s, hp, hq, -⟩ | ⟨e, hp, hq⟩
  · rw [hp, hq]
    rfl
  · rw [hp, hq]

end IsCopy

/-! ## Copying an operation -/

namespace Edit

variable {p : Program} {i : OpId} {m : Substitution}

theorem cloning_start (wf : p.WellFormed) (hi : p.HasOp i) (hm : ∀ x ∈ m.values, p.HasValue x.2)
    (hfresh : ∀ v, p.Defines i v → m.value? v = none)
    (hsees : ∀ x, p.Within i x → ∀ s ∈ (p.op x).operands, ∃ v, s = some v ∧
      (p.Defines i v → p.visible r root x v = .ok ())) :
    Cloning.Copyable r root p (fun _ => False) ⟨p.Defines i, m.apply⟩ i ∧
      Cloning.Ready r root p ⟨p.Defines i, m.apply⟩ i m ∧
      Cloning.Copying p (fun _ => False) ⟨p.Defines i, m.apply⟩ m p := by
  refine ⟨⟨hi, fun _ _ h => h, fun _ h => h, fun x hx s hs => ?_⟩, ⟨fun v _ hin hvis => ?_, hfresh⟩, ?_⟩
  · obtain ⟨v, rfl, hv⟩ := hsees x hx s hs
    exact ⟨v, rfl, fun hin => wf.visible_ok.mp (hv hin)⟩
  · exact absurd hin.2 (wf.not_defines_of_visible hvis)
  · refine ⟨wf, .refl _ _ _, fun _ _ => rfl, fun v _ hv => ?_, fun v w hin hv => ?_,
      fun v v' w hin _ hv _ => ?_, .refl _ _⟩
    · exact (Cloning.images_of_values hm).apply hv
    · simp [hfresh v hin] at hv
    · simp [hfresh v hin] at hv

/-- An operation whose operands are visible has a copy: a detached operation with the same tree of regions and blocks
and the same names, locations, attributes and types. A slot of the copy holds the copy of what the slot of the original
holds if that is defined inside, and otherwise what the substitution makes of it. Without a substitution the copy
prints to the same text. -/
theorem clone_isomorphic (wf : p.WellFormed) (hi : p.HasOp i)
    (hm : ∀ x ∈ m.values, p.HasValue x.2) (hfresh : ∀ v, p.Defines i v → m.value? v = none)
    (hsees : ∀ x, p.Within i x → ∀ s ∈ (p.op x).operands, ∃ v, s = some v ∧
      (p.Defines i v → p.visible r root x v = .ok ()))
    (hmake : p.Remakable i) (hloc : ∀ x, p.Within i x → (p.op x).loc ≠ "") :
    ∃ k m' q onOp onBlock, clone i m p = .ok (k, m') q ∧ (q.op k).block = none ∧
      IsCopy p i m q k onOp onBlock m'.apply ∧ (m.values = [] → q.print k = p.print i) := by
  obtain ⟨hc, hr, hcopying⟩ := cloning_start wf hi hm hfresh hsees
  have hmakes := Cloning.cloneFrom_makes wf (p.ops.size + 1) i
    (fun _ : True => ⟨hmake, by omega⟩) m p hc hr hcopying
  obtain ⟨⟨k, m'⟩, q, hrun⟩ := hmakes.runs trivial
  have hcloned := hmakes.ok (k, m') q hrun
  obtain ⟨onOp, onBlock, hcopy⟩ := hcloned.isCopy wf hloc
  refine ⟨k, m', q, onOp, onBlock, ?_, hcloned.detached, hcopy, hcopy.print_eq wf hi⟩
  simp only [clone, bind_ok, get_ok]
  exact ⟨p, p, ⟨rfl, rfl⟩, hrun⟩

/-- An operation with two blocks and a nested region, where an argument, a result and a value from outside are used. -/
def twoBlocks : Program where
  ops := #[
    { name := "t.module", loc := "a", regions := [[0]] },
    { name := "t.given", loc := "b", results := [0, 1], block := some 0 },
    { name := "t.box", loc := "c", operands := [some 0], results := [2], regions := [[1, 2]], block := some 0 },
    { name := "t.local", loc := "d", operands := [some 0], results := [3], block := some 1 },
    { name := "t.inner", loc := "e", regions := [[3]], block := some 1 },
    { name := "t.use", loc := "f", operands := [some 3, some 0, some 4], block := some 3 }]
  blocks := #[
    { owner := 0, ops := [1, 2] },
    { owner := 2, args := [4], ops := [3, 4] },
    { owner := 2, args := [5] },
    { owner := 4, ops := [5] }]
  values := #[
    ⟨.index, .result 1 0, [⟨2, 0⟩, ⟨3, 0⟩, ⟨5, 1⟩]⟩,
    { type := .index, source := .result 1 1 },
    { type := .index, source := .result 2 0 },
    ⟨.index, .result 3 0, [⟨5, 0⟩]⟩,
    ⟨.index, .argument 1 0, [⟨5, 2⟩]⟩,
    { type := .index, source := .argument 2 0 }]

theorem twoBlocks_remakable : twoBlocks.Remakable 2 := by
  refine Creatable.remakable ⟨?_, ?_, ?_⟩ (by decide)
  · rintro ⟨j⟩ hj
    have hj : j < 6 := hj
    interval_cases j <;> decide
  · rintro ⟨j⟩ hj
    have hj : j < 6 := hj
    interval_cases j <;> exact if_pos ⟨by decide, by decide⟩
  · rintro ⟨v⟩ hv
    have hv : v < 6 := hv
    interval_cases v <;> exact fun h => nomatch h

theorem clone_isomorphic_twoBlocks :
    (∃ k m' q onOp onBlock, clone 2 { values := [(0, 1)] } twoBlocks = .ok (k, m') q ∧ (q.op k).block = none ∧
      IsCopy twoBlocks 2 { values := [(0, 1)] } q k onOp onBlock m'.apply) ∧
    ∃ k m' q, clone 2 {} twoBlocks = .ok (k, m') q ∧ q.print k = twoBlocks.print 2 := by
  have wf : twoBlocks.WellFormed := .of_check (by decide)
  have hverified : twoBlocks.verify [] 0 = .ok () := by decide
  have hin : twoBlocks.Within 0 2 := wf.mem_enclosing.mp (by decide)
  have hsees : ∀ x, twoBlocks.Within 2 x → ∀ s ∈ (twoBlocks.op x).operands, ∃ v, s = some v ∧
      (twoBlocks.Defines 2 v → twoBlocks.visible [] 0 x v = .ok ()) := by
    intro x hx s hs
    have hop := verifyOp_ok.mp (verify_ok.mp hverified x (wf.mem_nested.mpr (hin.trans hx)))
    obtain ⟨v, rfl, hv⟩ := hop.1 s hs
    exact ⟨v, rfl, fun _ => hv⟩
  have hloc : ∀ x, twoBlocks.Within 2 x → (twoBlocks.op x).loc ≠ "" := by
    rintro ⟨j⟩ hx
    have hj : j < 6 := hx.hasOp (by decide)
    interval_cases j <;> decide
  have hfresh : ∀ v, twoBlocks.Defines 2 v → ({ values := [(0, 1)] } : Substitution).value? v = none := by
    intro v hv
    have hne : v ≠ 0 := by
      rintro rfl
      exact absurd (wf.mem_enclosing.mpr hv.2) (by decide)
    simp [Substitution.value?, lookup_cons, beq_eq_false_iff_ne.mpr hne]
  constructor
  · obtain ⟨k, m', q, onOp, onBlock, hrun, hd, hcopy, -⟩ :=
      clone_isomorphic wf (by decide) (by decide) hfresh hsees
      twoBlocks_remakable hloc
    exact ⟨k, m', q, onOp, onBlock, hrun, hd, hcopy⟩
  · obtain ⟨k, m', q, -, -, hrun, -, -, hprint⟩ := clone_isomorphic (m := {}) wf (by decide) (by decide)
      (fun _ _ => rfl) hsees twoBlocks_remakable hloc
    exact ⟨k, m', q, hrun, hprint rfl⟩

def untyped : Program where
  ops := #[{ name := "t.box", loc := "a", regions := [[0]] }]
  blocks := #[{ owner := 0, args := [0] }]
  values := #[{ type := .absent, source := .argument 0 0 }]

/-- The operation is accepted and uses nothing, but no block argument can be made for its copy. -/
theorem clone_untyped_fails : untyped.WellFormed ∧ untyped.HasOp 0 ∧ untyped.verify [] 0 = .ok () ∧
    (∀ x, untyped.Within 0 x → (untyped.op x).operands = []) ∧
      ∃ q, clone 0 {} untyped = .error .emptyArgument q := by
  have wf : untyped.WellFormed := .of_check (by decide)
  refine ⟨wf, by decide, by decide, ?_, _, rfl⟩
  rintro ⟨j⟩ hx
  have hj : j < 1 := hx.hasOp (by decide)
  interval_cases j
  rfl

end Edit

end Offload
