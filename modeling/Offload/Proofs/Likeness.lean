import Mathlib.Data.List.Forall2
import Offload.Proofs.Verified

/-!
# Operations that look alike

The check of an operation looks at its name, attributes and types, at the arguments and terminators of its blocks,
and at the operation around it. Two operations, in one program or in two, that agree in this are judged alike.
-/

namespace Offload

open Program List

variable {p q : Program} {i j : OpId} {b c : BlockId}

def ending (p : Program) (b : BlockId) : Option (String × Nat) :=
  (catalogue.terminator? p b).map fun k => ((p.op k).name, (p.op k).operands.length)

structure AlikeBlocks (p : Program) (b : BlockId) (q : Program) (c : BlockId) : Prop where
  args : q.argTypes c = p.argTypes b
  ending : ending q c = ending p b

/-- What is seen of an operation from inside. Only functions are looked at closely. -/
def AlikeAround (p : Program) (a : OpId) (q : Program) (d : OpId) : Prop :=
  (q.op d).name = (p.op a).name ∧ ((p.op a).name = Functions.funcName → (q.op d).attrs = (p.op a).attrs)

structure Alike (p : Program) (i : OpId) (q : Program) (j : OpId) : Prop where
  name : (q.op j).name = (p.op i).name
  attrs : (q.op j).attrs = (p.op i).attrs
  operands : (q.op j).operands.map q.slotType? = (p.op i).operands.map p.slotType?
  results : q.resultTypes j = p.resultTypes i
  regions : Forall₂ (Forall₂ fun b c => AlikeBlocks p b q c) (p.op i).regions (q.op j).regions
  parent : Option.Rel (fun a d => AlikeAround p a q d) (p.parent? i) (q.parent? j)

namespace Alike

variable (h : Alike p i q j)
include h

theorem attr? (name : String) : (q.op j).attr? name = (p.op i).attr? name := by
  rw [Op.attr?, Op.attr?, h.attrs]

theorem operandTypes : (q.op j).operands.filterMap q.slotType? = (p.op i).operands.filterMap p.slotType? := by
  have := congrArg (List.filterMap id) h.operands
  simpa [filterMap_map] using this

theorem operands_eq_nil : (q.op j).operands = [] ↔ (p.op i).operands = [] := by
  have := congrArg List.length h.operands
  simp only [length_map] at this
  rw [← length_eq_zero_iff, ← length_eq_zero_iff, this]

theorem results_eq_nil : (q.op j).results = [] ↔ (p.op i).results = [] := by
  have := congrArg List.length h.results
  simp only [resultTypes, length_map] at this
  rw [← length_eq_zero_iff, ← length_eq_zero_iff, this]

theorem firstBlock : ((p.op i).regions = [] ∧ (q.op j).regions = []) ∨
    (∃ l m, (p.op i).regions = [] :: l ∧ (q.op j).regions = [] :: m) ∨
    ∃ b bs l c cs m, (p.op i).regions = (b :: bs) :: l ∧ (q.op j).regions = (c :: cs) :: m ∧
      AlikeBlocks p b q c := by
  rcases hp : (p.op i).regions with _ | ⟨bs, l⟩
  · have := h.regions
    rw [hp, forall₂_nil_left_iff] at this
    exact .inl ⟨rfl, this⟩
  · have := h.regions
    rw [hp, forall₂_cons_left_iff] at this
    obtain ⟨cs, m, hbs, _, hq⟩ := this
    cases hbs with
    | nil => exact .inr (.inl ⟨l, m, rfl, hq⟩)
    | cons hbc _ => exact .inr (.inr ⟨_, _, l, _, _, m, rfl, hq, hbc⟩)

theorem around : (p.parent? i = none ∧ q.parent? j = none) ∨
    ∃ a d, p.parent? i = some a ∧ q.parent? j = some d ∧ AlikeAround p a q d := by
  have hrel := h.parent
  cases hp : p.parent? i with
  | none =>
    cases hq : q.parent? j with
    | none => exact .inl ⟨rfl, rfl⟩
    | some d =>
      rw [hp, hq] at hrel
      cases hrel
  | some a =>
    cases hq : q.parent? j with
    | none =>
      rw [hp, hq] at hrel
      cases hrel
    | some d =>
      rw [hp, hq] at hrel
      cases hrel with
      | some had => exact .inr ⟨a, d, rfl, rfl, had⟩

end Alike

/-! ## The ends of blocks -/

theorem ending_eq_some {name : String} {n : Nat} (ht : (catalogue.traits name).terminator = true) :
    ending p b = some (name, n) ↔ ∃ k, p.last? b = some k ∧ (p.op k).name = name ∧
      (p.op k).operands.length = n := by
  simp only [ending, Registry.terminator?, Option.map_eq_some_iff, Option.filter_eq_some_iff, Prod.mk.injEq,
    Registry.isTerminator]
  constructor
  · rintro ⟨k, ⟨hk, _⟩, hname, hlen⟩
    exact ⟨k, hk, hname, hlen⟩
  · rintro ⟨k, hk, hname, hlen⟩
    exact ⟨k, ⟨hk, by rw [hname]; exact ht⟩, hname, hlen⟩

theorem AlikeBlocks.last (h : AlikeBlocks p b q c) (name : String) (ht : (catalogue.traits name).terminator = true) :
    (∃ k l, p.last? b = some k ∧ q.last? c = some l ∧ (p.op k).name = name ∧ (q.op l).name = name ∧
      (q.op l).operands.length = (p.op k).operands.length) ∨
    (∀ k, p.last? b = some k → (p.op k).name ≠ name) ∧ ∀ l, q.last? c = some l →
      (q.op l).name ≠ name := by
  by_cases hp : ∃ k, p.last? b = some k ∧ (p.op k).name = name
  · obtain ⟨k, hk, hname⟩ := hp
    have := (ending_eq_some ht).mpr ⟨k, hk, hname, rfl⟩
    rw [← h.ending] at this
    obtain ⟨l, hl, hname', hlen⟩ := (ending_eq_some ht).mp this
    exact .inl ⟨k, l, hk, hl, hname, hname', hlen⟩
  · refine .inr ⟨fun k hk hname => hp ⟨k, hk, hname⟩, fun l hl hname => hp ?_⟩
    have := (ending_eq_some ht).mpr ⟨l, hl, hname, rfl⟩
    rw [h.ending] at this
    obtain ⟨k, hk, hname', _⟩ := (ending_eq_some ht).mp this
    exact ⟨k, hk, hname'⟩

/-! ## Every check -/

section
variable (h : Alike p i q j)
include h

namespace Functions

theorem checkModule_eq : checkModule q j = checkModule p i := by
  have hlen : ∀ p i, checkModule p i =
      if (p.op i).regions.map List.length = [1] then .ok () else .error .moduleBody := by
    intro p i
    rw [checkModule]
    split
    · rename_i hr
      simp [hr]
    · rename_i hr
      rw [if_neg]
      intro hl
      obtain ⟨bs, hbs, hone⟩ := map_eq_singleton_iff.mp hl
      obtain ⟨b, rfl⟩ := length_eq_one_iff.mp hone
      exact hr b hbs
  have hsame : ∀ {l m : List (List BlockId)}, Forall₂ (Forall₂ fun b c => AlikeBlocks p b q c) l m →
      m.map List.length = l.map List.length := by
    intro l m hlm
    induction hlm with
    | nil => rfl
    | cons hbs _ ih => rw [map_cons, map_cons, ih, hbs.length_eq]
  rw [hlen, hlen, hsame h.regions]

theorem checkFunc_eq : checkFunc q j = checkFunc p i := by
  have hsym : symbol (q.op j) = symbol (p.op i) := by rw [symbol, symbol, h.attr?]
  have hsig : signature? (q.op j) = signature? (p.op i) := by rw [signature?, signature?, h.attr?]
  rw [checkFunc, checkFunc]
  simp only [hsym, hsig]
  rcases h.firstBlock with ⟨hp, hq⟩ | ⟨_, _, hp, hq⟩ | ⟨b, _, _, c, _, _, hp, hq, hbc⟩
  · simp only [hp, hq]
  · simp only [hp, hq]
  · simp only [hp, hq, hbc.args]

theorem checkReturn_eq : checkReturn q j = checkReturn p i := by
  rw [checkReturn, checkReturn]
  rcases h.around with ⟨hp, hq⟩ | ⟨a, d, hp, hq, hname, hattrs⟩
  · rw [hp, hq]
    rfl
  · simp only [hp, hq, Option.map_some, hname]
    by_cases hf : (p.op a).name = funcName
    · have hsym : symbol (q.op d) = symbol (p.op a) := by rw [symbol, symbol, Op.attr?, Op.attr?, hattrs hf]
      have hsig : signature? (q.op d) = signature? (p.op a) := by
        rw [signature?, signature?, Op.attr?, Op.attr?, hattrs hf]
      rw [if_pos hf, if_pos hf, hsym, hsig, h.operandTypes]
    · rw [if_neg hf, if_neg hf]

theorem checks_eq : ∀ info ∈ registry, info.check q j = info.check p i := by
  simp only [registry, forall_mem_cons, not_mem_nil, false_imp_iff, implies_true,
    checkModule_eq h, checkFunc_eq h, checkReturn_eq h, and_self]

end Functions

namespace Arith

theorem checkConstant_eq : checkConstant q j = checkConstant p i := by
  rw [checkConstant, checkConstant, h.results, h.attr?]
  have hnil := h.operands_eq_nil
  cases hp : (p.op i).operands with
  | nil => rw [hnil.mpr hp]
  | cons s ss =>
    cases hq : (q.op j).operands with
    | nil => rw [hnil.mp hq] at hp; cases hp
    | cons s' ss' => rfl

theorem checkBinary_eq : checkBinary q j = checkBinary p i := by
  simp only [checkBinary, h.operandTypes, h.results, h.name]

theorem checks_eq : ∀ info ∈ registry, info.check q j = info.check p i := by
  simp only [registry, forall_mem_cons, forall_mem_map, checkConstant_eq h, checkBinary_eq h, implies_true,
    and_self]

end Arith

namespace Reduction

theorem checkReduce_eq : checkReduce q j = checkReduce p i := by
  simp only [checkReduce, h.operandTypes, h.results, h.attr?]
  rcases h.firstBlock with ⟨hp, hq⟩ | ⟨_, _, hp, hq⟩ | ⟨b, _, _, c, _, _, hp, hq, hbc⟩
  · simp only [hp, hq]
  · simp only [hp, hq, head?_nil]
  · have hargs : (q.block c).args.length = (p.block b).args.length := by
      simpa [argTypes] using congrArg List.length hbc.args
    simp only [hp, hq, head?_cons, hargs]
    rcases hbc.last yieldName (by decide) with ⟨k, l, hk, hl, hkn, hln, hlen⟩ | ⟨hk, hl⟩
    · simp only [hk, hl, Option.map_some, hkn, hln, hlen]
    · cases hpk : p.last? b with
      | none =>
        cases hql : q.last? c with
        | none => rfl
        | some l => simp only [Option.map_none, Option.map_some, hl l hql, false_and, if_false]
      | some k =>
        cases hql : q.last? c with
        | none => simp only [Option.map_none, Option.map_some, hk k hpk, false_and, if_false]
        | some l => simp only [Option.map_some, hk k hpk, hl l hql, false_and, if_false]

theorem checkYield_eq : checkYield q j = checkYield p i := by
  rw [checkYield, checkYield]
  rcases h.around with ⟨hp, hq⟩ | ⟨a, d, hp, hq, hname, _⟩
  · rw [hp, hq]
    rfl
  · simp only [hp, hq, Option.map_some, hname]

theorem checks_eq : ∀ info ∈ registry, info.check q j = info.check p i := by
  simp only [registry, forall_mem_cons, not_mem_nil, false_imp_iff, implies_true,
    checkReduce_eq h, checkYield_eq h, and_self]

end Reduction

namespace Views

theorem checks_eq : ∀ info ∈ registry, info.check q j = info.check p i := by
  simp only [registry, forall_mem_cons, not_mem_nil, false_imp_iff, implies_true, and_self, checkReshape, checkExpand,
    h.operandTypes, h.results]

end Views

namespace Workgroup

theorem operandTypes_eq : operandTypes q j = operandTypes p i := h.operandTypes

theorem checkLaunch_eq : checkLaunch q j = checkLaunch p i := by
  simp only [checkLaunch, operandTypes_eq h]
  rcases h.firstBlock with ⟨hp, hq⟩ | ⟨_, _, hp, hq⟩ | ⟨b, _, _, c, _, _, hp, hq, hbc⟩
  · simp only [hp, hq]
  · simp only [hp, hq, head?_nil]
  · simp only [hp, hq, head?_cons, hbc.args]
    rcases hbc.last terminatorName (by decide) with ⟨k, l, hk, hl, hkn, hln, hlen⟩ | ⟨hk, hl⟩
    · simp only [hk, hl, Option.map_some, hkn, hln]
    · cases hpk : p.last? b with
      | none =>
        cases hql : q.last? c with
        | none => rfl
        | some l => simp only [Option.map_none, Option.map_some, hl l hql, if_false]
      | some k =>
        cases hql : q.last? c with
        | none => simp only [Option.map_none, Option.map_some, hk k hpk, if_false]
        | some l => simp only [Option.map_some, hk k hpk, hl l hql, if_false]

theorem checks_eq : ∀ info ∈ registry, info.check q j = info.check p i := by
  simp only [registry, forall_mem_cons, not_mem_nil, false_imp_iff, implies_true, and_self, checkedBy, checkWorkgroup,
    checkAlloc, checkScatter, checkGather, checkLaunch_eq h, operandTypes_eq h, h.results, h.attr?]

end Workgroup

namespace Register

theorem operands_eq : operands q j = operands p i := h.operandTypes

theorem checks_eq : ∀ info ∈ registry, info.check q j = info.check p i := by
  simp only [registry, forall_mem_append, forall_mem_cons, forall_mem_map, not_mem_nil, false_imp_iff, implies_true,
    and_self, kind, checkAlloc, checkDealloc, checkSplit, checkMerge, checkGate, checkCnot, checkMeasure,
    operands_eq h, h.results, h.name, h.attr?]

end Register

namespace Handle

theorem operands_eq : operands q j = operands p i := h.operandTypes

theorem checks_eq : ∀ info ∈ registry, info.check q j = info.check p i := by
  simp only [registry, forall_mem_append, forall_mem_cons, forall_mem_map, not_mem_nil, false_imp_iff, implies_true,
    and_self, handleKind, checkAllocation, checkOperands, checkRead, operands_eq h, h.results, h.name, ne_eq,
    h.results_eq_nil]

end Handle

theorem checkKind_eq : q.checkKind catalogue j = p.checkKind catalogue i := by
  rw [checkKind, checkKind, h.name]
  cases hinfo : catalogue.info? (p.op i).name with
  | none => rfl
  | some info =>
    have hall : ∀ info ∈ catalogue, info.check q j = info.check p i := by
      simp only [catalogue, forall_mem_append]
      exact ⟨⟨⟨⟨⟨⟨Functions.checks_eq h, Arith.checks_eq h⟩, Reduction.checks_eq h⟩,
        Views.checks_eq h⟩, Workgroup.checks_eq h⟩, Register.checks_eq h⟩, Handle.checks_eq h⟩
    exact hall info (mem_of_find?_eq_some hinfo)

end

end Offload
