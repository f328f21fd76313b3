import Offload.Proofs.WellFormed

/-!
# New operations

A new operation takes the next number and its results the next values; the values it uses gain its slots
as uses, and nothing else changes. A well-formed program stays so.
-/

namespace Offload

open Program List

variable {k n : Nat} {name : String} {s : Spec} {ts : List Ty} {v : ValueId}
variable {p q : Program} {i : OpId}

/-- The lists still agree if a number that was free is given to an operation, and the values it holds know. -/
theorem Program.Consistent.withNew (hp : p.Consistent) (hi : p.op i = default)
    (huses : ∀ v u, (q.value v).uses.count u = (p.value v).uses.count u +
      if u.op = i ∧ (q.op i).operands[u.index]? = some (some v) then 1 else 0)
    (hother : ∀ j, j ≠ i → (q.op j).operands = (p.op j).operands ∧ (q.op j).block = (p.op j).block)
    (hself : (q.op i).block = none) (hblock : ∀ b, q.block b = p.block b) : q.Consistent := by
  constructor
  · intro v u
    rw [huses, hp.uses]
    by_cases hu : u.op = i
    · simp [hu, hi]
    · simp [hu, (hother _ hu).1]
  · intro j b
    rw [hblock, ← hp.listed]
    by_cases hj : j = i
    · rw [hj, hself, hi]
      simp
    · rw [(hother j hj).2]
  · intro b
    rw [hblock]
    exact hp.once b

namespace Edit

@[simp] theorem connect_ok {u : Use} {a : Unit} :
    connect u v p = .ok a q ↔
      q = (p.withOp u.op fun o => { o with operands := o.operands.set u.index (some v) }).withValue v
        fun x => { x with uses := x.uses ++ [u] } := by
  simp [connect, fill, addUse]

structure Connected (i : OpId) (k : Nat) (ss : List Slot) (p q : Program) : Prop where
  ops : q.ops.size = p.ops.size
  blocks : q.blocks = p.blocks
  values : q.values.size = p.values.size
  other : ∀ j, j ≠ i → q.op j = p.op j
  self : ∃ l, q.op i = { p.op i with operands := l } ∧
    ∀ n, l[n]? = if k ≤ n ∧ n < (p.op i).operands.length ∧ n < k + ss.length then ss[n - k]?
      else (p.op i).operands[n]?
  value : ∀ v, (q.value v).type = (p.value v).type ∧ (q.value v).source = (p.value v).source
  uses : ∀ v u, (q.value v).uses.count u = (p.value v).uses.count u +
    if u.op = i ∧ k ≤ u.index ∧ ss[u.index - k]? = some (some v) then 1 else 0

theorem Connected.nil (k : Nat) : Connected i k [] p p where
  ops := rfl
  blocks := rfl
  values := rfl
  other _ _ := rfl
  self := ⟨_, rfl, fun n => (if_neg fun h => by simp only [length_nil] at h; omega).symm⟩
  value _ := ⟨rfl, rfl⟩
  uses v u := by simp

theorem Connected.cons {m : Program} {ss : List Slot} (hi : p.HasOp i)
    (hv : p.HasValue v) (hm : connect ⟨i, k⟩ v p = .ok () m) (h : Connected i (k + 1) ss m q) :
    Connected i k (some v :: ss) p q := by
  rw [connect_ok] at hm
  have mop : m.op i = { p.op i with operands := (p.op i).operands.set k (some v) } := by
    rw [hm, op_withValue, op_withOp, if_pos ⟨rfl, hi⟩]
  have mother : ∀ j, j ≠ i → m.op j = p.op j := by
    intro j hj
    rw [hm, op_withValue, op_withOp, if_neg fun h => hj h.1]
  have mvalue : ∀ w, m.value w = if w = v then { p.value w with uses := (p.value w).uses ++ [⟨i, k⟩] }
      else p.value w := by
    intro w
    rw [hm, value_withValue, value_withOp]
    by_cases hw : w = v
    · subst hw; simp [show p.HasValue w from hv]
    · simp [hw]
  obtain ⟨l, hl, hl'⟩ := h.self
  rw [mop] at hl hl'
  refine ⟨?_, ?_, ?_, ?_, ⟨l, hl, ?_⟩, ?_, ?_⟩
  · rw [h.ops, hm]; simp [withOp, withValue]
  · rw [h.blocks, hm]; rfl
  · rw [h.values, hm]; simp [withOp, withValue]
  · intro j hj
    rw [h.other j hj, mother j hj]
  · intro n
    rw [hl' n]
    simp only [length_set, length_cons, getElem?_set]
    by_cases hn : n = k
    · subst hn
      rw [if_neg (by omega)]
      by_cases hlen : n < (p.op i).operands.length
      · simp [hlen]
      · simp [hlen]
    · rw [if_neg (show ¬ k = n by omega)]
      rcases Nat.lt_or_ge n k with h1 | h1
      · rw [if_neg (by omega), if_neg (by omega)]
      · rw [show n - k = n - (k + 1) + 1 by omega, getElem?_cons_succ]
        by_cases hc : k + 1 ≤ n ∧ n < (p.op i).operands.length ∧ n < k + 1 + ss.length
        · rw [if_pos hc, if_pos (by omega)]
        · rw [if_neg hc, if_neg (by omega)]
  · intro w
    have hw := h.value w
    rw [mvalue] at hw
    split at hw <;> exact hw
  · intro w u
    rw [h.uses, mvalue]
    have later : k + 1 ≤ u.index → (some v :: ss)[u.index - k]? = ss[u.index - (k + 1)]? := by
      intro h1
      rw [show u.index - k = u.index - (k + 1) + 1 by omega, getElem?_cons_succ]
    by_cases hwv : w = v
    · subst hwv
      simp only [if_true, count_append, count_singleton]
      by_cases hu : u = ⟨i, k⟩
      · subst hu
        simp [show ¬ k + 1 ≤ k by omega]
      · have hb : ((⟨i, k⟩ : Use) == u) = false := by simpa using Ne.symm hu
        rw [hb]
        by_cases hop : u.op = i
        · have hk : u.index ≠ k := fun h => hu (by cases u; simp_all)
          by_cases h1 : k + 1 ≤ u.index
          · simp [hop, h1, later h1, show k ≤ u.index by omega]
          · simp [h1, show ¬ k ≤ u.index by omega]
        · simp [hop]
    · simp only [hwv, if_false]
      by_cases h1 : k + 1 ≤ u.index
      · simp [h1, later h1, show k ≤ u.index by omega]
      · by_cases h2 : u.index = k
        · simp [h2, show ¬ k + 1 ≤ k by omega, Ne.symm hwv]
        · simp [h1, show ¬ k ≤ u.index by omega]

theorem connectAll_ok : ∀ (ss : List Slot) (k : Nat) {p q : Program},
    p.HasOp i → (∀ v, some v ∈ ss → p.HasValue v) → connectAll i name k ss p = .ok () q →
      none ∉ ss ∧ Connected i k ss p q
  | [], k, p, q, _, _, h => by
    simp only [connectAll, pure_ok] at h
    exact ⟨by simp, h.2 ▸ .nil k⟩
  | none :: ss, k, p, q, _, _, h => by
    simp [connectAll] at h
  | some v :: ss, k, p, q, hi, hv, h => by
    simp only [connectAll, bind_ok] at h
    obtain ⟨_, m, hm, h⟩ := h
    have hm' := connect_ok.mp hm
    obtain ⟨hn, hc⟩ := connectAll_ok ss (k + 1) (p := m)
      (by subst hm'; simpa using hi)
      (fun w hw => by subst hm'; simpa using hv w (mem_cons_of_mem _ hw)) h
    exact ⟨by simpa using hn, hc.cons hi (hv v (mem_cons_self ..)) hm⟩

def freshValues (p : Program) (n : Nat) : List ValueId := (List.range n).map fun k => ⟨p.values.size + k⟩

@[simp] theorem length_freshValues (p : Program) (n : Nat) : (freshValues p n).length = n := by
  simp [freshValues]

theorem getElem?_freshValues :
    (freshValues p n)[k]? = some v ↔ k < n ∧ v = ⟨p.values.size + k⟩ := by
  simp only [freshValues, getElem?_map, Option.map_eq_some_iff]
  constructor
  · rintro ⟨m, hm, rfl⟩
    obtain ⟨hk, rfl⟩ := List.getElem?_eq_some_iff.mp hm
    simp only [length_range] at hk
    exact ⟨hk, by simp⟩
  · rintro ⟨hk, rfl⟩
    exact ⟨k, by simp [hk], rfl⟩

theorem freshValues_snoc (p : Program) (n : Nat) :
    freshValues p (n + 1) = freshValues p n ++ [⟨p.values.size + n⟩] := by
  simp [freshValues, range_succ]

theorem freshValues_succ (n : Nat) (x : Value) :
    freshValues p (n + 1) = ⟨p.values.size⟩ :: freshValues (p.addValue x) n := by
  simp only [freshValues, range_succ_eq_map, map_cons, map_map, Nat.add_zero, List.cons.injEq,
    true_and]
  refine map_congr_left fun k _ => ?_
  simp only [Function.comp, addValue, Array.size_push, Nat.succ_eq_add_one]
  congr 1
  omega

structure Resulted (i : OpId) (k : Nat) (ts : List Ty) (p q : Program) : Prop where
  ops : q.ops = p.ops
  blocks : q.blocks = p.blocks
  values : q.values.size = p.values.size + ts.length
  old : ∀ v, p.HasValue v → q.value v = p.value v
  new : ∀ n t, ts[n]? = some t → q.value ⟨p.values.size + n⟩ = ⟨t, .result i (k + n), []⟩

theorem Resulted.uses (h : Resulted i k ts p q) (v : ValueId) :
    (q.value v).uses = (p.value v).uses := by
  by_cases hp : p.HasValue v
  · rw [h.old v hp]
  · rw [value_of_not_hasValue hp]
    by_cases hq : q.HasValue v
    · obtain ⟨n, hn⟩ : ∃ n, v.index = p.values.size + n :=
        ⟨v.index - p.values.size, by rw [HasValue] at hp; omega⟩
      have hlt : n < ts.length := by rw [HasValue, h.values] at hq; omega
      obtain rfl : v = ⟨p.values.size + n⟩ := by cases v; simp_all
      rw [h.new n _ (getElem?_eq_getElem hlt)]
      rfl
    · rw [value_of_not_hasValue hq]

theorem present?_eq_some {t u : Ty} : t.present? = some u ↔ t = u ∧ u ≠ .absent := by
  cases t <;> simp only [Ty.present?] <;> constructor
  all_goals first
    | rintro h; obtain rfl := Option.some.inj h; simp
    | rintro ⟨rfl, h⟩; first | rfl | exact absurd rfl h
    | intro h; cases h

theorem newResults_ok : ∀ (rs : List (Option Ty)) (k : Nat) {p q : Program} {vs : List ValueId},
    newResults i name k rs p = .ok vs q →
      ∃ ts, rs = ts.map some ∧ .absent ∉ ts ∧ vs = freshValues p ts.length ∧ Resulted i k ts p q
  | [], k, p, q, vs, h => by
    simp only [newResults, pure_ok] at h
    obtain ⟨rfl, rfl⟩ := h
    exact ⟨[], rfl, by simp, rfl, rfl, rfl, rfl, fun _ _ => rfl, by simp⟩
  | r :: rs, k, p, q, vs, h => by
    simp only [newResults] at h
    cases ht : r.bind Ty.present? with
    | none => simp [ht] at h
    | some t =>
      simp only [ht, bind_ok, pushValue_ok, pure_ok] at h
      obtain ⟨v, m, ⟨rfl, rfl⟩, ws, m', h, rfl, rfl⟩ := h
      obtain ⟨ts, rfl, habs, rfl, hr⟩ := newResults_ok rs (k + 1) h
      obtain ⟨r, rfl, hr'⟩ := Option.bind_eq_some_iff.mp ht
      obtain ⟨rfl, hne⟩ := present?_eq_some.mp hr'
      refine ⟨r :: ts, rfl, by simp [habs, Ne.symm hne], (freshValues_succ ts.length _).symm, hr.ops, hr.blocks,
        ?_, ?_, ?_⟩
      · rw [hr.values]
        simp only [addValue, Array.size_push, length_cons]
        omega
      · intro v hv
        rw [hr.old v ((hasValue_addValue ..).mpr (.inl hv)), value_addValue, if_neg]
        rintro rfl
        exact absurd hv (Nat.lt_irrefl _)
      · intro n t hn
        cases n with
        | zero =>
          simp only [getElem?_cons_zero, Option.some.injEq] at hn
          subst hn
          rw [Nat.add_zero, hr.old _ ((hasValue_addValue ..).mpr (.inr rfl)), value_addValue, if_pos rfl]
          rfl
        | succ n =>
          rw [getElem?_cons_succ] at hn
          have := hr.new n t hn
          simp only [addValue, Array.size_push] at this
          rw [show p.values.size + (n + 1) = p.values.size + 1 + n by omega, this]
          congr 2
          omega

theorem eq_of_checkLength (h : checkLength n = .ok k) : k = n := by
  unfold checkLength at h
  split at h
  · simpa [eq_comm] using h
  · cases h

theorem checkLength_self {n : Int} (h : checkLength n = .ok k) : checkLength k = .ok k := by
  unfold checkLength at h ⊢
  split at h
  · rename_i hn
    cases h
    rw [Int.toNat_of_nonneg hn.1, if_pos hn]
  · cases h

structure NewOp (s : Spec) (ts : List Ty) (n : Nat) (p : Program) (i : OpId) (q : Program) : Prop where
  id : i = ⟨p.ops.size⟩
  ops : q.ops.size = p.ops.size + 1
  blocks : q.blocks = p.blocks
  values : q.values.size = p.values.size + ts.length
  self : q.op i = {
    name := s.name
    loc := if s.loc.isEmpty then "unknown" else s.loc
    operands := s.operands
    results := freshValues p ts.length
    attrs := s.attrs
    regions := List.replicate n [] }
  other : ∀ j, j ≠ i → q.op j = p.op j
  old : ∀ v, p.HasValue v → (q.value v).type = (p.value v).type ∧ (q.value v).source = (p.value v).source
  new : ∀ k t, ts[k]? = some t →
    (q.value ⟨p.values.size + k⟩).type = t ∧ (q.value ⟨p.values.size + k⟩).source = .result i k
  uses : ∀ v u, (q.value v).uses.count u = (p.value v).uses.count u +
    if u.op = i ∧ s.operands[u.index]? = some (some v) then 1 else 0
  named : s.name.toList.contains '.' = true
  present : .absent ∉ ts
  room : checkLength n = .ok n

theorem newOp_ok (hv : ∀ v, some v ∈ s.operands → p.HasValue v) (h : newOp s p = .ok i q) :
    ∃ ts n, s.results = ts.map some ∧ .absent ∉ ts ∧ none ∉ s.operands ∧ checkLength s.regions = .ok n ∧
      NewOp s ts n p i q := by
  rw [newOp] at h
  by_cases hdot : s.name.toList.contains '.' = true
  · simp only [hdot, if_true] at h
    simp only [bind_ok, pushOp_ok, modifyOp_ok] at h
    obtain ⟨_, _, ⟨rfl, rfl⟩, _, p2, h2, vs, p3, h3, _, p4, rfl, h⟩ := h
    -- the new operation is there from the first step on, with as many empty slots as operands
    set o : Op := { name := s.name, loc := if s.loc.isEmpty then "unknown" else s.loc,
                    operands := s.operands.map fun _ => none, attrs := s.attrs } with ho
    have hself : (p.addOp o).op ⟨p.ops.size⟩ = o := by rw [op_addOp, if_pos rfl]
    obtain ⟨hnone, hc⟩ := connectAll_ok s.operands 0 (p := p.addOp o)
      ((hasOp_addOp ..).mpr (.inr rfl)) (fun v hm => by simpa using hv v hm) h2
    obtain ⟨ts, hts, habs, rfl, hr⟩ := newResults_ok s.results 0 h3
    cases hn : checkLength s.regions with
    | error e => simp [hn] at h
    | ok n =>
      simp only [hn, bind_ok, modifyOp_ok, pure_ok] at h
      obtain ⟨_, p5, rfl, rfl, rfl⟩ := h
      refine ⟨ts, n, hts, habs, hnone, rfl, ?_⟩
      obtain ⟨l, hl, hl'⟩ := hc.self
      rw [hself] at hl hl'
      have hlist : l = s.operands := by
        refine ext_getElem? fun k => ?_
        rw [hl' k]
        by_cases hk : k < s.operands.length
        · simp [ho, hk]
        · simp [ho, hk]
      have hsize : p2.values.size = p.values.size := by rw [hc.values]; rfl
      have h3has : p3.HasOp ⟨p.ops.size⟩ := by
        rw [HasOp, hr.ops, hc.ops]
        simp [addOp]
      have h3op : ∀ j, p3.op j = p2.op j := fun j => by rw [op, op, hr.ops]
      refine ⟨rfl, ?_, ?_, ?_, ?_, ?_, ?_, ?_, ?_, hdot, habs, checkLength_self hn⟩
      · simp only [withOp, Array.size_modify]
        rw [hr.ops, hc.ops]
        simp [addOp]
      · exact hr.blocks.trans hc.blocks
      · exact hr.values.trans (by rw [hsize])
      · rw [op_withOp, if_pos ⟨rfl, by simpa using h3has⟩, op_withOp, if_pos ⟨rfl, h3has⟩, h3op, hl, hlist]
        simp [freshValues, hsize, ho]
      · intro j hj
        rw [op_withOp, if_neg fun h => hj h.1, op_withOp, if_neg fun h => hj h.1, h3op, hc.other j hj, op_addOp,
          if_neg hj]
      · intro v hv
        have hv2 : p2.HasValue v := by rw [HasValue, hsize]; exact hv
        rw [value_withOp, value_withOp, hr.old v hv2]
        exact hc.value v
      · intro k t hk
        rw [value_withOp, value_withOp, ← hsize, hr.new k t hk, Nat.zero_add]
        exact ⟨rfl, rfl⟩
      · intro v u
        rw [value_withOp, value_withOp, hr.uses, hc.uses]
        simp
  · simp only [hdot, if_false, bind_ok, throw_ok, false_and, exists_false, Bool.false_eq_true] at h

theorem NewOp.hasValue (h : NewOp s ts n p i q) :
    q.HasValue v ↔ p.HasValue v ∨ ∃ k, k < ts.length ∧ v = ⟨p.values.size + k⟩ := by
  rw [HasValue, HasValue, h.values]
  constructor
  · intro hv
    rcases Nat.lt_or_ge v.index p.values.size with h1 | h1
    · exact .inl h1
    · exact .inr ⟨v.index - p.values.size, by omega, by cases v; simp only [ValueId.mk.injEq] at *; omega⟩
  · rintro (hv | ⟨k, hk, rfl⟩)
    · omega
    · simp only; omega

theorem NewOp.block (h : NewOp s ts n p i q) (b : BlockId) :
    q.block b = p.block b := by
  rw [Program.block, Program.block, h.blocks]

section
variable {s : Spec} {ts : List Ty} {n : Nat} (h : NewOp s ts n p i q)
include h

theorem NewOp.fresh : p.op i = default := op_of_not_hasOp (by rw [h.id]; exact Nat.lt_irrefl _)

theorem NewOp.consistent (hp : p.Consistent) : q.Consistent :=
  hp.withNew h.fresh (fun v u => by rw [h.uses, h.self]) (fun j hj => by rw [h.other j hj]; exact ⟨rfl, rfl⟩)
    (by rw [h.self]) h.block

theorem NewOp.wellFormed (wf : p.WellFormed) : q.WellFormed := by
  have hfresh := h.fresh
  have hother : ∀ j, j ≠ i → q.op j = p.op j := h.other
  have hnew : q.HasBlock = p.HasBlock := by unfold HasBlock; rw [h.blocks]
  have hq := h.consistent wf.consistent
  refine ⟨hq.uses, hq.listed, hq.once, ?_, ?_, ?_, ?_, ?_⟩
  · intro j k b
    rw [h.block, hnew, ← wf.region]
    by_cases hj : j = i
    · subst hj
      rw [hfresh, h.self]
      simp [getElem?_replicate]
    · rw [hother j hj]
  · intro j bs hbs
    by_cases hj : j = i
    · subst hj
      rw [h.self] at hbs
      rw [eq_of_mem_replicate hbs]
      exact nodup_nil
    · rw [hother j hj] at hbs
      exact wf.regionOnce j bs hbs
  · intro j k v
    rw [h.hasValue]
    by_cases hold : p.HasValue v
    · rw [(h.old v hold).2]
      by_cases hj : j = i
      · subst hj
        have := wf.result j k v
        rw [hfresh] at this
        rw [h.self]
        simp only [getElem?_freshValues]
        constructor
        · rintro ⟨_, rfl⟩
          exact absurd hold (by simp [HasValue])
        · rintro ⟨_, hs⟩
          exact absurd (this.mpr ⟨hold, hs⟩) (by simp)
      · rw [hother j hj, wf.result]
        simp [hold]
    · constructor
      · intro hr
        by_cases hj : j = i
        · subst hj
          rw [h.self] at hr
          obtain ⟨hk, rfl⟩ := getElem?_freshValues.mp hr
          exact ⟨.inr ⟨k, hk, rfl⟩, (h.new k _ (getElem?_eq_getElem hk)).2⟩
        · rw [hother j hj, wf.result] at hr
          exact absurd hr.1 hold
      · rintro ⟨hv | ⟨l, hl, rfl⟩, hs⟩
        · exact absurd hv hold
        · rw [(h.new l _ (getElem?_eq_getElem hl)).2] at hs
          cases hs
          rw [h.self]
          exact getElem?_freshValues.mpr ⟨hl, rfl⟩
  · intro b k v
    rw [h.block, wf.argument, h.hasValue]
    by_cases hold : p.HasValue v
    · rw [(h.old v hold).2]
      simp [hold]
    · simp only [hold, false_and, false_or, false_iff]
      rintro ⟨⟨l, hl, rfl⟩, hs⟩
      rw [(h.new l _ (getElem?_eq_getElem hl)).2] at hs
      cases hs
  · obtain ⟨depth, hd⟩ := wf.nesting
    refine ⟨depth, fun j m hp => hd j m ?_⟩
    by_cases hj : j = i
    · subst hj
      rw [parent?, h.self] at hp
      cases hp
    · obtain ⟨b, hb, ho⟩ := parent?_eq_some.mp hp
      rw [hother j hj] at hb
      rw [h.block] at ho
      exact parent?_eq_some.mpr ⟨b, hb, ho⟩

end

end Edit

/-! ## Growth -/

namespace Program

def Unused (p : Program) (v : ValueId) : Prop := ∀ j, some v ∉ (p.op j).operands

/-- Everything in the program could be created again: names have a dot, there is room for the regions, and
no type is absent. -/
structure Creatable (p : Program) : Prop where
  named : ∀ j, p.HasOp j → (p.op j).name.toList.contains '.' = true
  room : ∀ j, p.HasOp j → checkLength (p.op j).regions.length = .ok (p.op j).regions.length
  typed : ∀ v, p.HasValue v → p.typeOf v ≠ .absent

end Program

/-- The program grew by things that were created, and they use nothing in `V` that was unused. -/
structure Grown (V : ValueId → Prop) (p q : Program) : Prop where
  unused : ∀ v, V v → p.Unused v → q.Unused v
  creatable : p.Creatable → q.Creatable

namespace Grown

variable {V W : ValueId → Prop} {p m q : Program}

theorem refl (V : ValueId → Prop) (p : Program) : Grown V p p := ⟨fun _ _ h => h, id⟩

theorem trans (h : Grown V p m) (h' : Grown W m q) (hW : ∀ v, V v → W v) : Grown V p q where
  unused v hv hu := h'.unused v (hW v hv) (h.unused v hv hu)
  creatable hp := h'.creatable (h.creatable hp)

theorem mono (h : Grown W p q) (hW : ∀ v, V v → W v) : Grown V p q := (refl V p).trans h hW

end Grown

theorem Edit.NewOp.grown {s : Edit.Spec}
    (h : Edit.NewOp s ts n p i q) : Grown (fun v => some v ∉ s.operands) p q where
  unused v hv hu j := by
    by_cases hj : j = i
    · rw [hj, h.self]
      exact hv
    · rw [h.other j hj]
      exact hu j
  creatable hp := by
    have hop : ∀ j, q.HasOp j → j ≠ i → p.HasOp j := by
      rintro ⟨k⟩ hk hne
      simp only [h.id, ne_eq, OpId.mk.injEq] at hne
      simp only [HasOp, h.ops] at hk ⊢
      omega
    refine ⟨fun j hj => ?_, fun j hj => ?_, fun v hv => ?_⟩
    · by_cases hji : j = i
      · rw [hji, h.self]
        exact h.named
      · rw [h.other j hji]
        exact hp.named j (hop j hj hji)
    · by_cases hji : j = i
      · rw [hji, h.self, length_replicate]
        exact h.room
      · rw [h.other j hji]
        exact hp.room j (hop j hj hji)
    · rcases h.hasValue.mp hv with hv | ⟨k, hk, rfl⟩
      · rw [typeOf, (h.old v hv).1]
        exact hp.typed v hv
      · have hget := getElem?_eq_getElem hk
        rw [typeOf, (h.new k _ hget).1]
        exact fun habs => h.present (habs ▸ mem_of_getElem? hget)

end Offload
