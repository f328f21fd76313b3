import Offload.Proofs.WellFormed

/-!
# Operands and uses

Replacing and emptying operand slots in a well-formed program. Both take one slot after the other out of
the use list of what it holds; `Refilled` says what that does, and keeps everything but the slot.
-/

namespace Offload

open Program List

variable {b : BlockId} {i : OpId} {m : Program} {v : ValueId}

namespace Program.Consistent

variable {p : Program} (hp : p.Consistent)
include hp

theorem hasValue_operand (h : some v ∈ (p.op i).operands) : p.HasValue v := by
  by_contra hn
  obtain ⟨k, hk⟩ := getElem?_of_mem h
  have := hp.uses v ⟨i, k⟩
  simp [value_of_not_hasValue hn, hk] at this

theorem mem_uses {u : Use} :
    u ∈ (p.value v).uses ↔ (p.op u.op).operands[u.index]? = some (some v) := by
  have := hp.uses v u
  rw [← count_pos_iff, this]
  split <;> simp [*]

theorem nodup_uses (v : ValueId) : (p.value v).uses.Nodup := by
  refine nodup_iff_count_le_one.mpr fun u => ?_
  rw [hp.uses]
  split <;> omega

theorem hasBlock_of_block (h : (p.op i).block = some b) : p.HasBlock b :=
  hasBlock_of_mem_ops ((hp.listed i b).mp h)

theorem count_ops (b : BlockId) (i : OpId) :
    (p.block b).ops.count i = if (p.op i).block = some b then 1 else 0 := by
  rw [(hp.once b).count]
  simp only [hp.listed]

end Program.Consistent

namespace Program.WellFormed

variable {p : Program} (wf : p.WellFormed)
include wf

theorem hasValue_operand (h : some v ∈ (p.op i).operands) : p.HasValue v :=
  wf.consistent.hasValue_operand h

theorem hasBlock_of_block (h : (p.op i).block = some b) : p.HasBlock b :=
  wf.consistent.hasBlock_of_block h

theorem hasValue_result (h : v ∈ (p.op i).results) : p.HasValue v := by
  obtain ⟨k, hk⟩ := getElem?_of_mem h
  exact ((wf.result i k v).mp hk).1

theorem hasValue_argument (h : v ∈ (p.block b).args) : p.HasValue v := by
  obtain ⟨k, hk⟩ := getElem?_of_mem h
  exact ((wf.argument b k v).mp hk).1

theorem eq_of_mem_args {b c : BlockId} (h : v ∈ (p.block b).args) (h' : v ∈ (p.block c).args) :
    b = c := by
  obtain ⟨k, hk⟩ := getElem?_of_mem h
  obtain ⟨l, hl⟩ := getElem?_of_mem h'
  have := ((wf.argument b k v).mp hk).2.symm.trans ((wf.argument c l v).mp hl).2
  cases this
  rfl

theorem eq_of_mem_results {i j : OpId} (h : v ∈ (p.op i).results) (h' : v ∈ (p.op j).results) :
    i = j := by
  obtain ⟨k, hk⟩ := getElem?_of_mem h
  obtain ⟨l, hl⟩ := getElem?_of_mem h'
  have := ((wf.result i k v).mp hk).2.symm.trans ((wf.result j l v).mp hl).2
  cases this
  rfl

theorem owner_of_mem {a : OpId} {bs : List BlockId} (hbs : bs ∈ (p.op a).regions) (hb : b ∈ bs) :
    p.HasBlock b ∧ (p.block b).owner = a := by
  obtain ⟨k, hk⟩ := getElem?_of_mem hbs
  obtain ⟨hB, ho, -⟩ := (wf.region a k b).mp ⟨bs, hk, hb⟩
  exact ⟨hB, ho⟩

theorem nodup_results (i : OpId) : (p.op i).results.Nodup := by
  refine nodup_iff_getElem?_ne_getElem?.mpr fun k l hkl hl hk => ?_
  obtain ⟨v, hv⟩ : ∃ v, (p.op i).results[l]? = some v := ⟨_, getElem?_eq_getElem hl⟩
  have h1 := ((wf.result i l v).mp hv).2
  rw [((wf.result i k v).mp (hk.trans hv)).2] at h1
  cases h1
  exact Nat.lt_irrefl _ hkl

theorem nodup_args (b : BlockId) : (p.block b).args.Nodup := by
  refine nodup_iff_getElem?_ne_getElem?.mpr fun k l hkl hl hk => ?_
  obtain ⟨v, hv⟩ : ∃ v, (p.block b).args[l]? = some v := ⟨_, getElem?_eq_getElem hl⟩
  have h1 := ((wf.argument b l v).mp hv).2
  rw [((wf.argument b k v).mp (hk.trans hv)).2] at h1
  cases h1
  exact Nat.lt_irrefl _ hkl

end Program.WellFormed

namespace Edit

variable {p q : Program} {i : OpId} {u : Use} {v w : ValueId} {s : Slot}

structure SameShape (p q : Program) : Prop where
  ops : q.ops.size = p.ops.size
  blocks : q.blocks = p.blocks
  values : q.values.size = p.values.size
  op : ∀ j, q.op j = { p.op j with operands := (q.op j).operands }
  value : ∀ x, q.value x = { p.value x with uses := (q.value x).uses }

namespace SameShape

theorem refl (p : Program) : SameShape p p := ⟨rfl, rfl, rfl, fun _ => rfl, fun _ => rfl⟩

theorem trans (h : SameShape p m) (h' : SameShape m q) : SameShape p q where
  ops := h'.ops.trans h.ops
  blocks := h'.blocks.trans h.blocks
  values := h'.values.trans h.values
  op j := by rw [h'.op j, h.op j]
  value x := by rw [h'.value x, h.value x]

variable (h : SameShape p q)
include h

theorem block (b : BlockId) : q.block b = p.block b := by
  rw [Program.block, Program.block, h.blocks]

theorem typeOf (x : ValueId) : q.typeOf x = p.typeOf x := by
  rw [Program.typeOf, h.value]
  rfl

theorem parent? (j : OpId) : q.parent? j = p.parent? j := by
  rw [Program.parent?, Program.parent?, h.op j]
  simp only [h.block]

theorem hasOp (j : OpId) : q.HasOp j ↔ p.HasOp j := by rw [HasOp, HasOp, h.ops]

theorem hasBlock (b : BlockId) : q.HasBlock b ↔ p.HasBlock b := by rw [HasBlock, HasBlock, h.blocks]

theorem hasValue (x : ValueId) : q.HasValue x ↔ p.HasValue x := by rw [HasValue, HasValue, h.values]

theorem consistent (hp : p.Consistent)
    (uses : ∀ x u, (q.value x).uses.count u = if (q.op u.op).operands[u.index]? = some (some x) then 1 else 0) :
    q.Consistent where
  uses := uses
  listed j b := by rw [h.op, h.block]; exact hp.listed j b
  once b := by rw [h.block]; exact hp.once b

theorem wellFormed (wf : p.WellFormed) (hq : q.Consistent) : q.WellFormed where
  uses := hq.uses
  listed := hq.listed
  once := hq.once
  region j k b := by rw [h.op, h.block, h.hasBlock]; exact wf.region j k b
  regionOnce j bs hbs := by rw [h.op] at hbs; exact wf.regionOnce j bs hbs
  result j k x := by rw [h.op, h.value, h.hasValue]; exact wf.result j k x
  argument b k x := by rw [h.block, h.value, h.hasValue]; exact wf.argument b k x
  nesting := by
    obtain ⟨depth, hd⟩ := wf.nesting
    exact ⟨depth, fun j m hp => hd j m (by rwa [h.parent?] at hp)⟩

end SameShape

structure Refilled (u : Use) (s : Slot) (p q : Program) : Prop where
  same : SameShape p q
  operands : ∀ j, (q.op j).operands = if j = u.op then (p.op j).operands.set u.index s else (p.op j).operands
  consistent : q.Consistent

private theorem refilled (hp : p.Consistent) (hu : (p.op u.op).operands[u.index]? = some (some v))
    (hs : ∀ x, s = some x → p.HasValue x)
    (hm : m = (p.withValue v fun x => { x with uses := x.uses.erase u }).withOp u.op
      fun o => { o with operands := o.operands.set u.index s })
    (hq : q = s.elim m fun w => m.withValue w fun x => { x with uses := x.uses ++ [u] }) :
    Refilled u s p q := by
  have hv : p.HasValue v := hp.hasValue_operand (mem_iff_getElem?.mpr ⟨_, hu⟩)
  have hi : p.HasOp u.op := by
    by_contra hn
    simp [op_of_not_hasOp hn] at hu
  have qop : ∀ j, q.op j = m.op j := by intro j; subst hq; cases s <;> rfl
  have mop : ∀ j, m.op j = if j = u.op then { p.op j with operands := (p.op j).operands.set u.index s }
      else p.op j := by
    intro j
    rw [hm, op_withOp, op_withValue]
    simp only [hasOp_withValue, hi, and_true]
  have hoperands : ∀ j, (q.op j).operands =
      if j = u.op then (p.op j).operands.set u.index s else (p.op j).operands := by
    intro j
    rw [qop, mop]
    split <;> rfl
  have mvalue : ∀ x, m.value x = if x = v then { p.value x with uses := (p.value x).uses.erase u }
      else p.value x := by
    intro x
    rw [hm, value_withOp, value_withValue]
    simp only [hv, and_true]
  have qvalue : ∀ x, q.value x = if s = some x then { m.value x with uses := (m.value x).uses ++ [u] }
      else m.value x := by
    intro x
    cases hs' : s with
    | none => simp [hq, hs']
    | some w =>
      have hw : m.HasValue w := by simpa [hm] using hs w hs'
      subst hs'
      simp only [hq, Option.elim_some, value_withValue, hw, and_true, Option.some.injEq, @eq_comm _ w]
  have hsame : SameShape p q := by
    refine ⟨?_, ?_, ?_, fun j => ?_, fun x => ?_⟩
    · subst hq hm; cases s <;> simp [withOp, withValue]
    · subst hq hm; cases s <;> rfl
    · subst hq hm; cases s <;> simp [withOp, withValue]
    · rw [qop, mop]; split <;> rfl
    · rw [qvalue, mvalue]; split <;> split <;> rfl
  refine ⟨hsame, hoperands, hsame.consistent hp fun x u' => ?_⟩
  -- after the removal nobody lists `u` any more, and then only what `s` holds does
  have hlen : u.index < (p.op u.op).operands.length := (List.getElem?_eq_some_iff.mp hu).1
  have hcount : (m.value x).uses.count u' = if u' = u then 0 else (p.value x).uses.count u' := by
    rw [mvalue]
    by_cases hx : x = v
    · subst hx
      simp only [if_true, count_erase]
      by_cases h : u' = u
      · subst h
        simp [hp.uses, hu]
      · simp [h, Ne.symm h]
    · simp only [hx, if_false]
      by_cases h : u' = u
      · subst h
        simp [hp.uses, hu, Ne.symm hx]
      · simp [h]
  have hcount' : (q.value x).uses.count u' =
      if u' = u then (if s = some x then 1 else 0) else (p.value x).uses.count u' := by
    rw [qvalue]
    by_cases hsx : s = some x <;> by_cases h : u' = u
    · subst h; simp [hsx, hcount]
    · simp [hsx, h, hcount, Ne.symm h]
    · subst h; simp [hsx, hcount]
    · simp [hsx, h, hcount]
  rw [hcount', hoperands]
  by_cases h : u' = u
  · subst h
    simp [hlen]
  · rw [if_neg h, hp.uses]
    by_cases hop : u'.op = u.op
    · have hne : u.index ≠ u'.index := fun hk => h (by cases u; cases u'; simp_all)
      simp [hop, hne]
    · simp [hop]

theorem removeUse_ok {a : Unit} : removeUse v u p = .ok a q ↔
    u ∈ (p.value v).uses ∧ q = p.withValue v fun x => { x with uses := x.uses.erase u } := by
  simp only [removeUse, bind_ok, getValue_ok]
  constructor
  · rintro ⟨_, p, ⟨rfl, rfl⟩, h⟩
    by_cases hu : u ∈ (p.value v).uses
    · simp only [hu, if_true, modifyValue_ok] at h
      exact ⟨hu, h⟩
    · simp [hu] at h
  · rintro ⟨hu, rfl⟩
    exact ⟨_, _, ⟨rfl, rfl⟩, by simp [hu]⟩

theorem setOperand_ok {k : Int} (hp : p.Consistent) (hs : ∀ x, s = some x → p.HasValue x)
    (h : setOperand i k s p = .ok () q) : 0 ≤ k ∧ Refilled ⟨i, k.toNat⟩ s p q := by
  simp only [setOperand, bind_ok, getOp_ok] at h
  obtain ⟨_, p, ⟨rfl, rfl⟩, h⟩ := h
  cases s with
  | none => simp at h
  | some w =>
    by_cases hk : k < 0
    · simp [hk] at h
    · simp only [hk, if_false] at h
      cases ho : (p.op i).operands[k.toNat]? with
      | none => simp [ho] at h
      | some o =>
        cases o with
        | none => simp [ho] at h
        | some old =>
          simp only [ho, bind_ok, removeUse_ok, connect, fill, addUse, modifyOp_ok, modifyValue_ok] at h
          obtain ⟨_, m, ⟨_, rfl⟩, _, _, rfl, rfl⟩ := h
          exact ⟨Int.not_lt.mp hk, refilled hp (u := ⟨i, k.toNat⟩) ho hs rfl rfl⟩

/-! ## Replacing a value everywhere -/

structure Replaced (v w : ValueId) (p q : Program) : Prop where
  same : SameShape p q
  operands : ∀ j, (q.op j).operands = (p.op j).operands.map fun s => if s = some v then some w else s
  consistent : q.Consistent

theorem Replaced.wellFormed (h : Replaced v w p q) (wf : p.WellFormed) : q.WellFormed :=
  h.same.wellFormed wf h.consistent

private theorem refillAll : ∀ (l : List Use) {p q : Program}, p.Consistent → p.HasValue w → l.Nodup →
    l.forM (fun u => setOperand u.op u.index (some w)) p = .ok () q →
      SameShape p q ∧ q.Consistent ∧ ∀ j k, (q.op j).operands[k]? =
        if ⟨j, k⟩ ∈ l then (p.op j).operands[k]?.map fun _ => some w else (p.op j).operands[k]?
  | [], p, q, hp, _, _, h => by
    simp only [forM_eq_forM, forM_nil, pure_ok] at h
    obtain ⟨_, rfl⟩ := h
    exact ⟨.refl p, hp, by simp⟩
  | u :: l, p, q, hp, hw, hl, h => by
    obtain ⟨m, hm, h⟩ := forM_cons_ok.mp h
    obtain ⟨_, hr⟩ := setOperand_ok hp (by rintro x ⟨⟩; exact hw) hm
    obtain ⟨hul, hl⟩ := nodup_cons.mp hl
    obtain ⟨hs, hq, ho⟩ := refillAll l hr.consistent ((hr.same.hasValue w).mpr hw) hl h
    refine ⟨hr.same.trans hs, hq, fun j k => ?_⟩
    rw [ho, hr.operands]
    simp only [Int.toNat_natCast, mem_cons]
    by_cases hu : (⟨j, k⟩ : Use) = u
    · subst hu
      simp only [hul, if_false, if_true, true_or, getElem?_set]
      by_cases hk : k < (p.op j).operands.length
      · simp [hk]
      · simp [hk]
    · by_cases hj : j = u.op
      · have hk : u.index ≠ k := fun hk => hu (by cases u; simp_all)
        subst hj
        simp [hu, hk]
      · simp [hu, hj]

theorem replaceAllUses_ok (hp : p.Consistent) (hw : p.HasValue w)
    (h : replaceAllUses v (some w) p = .ok () q) : Replaced v w p q := by
  simp only [replaceAllUses, bind_ok, getValue_ok] at h
  obtain ⟨_, p, ⟨rfl, rfl⟩, h⟩ := h
  by_cases hwv : w = v
  · subst hwv
    simp only [if_true, pure_ok] at h
    obtain ⟨_, rfl⟩ := h
    refine ⟨.refl p, fun j => ?_, hp⟩
    refine (map_id'' (fun s => ?_) _).symm
    split <;> simp [*]
  · simp only [hwv, if_false] at h
    obtain ⟨hs, hq, ho⟩ := refillAll _ hp hw (hp.nodup_uses v) h
    refine ⟨hs, fun j => ext_getElem? fun k => ?_, hq⟩
    rw [ho, getElem?_map]
    simp only [hp.mem_uses]
    cases hk : (p.op j).operands[k]? with
    | none => simp
    | some s =>
      by_cases hsv : s = some v
      · simp [hsv]
      · simp [hsv]

/-! ## Emptying slots -/

theorem dropFrom_ok : ∀ (ss : List Slot) (k : Nat) {p q : Program}, p.Consistent →
    (∀ n s, ss[n]? = some s → (p.op i).operands[k + n]? = some s) → dropFrom i k ss p = .ok () q →
      SameShape p q ∧ q.Consistent ∧ ∀ j n, (q.op j).operands[n]? =
        if j = i ∧ k ≤ n ∧ n < k + ss.length then some none else (p.op j).operands[n]?
  | [], k, p, q, hp, _, h => by
    simp only [dropFrom, pure_ok] at h
    obtain ⟨_, rfl⟩ := h
    refine ⟨.refl p, hp, fun j n => (if_neg fun h => ?_).symm⟩
    simp only [length_nil] at h
    omega
  | s :: ss, k, p, q, hp, hss, h => by
    have hk := hss 0 s rfl
    rw [Nat.add_zero] at hk
    -- the program after the first slot is done
    obtain ⟨m, hsame, hmc, hm, h⟩ : ∃ m, SameShape p m ∧ m.Consistent ∧
        (∀ j n, (m.op j).operands[n]? = if j = i ∧ n = k then some none else (p.op j).operands[n]?) ∧
        dropFrom i (k + 1) ss m = .ok () q := by
      cases s with
      | none =>
        refine ⟨p, .refl p, hp, fun j n => ?_, h⟩
        split
        · rename_i h
          rw [h.1, h.2, hk]
        · rfl
      | some v =>
        simp only [dropFrom, bind_ok, removeUse_ok, fill, modifyOp_ok] at h
        obtain ⟨_, _, ⟨_, rfl⟩, _, m, hm, h⟩ := h
        have hr : Refilled ⟨i, k⟩ none p m := refilled hp (u := ⟨i, k⟩) hk (by simp) hm rfl
        refine ⟨m, hr.same, hr.consistent, fun j n => ?_, h⟩
        rw [hr.operands]
        by_cases hj : j = i
        · subst hj
          by_cases hn : n = k
          · subst hn
            simp [(List.getElem?_eq_some_iff.mp hk).1]
          · simp [hn, Ne.symm hn]
        · simp [hj]
    obtain ⟨hs, hq, ho⟩ := dropFrom_ok ss (k + 1) hmc (fun n s hn => by
      rw [hm, if_neg (by omega), show k + 1 + n = k + (n + 1) by omega]
      exact hss (n + 1) s hn) h
    refine ⟨hsame.trans hs, hq, fun j n => ?_⟩
    rw [ho, hm]
    simp only [length_cons]
    by_cases hj : j = i
    · simp only [hj, true_and]
      split <;> split <;> first | rfl | (split <;> first | rfl | omega) | omega
    · simp [hj]

structure Dropped (i : OpId) (p q : Program) : Prop where
  same : SameShape p q
  self : (q.op i).operands = (p.op i).operands.map fun _ => none
  other : ∀ j, j ≠ i → q.op j = p.op j
  consistent : q.Consistent

theorem dropOperands_ok (hp : p.Consistent) (h : dropOperands i p = .ok () q) : Dropped i p q := by
  simp only [dropOperands, bind_ok, getOp_ok] at h
  obtain ⟨_, p, ⟨rfl, rfl⟩, h⟩ := h
  obtain ⟨hs, hq, ho⟩ := dropFrom_ok (i := i) _ 0 hp (fun n s hn => by rwa [Nat.zero_add]) h
  refine ⟨hs, ext_getElem? fun n => ?_, fun j hj => ?_, hq⟩
  · rw [ho, getElem?_map]
    by_cases hn : n < (p.op i).operands.length
    · simp [hn]
    · simp [hn]
  · have : (q.op j).operands = (p.op j).operands :=
      ext_getElem? fun n => by rw [ho, if_neg fun h => hj h.1]
    rw [hs.op j, this]

end Edit

end Offload
