import Mathlib.Data.List.Perm.Subperm
import Mathlib.Data.List.Nodup
import Offload.Proofs.Updates

/-!
# Well-formed programs

The collection of operations, blocks and values tells every fact from both ends, and nesting ends
somewhere. So `enclosing` and `nested` unfold without a bound on the depth.
-/

namespace Offload.Program

open List

variable {c : OpId}

/-- Use lists agree with operands, and block lists with homes. -/
structure Consistent (p : Program) : Prop where
  uses : ∀ v u, (p.value v).uses.count u = if (p.op u.op).operands[u.index]? = some (some v) then 1 else 0
  listed : ∀ i b, (p.op i).block = some b ↔ i ∈ (p.block b).ops
  once : ∀ b, (p.block b).ops.Nodup

/-- Use lists agree with operands, block lists with homes, region lists with owners, results and arguments
with sources; and no operation is nested in itself. -/
structure WellFormed (p : Program) : Prop where
  uses : ∀ v u, (p.value v).uses.count u = if (p.op u.op).operands[u.index]? = some (some v) then 1 else 0
  listed : ∀ i b, (p.op i).block = some b ↔ i ∈ (p.block b).ops
  once : ∀ b, (p.block b).ops.Nodup
  region : ∀ i k b, (∃ bs, (p.op i).regions[k]? = some bs ∧ b ∈ bs) ↔
    p.HasBlock b ∧ (p.block b).owner = i ∧ (p.block b).region = k
  regionOnce : ∀ i, ∀ bs ∈ (p.op i).regions, bs.Nodup
  result : ∀ i k v, (p.op i).results[k]? = some v ↔ p.HasValue v ∧ (p.value v).source = .result i k
  argument : ∀ b k v, (p.block b).args[k]? = some v ↔ p.HasValue v ∧ (p.value v).source = .argument b k
  nesting : ∃ depth : OpId → Nat, ∀ i q, p.parent? i = some q → depth q < depth i

theorem WellFormed.consistent {p : Program} (wf : p.WellFormed) : p.Consistent := ⟨wf.uses, wf.listed, wf.once⟩

/-- `a` is the operation or holds it at any depth. -/
inductive Within (p : Program) (a : OpId) : OpId → Prop
  | refl : Within p a a
  | step {i q : OpId} : p.parent? i = some q → Within p a q → Within p a i

variable {p : Program} {a i j q : OpId} {b : BlockId} {v : ValueId}

theorem parent?_eq_some : p.parent? i = some q ↔ ∃ b, (p.op i).block = some b ∧ (p.block b).owner = q := by
  simp [parent?]

theorem hasOp_of_block (h : (p.op i).block = some b) : p.HasOp i := by
  by_contra hn
  rw [op_of_not_hasOp hn] at h
  cases h

theorem hasOp_of_operand {s : Slot} (h : s ∈ (p.op i).operands) : p.HasOp i := by
  by_contra hn
  rw [op_of_not_hasOp hn] at h
  cases h

theorem hasOp_of_parent (h : p.parent? i = some q) : p.HasOp i := by
  obtain ⟨b, hb, _⟩ := parent?_eq_some.mp h
  exact hasOp_of_block hb

theorem hasBlock_of_mem_ops (h : i ∈ (p.block b).ops) : p.HasBlock b := by
  by_contra hn
  rw [block_of_not_hasBlock hn] at h
  cases h

theorem hasBlock_of_arg {k : Nat} (h : (p.block b).args[k]? = some v) : p.HasBlock b := by
  by_contra hb
  rw [block_of_not_hasBlock hb] at h
  cases h

namespace Within

theorem trans (h : p.Within a i) (h' : p.Within i c) : p.Within a c := by
  induction h' with
  | refl => exact h
  | step hp _ ih => exact .step hp ih

theorem single (h : p.parent? i = some q) : p.Within q i := .step h .refl

theorem hasOp (h : p.Within a i) (ha : p.HasOp a) : p.HasOp i := by
  cases h with
  | refl => exact ha
  | step hp _ => exact hasOp_of_parent hp

theorem of_ne (h : p.Within a i) (hne : a ≠ i) : ∃ q, p.parent? i = some q ∧ p.Within a q := by
  cases h with
  | refl => exact absurd rfl hne
  | step hp hw => exact ⟨_, hp, hw⟩

theorem first (h : p.Within a i) (hne : a ≠ i) : ∃ x, p.parent? x = some a ∧ p.Within x i := by
  induction h with
  | refl => exact absurd rfl hne
  | @step i q hp h ih =>
    by_cases hq : a = q
    · subst hq
      exact ⟨i, hp, .refl⟩
    · obtain ⟨x, hx, hw⟩ := ih hq
      exact ⟨x, hx, .step hp hw⟩

theorem total (h : p.Within a i) (h' : p.Within c i) : p.Within a c ∨ p.Within c a := by
  induction h with
  | refl => exact .inr h'
  | step hp hw ih =>
    cases h' with
    | refl => exact .inl (.step hp hw)
    | step hp' hw' =>
      rw [hp] at hp'
      cases hp'
      exact ih hw'

end Within

/-! ## Chains of parents -/

theorem within_of_mem_enclosingFrom : ∀ n i, a ∈ p.enclosingFrom n i → p.Within a i
  | 0, _, h => by cases h
  | n + 1, i, h => by
    rcases mem_cons.mp h with rfl | h
    · exact .refl
    · cases hp : p.parent? i with
      | none => rw [hp] at h; cases h
      | some q =>
        rw [hp] at h
        exact .step hp (within_of_mem_enclosingFrom n q h)

theorem enclosingFrom_stable :
    ∀ n i, (p.enclosingFrom n i).length < n → p.enclosingFrom (n + 1) i = p.enclosingFrom n i
  | 0, _, h => by cases h
  | n + 1, i, h => by
    rw [enclosingFrom, enclosingFrom]
    cases hp : p.parent? i with
    | none => rfl
    | some q =>
      rw [enclosingFrom, hp] at h
      simp only [Option.elim_some, length_cons] at h
      simp only [Option.elim_some, enclosingFrom_stable n q (by omega)]

/-- Nothing around the operation is inside of itself. -/
structure Grounded (p : Program) (i : OpId) : Prop where
  hasOp : ∀ a q, p.Within a i → p.parent? a = some q → p.HasOp q
  acyclic : ∀ a q, p.Within a i → p.parent? a = some q → ¬ p.Within a q

namespace Grounded

variable (h : p.Grounded i)
include h

theorem outwards (hw : p.Within a i) : p.Grounded a :=
  ⟨fun x q hx => h.hasOp x q (hx.trans hw), fun x q hx => h.acyclic x q (hx.trans hw)⟩

theorem enclosingFrom_nodup (n : Nat) : (p.enclosingFrom n i).Nodup := by
  induction n generalizing i with
  | zero => exact nodup_nil
  | succ n ih =>
    rw [enclosingFrom]
    cases hp : p.parent? i with
    | none => exact nodup_singleton i
    | some q =>
      exact nodup_cons.mpr ⟨fun hm => h.acyclic i q .refl hp (within_of_mem_enclosingFrom n q hm),
        ih (h.outwards (.single hp))⟩

theorem enclosingFrom_length_le (hi : p.HasOp i) (n : Nat) : (p.enclosingFrom n i).length ≤ p.ops.size := by
  have hn : ((p.enclosingFrom n i).map OpId.index).Nodup :=
    (h.enclosingFrom_nodup n).map fun x y h => by cases x; cases y; simpa using h
  have hs : (p.enclosingFrom n i).map OpId.index ⊆ List.range p.ops.size := by
    intro x hx
    obtain ⟨c, hc, rfl⟩ := mem_map.mp hx
    refine mem_range.mpr ?_
    by_cases hci : c = i
    · exact hci ▸ hi
    · obtain ⟨y, hy, hw⟩ := (within_of_mem_enclosingFrom n i hc).first hci
      exact h.hasOp y c hw hy
  simpa using (subperm_of_subset hn hs).length_le

theorem enclosing_eq : p.enclosing i = i :: (p.parent? i).elim [] p.enclosing := by
  rw [enclosing, enclosingFrom]
  cases hp : p.parent? i with
  | none => rfl
  | some q =>
    have hl := h.enclosingFrom_length_le (hasOp_of_parent hp) (p.ops.size + 1)
    rw [enclosingFrom, hp] at hl
    simp only [Option.elim_some, length_cons] at hl
    have hs := enclosingFrom_stable (p := p) p.ops.size q (by omega)
    simp only [Option.elim_some, enclosing, hs]

theorem mem_enclosing : a ∈ p.enclosing i ↔ p.Within a i := by
  refine ⟨within_of_mem_enclosingFrom _ i, fun hw => ?_⟩
  induction hw with
  | refl => exact mem_cons_self
  | step hp _ ih =>
    rw [h.enclosing_eq, hp]
    exact mem_cons_of_mem _ (ih (h.outwards (.single hp)))

theorem eq_of_parent (ha : p.parent? a = some q) (hc : p.parent? c = some q) (hai : p.Within a i)
    (hci : p.Within c i) : a = c := by
  have hnot : ∀ {x y}, p.parent? x = some q → p.parent? y = some q → p.Within x i → p.Within x y → x = y := by
    intro x y hx hy hxi hxy
    by_contra hne
    obtain ⟨z, hz, hw⟩ := hxy.of_ne hne
    obtain rfl := Option.mem_unique hz hy
    exact h.acyclic x z hxi hx hw
  rcases hai.total hci with hw | hw
  · exact hnot ha hc hai hw
  · exact (hnot hc ha hci hw).symm

theorem siblings (ha : (p.op a).block = some b) (hc : (p.op c).block = some b) (hai : p.Within a i)
    (hci : p.Within c i) : a = c :=
  h.eq_of_parent (parent?_eq_some.mpr ⟨b, ha, rfl⟩) (parent?_eq_some.mpr ⟨b, hc, rfl⟩) hai hci

end Grounded

namespace WellFormed

variable (wf : p.WellFormed)
include wf

theorem mem_children : i ∈ p.children q ↔ p.parent? i = some q := by
  unfold children
  simp only [mem_flatMap, parent?_eq_some]
  constructor
  · rintro ⟨bs, hbs, b, hb, hi⟩
    obtain ⟨k, hk⟩ := getElem?_of_mem hbs
    exact ⟨b, (wf.listed i b).mpr hi, ((wf.region q k b).mp ⟨bs, hk, hb⟩).2.1⟩
  · rintro ⟨b, hb, ho⟩
    have hi := (wf.listed i b).mp hb
    obtain ⟨bs, hbs, hm⟩ := (wf.region q _ b).mpr ⟨hasBlock_of_mem_ops hi, ho, rfl⟩
    exact ⟨bs, mem_iff_getElem?.mpr ⟨_, hbs⟩, b, hm, hi⟩

theorem hasOp_parent (h : p.parent? i = some q) : p.HasOp q := by
  by_contra hn
  have hc := wf.mem_children.mpr h
  rw [children, op_of_not_hasOp hn] at hc
  cases hc

theorem hasOp_owner (h : p.HasBlock b) : p.HasOp (p.block b).owner := by
  by_contra hn
  obtain ⟨bs, hbs, _⟩ := (wf.region _ _ b).mpr ⟨h, rfl, rfl⟩
  rw [op_of_not_hasOp hn] at hbs
  simp at hbs

theorem within_hasOp (h : p.Within a i) (hi : p.HasOp i) : p.HasOp a := by
  induction h with
  | refl => exact hi
  | step hp _ ih => exact ih (wf.hasOp_parent hp)

theorem not_within_of_parent (h : p.parent? i = some q) : ¬ p.Within i q := by
  obtain ⟨depth, hd⟩ := wf.nesting
  have hle : ∀ {x}, p.Within i x → depth i ≤ depth x := fun hw => by
    induction hw with
    | refl => exact Nat.le_refl _
    | step hp _ ih => exact Nat.le_trans ih (Nat.le_of_lt (hd _ _ hp))
  exact fun hw => Nat.not_lt.mpr (hle hw) (hd i q h)

theorem grounded (i : OpId) : p.Grounded i := ⟨fun _ _ _ => wf.hasOp_parent, fun _ _ _ => wf.not_within_of_parent⟩

theorem enclosingFrom_length_le (n : Nat) (hi : p.HasOp i) : (p.enclosingFrom n i).length ≤ p.ops.size :=
  (wf.grounded i).enclosingFrom_length_le hi n

theorem enclosing_eq (i : OpId) : p.enclosing i = i :: (p.parent? i).elim [] p.enclosing := (wf.grounded i).enclosing_eq

theorem enclosing_of_parent (h : p.parent? i = some q) : p.enclosing i = i :: p.enclosing q := by
  rw [wf.enclosing_eq, h]
  rfl

theorem length_enclosing_of_parent (h : p.parent? i = some q) :
    (p.enclosing i).length = (p.enclosing q).length + 1 ∧ (p.enclosing i).length ≤ p.ops.size :=
  ⟨by rw [wf.enclosing_of_parent h, length_cons], wf.enclosingFrom_length_le _ (hasOp_of_parent h)⟩

theorem mem_enclosing : a ∈ p.enclosing i ↔ p.Within a i := (wf.grounded i).mem_enclosing

theorem within_antisymm (h : p.Within a i) (h' : p.Within i a) : a = i := by
  by_contra hne
  obtain ⟨q, hq, hw⟩ := h.of_ne hne
  exact wf.not_within_of_parent hq (h'.trans hw)

/-- Nesting can be followed inwards only so far: what holds of an operation once it holds of everything
listed in it holds of every operation. -/
theorem inwards {P : OpId → Prop} (step : ∀ i, (∀ j, p.parent? j = some i → P j) → P i) (i : OpId) : P i := by
  -- the measure is the number of levels that are left below the operation
  have main : ∀ k i, p.ops.size ≤ k + (p.enclosing i).length → P i := by
    intro k
    induction k with
    | zero =>
      intro i hi
      refine step i fun j hj => ?_
      have hl := wf.length_enclosing_of_parent hj
      omega
    | succ k ih =>
      intro i hi
      refine step i fun j hj => ih j ?_
      have hl := wf.length_enclosing_of_parent hj
      omega
  exact main p.ops.size i (Nat.le_add_right _ _)

section Walk
variable (d : OpId → Bool)

private theorem nestedFrom_stable :
    ∀ k i, p.ops.size ≤ k + (p.enclosing i).length →
      ∀ n m, k < n → k < m → p.nestedFrom d n i = p.nestedFrom d m i
  | k, i, hk, n + 1, m + 1, hn, hm => by
    simp only [nestedFrom, List.cons.injEq, true_and]
    split
    · refine flatMap_congr fun j hj => ?_
      have hp := wf.mem_children.mp hj
      have hl := wf.length_enclosing_of_parent hp
      obtain ⟨k, rfl⟩ : ∃ k', k = k' + 1 := ⟨k - 1, by omega⟩
      exact nestedFrom_stable k j (by omega) n m (by omega) (by omega)
    · rfl

theorem nestedFrom_eq (i : OpId) :
    p.nestedFrom d (p.ops.size + 1) i =
      i :: if d i then (p.children i).flatMap (p.nestedFrom d (p.ops.size + 1)) else [] := by
  rw [nestedFrom]
  congr 2
  refine flatMap_congr fun j hj => ?_
  have hl := wf.length_enclosing_of_parent (wf.mem_children.mp hj)
  exact wf.nestedFrom_stable d (p.ops.size - 1) j (by omega) _ _ (by omega) (by omega)

theorem nested_eq (i : OpId) : p.nested i = i :: (p.children i).flatMap p.nested := by
  exact wf.nestedFrom_eq (fun _ => true) i

end Walk

theorem mem_nested : i ∈ p.nested a ↔ p.Within a i := by
  constructor
  · revert i
    refine wf.inwards (P := fun a => ∀ {i}, i ∈ p.nested a → p.Within a i) ?_ a
    intro a ih i hi
    rw [wf.nested_eq, mem_cons, mem_flatMap] at hi
    rcases hi with rfl | ⟨j, hj, hi⟩
    · exact .refl
    · have hp := wf.mem_children.mp hj
      exact (Within.single hp).trans (ih j hp hi)
  · intro h
    have down : ∀ a, ∀ {i q}, p.parent? i = some q → q ∈ p.nested a → i ∈ p.nested a := by
      refine wf.inwards (P := fun a => ∀ {i q}, p.parent? i = some q → q ∈ p.nested a → i ∈ p.nested a) ?_
      intro a ih i q hp hq
      rw [wf.nested_eq, mem_cons, mem_flatMap] at hq ⊢
      rcases hq with rfl | ⟨j, hj, hq⟩
      · refine .inr ⟨i, wf.mem_children.mpr hp, ?_⟩
        rw [wf.nested_eq]
        exact mem_cons_self ..
      · exact .inr ⟨j, hj, ih j (wf.mem_children.mp hj) hp hq⟩
    induction h with
    | refl => rw [wf.nested_eq]; exact mem_cons_self ..
    | step hp _ ih => exact down a hp ih

theorem nodup_children (q : OpId) : (p.children q).Nodup := by
  have blocksOnce : (p.op q).regions.flatten.Nodup := by
    refine nodup_flatten.mpr ⟨wf.regionOnce q, ?_⟩
    refine pairwise_iff_getElem.mpr fun k l hk hl hkl b hb hb' => ?_
    have h1 := (wf.region q k b).mp ⟨_, getElem?_eq_getElem hk, hb⟩
    have h2 := (wf.region q l b).mp ⟨_, getElem?_eq_getElem hl, hb'⟩
    omega
  have : p.children q = (p.op q).regions.flatten.flatMap fun b => (p.block b).ops := by
    simp only [children, flatMap_def, flatten_flatten, map_flatten, map_map]
    rfl
  rw [this]
  refine nodup_flatMap.mpr ⟨fun b _ => wf.once b, ?_⟩
  refine blocksOnce.imp fun hne i hi hi' => hne ?_
  have h1 := (wf.listed i _).mpr hi
  rw [(wf.listed i _).mpr hi'] at h1
  exact (Option.some.inj h1).symm

theorem nodup_nested (i : OpId) : (p.nested i).Nodup := by
  refine wf.inwards (P := fun i => (p.nested i).Nodup) ?_ i
  intro i ih
  rw [wf.nested_eq]
  refine nodup_cons.mpr ⟨fun h => ?_, nodup_flatMap.mpr ⟨fun j hj => ih j (wf.mem_children.mp hj), ?_⟩⟩
  · obtain ⟨j, hj, hi⟩ := mem_flatMap.mp h
    exact wf.not_within_of_parent (wf.mem_children.mp hj) (wf.mem_nested.mp hi)
  · -- two operations listed in the same one hold nothing in common
    refine List.Pairwise.imp_of_mem (fun {j k} hj hk hne x hxj hxk => hne ?_) (wf.nodup_children i)
    exact (wf.grounded x).eq_of_parent (wf.mem_children.mp hj) (wf.mem_children.mp hk) (wf.mem_nested.mp hxj)
      (wf.mem_nested.mp hxk)

theorem preorder_eq (d : OpId → Bool) (i : OpId) :
    p.preorder d i = (p.children i).flatMap (p.nestedFrom d (p.ops.size + 1)) := by
  have agree : ∀ j, ¬ p.Within j i →
      p.nestedFrom (fun k => decide (k = i) || d k) (p.ops.size + 1) j = p.nestedFrom d (p.ops.size + 1) j := by
    refine wf.inwards (P := fun j => ¬ p.Within j i → p.nestedFrom _ _ j = p.nestedFrom d _ j) ?_
    intro j ih hj
    have hne : j ≠ i := fun h => hj (h ▸ .refl)
    rw [wf.nestedFrom_eq, wf.nestedFrom_eq d]
    simp only [hne, decide_false, Bool.false_or]
    congr 2
    refine flatMap_congr fun k hk => ih k (wf.mem_children.mp hk) fun h => hj ?_
    exact (Within.single (wf.mem_children.mp hk)).trans h
  have outside : ∀ j ∈ p.children i, ∀ k ∈ p.nestedFrom d (p.ops.size + 1) j, k ≠ i := by
    intro j hj k hk hki
    subst hki
    have sub : ∀ j, k ∈ p.nestedFrom d (p.ops.size + 1) j → k ∈ p.nested j := by
      refine wf.inwards (P := fun j => k ∈ p.nestedFrom d _ j → k ∈ p.nested j) ?_
      intro j ih hk
      rw [wf.nestedFrom_eq] at hk
      rw [wf.nested_eq]
      rcases mem_cons.mp hk with rfl | hk
      · exact mem_cons_self ..
      · split at hk
        · obtain ⟨l, hl, hk⟩ := mem_flatMap.mp hk
          exact mem_cons_of_mem _ (mem_flatMap.mpr ⟨l, hl, ih l (wf.mem_children.mp hl) hk⟩)
        · cases hk
    exact wf.not_within_of_parent (wf.mem_children.mp hj) (wf.mem_nested.mp (sub j hk))
  rw [preorder, wf.nestedFrom_eq]
  simp only [decide_true, Bool.true_or, if_true, ne_eq, not_true_eq_false, decide_false, Bool.false_eq_true,
    not_false_eq_true, filter_cons_of_neg]
  rw [flatMap_congr fun j hj => agree j fun h => wf.not_within_of_parent (wf.mem_children.mp hj) h]
  refine filter_eq_self.mpr fun k hk => ?_
  obtain ⟨j, hj, hk⟩ := mem_flatMap.mp hk
  simpa using outside j hj k hk

theorem nested_eq_preorder (i : OpId) : p.nested i = i :: p.preorder (fun _ => true) i := by
  rw [wf.nested_eq, wf.preorder_eq]
  rfl

section
variable {p' : Program} (wf' : p'.WellFormed) {g : OpId → List OpId}
  (hb : ∀ b, (p'.block b).ops = (p.block b).ops.flatMap g) {P : OpId → Prop}
  (hP : ∀ i j, P i → p.parent? j = some i → P j)
  (hg : ∀ i, P i → (g i = [i] ∧ (p'.op i).regions = (p.op i).regions) ∨
    ((p.op i).regions = [] ∧ ∀ j ∈ g i, (p'.op j).regions = []))
include wf' hb hP hg

/-- Where every block of `p'` lists what the block of `p` lists, with `g` in place of each operation, so
does the walk, provided `g` leaves alone what holds regions and adds nothing that does. -/
theorem flatMap_nested : ∀ i, P i → (g i).flatMap p'.nested = (p.nested i).flatMap g := by
  have leaf : ∀ {q : Program}, q.WellFormed → ∀ {i}, (q.op i).regions = [] → q.nested i = [i] := by
    intro q wfq i hi
    rw [wfq.nested_eq, children, hi]
    rfl
  refine wf.inwards ?_
  intro i ih hi
  rcases hg i hi with ⟨hgi, hr⟩ | ⟨hr, hnew⟩
  · have hc : p'.children i = (p.children i).flatMap g := by
      simp only [children, hr, flatMap_assoc, hb]
    have hin : (p.children i).flatMap (fun j => (g j).flatMap p'.nested) =
        (p.children i).flatMap fun j => (p.nested j).flatMap g :=
      flatMap_congr fun j hj => ih j (wf.mem_children.mp hj) (hP i j hi (wf.mem_children.mp hj))
    rw [hgi, flatMap_singleton, wf'.nested_eq, wf.nested_eq i, flatMap_cons, hgi, hc,
      flatMap_assoc, hin, flatMap_assoc]
    rfl
  · rw [leaf wf hr, flatMap_singleton, flatMap_congr (g := fun j => [j]) fun j hj => leaf wf' (hnew j hj)]
    simp

theorem flatMap_preorder (ha : (p'.op a).regions = (p.op a).regions) (hc : ∀ j, p.parent? j = some a → P j) :
    p'.preorder (fun _ => true) a = (p.preorder (fun _ => true) a).flatMap g := by
  have : p'.children a = (p.children a).flatMap g := by simp only [children, ha, flatMap_assoc, hb]
  rw [wf'.preorder_eq, wf.preorder_eq, this, flatMap_assoc, flatMap_assoc]
  exact flatMap_congr fun j hj =>
    wf.flatMap_nested wf' hb hP hg j (hc j (wf.mem_children.mp hj))

end

end WellFormed

end Offload.Program
