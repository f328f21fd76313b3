import Mathlib.Data.List.Forall2
import Offload.Proofs.Emission

/-!
# Writing into a block

`Later` says what a piece of building leaves alone. `Wrote` says in addition which operations it put where a
builder stands, and composes, so that code is read off a builder step by step.
-/

namespace Offload

open Program List

variable {c : BlockId} {i j : OpId} {p q : Program} {s : Edit.Spec} {v : ValueId}

/-! ## Lists side by side -/

section
variable {α β : Type} {R S : α → β → Prop} {l : List α} {l' : List β}

theorem forall₂_imp_of_mem (h : Forall₂ R l l') (hS : ∀ x ∈ l, ∀ y ∈ l', R x y → S x y) :
    Forall₂ S l l' := by
  induction h with
  | nil => exact .nil
  | cons hR _ ih =>
    exact .cons (hS _ (by simp) _ (by simp) hR)
      (ih fun x hx y hy => hS x (mem_cons_of_mem _ hx) y (mem_cons_of_mem _ hy))

theorem forall₂_mem_right (h : Forall₂ R l l') {y : β} (hy : y ∈ l') : ∃ x ∈ l, R x y := by
  induction h with
  | nil => cases hy
  | cons hR _ ih =>
    rcases mem_cons.mp hy with rfl | hy
    · exact ⟨_, by simp, hR⟩
    · obtain ⟨x, hx, h⟩ := ih hy
      exact ⟨x, mem_cons_of_mem _ hx, h⟩

theorem forall₂_and (h : Forall₂ R l l') (h' : Forall₂ S l l') :
    Forall₂ (fun x y => R x y ∧ S x y) l l' := by
  induction h with
  | nil => exact .nil
  | cons hR _ ih =>
    obtain ⟨hS, h'⟩ := forall₂_cons.mp h'
    exact .cons ⟨hR, hS⟩ (ih h')

end

theorem map_some_inj {α : Type} {l l' : List α} (h : l.map some = l'.map some) : l = l' :=
  map_injective_iff.mpr (fun _ _ => Option.some.inj) h

/-! ## What stays -/

/-- What was there is still there, except that the operations in `X` may have changed, and the lists of
the blocks in `Y`. -/
structure Later (X : OpId → Prop) (Y : BlockId → Prop) (p q : Program) : Prop where
  ops : p.ops.size ≤ q.ops.size
  blocks : p.blocks.size ≤ q.blocks.size
  values : p.values.size ≤ q.values.size
  op : ∀ j, p.HasOp j → ¬ X j → q.op j = p.op j
  list : ∀ c, p.HasBlock c → ¬ Y c → (q.block c).ops = (p.block c).ops
  block : ∀ c, p.HasBlock c → q.block c = { p.block c with ops := (q.block c).ops }
  value : ∀ v, p.HasValue v → (q.value v).type = (p.value v).type ∧ (q.value v).source = (p.value v).source

namespace Later

variable {X X' : OpId → Prop} {Y Y' : BlockId → Prop} {p m q : Program}

theorem refl (X : OpId → Prop) (Y : BlockId → Prop) (p : Program) : Later X Y p p where
  ops := Nat.le_refl _
  blocks := Nat.le_refl _
  values := Nat.le_refl _
  op _ _ _ := rfl
  list _ _ _ := rfl
  block _ _ := rfl
  value _ _ := ⟨rfl, rfl⟩

section
variable (h : Later X Y p q)
include h

theorem hasOp (hj : p.HasOp j) : q.HasOp j := Nat.lt_of_lt_of_le hj h.ops

theorem hasBlock (hc : p.HasBlock c) : q.HasBlock c := Nat.lt_of_lt_of_le hc h.blocks

theorem hasValue (hv : p.HasValue v) : q.HasValue v := Nat.lt_of_lt_of_le hv h.values

theorem typeOf (hv : p.HasValue v) : q.typeOf v = p.typeOf v := (h.value v hv).1

theorem block_eq (hc : p.HasBlock c) (hy : ¬ Y c) : q.block c = p.block c := by
  rw [h.block c hc, h.list c hc hy]

theorem owner (hc : p.HasBlock c) : (q.block c).owner = (p.block c).owner := by
  rw [h.block c hc]

theorem slotType? {s : Slot} (hs : ∀ v, s = some v → p.HasValue v) : q.slotType? s = p.slotType? s := by
  cases s with
  | none => rfl
  | some v => simp [Program.slotType?, h.typeOf (hs v rfl)]

theorem instr_eq (wf : p.WellFormed) (hj : p.HasOp j) (hx : ¬ X j) : instr q j = instr p j :=
  instr_congr (h.op j hj hx) fun _ hv => h.typeOf (wf.hasValue_result hv)

theorem result_new (wf : p.WellFormed) (wfq : q.WellFormed) (hj : ¬ p.HasOp j)
    (hv : v ∈ (q.op j).results) : ¬ p.HasValue v := by
  intro hp
  obtain ⟨k, hk⟩ := getElem?_of_mem hv
  have hs := ((wfq.result j k v).mp hk).2
  rw [(h.value v hp).2] at hs
  have := (wf.result j k v).mpr ⟨hp, hs⟩
  rw [op_of_not_hasOp hj] at this
  cases this

end

theorem trans (h : Later X Y p m) (h' : Later X' Y' m q) (hx : ∀ j, p.HasOp j → X' j → X j)
    (hy : ∀ c, p.HasBlock c → Y' c → Y c) : Later X Y p q where
  ops := Nat.le_trans h.ops h'.ops
  blocks := Nat.le_trans h.blocks h'.blocks
  values := Nat.le_trans h.values h'.values
  op j hj hn := (h'.op j (h.hasOp hj) fun hX => hn (hx j hj hX)).trans (h.op j hj hn)
  list c hc hn := (h'.list c (h.hasBlock hc) fun hY => hn (hy c hc hY)).trans (h.list c hc hn)
  block c hc := by rw [h'.block c (h.hasBlock hc), h.block c hc]
  value v hv := by
    obtain ⟨ht, hs⟩ := h'.value v (h.hasValue hv)
    exact ⟨ht.trans (h.value v hv).1, hs.trans (h.value v hv).2⟩

end Later

theorem Edit.NewOp.later {ts : List Ty} {n : Nat}
    (h : Edit.NewOp s ts n p i q) : Later (fun _ => False) (fun _ => False) p q where
  ops := by rw [h.ops]; exact Nat.le_succ _
  blocks := Nat.le_of_eq (by rw [h.blocks])
  values := by rw [h.values]; exact Nat.le_add_right ..
  op j hj _ := h.other j fun hji => by
    rw [hji, h.id] at hj
    exact Nat.lt_irrefl _ hj
  list c _ _ := by rw [h.block]
  block c _ := by rw [h.block]
  value v hv := h.old v hv

theorem Edit.Inserted.later {b : BlockId} {place : Nat}
    (h : Edit.Inserted b place i p q) : Later (· = i) (· = b) p q where
  ops := Nat.le_of_eq h.ops.symm
  blocks := Nat.le_of_eq h.blocks.symm
  values := Nat.le_of_eq (by rw [h.values])
  op j _ hj := h.other j hj
  list c _ hc := by rw [h.away c hc]
  block c _ := by
    by_cases hc : c = b
    · subst hc
      rw [h.here]
    · rw [h.away c hc]
  value v _ := by
    rw [h.value]
    exact ⟨rfl, rfl⟩

namespace Build

variable {b : BlockId} {n : Nat} {js ks : List OpId} {xs ys : List Instr} {c d c' : Construction}

structure Wrote (b : BlockId) (n : Nat) (js : List OpId) (xs : List Instr) (c c' : Construction) : Prop where
  wellFormed : c'.program.WellFormed
  later : Later (fun _ => False) (· = b) c.program c'.program
  blocks : c'.program.blocks.size = c.program.blocks.size
  spot : ∀ l r, (c.program.block b).ops = l ++ r → c.builder.place = l.length →
    (c'.program.block b).ops = l ++ js ++ r ∧ c'.builder.place = (l ++ js).length
  builder : c'.builder = { c.builder with place := c'.builder.place }
  created : c'.created = c.created ++ js
  new : ∀ j ∈ js, ¬ c.program.HasOp j ∧ c'.program.HasOp j
  regions : ∀ j ∈ js, (c'.program.op j).regions = List.replicate n []
  home : ∀ j ∈ js, (c'.program.op j).block = some b
  code : js.map (instr c'.program) = xs
  grown : Grown (fun v => ∀ x ∈ xs, some v ∉ x.operands) c.program c'.program

namespace Wrote

theorem refl (b : BlockId) (n : Nat) (wf : c.program.WellFormed) : Wrote b n [] [] c c where
  wellFormed := wf
  later := .refl _ _ _
  blocks := rfl
  spot l r h hp := by simp [h, hp]
  builder := rfl
  created := by simp
  new := by simp
  regions := by simp
  home := by simp
  code := rfl
  grown := .refl _ _

theorem trans (h : Wrote b n js xs c d) (h' : Wrote b n ks ys d c') : Wrote b n (js ++ ks) (xs ++ ys) c c' where
  wellFormed := h'.wellFormed
  later := h.later.trans h'.later (fun _ _ hf => hf) (fun _ _ hb => hb)
  blocks := h'.blocks.trans h.blocks
  spot l r hl hp := by
    obtain ⟨h1, h2⟩ := h.spot l r hl hp
    obtain ⟨h3, h4⟩ := h'.spot _ r h1 h2
    exact ⟨by rw [h3, append_assoc l], by rw [h4, append_assoc]⟩
  builder := by rw [h'.builder, h.builder]
  created := by rw [h'.created, h.created, append_assoc]
  new j hj := by
    rcases mem_append.mp hj with hj | hj
    · exact ⟨(h.new j hj).1, h'.later.hasOp (h.new j hj).2⟩
    · exact ⟨fun hc => (h'.new j hj).1 (h.later.hasOp hc), (h'.new j hj).2⟩
  regions j hj := by
    rcases mem_append.mp hj with hj | hj
    · rw [h'.later.op j (h.new j hj).2 id, h.regions j hj]
    · exact h'.regions j hj
  home j hj := by
    rcases mem_append.mp hj with hj | hj
    · rw [h'.later.op j (h.new j hj).2 id, h.home j hj]
    · exact h'.home j hj
  code := by
    rw [map_append, h'.code]
    congr 1
    rw [← h.code]
    exact map_congr_left fun j hj => h'.later.instr_eq h.wellFormed (h.new j hj).2 id
  grown := (h.grown.mono fun _ hv x hx => hv x (mem_append_left _ hx)).trans h'.grown fun _ hv x hx =>
    hv x (mem_append_right _ hx)

theorem result (wf : c.program.WellFormed) (h : Wrote b n js xs c c') {x : Instr} (hx : x ∈ xs) {t : Ty}
    (hv : (v, t) ∈ x.results) : c'.program.HasValue v ∧ c'.program.typeOf v = t ∧ ¬ c.program.HasValue v := by
  rw [← h.code] at hx
  obtain ⟨j, hj, rfl⟩ := mem_map.mp hx
  obtain ⟨u, hu, heq⟩ := mem_map.mp hv
  cases heq
  exact ⟨h.wellFormed.hasValue_result hu, rfl, h.later.result_new wf h.wellFormed (h.new j hj).1 hu⟩

end Wrote

structure Stands (b : BlockId) (c : Construction) : Prop where
  wellFormed : c.program.WellFormed
  hasBlock : c.program.HasBlock b
  block : c.builder.block = some b
  place : c.builder.place ≤ (c.program.block b).ops.length

theorem Wrote.stands (h : Wrote b n js xs c c') (hs : Stands b c) : Stands b c' := by
  refine ⟨h.wellFormed, h.later.hasBlock hs.hasBlock, by rw [h.builder, hs.block], ?_⟩
  obtain ⟨hops, hplace⟩ := h.spot _ _ (take_append_drop c.builder.place (c.program.block b).ops).symm
    (by rw [length_take, Nat.min_eq_left hs.place])
  rw [hops, hplace]
  exact (prefix_append ..).length_le

theorem wrote_create (hs : Stands b c) (hn : s.regions = n)
    (hv : ∀ v, some v ∈ s.operands → c.program.HasValue v) (h : Build.create s c = .ok j c') :
    ∃ ts, s.results = ts.map some ∧ Wrote b n [j]
      [{ name := s.name, attrs := s.attrs, operands := s.operands,
         results := (Edit.freshValues c.program ts.length).zip ts }] c c' := by
  obtain ⟨ts, m, hts, hm, hc⟩ := create_at hs.wellFormed hs.block hs.hasBlock hv h
  obtain rfl : m = n := Edit.eq_of_checkLength (hn ▸ hm)
  have hj : ¬ c.program.HasOp j := by rw [hc.made.id]; exact Nat.lt_irrefl _
  have hj' : c'.program.HasOp j := by rw [HasOp, hc.made.ops, hc.made.id]; exact Nat.lt_succ_self _
  refine ⟨ts, hts, hc.wellFormed, ?_, hc.made.blocks, ?_, by rw [hc.builder], hc.created, ?_, ?_, ?_, ?_,
    hc.grown.mono fun v hv => hv _ (mem_singleton.mpr rfl)⟩
  · refine ⟨?_, Nat.le_of_eq hc.made.blocks.symm, ?_, fun k hk _ => hc.op k hk, ?_, ?_, hc.value⟩
    · rw [hc.made.ops]
      exact Nat.le_succ _
    · rw [hc.made.values]
      exact Nat.le_add_right ..
    · intro d _ hd
      rw [hc.away d hd]
    · intro d _
      by_cases hd : d = b
      · subst hd
        rw [hc.here]
      · rw [hc.away d hd]
  · intro l r hl hp
    rw [hc.here, hc.builder, hl, hp, insertIdx_length_append]
    simp
  · intro k hk
    obtain rfl := mem_singleton.mp hk
    exact ⟨hj, hj'⟩
  · intro k hk
    obtain rfl := mem_singleton.mp hk
    rw [hc.made.op]
  · intro k hk
    obtain rfl := mem_singleton.mp hk
    rw [hc.made.op, hs.block]
  · simp only [map_cons, map_nil, instr, hc.made.op, List.cons.injEq, and_true, Instr.mk.injEq, true_and]
    refine ext_getElem? fun k => ?_
    rw [getElem?_map, List.zip, getElem?_zipWith]
    cases hk : ts[k]? with
    | none =>
      have : (Edit.freshValues c.program ts.length)[k]? = none := by
        rw [List.getElem?_eq_none_iff] at hk ⊢
        simpa using hk
      simp [this]
    | some t =>
      have hlt := (List.getElem?_eq_some_iff.mp hk).1
      rw [Edit.getElem?_freshValues.mpr ⟨hlt, rfl⟩]
      simp [hc.made.results k t hk]

end Build

end Offload
