import Offload.Proofs.Verified
import Offload.Proofs.Writing

/-!
# Visible values

An operation sees a value if, going outwards and past no isolated operation, one comes to the block that
defines it, behind its definition.
-/

namespace Offload

open Program List Option

variable {a i j root : OpId} {b : BlockId} {l l' : List OpId} {r : Registry} {v : ValueId}

namespace Program

def Precedes (l : List OpId) (d i : OpId) : Prop := ∃ x y z, l = x ++ d :: (y ++ i :: z)

inductive Visible (r : Registry) (p : Program) (root : OpId) (v : ValueId) : OpId → Prop
  | here {i : OpId} {b : BlockId} : (p.op i).block = some b → p.homeOf v = some b →
      (∀ d, p.definingOp? v = some d → Precedes (p.block b).ops d i) → Visible r p root v i
  | up {i a : OpId} : p.parent? i = some a → i ≠ root → r.isIsolated (p.op a) = false →
      Visible r p root v a → Visible r p root v i

def Defines (p : Program) (a : OpId) (v : ValueId) : Prop := p.HasValue v ∧ p.Within a (p.anchorOf v)

def Holds (p : Program) (b : BlockId) (v : ValueId) : Prop :=
  v ∈ (p.block b).args ∨ ∃ i ∈ (p.block b).ops, p.Defines i v

variable {r : Registry} {p : Program} {root i a d : OpId} {b : BlockId} {v : ValueId}

theorem precedes_iff_idxOf (hn : l.Nodup) (hd : d ∈ l) :
    Precedes l d i ↔ i ∈ l ∧ l.idxOf d < l.idxOf i := by
  constructor
  · rintro ⟨x, y, z, rfl⟩
    simp only [nodup_append, nodup_cons, mem_append, mem_cons] at hn
    have hdx : d ∉ x := fun h => (hn.2.2 d h d (.inl rfl)) rfl
    have hix : i ∉ x := fun h => (hn.2.2 i h i (.inr (.inr (.inl rfl)))) rfl
    have hdi : d ≠ i := fun h => hn.2.1.1 (.inr (.inl h))
    refine ⟨by simp, ?_⟩
    rw [idxOf_append_of_notMem hdx, idxOf_append_of_notMem hix, idxOf_cons_self,
      idxOf_cons_ne _ hdi]
    omega
  · rintro ⟨hi, hlt⟩
    obtain ⟨x, m, rfl⟩ := append_of_mem hd
    simp only [nodup_append, mem_cons] at hn
    have hdx : d ∉ x := fun h => hn.2.2 d h d (.inl rfl) rfl
    have hix : i ∉ x := by
      intro h
      rw [idxOf_append_of_notMem hdx, idxOf_append_of_mem h] at hlt
      have := idxOf_lt_length_of_mem h
      omega
    rcases mem_append.mp hi with h | h
    · exact absurd h hix
    · rcases mem_cons.mp h with rfl | h
      · exact absurd hlt (Nat.lt_irrefl _)
      · obtain ⟨y, z, rfl⟩ := append_of_mem h
        exact ⟨x, y, z, rfl⟩

theorem Precedes.of_sublist (h : Precedes l d i) (hl : l.Sublist l') : Precedes l' d i := by
  obtain ⟨x, y, z, rfl⟩ := h
  obtain ⟨l₁, l₂, rfl, -, h₂⟩ := append_sublist_iff.mp hl
  obtain ⟨r₁, r₂, rfl, hd, hr⟩ := cons_sublist_iff.mp h₂
  obtain ⟨s₁, s₂, rfl, -, hs⟩ := append_sublist_iff.mp hr
  obtain ⟨t₁, t₂, rfl, hi, -⟩ := cons_sublist_iff.mp hs
  obtain ⟨a, a', rfl⟩ := append_of_mem hd
  obtain ⟨c, c', rfl⟩ := append_of_mem hi
  exact ⟨l₁ ++ a, a' ++ s₁ ++ c, c' ++ t₂, by simp⟩

theorem Precedes.mem_before (hn : (l ++ i :: l').Nodup) (h : Precedes (l ++ i :: l') d i) :
    d ∈ l := by
  have hd : d ∈ l ++ i :: l' := by
    obtain ⟨x, y, z, hl⟩ := h
    simp [hl]
  have hi : i ∉ l := fun hi => (nodup_append.mp hn).2.2 i hi i (by simp) rfl
  have hlt := ((precedes_iff_idxOf hn hd).mp h).2
  rw [idxOf_append_of_notMem hi, idxOf_cons_self] at hlt
  by_contra hdl
  rw [idxOf_append_of_notMem hdl] at hlt
  omega

theorem Visible.home (h : Visible r p root v i) : ∃ a b, p.Within a i ∧ (p.op a).block = some b ∧
    p.homeOf v = some b ∧ ∀ d, p.definingOp? v = some d → Precedes (p.block b).ops d a := by
  induction h with
  | @here i b hb hh hd => exact ⟨i, b, .refl, hb, hh, hd⟩
  | up hp _ _ _ ih =>
    obtain ⟨a, b, hw, h⟩ := ih
    exact ⟨a, b, .step hp hw, h⟩

theorem source_of_definingOp? (h : p.definingOp? v = some d) : ∃ k, (p.value v).source = .result d k := by
  unfold definingOp? at h
  cases hs : (p.value v).source with
  | result o k =>
    rw [hs] at h
    exact ⟨k, by rw [Option.some.inj h]⟩
  | argument b k => simp [hs] at h

/-! ## The climb -/

theorem Visible.not_defines (hc : p.Consistent) (hg : p.Grounded (p.anchorOf v)) (h : Visible r p root v i) :
    ¬ p.Within i (p.anchorOf v) := by
  intro hw
  obtain ⟨a, b, ha, hab, hh, hd⟩ := h.home
  have hwa := ha.trans hw
  cases hs : (p.value v).source with
  | result o k =>
    simp only [anchorOf, hs] at hwa hg
    simp only [homeOf, hs] at hh
    obtain rfl := hg.siblings hab hh hwa .refl
    obtain ⟨x, y, z, hl⟩ := hd a (by simp [definingOp?, hs])
    have := hc.once b
    rw [hl] at this
    simp [nodup_append] at this
  | argument c k =>
    simp only [anchorOf, hs] at hwa hg
    simp only [homeOf, hs, Option.some.injEq] at hh
    subst hh
    exact hg.acyclic a _ hwa (parent?_eq_some.mpr ⟨c, hab, rfl⟩) hwa

theorem visible_here_iff (hg : p.Grounded i) (hh : p.homeOf v = some b) (hb : (p.op i).block = some b) :
    Visible r p root v i ↔ ∀ d, p.definingOp? v = some d → Precedes (p.block b).ops d i := by
  refine ⟨fun h => ?_, .here hb hh⟩
  obtain ⟨a, c, ha, hab, hac, hd⟩ := h.home
  obtain rfl := mem_unique hac hh
  obtain rfl := hg.siblings hab hb ha .refl
  exact hd

theorem visible_up_iff (hh : p.homeOf v = some b) (hb : (p.op i).block ≠ some b) (hp : p.parent? i = some a) :
    Visible r p root v i ↔ i ≠ root ∧ r.isIsolated (p.op a) = false ∧ Visible r p root v a := by
  constructor
  · intro h
    cases h with
    | here hb' hh' _ => exact absurd (hb'.trans (hh'.symm.trans hh)) hb
    | up hp' hr hi hv =>
      obtain rfl := mem_unique hp hp'
      exact ⟨hr, hi, hv⟩
  · rintro ⟨hr, hi, hv⟩
    exact .up hp hr hi hv

theorem visibleFrom_ok (hc : p.Consistent) (hh : p.homeOf v = some b) : ∀ (l : List OpId) (i : OpId),
    (∀ q x, p.Within q i → p.Within q x → p.Grounded x) → l = p.enclosing i →
      (p.visibleFrom r root v b l = .ok () ↔ Visible r p root v i)
  | [], i, hg, hl => by cases hl.trans (hg i i .refl .refl).enclosing_eq
  | j :: rest, i, hg, hl => by
    have hgi := hg i i .refl .refl
    obtain ⟨rfl, hrest⟩ := List.cons.inj (hl.trans hgi.enclosing_eq)
    rw [visibleFrom]
    by_cases hb : (p.op j).block = some b
    · rw [if_pos hb, visible_here_iff hgi hh hb]
      have hj : j ∈ (p.block b).ops := (hc.listed j b).mp hb
      cases hd : p.definingOp? v with
      | none => simp
      | some d =>
        have hdm : d ∈ (p.block b).ops := by
          obtain ⟨k, hs⟩ := source_of_definingOp? hd
          exact (hc.listed d b).mp (by simpa [homeOf, hs] using hh)
        simp only [Option.some.injEq, forall_eq']
        rw [precedes_iff_idxOf (hc.once b) hdm]
        split <;> simp [hj] <;> omega
    · rw [if_neg hb]
      cases hp : p.parent? j with
      | none =>
        simp only [reduceCtorEq, false_iff]
        intro h
        cases h with
        | here hb' hh' _ => exact hb (by rw [hb', ← hh, hh'])
        | up hp' _ _ _ => simp [hp] at hp'
      | some q =>
        rw [hp] at hrest
        have ih := visibleFrom_ok hc hh rest q (fun x y hx => hg x y (.step hp hx)) hrest
        rw [visible_up_iff hh hb hp]
        by_cases hi : r.isIsolated (p.op q) = true
        · simp only [hi, Bool.true_and, Bool.not_eq_true', Bool.true_eq_false, false_and, and_false, iff_false]
          split
          · simp
          · split
            · simp
            · intro h
              -- an isolated operation around the definition cannot see it from inside
              rename_i hna _
              rw [Bool.not_eq_false, isAncestor, contains_iff_mem] at hna
              have hw := within_of_mem_enclosingFrom _ _ hna
              exact (ih.mp h).not_defines hc (hg q _ (.single hp) hw) hw
        · rw [Bool.not_eq_true] at hi
          simp only [hi, Bool.false_and, Bool.false_eq_true, if_false]
          by_cases hr : j = root
          · simp [hr]
          · simp only [hr, if_false, ih, ne_eq, not_false_eq_true, true_and]

theorem visible_ok (hc : p.Consistent) (hg : ∀ q x, p.Within q i → p.Within q x → p.Grounded x) :
    p.visible r root i v = .ok () ↔ Visible r p root v i := by
  unfold visible
  cases hh : p.homeOf v with
  | none =>
    simp only [reduceCtorEq, false_iff]
    intro h
    obtain ⟨a, b, -, -, hb, -⟩ := h.home
    simp [hh] at hb
  | some home => exact visibleFrom_ok hc hh _ i hg rfl

namespace WellFormed

variable (wf : p.WellFormed)
include wf

theorem definingOp?_eq_some : p.HasValue v → p.definingOp? v = some d → v ∈ (p.op d).results := by
  intro hv hd
  obtain ⟨k, hs⟩ := source_of_definingOp? hd
  exact mem_of_getElem? ((wf.result d k v).mpr ⟨hv, hs⟩)

theorem anchorOf_arg (hv : v ∈ (p.block b).args) : p.anchorOf v = (p.block b).owner := by
  obtain ⟨k, hk⟩ := getElem?_of_mem hv
  simp only [anchorOf, ((wf.argument b k v).mp hk).2]

theorem anchorOf_result (hv : v ∈ (p.op a).results) : p.anchorOf v = a := by
  obtain ⟨k, hk⟩ := getElem?_of_mem hv
  simp only [anchorOf, ((wf.result a k v).mp hk).2]

theorem not_defines_of_visible (h : Visible r p root v i) : ¬ p.Within i (p.anchorOf v) :=
  h.not_defines wf.consistent (wf.grounded _)

theorem visible_ok : p.visible r root i v = .ok () ↔ Visible r p root v i :=
  Program.visible_ok wf.consistent fun _ _ _ _ => wf.grounded _

theorem hasOp_anchor (hv : p.HasValue v) : p.HasOp (p.anchorOf v) := by
  unfold anchorOf
  cases hs : (p.value v).source with
  | result o k =>
    have hk := (wf.result o k v).mpr ⟨hv, hs⟩
    by_contra ho
    rw [op_of_not_hasOp ho] at hk
    cases hk
  | argument b k => exact wf.hasOp_owner (hasBlock_of_arg ((wf.argument b k v).mpr ⟨hv, hs⟩))

end WellFormed

end Program

/-! ## Nesting in a later program -/

/-- What was there stays, up to operands and the lists of blocks. -/
structure Frame (p q : Program) : Prop where
  ops : p.ops.size ≤ q.ops.size
  blocks : p.blocks.size ≤ q.blocks.size
  values : p.values.size ≤ q.values.size
  op : ∀ j, p.HasOp j → q.op j = { p.op j with operands := (q.op j).operands }
  block : ∀ c, p.HasBlock c → q.block c = { p.block c with ops := (q.block c).ops }
  value : ∀ v, p.HasValue v → (q.value v).type = (p.value v).type ∧ (q.value v).source = (p.value v).source

namespace Frame

variable {p m q : Program}

theorem refl (p : Program) : Frame p p :=
  ⟨Nat.le_refl _, Nat.le_refl _, Nat.le_refl _, fun _ _ => rfl, fun _ _ => rfl, fun _ _ => ⟨rfl, rfl⟩⟩

theorem trans (h : Frame p m) (h' : Frame m q) : Frame p q where
  ops := Nat.le_trans h.ops h'.ops
  blocks := Nat.le_trans h.blocks h'.blocks
  values := Nat.le_trans h.values h'.values
  op j hj := by rw [h'.op j (Nat.lt_of_lt_of_le hj h.ops), h.op j hj]
  block c hc := by rw [h'.block c (Nat.lt_of_lt_of_le hc h.blocks), h.block c hc]
  value v hv := by
    obtain ⟨ht, hs⟩ := h'.value v (Nat.lt_of_lt_of_le hv h.values)
    rw [ht, hs]
    exact h.value v hv

section
variable (h : Frame p q)
include h

theorem hasOp (hj : p.HasOp j) : q.HasOp j := Nat.lt_of_lt_of_le hj h.ops

theorem hasValue (hv : p.HasValue v) : q.HasValue v := Nat.lt_of_lt_of_le hv h.values

theorem typeOf (hv : p.HasValue v) : q.typeOf v = p.typeOf v := (h.value v hv).1

theorem owner {c : BlockId} (hc : p.HasBlock c) : (q.block c).owner = (p.block c).owner := by rw [h.block c hc]

variable (wf : p.WellFormed)
include wf

theorem parent? (hj : p.HasOp j) : q.parent? j = p.parent? j := by
  simp only [Program.parent?]
  rw [h.op j hj]
  cases hb : (p.op j).block with
  | none => rfl
  | some b => rw [map_some, map_some, h.owner (wf.hasBlock_of_block hb)]

theorem within_iff (hj : p.HasOp j) : q.Within a j ↔ p.Within a j := by
  constructor
  · intro hw
    induction hw with
    | refl => exact .refl
    | step hp _ ih =>
      rw [h.parent? wf hj] at hp
      exact .step hp (ih (wf.hasOp_parent hp))
  · intro hw
    induction hw with
    | refl => exact .refl
    | step hp _ ih => exact .step (by rwa [h.parent? wf hj]) (ih (wf.hasOp_parent hp))

theorem anchorOf (hv : p.HasValue v) : q.anchorOf v = p.anchorOf v := by
  simp only [Program.anchorOf, (h.value v hv).2]
  cases hs : (p.value v).source with
  | result o k => rfl
  | argument b k =>
    exact h.owner (hasBlock_of_arg ((wf.argument b k v).mpr ⟨hv, hs⟩))

theorem homeOf (hv : p.HasValue v) : q.homeOf v = p.homeOf v := by
  simp only [Program.homeOf, (h.value v hv).2]
  cases hs : (p.value v).source with
  | result o k =>
    have ho : p.HasOp o := by
      have := wf.hasOp_anchor hv
      rwa [Program.anchorOf, hs] at this
    simp only
    rw [h.op o ho]
  | argument b k => rfl

theorem visible (hlist : ∀ c, p.HasBlock c → (p.block c).ops.Sublist (q.block c).ops)
    (hv : p.HasValue v) (hi : p.HasOp i) (hvis : Visible r p root v i) :
    Visible r q root v i := by
  induction hvis with
  | @here i b hb hh hd =>
    refine .here (by rw [h.op i hi, hb]) (by rw [h.homeOf wf hv, hh]) fun d hdef => ?_
    have hdef' : p.definingOp? v = some d := by rwa [definingOp?, (h.value v hv).2, ← definingOp?] at hdef
    exact (hd d hdef').of_sublist (hlist b (wf.hasBlock_of_block hb))
  | @up i a hp hr hiso _ ih =>
    have ha := wf.hasOp_parent hp
    have hname : (q.op a).name = (p.op a).name := by rw [h.op a ha]
    exact .up (by rw [h.parent? wf hi, hp]) hr (by rwa [Registry.isIsolated, hname]) (ih ha)

end

end Frame

namespace Later

variable {Y : BlockId → Prop} {p q : Program}

theorem frame (h : Later (fun _ => False) Y p q) : Frame p q :=
  ⟨h.ops, h.blocks, h.values, fun j hj => by rw [h.op j hj id], h.block, h.value⟩

variable (wf : p.WellFormed) (h : Later (fun _ => False) Y p q)
include wf h

theorem within_iff (hj : p.HasOp j) : q.Within a j ↔ p.Within a j := h.frame.within_iff wf hj

theorem anchorOf (hv : p.HasValue v) : q.anchorOf v = p.anchorOf v := h.frame.anchorOf wf hv

theorem defines_iff (hv : p.HasValue v) : q.Defines a v ↔ p.Defines a v := by
  rw [Defines, Defines, h.anchorOf wf hv, h.within_iff wf (wf.hasOp_anchor hv)]
  simp [hv, h.hasValue hv]

theorem holds_iff (hb : p.HasBlock b) (hY : ¬ Y b) (hv : p.HasValue v) :
    q.Holds b v ↔ p.Holds b v := by
  simp only [Holds, h.block_eq hb hY, h.defines_iff wf hv]

theorem hasOp_of_within (hb : ∀ c, Y c → c = b) (wfq : q.WellFormed) (hi : p.HasOp i)
    (hout : ¬ p.Within i (p.block b).owner) (hw : q.Within i j) : p.HasOp j := by
  induction hw with
  | refl => exact hi
  | @step j a hp hw ih =>
    obtain ⟨c, hc, ho⟩ := parent?_eq_some.mp hp
    have hcp : p.HasBlock c := by
      obtain ⟨bs, hbs, hmem⟩ := (wfq.region a _ c).mpr ⟨wfq.hasBlock_of_block hc, ho, rfl⟩
      rw [h.op a ih id] at hbs
      exact ((wf.region a _ c).mp ⟨bs, hbs, hmem⟩).1
    by_cases hY : Y c
    · obtain rfl := hb c hY
      rw [h.owner hcp] at ho
      exact absurd (ho ▸ (h.within_iff wf ih).mp hw) hout
    · have hj := (wfq.listed j c).mp hc
      rw [h.list c hcp hY] at hj
      exact hasOp_of_block ((wf.listed j c).mpr hj)

theorem outside {i k : OpId} (hi : p.HasOp i) (hb : p.HasBlock b) (hout : ¬ p.Within i (p.block b).owner)
    (hk : ¬ p.HasOp k) (hhome : (q.op k).block = some b) : ¬ q.Within i k := by
  intro hin
  obtain ⟨a, ha, hia⟩ := hin.of_ne fun heq => hk (heq ▸ hi)
  rw [Program.parent?, hhome, map_some, Option.some.injEq, h.owner hb] at ha
  subst ha
  exact hout ((h.within_iff wf (wf.hasOp_owner hb)).mp hia)

theorem sees (hb : ∀ c, Y c → c = b) (wfq : q.WellFormed) (hi : p.HasOp i) (hout : ¬ p.Within i (p.block b).owner)
    (hlist : ∀ c, p.HasBlock c → (p.block c).ops.Sublist (q.block c).ops)
    (hsees : ∀ x, p.Within i x → x ≠ i → ∀ s ∈ (p.op x).operands, ∃ v, s = some v ∧
      Visible r p root v x) :
    ∀ x, q.Within i x → x ≠ i → ∀ s ∈ (q.op x).operands, ∃ v, s = some v ∧ Visible r q root v x := by
  intro x hx hne s hs
  have hxo := h.hasOp_of_within wf hb wfq hi hout hx
  rw [h.op x hxo id] at hs
  obtain ⟨v, rfl, hvis⟩ := hsees x ((h.within_iff wf hxo).mp hx) hne s hs
  exact ⟨v, rfl, h.frame.visible wf hlist (wf.hasValue_operand hs) hxo hvis⟩

end Later

end Offload
