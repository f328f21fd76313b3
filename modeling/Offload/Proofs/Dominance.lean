import Offload.Proofs.Visibility

/-!
# Definitions come first

What sees a value comes after its definition in program order, and sees whatever the definition saw.
`Spread` compares two programs in which every operation became a list of operations in its place.
-/

namespace Offload.Program

open List Option

variable {r : Registry} {p q : Program} {root i j k d x : OpId} {b : BlockId} {u v w : ValueId}

namespace Precedes

variable {l l' : List OpId}

theorem mem (h : Precedes l d i) : d ∈ l ∧ i ∈ l := by
  obtain ⟨x, y, z, rfl⟩ := h
  simp

theorem trans (hn : l.Nodup) (h : Precedes l d j) (h' : Precedes l j i) : Precedes l d i := by
  have hdj := (precedes_iff_idxOf hn h.mem.1).mp h
  have hji := (precedes_iff_idxOf hn h'.mem.1).mp h'
  exact (precedes_iff_idxOf hn h.mem.1).mpr ⟨hji.1, Nat.lt_trans hdj.2 hji.2⟩

theorem flatMap {f : OpId → List OpId} (h : Precedes l d i) (hx : x ∈ f d) (hk : k ∈ f i) :
    Precedes (l.flatMap f) x k := by
  obtain ⟨l1, l2, l3, rfl⟩ := h
  obtain ⟨x1, x2, hx⟩ := append_of_mem hx
  obtain ⟨k1, k2, hk⟩ := append_of_mem hk
  refine ⟨l1.flatMap f ++ x1, x2 ++ l2.flatMap f ++ k1, k2 ++ l3.flatMap f, ?_⟩
  simp [hx, hk]

theorem of_infix (h : Precedes l d i) (hl : l <:+: l') : Precedes l' d i := by
  obtain ⟨x, y, z, rfl⟩ := h
  obtain ⟨s, t, rfl⟩ := hl
  exact ⟨s ++ x, y, z ++ t, by simp⟩

end Precedes

theorem infix_flatMap {α β : Type} {l : List α} {a : α} (f : α → List β) (h : a ∈ l) :
    f a <:+: l.flatMap f := by
  obtain ⟨x, y, rfl⟩ := append_of_mem h
  exact ⟨x.flatMap f, y.flatMap f, by simp⟩

namespace WellFormed

variable (wf : p.WellFormed)
include wf

theorem source_result (hv : v ∈ (p.op j).results) :
    p.HasValue v ∧ p.homeOf v = (p.op j).block ∧ p.definingOp? v = some j := by
  obtain ⟨k, hk⟩ := getElem?_of_mem hv
  obtain ⟨hval, hs⟩ := (wf.result j k v).mp hk
  exact ⟨hval, by simp [homeOf, hs], by simp [definingOp?, hs]⟩

/-! ## Program order -/

theorem nested_infix (h : p.Within i j) : p.nested j <:+: p.nested i := by
  induction h with
  | refl => exact infix_rfl
  | @step j a hp _ ih =>
    refine List.IsInfix.trans ?_ ih
    rw [wf.nested_eq a]
    exact (infix_flatMap p.nested (wf.mem_children.mpr hp)).trans (suffix_cons ..).isInfix

theorem precedes_children (hp : p.parent? i = some d) (hb : (p.op i).block = some b)
    (h : Precedes (p.block b).ops j i) : Precedes (p.children d) j i := by
  obtain ⟨c, hc, ho⟩ := parent?_eq_some.mp hp
  obtain rfl : b = c := mem_unique hb hc
  obtain ⟨bs, hbs, hm⟩ := (wf.region d _ b).mpr ⟨wf.hasBlock_of_block hb, ho, rfl⟩
  refine h.of_infix ((infix_flatMap (fun b => (p.block b).ops) hm).trans ?_)
  exact infix_flatMap (fun bs => bs.flatMap fun b => (p.block b).ops) (mem_of_getElem? hbs)

theorem precedes_within (hd : (p.op d).block = some b) (ho : p.Within root d) (hne : d ≠ root)
    (ha : (p.op j).block = some b) (h : Precedes (p.block b).ops d j)
    (hi : p.Within j i) : Precedes (p.nested root) d i := by
  obtain ⟨o, hp, hwo⟩ := ho.of_ne (Ne.symm hne)
  obtain rfl : (p.block b).owner = o := by
    obtain ⟨c, hc, ho⟩ := parent?_eq_some.mp hp
    rwa [mem_unique hd hc]
  have hchildren := wf.precedes_children (parent?_eq_some.mpr ⟨b, ha, rfl⟩) ha h
  refine Precedes.of_infix ?_ (wf.nested_infix hwo)
  rw [wf.nested_eq]
  refine Precedes.of_infix ?_ (suffix_cons ..).isInfix
  exact hchildren.flatMap (wf.mem_nested.mpr .refl) (wf.mem_nested.mpr hi)

theorem precedes_nested (hv : v ∈ (p.op d).results) (hd : p.Within root d) (hne : d ≠ root)
    (h : Visible r p root v i) : Precedes (p.nested root) d i := by
  obtain ⟨a, b, hw, hab, hh, hdef⟩ := h.home
  obtain ⟨_, hhome, hdo⟩ := wf.source_result hv
  exact wf.precedes_within (hhome.symm.trans hh) hd hne hab (hdef d hdo) hw

/-! ## Seeing through a definition -/

theorem visible_of_precedes (hj : p.Within root j) (hne : j ≠ root) (hb : (p.op j).block = some b)
    (hi : (p.op i).block = some b) (hji : Precedes (p.block b).ops j i) (h : Visible r p root u j) :
    Visible r p root u i := by
  cases h with
  | @here _ c hc hh hd =>
    obtain rfl : c = b := mem_unique hc hb
    exact .here hi hh fun d hd' => (hd d hd').trans (wf.once c) hji
  | @up _ a hp _ hiso ha =>
    obtain ⟨c, hc, rfl⟩ := parent?_eq_some.mp hp
    obtain rfl : c = b := mem_unique hc hb
    refine .up (parent?_eq_some.mpr ⟨c, hi, rfl⟩) ?_ hiso ha
    rintro rfl
    exact hne ((wf.grounded _).siblings hi hb hj .refl).symm

theorem visible_through (hj : p.Within root j) (hne : j ≠ root) (hu : Visible r p root u j)
    (hv : v ∈ (p.op j).results) (h : Visible r p root v i) : Visible r p root u i := by
  obtain ⟨_, hhome, hdo⟩ := wf.source_result hv
  induction h with
  | here hb hh hd => exact wf.visible_of_precedes hj hne (hhome.symm.trans hh) hb (hd j hdo) hu
  | up hp hr hi _ ih => exact .up hp hr hi ih

end WellFormed

/-! ## Operations in the place of others -/

/-- In `q` the operations `f i` stand in the place of each operation `i` of which `P` holds. -/
structure Spread (r : Registry) (p q : Program) (f : OpId → List OpId) (P : OpId → Prop) : Prop where
  wellFormed : q.WellFormed
  owner : ∀ i b, P i → (p.op i).block = some b → (q.block b).owner = (p.block b).owner
  ops : ∀ i b, P i → (p.op i).block = some b → (q.block b).ops = (p.block b).ops.flatMap f
  parent : ∀ i a, P i → p.parent? i = some a → P a ∧ a ∈ f a ∧ r.isIsolated (q.op a) = r.isIsolated (p.op a)
  new : ∀ i k, P i → k ∈ f i → k = i ∨ ¬ p.HasOp k

namespace Spread

variable {f : OpId → List OpId} {P : OpId → Prop} (h : Spread r p q f P)
include h

theorem block (wf : p.WellFormed) (hi : P i) (hk : k ∈ f i) (hb : (p.op i).block = some b) :
    (q.op k).block = some b := by
  rw [h.wellFormed.listed, h.ops i b hi hb]
  exact mem_flatMap.mpr ⟨i, (wf.listed i b).mp hb, hk⟩

theorem parent? (wf : p.WellFormed) (hi : P i) (hk : k ∈ f i) {a : OpId} (hp : p.parent? i = some a) :
    q.parent? k = some a := by
  obtain ⟨b, hb, rfl⟩ := parent?_eq_some.mp hp
  exact parent?_eq_some.mpr ⟨b, h.block wf hi hk hb, h.owner i b hi hb⟩

theorem visible (wf : p.WellFormed) (hroot : p.HasOp root) (hhome : q.homeOf w = p.homeOf v)
    (hdef : ∀ x, q.definingOp? w = some x → ∃ d, p.definingOp? v = some d ∧ x ∈ f d)
    (hv : Visible r p root v i) (hi : P i) (hk : k ∈ f i) : Visible r q root w k := by
  induction hv generalizing k with
  | @here i b hb hh hd =>
    refine .here (h.block wf hi hk hb) (hhome.trans hh) fun x hx => ?_
    obtain ⟨d, hd', hxd⟩ := hdef x hx
    rw [h.ops i b hi hb]
    exact (hd d hd').flatMap hxd hk
  | @up i a hp hne hiso _ ih =>
    obtain ⟨ha, haf, hia⟩ := h.parent i a hi hp
    refine .up (h.parent? wf hi hk hp) ?_ (hia.trans hiso) (ih ha haf)
    rintro rfl
    rcases h.new i k hi hk with rfl | hn
    · exact hne rfl
    · exact hn hroot

theorem visible_before (wf : p.WellFormed) (hi : P i) (hb : (p.op i).block = some b) {l m n : List OpId}
    (hf : f i = l ++ x :: (m ++ k :: n)) (hw : w ∈ (q.op x).results) : Visible r q root w k := by
  obtain ⟨_, hhome, hdo⟩ := h.wellFormed.source_result hw
  have hx : x ∈ f i := by simp [hf]
  have hk : k ∈ f i := by simp [hf]
  refine .here (h.block wf hi hk hb) (hhome.trans (h.block wf hi hx hb)) fun d hd => ?_
  obtain rfl : x = d := mem_unique hdo hd
  rw [h.ops i b hi hb]
  exact Precedes.of_infix ⟨l, m, n, hf⟩ (infix_flatMap f ((wf.listed i b).mp hb))

end Spread

end Offload.Program
