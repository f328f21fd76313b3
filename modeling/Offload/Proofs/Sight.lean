import Offload.Proofs.Checking
import Offload.Proofs.Visibility

/-!
# What the check of operands accepts

`visible` accepts a value if an operation around the user lies in the block that defines it, behind the
definition, and every isolated operation around the user has the definition in its regions. Only the lists of
blocks and the homes of operations have to agree: operations elsewhere may even be nested in themselves.
-/

namespace Offload.Program

/-- The value is an argument of the block, or a result of an operation that the block lists before `a`. -/
def AvailableAt (p : Program) (b : BlockId) (a : OpId) (v : ValueId) : Prop :=
  match (p.value v).source with
  | .argument c _ => c = b
  | .result d _ => Precedes (p.block b).ops d a

/-- The block that defines the value lies in the regions of `q`, at any depth. -/
def InRegions (p : Program) (q : OpId) (v : ValueId) : Prop :=
  ∃ b, p.homeOf v = some b ∧ p.Within q (p.block b).owner

variable {r : Registry} {p : Program} {root u a i q x : OpId} {b : BlockId} {v : ValueId}

/-! ## Chains that end in a detached root -/

section Chains

variable (hd : (p.op root).block = none)
include hd

theorem eq_root_of_within (h : p.Within a root) : a = root := by
  cases h with
  | refl => rfl
  | step hp _ => simp [parent?, hd] at hp

theorem not_within_of_child (hx : p.Within root x) (ha : p.parent? a = some x) : ¬ p.Within a x := by
  induction hx generalizing a with
  | refl =>
    intro h
    rw [eq_root_of_within hd h] at ha
    simp [parent?, hd] at ha
  | @step x y hp _ ih =>
    intro h
    cases h with
    | refl =>
      obtain rfl := Option.mem_unique ha hp
      exact ih ha .refl
    | step hp' h =>
      obtain rfl := Option.mem_unique hp' hp
      exact ih hp ((Within.single ha).trans h)

theorem grounded_of_root (hr : p.HasOp root) (hx : p.Within root x) : p.Grounded x := by
  -- what holds `x` is inside of the root or is the root
  have hin : ∀ {a q}, p.Within a x → p.parent? a = some q → p.Within root q := fun ha hp => by
    rcases hx.total ((Within.single hp).trans ha) with h | h
    · exact h
    · exact eq_root_of_within hd h ▸ .refl
  exact ⟨fun a q ha hp => (hin ha hp).hasOp hr, fun a q ha hp => not_within_of_child hd (hin ha hp) hp⟩

end Chains

/-! ## The climb -/

def Reaches (p : Program) (root i : OpId) (v : ValueId) : Prop :=
  ∃ a b, p.Within root a ∧ p.Within a i ∧ (p.op a).block = some b ∧ p.AvailableAt b a v

def Uncaptured (r : Registry) (p : Program) (i : OpId) (v : ValueId) : Prop :=
  ∀ q, p.Within q i → q ≠ i → r.isIsolated (p.op q) = true → p.InRegions q v

section Climb

theorem uncaptured_here (hb : p.homeOf v = some b) (hib : (p.op i).block = some b) : Uncaptured r p i v := by
  intro x hx hne _
  obtain ⟨y, hy, hw⟩ := hx.of_ne hne
  simp only [parent?, hib, Option.map_some, Option.some.injEq] at hy
  exact ⟨b, hb, hy ▸ hw⟩

theorem uncaptured_child_iff (hg : p.Grounded i) (hp : p.parent? i = some q) :
    Uncaptured r p i v ↔ Uncaptured r p q v ∧ (r.isIsolated (p.op q) = true → p.InRegions q v) := by
  have hnot := hg.acyclic i q .refl hp
  constructor
  · intro h
    refine ⟨fun x hx _ => h x (.step hp hx) ?_, h q (.single hp) ?_⟩
    · rintro rfl
      exact hnot hx
    · rintro rfl
      exact hnot .refl
  · rintro ⟨h, hiq⟩ x hx hne
    obtain ⟨y, hy, hw⟩ := hx.of_ne hne
    obtain rfl := Option.mem_unique hy hp
    by_cases hxy : x = y
    · exact hxy ▸ hiq
    · exact h x hw hxy

variable (hc : p.Consistent)
include hc

theorem AvailableAt.home (h : p.AvailableAt b a v) : p.homeOf v = some b := by
  unfold AvailableAt at h
  unfold homeOf
  cases hs : (p.value v).source with
  | argument c k =>
    rw [hs] at h
    exact congrArg some h
  | result d k =>
    rw [hs] at h
    obtain ⟨y, z, w, hl⟩ := h
    exact (hc.listed d b).mpr (by simp [hl])

omit hc in
theorem availableAt_iff (hb : p.homeOf v = some b) :
    p.AvailableAt b a v ↔ ∀ d, p.definingOp? v = some d → Precedes (p.block b).ops d a := by
  unfold AvailableAt definingOp?
  unfold homeOf at hb
  cases hs : (p.value v).source with
  | argument c k => simpa [hs] using hb
  | result d k => simp

theorem reaches_child_iff (hne : ∀ b, p.homeOf v = some b → (p.op i).block ≠ some b) (hp : p.parent? i = some q) :
    p.Reaches root i v ↔ p.Reaches root q v := by
  constructor
  · rintro ⟨a, b, hra, hai, hab, hav⟩
    cases hai with
    | refl => exact absurd hab (hne b (hav.home hc))
    | step hp' hw =>
      obtain rfl := Option.mem_unique hp' hp
      exact ⟨a, b, hra, hw, hab, hav⟩
  · rintro ⟨a, b, hra, haq, hab, hav⟩
    exact ⟨a, b, hra, .step hp haq, hab, hav⟩

theorem reaches_here_iff (hg : p.Grounded i) (hi : p.Within root i) (hb : p.homeOf v = some b)
    (hib : (p.op i).block = some b) : p.Reaches root i v ↔ p.AvailableAt b i v := by
  refine ⟨?_, fun h => ⟨i, b, hi, .refl, hib, h⟩⟩
  rintro ⟨a, c, -, hai, hac, hav⟩
  obtain rfl := Option.some.inj ((hav.home hc).symm.trans hb)
  obtain rfl := hg.siblings hac hib hai .refl
  exact hav

/-- What reaches a value is in the block that defines it, or in an operation of that block. -/
theorem not_inRegions_of_reaches (hg : ∀ {x}, p.Within root x → p.Grounded x) (h : p.Reaches root q v) :
    ¬ p.InRegions q v := by
  rintro ⟨c, hcb, hw⟩
  obtain ⟨a, b, hra, haq, hab, hav⟩ := h
  obtain rfl := Option.some.inj ((hav.home hc).symm.trans hcb)
  exact (hg hra).acyclic a _ .refl (parent?_eq_some.mpr ⟨b, hab, rfl⟩) (haq.trans hw)

theorem visible_iff (hd : (p.op root).block = none) (hg : ∀ {x}, p.Within root x → p.Grounded x)
    (hb : p.homeOf v = some b) (hi : p.Within root i) :
    Visible r p root v i ↔ p.Reaches root i v ∧ Uncaptured r p i v := by
  induction hi with
  | refl =>
    refine ⟨fun h => ?_, ?_⟩
    · cases h with
      | here hroot => simp [hd] at hroot
      | up _ hne => exact absurd rfl hne
    · rintro ⟨⟨a, c, -, ha, hac, -⟩, -⟩
      rw [eq_root_of_within hd ha, hd] at hac
      cases hac
  | @step i q hp hq ih =>
    have hi : p.Within root i := .step hp hq
    by_cases hib : (p.op i).block = some b
    · rw [visible_here_iff (hg hi) hb hib, reaches_here_iff hc (hg hi) hi hb hib, availableAt_iff hb]
      exact (and_iff_left (uncaptured_here hb hib)).symm
    · have hroot : i ≠ root := by
        rintro rfl
        simp [parent?, hd] at hp
      have hne : ∀ c, p.homeOf v = some c → (p.op i).block ≠ some c := fun c hcb =>
        Option.mem_unique hb hcb ▸ hib
      rw [visible_up_iff hb hib hp, reaches_child_iff hc hne hp, uncaptured_child_iff (hg hi) hp, ih]
      constructor
      · rintro ⟨-, hiso, hreach, hun⟩
        exact ⟨hreach, hun, fun h => by simp [hiso] at h⟩
      · rintro ⟨hreach, hun, hin⟩
        refine ⟨hroot, Bool.not_eq_true _ ▸ fun h => ?_, hreach, hun⟩
        exact not_inRegions_of_reaches hc hg hreach (hin h)

theorem not_reaches_own (hg : ∀ {x}, p.Within root x → p.Grounded x) (hdef : p.definingOp? v = some x)
    (hx : p.Within x u) : ¬ p.Reaches root u v := by
  rintro ⟨a, b, hra, hau, hab, hav⟩
  have hb := hav.home hc
  obtain ⟨k, hs⟩ := source_of_definingOp? hdef
  simp only [AvailableAt, homeOf, hs] at hav hb
  obtain rfl := (hg (hra.trans hau)).siblings hb hab hx hau
  obtain ⟨y, z, w, hl⟩ := hav
  have hn := hc.once b
  rw [hl] at hn
  simp [List.nodup_append] at hn

end Climb

/-- An operand is accepted iff an operation from the user up to the root lies in the block that defines the
value, behind the definition, and no isolated operation around the user lacks the definition in its regions.
So a value of a block that nothing around the user lies in, a result inside the operation that defines it and
whatever is captured by an isolated operation are refused. -/
theorem visible_ok_iff (hc : p.Consistent) (hr : p.HasOp root) (hd : (p.op root).block = none) (hu : p.Within root u) :
    (p.visible r root u v = .ok () ↔
      (∃ a b, p.Within root a ∧ p.Within a u ∧ (p.op a).block = some b ∧ p.AvailableAt b a v) ∧
      ∀ q, p.Within q u → q ≠ u → r.isIsolated (p.op q) = true → p.InRegions q v) ∧
    ((∀ a b, p.Within a u → p.homeOf v = some b → (p.op a).block ≠ some b) →
      p.visible r root u v ≠ .ok ()) ∧
    (∀ d, p.definingOp? v = some d → p.Within d u → p.visible r root u v ≠ .ok ()) ∧
    ∀ q, p.Within q u → q ≠ u → r.isIsolated (p.op q) = true → ¬ p.InRegions q v →
      p.visible r root u v ≠ .ok () := by
  have hg : ∀ {x}, p.Within root x → p.Grounded x := grounded_of_root hd hr
  have hground : ∀ q x, p.Within q u → p.Within q x → p.Grounded x := fun q x hq hx => by
    refine hg (Within.trans ?_ hx)
    rcases hu.total hq with h | h
    · exact h
    · exact eq_root_of_within hd h ▸ .refl
  have hiff : p.visible r root u v = .ok () ↔ p.Reaches root u v ∧ Uncaptured r p u v := by
    rw [visible_ok hc hground]
    cases hb : p.homeOf v with
    | none =>
      refine ⟨fun h => ?_, ?_⟩
      · obtain ⟨a, b, -, -, hhome, -⟩ := h.home
        simp [hb] at hhome
      · rintro ⟨⟨a, b, -, -, -, hav⟩, -⟩
        simp [hav.home hc] at hb
    | some b => exact visible_iff hc hd hg hb hu
  refine ⟨hiff, fun hout hok => ?_, fun d hdef hdu hok => ?_, fun q hq hne hiso hnot hok => ?_⟩
  · obtain ⟨a, b, -, hau, hab, hav⟩ := (hiff.mp hok).1
    exact hout a b hau (hav.home hc) hab
  · exact not_reaches_own hc hg hdef hdu (hiff.mp hok).1
  · exact hnot ((hiff.mp hok).2 q hq hne hiso)

/-- Operations three deep under an isolated one; the innermost uses a result from outside of the isolated
operation and one from inside. -/
def threeDeep : Program where
  ops := #[
    { name := "t.root", loc := "a", regions := [[0]] },
    { name := "t.def", loc := "b", results := [0], block := some 0 },
    { name := "t.closed", loc := "c", regions := [[1]], block := some 0 },
    { name := "t.def", loc := "d", results := [1], block := some 1 },
    { name := "t.open", loc := "e", regions := [[2]], block := some 1 },
    { name := "t.use", loc := "f", operands := [some 0, some 1], block := some 2 }]
  blocks := #[
    { owner := 0, ops := [1, 2] },
    { owner := 2, ops := [3, 4] },
    { owner := 4, ops := [5] }]
  values := #[
    ⟨.index, .result 1 0, [⟨5, 0⟩]⟩,
    ⟨.index, .result 3 0, [⟨5, 1⟩]⟩]

def closedOnly : Registry := [{ name := "t.closed", traits := { isolated := true } }]

theorem visible_ok_iff_threeDeep :
    threeDeep.Consistent ∧ threeDeep.HasOp 0 ∧ (threeDeep.op 0).block = none ∧ threeDeep.Within 0 5 ∧
    (∃ a b, threeDeep.Within 0 a ∧ threeDeep.Within a 5 ∧ (threeDeep.op a).block = some b ∧
      threeDeep.AvailableAt b a 1) ∧
    (∀ q, threeDeep.Within q 5 → q ≠ 5 → closedOnly.isIsolated (threeDeep.op q) = true →
      threeDeep.InRegions q 1) ∧
    ¬ ((∃ a b, threeDeep.Within 0 a ∧ threeDeep.Within a 5 ∧ (threeDeep.op a).block = some b ∧
        threeDeep.AvailableAt b a 0) ∧
      ∀ q, threeDeep.Within q 5 → q ≠ 5 → closedOnly.isIsolated (threeDeep.op q) = true →
        threeDeep.InRegions q 0) := by
  have wf : threeDeep.WellFormed := .of_check (by decide)
  have hu : threeDeep.Within 0 5 := wf.mem_enclosing.mp (by decide)
  have inner := visible_ok_iff (r := closedOnly) (v := 1) wf.consistent (by decide) (by decide) hu
  have outer := visible_ok_iff (r := closedOnly) (v := 0) wf.consistent (by decide) (by decide) hu
  obtain ⟨hreach, hun⟩ := inner.1.mp (by decide)
  refine ⟨wf.consistent, by decide, by decide, hu, hreach, hun, fun h => ?_⟩
  exact absurd (outer.1.mpr h) (by decide)

end Offload.Program
