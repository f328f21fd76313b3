import Offload.Distribution.Lowering
import Offload.Proofs.Visibility

/-!
# Outside of what is left alone

A conversion does not enter operations with certain names. These are the operations in `root` that it comes to.
-/

namespace Offload

open Program List

variable {d : OpId → Bool}

namespace Program

variable {p q : Program} {shut : String → Bool} {root i j a : OpId}

/-- The operation is nested in `root`, and nothing between has a name that is shut. -/
inductive Outside (p : Program) (shut : String → Bool) (root : OpId) : OpId → Prop
  | child {i : OpId} : p.parent? i = some root → Outside p shut root i
  | deeper {i a : OpId} : p.parent? i = some a → shut (p.op a).name = false → Outside p shut root a →
      Outside p shut root i

namespace Outside

theorem within (h : p.Outside shut root i) : p.Within root i := by
  induction h with
  | child hp => exact .single hp
  | deeper hp _ _ ih => exact .step hp ih

theorem ne_root (wf : p.WellFormed) (h : p.Outside shut root i) : i ≠ root := by
  intro heq
  subst heq
  cases h with
  | child hp => exact wf.not_within_of_parent hp .refl
  | deeper hp _ ha => exact wf.not_within_of_parent hp ha.within

theorem congr (h : p.Outside shut root i) (hq : ∀ j a, p.Within j i → p.parent? j = some a →
    q.parent? j = some a ∧ (q.op a).name = (p.op a).name) : q.Outside shut root i := by
  induction h with
  | child hp => exact .child (hq _ _ .refl hp).1
  | deeper hp hn _ ih =>
    obtain ⟨hqp, hname⟩ := hq _ _ .refl hp
    exact .deeper hqp (hname ▸ hn) (ih fun j a hj => hq j a (.step hp hj))

end Outside

namespace WellFormed

variable (wf : p.WellFormed)
include wf

theorem mem_nestedFrom_self (d : OpId → Bool) (i : OpId) : i ∈ p.nestedFrom d (p.ops.size + 1) i := by
  rw [wf.nestedFrom_eq]
  exact mem_cons_self

theorem mem_nestedFrom_iff : i ∈ p.nestedFrom d (p.ops.size + 1) a ↔
    i = a ∨ d a = true ∧ ∃ c, p.parent? c = some a ∧ i ∈ p.nestedFrom d (p.ops.size + 1) c := by
  rw [wf.nestedFrom_eq, mem_cons]
  refine or_congr_right ?_
  split
  · rename_i hda
    simp only [mem_flatMap, wf.mem_children, hda, true_and]
  · rename_i hda
    simp [hda]

theorem mem_nestedFrom_child (hp : p.parent? i = some a) (hda : d a = true) (c : OpId)
    (h : a ∈ p.nestedFrom d (p.ops.size + 1) c) : i ∈ p.nestedFrom d (p.ops.size + 1) c := by
  induction c using wf.inwards with
  | step c ih =>
    rw [wf.mem_nestedFrom_iff] at h ⊢
    rcases h with rfl | ⟨hdc, k, hk, ha⟩
    · exact .inr ⟨hda, i, hp, wf.mem_nestedFrom_self d i⟩
    · exact .inr ⟨hdc, k, hk, ih k hk ha⟩

theorem within_of_mem_nestedFrom (c : OpId) (h : i ∈ p.nestedFrom d (p.ops.size + 1) c) :
    p.Within c i := by
  induction c using wf.inwards with
  | step c ih =>
    rcases wf.mem_nestedFrom_iff.mp h with rfl | ⟨-, k, hk, hi⟩
    · exact .refl
    · exact (Within.single hk).trans (ih k hk hi)

private theorem children_apart (d : OpId → Bool) (c : OpId) : (p.children c).Pairwise fun k l =>
    ∀ x ∈ p.nestedFrom d (p.ops.size + 1) k, ∀ y ∈ p.nestedFrom d (p.ops.size + 1) l, ¬ p.Within y x := by
  refine List.Pairwise.imp_of_mem (fun {k l} hk hl hne x hx y hy hyx => hne ?_) (wf.nodup_children c)
  exact (wf.grounded x).eq_of_parent (wf.mem_children.mp hk) (wf.mem_children.mp hl) (wf.within_of_mem_nestedFrom k hx)
    ((wf.within_of_mem_nestedFrom l hy).trans hyx)

theorem preorder_outwards (d : OpId → Bool) (root : OpId) : (p.preorder d root).Pairwise fun a b =>
    ¬ p.Within b a := by
  rw [wf.preorder_eq]
  refine pairwise_flatMap.mpr ⟨fun c hc => ?_, wf.children_apart d root⟩
  clear hc
  induction c using wf.inwards with
  | step c ih =>
    rw [wf.nestedFrom_eq]
    split
    · refine pairwise_cons.mpr ⟨fun b hb hbc => ?_, pairwise_flatMap.mpr ⟨fun k hk => ?_,
        wf.children_apart d c⟩⟩
      · obtain ⟨k, hk, hb⟩ := mem_flatMap.mp hb
        exact wf.not_within_of_parent (wf.mem_children.mp hk) ((wf.within_of_mem_nestedFrom k hb).trans hbc)
      · exact ih k (wf.mem_children.mp hk)
    · exact pairwise_singleton ..

theorem mem_preorder : i ∈ p.preorder (fun j => !shut (p.op j).name) root ↔ p.Outside shut root i := by
  simp only [wf.preorder_eq, mem_flatMap, wf.mem_children]
  constructor
  · rintro ⟨c, hc, hi⟩
    have hstart : p.Outside shut root c := .child hc
    clear hc
    induction c using wf.inwards with
    | step c ih =>
      rcases wf.mem_nestedFrom_iff.mp hi with rfl | ⟨hdc, k, hk, hi⟩
      · exact hstart
      · exact ih k hk hi (.deeper hk (by simpa using hdc) hstart)
  · intro h
    induction h with
    | child hp => exact ⟨_, hp, wf.mem_nestedFrom_self _ _⟩
    | deeper hp hn _ ih =>
      obtain ⟨c, hc, ha⟩ := ih
      exact ⟨c, hc, wf.mem_nestedFrom_child hp (by simpa using hn) c ha⟩

end WellFormed

end Program

namespace Rewrite

variable {p : Program} {target : Target} {root i : OpId}

def Target.shut (target : Target) (name : String) : Bool := target.recursivelyLegal.contains name

theorem isInside_iff (wf : p.WellFormed) (h : p.Within root i) (hne : i ≠ root) :
    target.isInside p i root = false ↔ p.Outside target.shut root i := by
  induction h with
  | refl => exact absurd rfl hne
  | step hp hw ih =>
    rename_i i a
    rw [Target.isInside, wf.enclosing_of_parent hp, drop_one, tail_cons, wf.enclosing_eq a,
      takeWhile_cons]
    by_cases har : a = root
    · subst har
      rw [if_neg (by simp), any_nil]
      exact iff_of_true rfl (.child hp)
    · have hrec := ih har
      rw [Target.isInside, wf.enclosing_eq a, drop_one, tail_cons] at hrec
      simp only [ne_eq, har, not_false_eq_true, decide_true, if_true, any_cons, Bool.or_eq_false_iff, hrec]
      constructor
      · exact fun ⟨hn, ha⟩ => .deeper hp hn ha
      · intro hout
        cases hout with
        | child hp' => exact absurd (Option.mem_unique hp hp') har
        | deeper hp' hn ha =>
          obtain rfl := Option.mem_unique hp hp'
          exact ⟨hn, ha⟩

end Rewrite

namespace Distribution

def isLaunch (name : String) : Bool := name = Workgroup.launchName

theorem shut_target (sel : Selector) : (target sel).shut = isLaunch := by
  funext name
  simp [target, Rewrite.Target.shut, isLaunch, NameSet.contains, NameSet.ofList, NameSet.insertAll, NameSet.insert,
    NameSet.place]

end Distribution

end Offload
