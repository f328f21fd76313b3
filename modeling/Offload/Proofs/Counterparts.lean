import Offload.Proofs.Cloneable
import Offload.Proofs.Mirrors

/-!
# Copies of operations

Each operation and block of a copy stands for one of the original, found by going down through the regions side
by side. This is a one-to-one correspondence.
-/

namespace Offload

open Program List Option

section
variable {α β : Type} {l : List α} {l' : List β} {x : α} {y z : β}

theorem Alongside.swap (h : Alongside l l' x y) : Alongside l' l y x := by
  obtain ⟨k, hx, hy⟩ := h
  exact ⟨k, hy, hx⟩

theorem Alongside.unique (hn : l.Nodup) (h : Alongside l l' x y) (h' : Alongside l l' x z) : y = z := by
  obtain ⟨k, hx, hy⟩ := h
  obtain ⟨k', hx', hz⟩ := h'
  obtain rfl : k = k' := (getElem?_inj (List.getElem?_eq_some_iff.mp hx).1 hn).mp (hx.trans hx'.symm)
  exact mem_unique hy hz

theorem eq_map_of_alongside {f : α → β} (hlen : l.length = l'.length)
    (h : ∀ x y, Alongside l l' x y → y = f x) : l' = l.map f := by
  refine ext_getElem? fun k => ?_
  rw [getElem?_map]
  cases hx : l[k]? with
  | none =>
    rw [List.getElem?_eq_none_iff] at hx
    rw [getElem?_eq_none (hlen ▸ hx), map_none]
  | some x =>
    have hk : k < l'.length := hlen ▸ (List.getElem?_eq_some_iff.mp hx).1
    rw [map_some, getElem?_eq_getElem hk, h x _ ⟨k, hx, getElem?_eq_getElem hk⟩]

end

/-! ## What stands for what -/

/-- `y` is in `q`, below `k`, where `x` is in `p`, below `i`. -/
inductive Counterpart (p q : Program) (i k : OpId) : OpId → OpId → Prop
  | top : Counterpart p q i k i k
  | under {a e x y : OpId} {bs cs : List BlockId} {b c : BlockId} : Counterpart p q i k a e →
      Alongside (p.op a).regions (q.op e).regions bs cs → Alongside bs cs b c →
      Alongside (p.block b).ops (q.block c).ops x y → Counterpart p q i k x y

def BlockCounterpart (p q : Program) (i k : OpId) (b c : BlockId) : Prop :=
  ∃ a e bs cs, Counterpart p q i k a e ∧ Alongside (p.op a).regions (q.op e).regions bs cs ∧ Alongside bs cs b c

section
variable {p q : Program} {i k a e x y z : OpId} {b c d : BlockId}

theorem Counterpart.swap (h : Counterpart p q i k x y) : Counterpart q p k i y x := by
  induction h with
  | top => exact .top
  | under _ hr hb hx ih => exact .under ih hr.swap hb.swap hx.swap

theorem BlockCounterpart.swap (h : BlockCounterpart p q i k b c) : BlockCounterpart q p k i c b := by
  obtain ⟨a, e, bs, cs, hae, hr, hb⟩ := h
  exact ⟨e, a, cs, bs, hae.swap, hr.swap, hb.swap⟩

theorem Counterpart.under_block (h : BlockCounterpart p q i k b c)
    (hx : Alongside (p.block b).ops (q.block c).ops x y) : Counterpart p q i k x y := by
  obtain ⟨a, e, bs, cs, hae, hr, hb⟩ := h
  exact .under hae hr hb hx

variable (wf : p.WellFormed)
include wf

theorem Counterpart.within (h : Counterpart p q i k x y) : p.Within i x := by
  induction h with
  | top => exact .refl
  | under _ hr hb hx ih =>
    refine .step (parent?_eq_some.mpr ⟨_, (wf.listed _ _).mpr hx.mem.1, ?_⟩) ih
    exact (wf.owner_of_mem hr.mem.1 hb.mem.1).2

theorem BlockCounterpart.owner (h : BlockCounterpart p q i k b c) :
    p.HasBlock b ∧ p.Within i (p.block b).owner ∧ ∃ e, Counterpart p q i k (p.block b).owner e := by
  obtain ⟨a, e, bs, cs, hae, hr, hb⟩ := h
  obtain ⟨hB, rfl⟩ := wf.owner_of_mem hr.mem.1 hb.mem.1
  exact ⟨hB, hae.within wf, e, hae⟩

theorem eq_of_regions {bs bs' cs cs' : List BlockId} (hr : Alongside (p.op a).regions (q.op e).regions bs cs)
    (hb : Alongside bs cs b c) (hr' : Alongside (p.op a).regions (q.op e).regions bs' cs')
    (hb' : Alongside bs' cs' b d) : c = d := by
  obtain ⟨n, hn, hn'⟩ := hr
  obtain ⟨n', hm, hm'⟩ := hr'
  obtain rfl : n = n' :=
    ((wf.region a n b).mp ⟨bs, hn, hb.mem.1⟩).2.2.symm.trans ((wf.region a n' b).mp ⟨bs', hm, hb'.mem.1⟩).2.2
  obtain rfl := mem_unique hn hm
  obtain rfl := mem_unique hn' hm'
  exact hb.unique (wf.regionOnce a bs (mem_of_getElem? hn)) hb'

theorem Counterpart.unique (h : Counterpart p q i k x y) (h' : Counterpart p q i k x z) : y = z := by
  have notTop : ∀ {a e bs cs b c y}, Counterpart p q i k a e → Alongside (p.op a).regions (q.op e).regions bs cs →
      Alongside bs cs b c → ¬ Alongside (p.block b).ops (q.block c).ops i y := by
    intro a e bs cs b c y hae hr hb hx
    refine wf.not_within_of_parent (parent?_eq_some.mpr ⟨b, (wf.listed _ _).mpr hx.mem.1, ?_⟩) (hae.within wf)
    exact (wf.owner_of_mem hr.mem.1 hb.mem.1).2
  induction h generalizing z with
  | top =>
    cases h' with
    | top => rfl
    | under hae hr hb hx => exact absurd hx (notTop hae hr hb)
  | @under a e x y bs cs b c hae hr hb hx ih =>
    cases h' with
    | top => exact absurd hx (notTop hae hr hb)
    | @under a' e' _ _ bs' cs' b' c' hae' hr' hb' hx' =>
      -- the block that lists `x` has one owner, and one block stands for it
      obtain rfl : b = b' :=
        Option.some.inj (((wf.listed x b).mpr hx.mem.1).symm.trans ((wf.listed x b').mpr hx'.mem.1))
      obtain rfl : a = a' := (wf.owner_of_mem hr.mem.1 hb.mem.1).2.symm.trans
        (wf.owner_of_mem hr'.mem.1 hb'.mem.1).2
      obtain rfl := ih hae'
      obtain rfl := eq_of_regions wf hr hb hr' hb'
      exact hx.unique (wf.once b) hx'

theorem BlockCounterpart.unique (h : BlockCounterpart p q i k b c) (h' : BlockCounterpart p q i k b d) : c = d := by
  obtain ⟨a, e, bs, cs, hae, hr, hb⟩ := h
  obtain ⟨a', e', bs', cs', hae', hr', hb'⟩ := h'
  obtain rfl : a = a' := (wf.owner_of_mem hr.mem.1 hb.mem.1).2.symm.trans
    (wf.owner_of_mem hr'.mem.1 hb'.mem.1).2
  obtain rfl := hae.unique wf hae'
  exact eq_of_regions wf hr hb hr' hb'

end

/-! ## Counterparts in a copy -/

namespace Cloning

section
variable {N : ValueId → ValueId → Prop} {p q : Program} {lo hi n : Nat} {i k x y : OpId} {b c : BlockId}
  (hc : Copied N p q lo hi n i k)
include hc

theorem Copied.counterpart (h : Counterpart p q i k x y) : ∃ n, Copied N p q lo hi (n + 1) x y := by
  induction h with
  | top =>
    cases n with
    | zero => exact hc.elim
    | succ n => exact ⟨n, hc⟩
  | under _ hr hb hx ih =>
    obtain ⟨n, hn⟩ := ih
    have hcop := hx.rel (hb.rel (hr.rel hn.2.2.2)).2.2.2
    cases n with
    | zero => exact hcop.elim
    | succ n => exact ⟨n, hcop⟩

theorem Copied.blockCounterpart (h : BlockCounterpart p q i k b c) :
    ∃ n, BlockCopied N p q hi (Copied N p q lo hi n) b c := by
  obtain ⟨a, e, bs, cs, hae, hr, hb⟩ := h
  obtain ⟨n, hn⟩ := hc.counterpart hae
  exact ⟨n, hb.rel (hr.rel hn.2.2.2)⟩

variable (wf : p.WellFormed)
include wf

theorem Copied.exists_block (hae : ∃ y, Counterpart p q i k (p.block b).owner y) (hB : p.HasBlock b) :
    ∃ c, BlockCounterpart p q i k b c := by
  obtain ⟨e, hae⟩ := hae
  obtain ⟨n, hn⟩ := hc.counterpart hae
  obtain ⟨bs, hbs, hmem⟩ := (wf.region _ _ b).mpr ⟨hB, rfl, rfl⟩
  obtain ⟨cs, hr⟩ := exists_alongside hn.2.2.2.length_eq (mem_of_getElem? hbs)
  obtain ⟨c, hb⟩ := exists_alongside (hr.rel hn.2.2.2).length_eq hmem
  exact ⟨c, _, e, bs, cs, hae, hr, hb⟩

theorem Copied.exists_counterpart (hx : p.Within i x) : ∃ y, Counterpart p q i k x y := by
  induction hx with
  | refl => exact ⟨k, .top⟩
  | @step x a hp _ ih =>
    obtain ⟨b, hb, rfl⟩ := parent?_eq_some.mp hp
    obtain ⟨c, hbc⟩ := hc.exists_block wf ih (wf.hasBlock_of_block hb)
    obtain ⟨n, hn⟩ := hc.blockCounterpart hbc
    obtain ⟨y, hy⟩ := exists_alongside hn.2.2.2.length_eq ((wf.listed x b).mp hb)
    exact ⟨y, .under_block hbc hy⟩

end

end Cloning

end Offload
