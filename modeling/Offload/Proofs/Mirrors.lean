import Offload.Proofs.Copies
import Offload.Proofs.Dominance

/-!
# Copies mirror what was copied

Each operation of a copied region stands for one of the original, at the same place, and sees the copies of what
the original sees.
-/

namespace Offload

open Program List

/-! ## Lists side by side -/

section
variable {α β : Type} {l : List α} {l' : List β} {R : α → β → Prop} {x : α} {y : β}

def Alongside (l : List α) (l' : List β) (x : α) (y : β) : Prop := ∃ k : Nat, l[k]? = some x ∧ l'[k]? = some y

theorem Alongside.mem (h : Alongside l l' x y) : x ∈ l ∧ y ∈ l' := by
  obtain ⟨k, hx, hy⟩ := h
  exact ⟨mem_of_getElem? hx, mem_of_getElem? hy⟩

theorem Alongside.rel (h : Alongside l l' x y) (hR : Forall₂ R l l') : R x y := by
  obtain ⟨k, hx, hy⟩ := h
  obtain ⟨hk, rfl⟩ := List.getElem?_eq_some_iff.mp hx
  obtain ⟨hk', rfl⟩ := List.getElem?_eq_some_iff.mp hy
  exact hR.get hk hk'

theorem exists_alongside (hlen : l.length = l'.length) (hx : x ∈ l) : ∃ y, Alongside l l' x y := by
  obtain ⟨k, hk⟩ := getElem?_of_mem hx
  have hlt := (List.getElem?_eq_some_iff.mp hk).1
  exact ⟨l'[k], k, hk, getElem?_eq_getElem _⟩

theorem exists_alongside_right (hlen : l.length = l'.length) (hy : y ∈ l') : ∃ x, Alongside l l' x y := by
  obtain ⟨x, k, h', h⟩ := exists_alongside hlen.symm hy
  exact ⟨x, k, h, h'⟩

theorem exists_getElem?_of_forall₂ {k : Nat} (h : Forall₂ R l l') (hy : l'[k]? = some y) :
    ∃ x, l[k]? = some x ∧ R x y := by
  obtain ⟨hk, rfl⟩ := List.getElem?_eq_some_iff.mp hy
  have hk' : k < l.length := h.length_eq ▸ hk
  exact ⟨l[k], getElem?_eq_getElem hk', h.get hk' hk⟩

theorem getElem?_of_forall₂ {φ : α → β} {k : Nat} (h : Forall₂ (fun a b => b = φ a) l l')
    (hx : l[k]? = some x) : l'[k]? = some (φ x) := by
  obtain ⟨hk, rfl⟩ := List.getElem?_eq_some_iff.mp hx
  have hk' : k < l'.length := h.length_eq ▸ hk
  rw [getElem?_eq_getElem hk']
  exact congrArg some (h.get hk hk')

end

theorem precedes_iff_getElem? {l : List OpId} {d x : OpId} (hn : l.Nodup) {k : Nat} (hx : l[k]? = some x) :
    Precedes l d x ↔ ∃ j < k, l[j]? = some d := by
  have hidx : ∀ {j : Nat} {a : OpId}, l[j]? = some a → l.idxOf a = j := fun {j a} h => by
    obtain ⟨hj, rfl⟩ := List.getElem?_eq_some_iff.mp h
    exact hn.idxOf_getElem j hj
  constructor
  · intro h
    have hd := h.mem.1
    obtain ⟨-, hlt⟩ := (precedes_iff_idxOf hn hd).mp h
    exact ⟨l.idxOf d, hidx hx ▸ hlt, getElem?_idxOf hd⟩
  · rintro ⟨j, hj, hjd⟩
    refine (precedes_iff_idxOf hn (mem_of_getElem? hjd)).mpr ⟨mem_of_getElem? hx, ?_⟩
    rwa [hidx hx, hidx hjd]

theorem Alongside.precedes {l l' : List OpId} {d x y : OpId} (h : Alongside l l' x y) (hlen : l.length = l'.length)
    (hn : l.Nodup) (hn' : l'.Nodup) (hd : Precedes l d x) : ∃ e, Alongside l l' d e ∧ Precedes l' e y := by
  obtain ⟨k, hx, hy⟩ := h
  obtain ⟨j, hj, hjd⟩ := (precedes_iff_getElem? hn hx).mp hd
  have hlt : j < l'.length := by
    rw [← hlen]
    exact (List.getElem?_eq_some_iff.mp hjd).1
  have he : l'[j]? = some l'[j] := getElem?_eq_getElem hlt
  exact ⟨l'[j], ⟨j, hjd, he⟩, (precedes_iff_getElem? hn' hy).mpr ⟨j, hj, he⟩⟩

/-! ## Originals and copies -/

section
variable (t m : Program) (bs cs : List BlockId)

inductive Pair (depth : Nat) : Nat → OpId → OpId → Prop
  | top {b c : BlockId} {x y : OpId} : Alongside bs cs b c → Alongside (t.block b).ops (m.block c).ops x y →
      Pair depth depth x y
  | deeper {n : Nat} {a k : OpId} {ds es : List BlockId} {b c : BlockId} {x y : OpId} : Pair depth (n + 1) a k →
      Alongside (t.op a).regions (m.op k).regions ds es → Alongside ds es b c →
      Alongside (t.block b).ops (m.block c).ops x y → Pair depth n x y

end

structure Mirrored (depth : Nat) (φ : ValueId → ValueId) (i inner : OpId) (bs cs : List BlockId)
    (t m : Program) : Prop where
  source : t.WellFormed
  wellFormed : m.WellFormed
  blocks : ∃ k : Nat, (t.op i).regions[k]? = some bs
  copies : (m.op inner).regions = [cs]
  copied : Edit.RegionCopied depth φ bs cs t m

namespace Mirrored

variable {depth n : Nat} {φ : ValueId → ValueId} {i inner x y : OpId} {bs cs : List BlockId} {t m : Program}
  (h : Mirrored depth φ i inner bs cs t m)
include h

theorem block_top {b c : BlockId} (hbc : Alongside bs cs b c) :
    Cloning.BlockCopied (fun v w => w = φ v) t m t.blocks.size
    (Cloning.Copied (fun v w => w = φ v) t m t.ops.size t.blocks.size depth) b c := hbc.rel h.copied.blocks

theorem copied_of_pair (hp : Pair t m bs cs depth n x y) :
    Cloning.Copied (fun v w => w = φ v) t m t.ops.size t.blocks.size n x y := by
  induction hp with
  | top hbc hxy => exact hxy.rel (h.block_top hbc).2.2.2
  | deeper _ hr hbc hxy ih => exact hxy.rel (hbc.rel (hr.rel ih.2.2.2)).2.2.2

theorem located (hp : Pair t m bs cs depth n x y) : ∃ b c, (t.op x).block = some b ∧ (m.op y).block = some c ∧
    Alongside (t.block b).ops (m.block c).ops x y ∧
    Cloning.BlockCopied (fun v w => w = φ v) t m t.blocks.size
      (Cloning.Copied (fun v w => w = φ v) t m t.ops.size t.blocks.size n) b c ∧
    (∀ d e, Alongside (t.block b).ops (m.block c).ops d e → Pair t m bs cs depth n d e) ∧
    (t.parent? x = some i ∧ m.parent? y = some inner ∨
      ∃ a k, t.parent? x = some a ∧ m.parent? y = some k ∧ Pair t m bs cs depth (n + 1) a k) := by
  have hlisted : ∀ {b c x y}, Alongside (t.block b).ops (m.block c).ops x y →
      (t.op x).block = some b ∧ (m.op y).block = some c := fun hxy =>
    ⟨(h.source.listed _ _).mpr hxy.mem.1, (h.wellFormed.listed _ _).mpr hxy.mem.2⟩
  cases hp with
  | @top b c x y hbc hxy =>
    obtain ⟨hb, hc⟩ := hlisted hxy
    obtain ⟨k, hk⟩ := h.blocks
    refine ⟨b, c, hb, hc, hxy, h.block_top hbc, fun d e hde => .top hbc hde, .inl ⟨?_, ?_⟩⟩
    · exact parent?_eq_some.mpr ⟨b, hb, (h.source.owner_of_mem (mem_of_getElem? hk) hbc.mem.1).2⟩
    · exact parent?_eq_some.mpr ⟨c, hc, (h.wellFormed.owner_of_mem (by rw [h.copies]; simp) hbc.mem.2).2⟩
  | @deeper n a k ds es b c x y hak hr hbc hxy =>
    obtain ⟨hb, hc⟩ := hlisted hxy
    refine ⟨b, c, hb, hc, hxy, hbc.rel (hr.rel (h.copied_of_pair hak).2.2.2), fun d e hde => .deeper hak hr hbc hde,
      .inr ⟨a, k, ?_, ?_, hak⟩⟩
    · exact parent?_eq_some.mpr ⟨b, hb, (h.source.owner_of_mem hr.mem.1 hbc.mem.1).2⟩
    · exact parent?_eq_some.mpr ⟨c, hc, (h.wellFormed.owner_of_mem hr.mem.2 hbc.mem.2).2⟩

theorem exists_pair (hy : m.Within inner y) (hne : y ≠ inner) : ∃ n x, Pair t m bs cs depth n x y := by
  induction hy with
  | refl => exact absurd rfl hne
  | @step y k hp hw ih =>
    obtain ⟨c, hc, ho⟩ := parent?_eq_some.mp hp
    have hmem := (h.wellFormed.listed y c).mp hc
    obtain ⟨es, hes, hce⟩ := (h.wellFormed.region k _ c).mpr ⟨h.wellFormed.hasBlock_of_block hc, ho, rfl⟩
    by_cases hk : k = inner
    · subst hk
      rw [h.copies] at hes
      obtain rfl : es = cs := by simpa using mem_of_getElem? hes
      obtain ⟨b, hbc⟩ := exists_alongside_right h.copied.blocks.length_eq hce
      obtain ⟨x, hx⟩ := exists_alongside_right (h.block_top hbc).2.2.2.length_eq hmem
      exact ⟨depth, x, .top hbc hx⟩
    · obtain ⟨n, a, hak⟩ := ih hk
      have hcop := h.copied_of_pair hak
      cases n with
      | zero => exact hcop.elim
      | succ n =>
        obtain ⟨ds, hr⟩ := exists_alongside_right hcop.2.2.2.length_eq (mem_of_getElem? hes)
        have hblocks := hr.rel hcop.2.2.2
        obtain ⟨b, hbc⟩ := exists_alongside_right hblocks.length_eq hce
        obtain ⟨x, hx⟩ := exists_alongside_right (hbc.rel hblocks).2.2.2.length_eq hmem
        exact ⟨n, x, .deeper hak hr hbc hx⟩

theorem parent_of_pair (hp : Pair t m bs cs depth n x y) : ∃ a, t.parent? x = some a ∧ t.Within i a := by
  induction hp with
  | @top b c x y hbc hxy =>
    obtain ⟨k, hk⟩ := h.blocks
    have ho := (h.source.owner_of_mem (mem_of_getElem? hk) hbc.mem.1).2
    exact ⟨i, parent?_eq_some.mpr ⟨b, (h.source.listed _ _).mpr hxy.mem.1, ho⟩, .refl⟩
  | @deeper n a k ds es b c x y hak hr hbc hxy ih =>
    obtain ⟨d, hd, hw⟩ := ih
    have ho := (h.source.owner_of_mem hr.mem.1 hbc.mem.1).2
    exact ⟨a, parent?_eq_some.mpr ⟨b, (h.source.listed _ _).mpr hxy.mem.1, ho⟩, .step hd hw⟩

theorem new_of_pair (hp : Pair t m bs cs depth n x y) : ¬ t.HasOp y ∧ m.HasOp y := by
  have hcop := h.copied_of_pair hp
  cases n with
  | zero => exact hcop.elim
  | succ n => exact ⟨Nat.not_lt.mpr hcop.1, hcop.2.1⟩

theorem opCopied (hp : Pair t m bs cs depth n x y) : Cloning.OpCopied (fun v w => w = φ v) (t.op x) (m.op y) := by
  have hcop := h.copied_of_pair hp
  cases n with
  | zero => exact hcop.elim
  | succ n => exact hcop.2.2.1

theorem visible {r : Registry} {root : OpId} {v : ValueId} (hroot : t.HasOp root)
    (hout : Visible r t root v i → r.isIsolated (t.op i) = false →
      r.isIsolated (m.op inner) = false ∧ Visible r m root (φ v) inner)
    (hvis : Visible r t root v x) : ∀ {n y}, Pair t m bs cs depth n x y → t.HasValue v →
      Visible r m root (φ v) y := by
  induction hvis with
  | @here x b' hb' hh hd =>
    intro n y hp hv
    obtain ⟨b, c, hb, hc, hxy, ⟨-, -, hargs, hops⟩, hpair, -⟩ := h.located hp
    obtain rfl : b' = b := Option.mem_unique hb' hb
    cases hs : (t.value v).source with
    | argument d k =>
      obtain rfl : d = b' := Option.some.inj (by simpa only [homeOf, hs] using hh)
      have hmem := (h.source.argument d k v).mpr ⟨hv, hs⟩
      have hs' := ((h.wellFormed.argument c k (φ v)).mp (getElem?_of_forall₂ hargs hmem)).2
      exact .here hc (by simp only [homeOf, hs']) (by simp [definingOp?, hs'])
    | result d k =>
      have hbefore : Precedes (t.block b').ops d x := hd d (by simp only [definingOp?, hs])
      obtain ⟨e, hde, hbefore'⟩ := hxy.precedes hops.length_eq (h.source.once b') (h.wellFormed.once c) hbefore
      have hres := (h.source.result d k v).mpr ⟨hv, hs⟩
      have hs' := ((h.wellFormed.result e k (φ v)).mp
        (getElem?_of_forall₂ (h.opCopied (hpair d e hde)).results hres)).2
      refine .here hc ?_ fun e' he' => ?_
      · simp only [homeOf, hs']
        exact (h.wellFormed.listed e c).mpr hde.mem.2
      · obtain rfl : e = e' := Option.some.inj (by simpa only [definingOp?, hs'] using he')
        exact hbefore'
  | @up x a hpar hr hiso hva ih =>
    intro n y hp hv
    obtain ⟨b, c, hb, hc, hxy, -, -, hup⟩ := h.located hp
    have hyr : y ≠ root := fun heq => (h.new_of_pair hp).1 (heq ▸ hroot)
    rcases hup with ⟨hxi, hyi⟩ | ⟨a', k, hxa, hyk, hak⟩
    · obtain rfl := Option.mem_unique hpar hxi
      obtain ⟨hiso', hvis'⟩ := hout hva hiso
      exact .up hyi hyr hiso' hvis'
    · obtain rfl := Option.mem_unique hpar hxa
      exact .up hyk hyr (by rwa [Registry.isIsolated, (h.opCopied hak).name]) (ih hak hv)

end Mirrored

end Offload
