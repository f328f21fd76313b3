import Offload.Proofs.Substitutions

/-!
# Copies

The copy of a region has the same operations on other values. The substitution grows while it is made; what
an operation uses is in it already, because a value is defined before it is used.
-/

namespace Offload

open Program List

variable {Y : BlockId → Prop} {a dest j x : OpId} {b c : BlockId} {bs cs : List BlockId} {k region : Nat}
  {m m' m1 m2 : Substitution} {pre : List OpId} {q q' q1 q2 t : Program} {v : ValueId} {α : Type}

namespace Cloning

private theorem modify_length_append (f : α → α) (a : α) (r : List α) :
    ∀ l : List α, (l ++ a :: r).modify l.length f = l ++ f a :: r
  | [] => rfl
  | x :: l => by simp [modify_length_append f a r l]

theorem modify_self (l : List α) (k : Nat) : l.modify k (fun x => x) = l := modify_id k l

/-! ## Copies of blocks -/

section
variable {p q q' : Program} {X : OpId → Prop} {In : Border} {m m' : Substitution} {dest : OpId} {region : Nat}

structure Opened (p : Program) (X : OpId → Prop) (In : Border) (dest : OpId) (region : Nat)
    (bs cs : List BlockId) (m : Substitution) (q : Program) (m' : Substitution) (q' : Program) : Prop where
  copying : Copying p X In m' q'
  later : Later (· = dest) (fun _ => False) q q'
  ops : q'.ops.size = q.ops.size
  added : Added (fun v => ∃ b ∈ bs, v ∈ (p.block b).args) m m'
  self : q'.op dest = { q.op dest with regions := (q.op dest).regions.modify region (· ++ cs) }
  nodup : cs.Nodup
  blocks : Forall₂ (fun b c => q.blocks.size ≤ c.index ∧ q'.HasBlock c ∧ (q'.block c).owner = dest ∧
    (q'.block c).ops = [] ∧ Forall₂ (fun v w => m'.value? v = some w) (p.block b).args (q'.block c).args) bs cs

theorem Opened.loose (h : Opened p X In dest region bs cs m q m' q') (hj : q'.Loose j) : q.Loose j := by
  obtain ⟨hjq, hjb⟩ := hj
  have hjq : q.HasOp j := by rwa [HasOp, ← h.ops]
  refine ⟨hjq, ?_⟩
  by_cases hd : j = dest
  · rw [hd, h.self] at hjb
    rwa [hd]
  · rwa [h.later.op j hjq hd] at hjb

end

/-! ## Copies of operations -/

theorem not_within_new {Z : OpId → Prop} (wf : q.WellFormed)
    (h : Later Z Y q q') (hb : ∀ j, q.HasOp j → (q'.op j).block = (q.op j).block) {k : OpId} (hk : ¬ q.HasOp k)
    (hj : q.HasOp j) : ¬ q'.Within k j := by
  intro hw
  induction hw with
  | refl => exact hk hj
  | step hp _ ih =>
    obtain ⟨b, hjb, ho⟩ := parent?_eq_some.mp hp
    rw [hb _ hj] at hjb
    have hB := wf.hasBlock_of_block hjb
    rw [h.block b hB] at ho
    exact ih (wf.hasOp_parent (parent?_eq_some.mpr ⟨b, hjb, ho⟩))

section
variable (r : Registry) (root : OpId) (p : Program) (X : OpId → Prop) (In : Border)

structure Copyable (a : OpId) : Prop where
  hasOp : p.HasOp a
  apart : ∀ x, p.Within a x → ¬ X x
  inside : ∀ v, p.Defines a v → In v
  sees : ∀ x, p.Within a x → ∀ s ∈ (p.op x).operands, ∃ v, s = some v ∧ (In v → Visible r p root v x)

structure Ready (a : OpId) (m : Substitution) : Prop where
  seen : ∀ v, p.HasValue v → In v → Visible r p root v a → (m.value? v).isSome
  fresh : ∀ v, p.Defines a v → m.value? v = none

structure Cloned (n : Nat) (a k : OpId) (m : Substitution) (q : Program) (m' : Substitution) (q' : Program) : Prop where
  copying : Copying p X In m' q'
  later : Later (fun _ => False) (fun _ => False) q q'
  loose : ∀ j, q'.Loose j → j = k ∨ q.Loose j
  added : Added (p.Defines a) m m'
  new : ¬ q.HasOp k
  here : q'.HasOp k
  detached : (q'.op k).block = none
  copied : Copied (Names In m') p q' q.ops.size q.blocks.size n a k

structure Filling (n : Nat) (c : BlockId) (pre : List OpId) (m : Substitution) (q : Program) (m' : Substitution)
    (q' : Program) : Prop where
  copying : Copying p X In m' q'
  later : Later (fun _ => False) (· = c) q q'
  loose : ∀ j, q'.Loose j → q.Loose j
  added : Added (fun v => ∃ y ∈ pre, p.Defines y v) m m'
  ops : Forall₂ (Copied (Names In m') p q' q.ops.size q.blocks.size n) pre (q'.block c).ops

end

section
variable {r : Registry} {root : OpId} {p : Program} (wf : p.WellFormed) {X : OpId → Prop} {In : Border} {n : Nat}
include wf

theorem defines_sibling {a x y : OpId} (hx : p.parent? x = some a) (hy : p.parent? y = some a)
    (h : p.Defines x v) (h' : p.Defines y v) : x = y :=
  (wf.grounded _).eq_of_parent hx hy h.2 h'.2

theorem parent_of_mem (hx : x ∈ (p.block b).ops) : p.parent? x = some (p.block b).owner :=
  parent?_eq_some.mpr ⟨b, (wf.listed x b).mpr hx, rfl⟩

theorem defines_of_holds (h : p.Holds b v) : p.Defines (p.block b).owner v := by
  rcases h with hv | ⟨x, hx, hv⟩
  · exact ⟨wf.hasValue_argument hv, by rw [wf.anchorOf_arg hv]; exact .refl⟩
  · exact ⟨hv.1, (Within.single (parent_of_mem wf hx)).trans hv.2⟩

theorem not_defines_arg (ho : (p.block b).owner = (p.block c).owner)
    (hv : v ∈ (p.block b).args) (hx : x ∈ (p.block c).ops) : ¬ p.Defines x v := by
  intro hd
  refine wf.not_within_of_parent (parent_of_mem wf hx) ?_
  rw [← ho, ← wf.anchorOf_arg hv]
  exact hd.2

theorem holds_unique (ho : (p.block b).owner = (p.block c).owner) (hb : p.Holds b v) (hc : p.Holds c v) : b = c := by
  rcases hb with hb | ⟨x, hx, hxv⟩ <;> rcases hc with hc | ⟨y, hy, hyv⟩
  · exact wf.eq_of_mem_args hb hc
  · exact absurd hyv (not_defines_arg wf ho hb hy)
  · exact absurd hxv (not_defines_arg wf ho.symm hc hx)
  · obtain rfl := defines_sibling wf (parent_of_mem wf hx) (by rw [parent_of_mem wf hy, ho]) hxv hyv
    exact Option.some.inj (((wf.listed x b).mpr hx).symm.trans ((wf.listed x c).mpr hy))

theorem not_holds_result (hb : (p.block b).owner = a) (hv : v ∈ (p.op a).results) : ¬ p.Holds b v := by
  rintro (h | ⟨x, hx, h⟩)
  · obtain ⟨k, hk⟩ := getElem?_of_mem hv
    obtain ⟨l, hl⟩ := getElem?_of_mem h
    have := ((wf.result a k v).mp hk).2.symm.trans ((wf.argument b l v).mp hl).2
    cases this
  · refine wf.not_within_of_parent (parent_of_mem wf hx) ?_
    rw [hb, ← wf.anchorOf_result hv]
    exact h.2

theorem defines_iff :
    p.Defines a v ↔ v ∈ (p.op a).results ∨ ∃ bs ∈ (p.op a).regions, ∃ b ∈ bs, p.Holds b v := by
  have howner : ∀ b, p.HasBlock b → (p.block b).owner = a → ∃ bs ∈ (p.op a).regions, b ∈ bs :=
    fun b hb ho => by
    obtain ⟨bs, hbs, hmem⟩ := (wf.region a _ b).mpr ⟨hb, ho, rfl⟩
    exact ⟨bs, mem_of_getElem? hbs, hmem⟩
  constructor
  · rintro ⟨hv, hw⟩
    by_cases ha : a = p.anchorOf v
    · cases hs : (p.value v).source with
      | result d k =>
        simp only [anchorOf, hs] at ha
        exact .inl (mem_of_getElem? ((wf.result a k v).mpr ⟨hv, ha ▸ hs⟩))
      | argument b k =>
        simp only [anchorOf, hs] at ha
        have hk := (wf.argument b k v).mpr ⟨hv, hs⟩
        obtain ⟨bs, hbs, hmem⟩ := howner b (hasBlock_of_arg hk) ha.symm
        exact .inr ⟨bs, hbs, b, hmem, .inl (mem_of_getElem? hk)⟩
    · obtain ⟨x, hx, hxw⟩ := hw.first ha
      obtain ⟨b, hb, ho⟩ := parent?_eq_some.mp hx
      obtain ⟨bs, hbs, hmem⟩ := howner b (wf.hasBlock_of_block hb) ho
      exact .inr ⟨bs, hbs, b, hmem, .inr ⟨x, (wf.listed x b).mp hb, hv, hxw⟩⟩
  · rintro (hv | ⟨bs, hbs, b, hb, hv⟩)
    · exact ⟨wf.hasValue_result hv, by rw [wf.anchorOf_result hv]; exact .refl⟩
    · exact (wf.owner_of_mem hbs hb).2 ▸ defines_of_holds wf hv

theorem ready_of_block {pre l : List OpId} (hops : (p.block b).ops = pre ++ x :: l)
    (ha : Added (fun v => ∃ y ∈ pre, p.Defines y v) m m')
    (habove : ∀ v, p.HasValue v → In v → Visible r p root v (p.block b).owner → (m.value? v).isSome)
    (hargs : ∀ v ∈ (p.block b).args, (m.value? v).isSome)
    (hfresh : ∀ x ∈ (p.block b).ops, ∀ v, p.Defines x v → m.value? v = none) : Ready r root p In x m' := by
  have hx : x ∈ (p.block b).ops := by simp [hops]
  have hxb : (p.op x).block = some b := (wf.listed x b).mpr hx
  constructor
  · intro v hv hin hvis
    cases hvis with
    | @here _ b' hb' hh hd =>
      obtain rfl : b = b' := Option.mem_unique hxb hb'
      cases hs : (p.value v).source with
      | result d k =>
        -- the definition comes before `x`, so it was copied
        have hpre := hd d (by simp [definingOp?, hs])
        have hn := wf.once b
        rw [hops] at hpre hn
        exact ha.add v ⟨d, hpre.mem_before hn, hv, by simp only [anchorOf, hs]; exact .refl⟩
      | argument c k =>
        simp only [homeOf, hs, Option.some.injEq] at hh
        subst hh
        exact ha.isSome (hargs v (mem_of_getElem? ((wf.argument c k v).mpr ⟨hv, hs⟩)))
    | up hp _ _ hvis =>
      obtain rfl : (p.block b).owner = _ := Option.some.inj ((parent?_eq_some.mpr ⟨b, hxb, rfl⟩).symm.trans hp)
      exact ha.isSome (habove v hv hin hvis)
  · intro v hv
    refine ha.eq_none (hfresh x hx v hv) ?_
    rintro ⟨y, hy, hyv⟩
    have hxy := defines_sibling wf (parent_of_mem wf hx) (parent_of_mem wf (by simp [hops, hy])) hv hyv
    have hnd := wf.once b
    rw [hops] at hnd
    exact (nodup_append.mp hnd).2.2 y hy x (by simp) hxy.symm

omit wf in
theorem filling_step {x k : OpId} {m m' m'' : Substitution} {q q' t u : Program}
    (hc : q.HasBlock c) (hcp : ¬ p.HasBlock c) (hf : Filling p X In n c pre m q m' q')
    (hk : Cloned p X In n x k m' q' m'' t) (ha : Edit.append c k t = .ok () u) :
    Filling p X In n c (pre ++ [x]) m q m'' u := by
  simp only [Edit.append, bind_ok, Edit.getBlock_ok] at ha
  obtain ⟨_, t, ⟨rfl, rfl⟩, ha⟩ := ha
  have hct : t.HasBlock c := hk.later.hasBlock (hf.later.hasBlock hc)
  have hins := Edit.insertAt_ok hk.here hct ha
  have hown : (t.block c).owner = (q'.block c).owner := by
    rw [hk.later.block c (hf.later.hasBlock hc)]
  have hwf : u.WellFormed := by
    refine hins.wellFormed hk.copying.wellFormed ?_
    rw [hown]
    exact not_within_new hf.copying.wellFormed hk.later (fun j hj => by rw [hk.later.op j hj id]) hk.new
      (hf.copying.wellFormed.hasOp_owner (hf.later.hasBlock hc))
  have hagree : ∀ lo hi, q.blocks.size ≤ hi → Agree lo hi t u := by
    intro lo hi hhi
    refine ⟨fun j _ hj => ⟨hins.later.hasOp hj, hins.op_eq j⟩,
      fun d hd hdt => ⟨hins.later.hasBlock hdt, hins.away d ?_⟩⟩
    rintro rfl
    exact absurd hc (Nat.not_lt.mpr (Nat.le_trans hhi hd))
  have hlist : (u.block c).ops = (q'.block c).ops ++ [k] := by
    have := insertIdx_length_append k [] (t.block c).ops
    rw [append_nil] at this
    rw [hins.here, this, hk.later.list c (hf.later.hasBlock hc) id]
  refine ⟨hk.copying.next hwf hins.later (fun j hj hjk => ?_) (fun d hd hdc => hcp (hdc ▸ hd)) (hins.grown _),
    ?_, ?_, ?_, ?_⟩
  · subst hjk
    exact absurd (hf.copying.later.hasOp hj) hk.new
  · refine (hf.later.trans hk.later (fun _ _ h => h) fun _ _ h => h.elim).trans hins.later ?_ fun _ _ h => h
    rintro j hj rfl
    exact hk.new (hf.later.hasOp hj)
  · rintro j ⟨hj, hjb⟩
    by_cases hjk : j = k
    · simp [hjk, hins.self] at hjb
    · rw [hins.other j hjk] at hjb
      exact hf.loose j ((hk.loose j ⟨by rwa [HasOp, ← hins.ops], hjb⟩).resolve_left hjk)
  · exact (hf.added.trans hk.added).congr fun v => by simp [or_and_right, exists_or]
  · rw [hlist]
    refine rel_append (hf.ops.imp fun a y h => ?_) (.cons ?_ .nil)
    · have h1 := Copied.mono (Names.mono hk.added) (Nat.le_refl _) (Nat.le_refl _)
        (.of_later hk.later (fun _ _ h => h) fun _ _ h => h) n a y h
      exact Copied.mono (fun _ _ h => h) (Nat.le_refl _) (Nat.le_refl _) (hagree _ _ (Nat.le_refl _)) n a y h1
    · exact Copied.mono (fun _ _ h => h) hf.later.ops hf.later.blocks (hagree _ _ hf.later.blocks) n x k hk.copied

structure Fillable (r : Registry) (root : OpId) (p : Program) (X : OpId → Prop) (In : Border) (b c : BlockId)
    (m : Substitution) (q : Program) : Prop where
  copying : Copying p X In m q
  hasBlock : q.HasBlock c
  new : ¬ p.HasBlock c
  empty : (q.block c).ops = []
  copyable : ∀ x ∈ (p.block b).ops, Copyable r root p X In x
  above : ∀ v, p.HasValue v → In v → Visible r p root v (p.block b).owner → (m.value? v).isSome
  args : ∀ v ∈ (p.block b).args, (m.value? v).isSome
  fresh : ∀ x ∈ (p.block b).ops, ∀ v, p.Defines x v → m.value? v = none

omit wf in
theorem Fillable.start (h : Fillable r root p X In b c m q) :
    Filling p X In n c [] m q m q :=
  ⟨h.copying, .refl _ _ _, fun _ h => h, (Added.refl m).congr (by simp), by rw [h.empty]; exact .nil⟩

structure Filled (p : Program) (X : OpId → Prop) (In : Border) (n : Nat) (bs cs : List BlockId)
    (m : Substitution) (q : Program) (m' : Substitution) (q' : Program) : Prop where
  copying : Copying p X In m' q'
  later : Later (fun _ => False) (· ∈ cs) q q'
  loose : ∀ j, q'.Loose j → q.Loose j
  added : Added (fun v => ∃ b ∈ bs, ∃ y ∈ (p.block b).ops, p.Defines y v) m m'
  ops : Forall₂ (fun b c => Forall₂ (Copied (Names In m') p q' q.ops.size q.blocks.size n)
    (p.block b).ops (q'.block c).ops) bs cs

omit wf in
theorem Filled.snoc
    (h : Filled p X In n bs cs m q m1 q1) (hcs : ∀ d ∈ cs, q.HasBlock d) (hc : q.HasBlock c) (hn : c ∉ cs)
    (hb : Filling p X In n c (p.block b).ops m1 q1 m' q') : Filled p X In n (bs ++ [b]) (cs ++ [c]) m q m' q' where
  copying := hb.copying
  later := by
    have hw : Later (fun _ => False) (· ∈ cs ++ [c]) q q1 :=
      (Later.refl _ _ q).trans h.later (fun _ _ h => h) fun d _ hd => by simp [hd]
    exact hw.trans hb.later (fun _ _ h => h) fun d _ hd => by simp [hd]
  loose j hj := h.loose j (hb.loose j hj)
  added := (h.added.trans hb.added).congr fun v => by simp [or_and_right, exists_or]
  ops := by
    have hag : Agree q.ops.size q.blocks.size q1 q' := .of_later hb.later (fun _ _ h => h) fun d hd hdc =>
      absurd hc (hdc ▸ Nat.not_lt.mpr hd)
    refine rel_append ?_ (.cons ?_ .nil)
    · refine forall₂_imp_of_mem h.ops fun b' _ c' hc' hbc => ?_
      rw [hb.later.list c' (h.later.hasBlock (hcs c' hc')) fun heq => hn (heq ▸ hc')]
      exact hbc.imp (Copied.mono (Names.mono hb.added) (Nat.le_refl _) (Nat.le_refl _) hag n)
    · exact hb.ops.imp (Copied.mono (fun _ _ h => h) h.later.ops h.later.blocks (.refl _ _ _) n)

structure BlocksCloned (p : Program) (X : OpId → Prop) (In : Border) (n : Nat) (dest : OpId) (region : Nat)
    (bs : List BlockId) (m : Substitution) (q : Program) (m' : Substitution) (q' : Program) : Prop where
  copying : Copying p X In m' q'
  later : Later (· = dest) (fun _ => False) q q'
  loose : ∀ j, q'.Loose j → q.Loose j
  added : Added (fun v => ∃ b ∈ bs, p.Holds b v) m m'
  copies : ∃ cs, q'.op dest = { q.op dest with regions := (q.op dest).regions.modify region (· ++ cs) } ∧
    Forall₂ (BlockCopied (Names In m') p q' q.blocks.size
      (Copied (Names In m') p q' q.ops.size q.blocks.size n)) bs cs

structure Regional (r : Registry) (root : OpId) (p : Program) (X : OpId → Prop) (In : Border) (a dest : OpId)
    (k : Nat) (bs : List BlockId) (m : Substitution) (q : Program) : Prop where
  blocks : (p.op a).regions[k]? = some bs
  source : p.HasOp a
  apart : ¬ X a
  target : p.HasOp dest → X dest
  copying : Copying p X In m q
  hasOp : q.HasOp dest
  copyable : ∀ b ∈ bs, ∀ x ∈ (p.block b).ops, Copyable r root p X In x
  above : ∀ v, p.HasValue v → In v → Visible r p root v a → (m.value? v).isSome
  holds : ∀ b ∈ bs, ∀ v, p.Holds b v → In v ∧ m.value? v = none

theorem Regional.member (h : Regional r root p X In a dest k bs m q) (hb : b ∈ bs) :
    p.HasBlock b ∧ (p.block b).owner = a := wf.owner_of_mem (mem_of_getElem? h.blocks) hb

/-- Some of the blocks `bs` were copied to the blocks `cs`, and those in `l` with their places are left. -/
def Underway (p : Program) (X : OpId → Prop) (In : Border) (n : Nat) (bs cs : List BlockId) (m : Substitution)
    (q : Program) (l : List (BlockId × Nat)) (m' : Substitution) (q' : Program) : Prop :=
  ∃ done rest cdone crest, bs = done ++ rest ∧ cs = cdone ++ crest ∧ done.length = cdone.length ∧
    l = rest.zipIdx done.length ∧ Filled p X In n done cdone m q m' q'

omit wf in
theorem Underway.start (h : Copying p X In m q) :
    Underway p X In n bs cs m q bs.zipIdx m q :=
  ⟨[], bs, [], cs, rfl, rfl, rfl, rfl, h, .refl _ _ _, fun _ h => h, (Added.refl m).congr (by simp), .nil⟩

theorem Underway.next (hreg : Regional r root p X In a dest k bs m q)
    (ho : Opened p X In dest region bs cs m q m1 q1) {index : Nat} {l : List (BlockId × Nat)}
    (h : Underway p X In n bs cs m1 q1 ((b, index) :: l) m2 q2) :
    b ∈ bs ∧ ∃ c, cs[index]? = some c ∧ Fillable r root p X In b c m2 q2 ∧ ∀ m3 q3,
      Filling p X In n c (p.block b).ops m2 q2 m3 q3 → Underway p X In n bs cs m1 q1 l m3 q3 := by
  obtain ⟨done, rest, cdone, crest, hsplit, hcsplit, hlen, hl, hf⟩ := h
  obtain ⟨b', rest, rfl⟩ : ∃ b' rest', rest = b' :: rest' := by
    cases rest with
    | nil => cases hl
    | cons b' rest' => exact ⟨b', rest', rfl⟩
  rw [zipIdx_cons] at hl
  obtain ⟨hb, rfl⟩ := List.cons.inj hl
  cases hb
  obtain ⟨c, crest, rfl⟩ : ∃ c crest', crest = c :: crest' := by
    cases crest with
    | nil =>
      have := ho.blocks.length_eq
      simp [hsplit, hcsplit, hlen] at this
    | cons c crest' => exact ⟨c, crest', rfl⟩
  have hcs : ∀ c ∈ cs, q.blocks.size ≤ c.index ∧ q1.HasBlock c ∧ (q1.block c).ops = [] := fun c hc => by
    obtain ⟨b, -, h1, h2, -, h3, -⟩ := forall₂_mem_right ho.blocks hc
    exact ⟨h1, h2, h3⟩
  have hbmem : b ∈ bs := by simp [hsplit]
  have hcmem : c ∈ cs := by simp [hcsplit]
  have hcn : c ∉ cdone := fun hmem => by
    have := ho.nodup
    rw [hcsplit] at this
    exact (nodup_append.mp this).2.2 c hmem c (by simp) rfl
  have hc1 := (hcs c hcmem).2
  refine ⟨hbmem, c, by rw [hcsplit, hlen]; simp, ⟨hf.copying, hf.later.hasBlock hc1.1, ?_, ?_,
    hreg.copyable b hbmem, ?_, ?_, ?_⟩,
    fun m3 q3 hfill => ⟨done ++ [b], rest, cdone ++ [c], crest, by simp [hsplit], by simp [hcsplit], by simp [hlen],
      by simp, hf.snoc (fun d hd => (hcs d (by simp [hcsplit, hd])).2.1) hc1.1 hcn hfill⟩⟩
  · exact fun hp => absurd (hreg.copying.later.hasBlock hp) (Nat.not_lt.mpr (hcs c hcmem).1)
  · rw [hf.later.list c hc1.1 hcn]
    exact hc1.2
  · rw [(hreg.member wf hbmem).2]
    exact fun v hv hin hvis => hf.added.isSome (ho.added.isSome (hreg.above v hv hin hvis))
  · exact fun v hv => hf.added.isSome (ho.added.add v ⟨b, hbmem, hv⟩)
  · intro x hx v hv
    refine hf.added.eq_none (ho.added.eq_none (hreg.holds b hbmem v (.inr ⟨x, hx, hv⟩)).2 ?_) ?_
    · rintro ⟨b', hb', hvb⟩
      exact not_defines_arg wf (by rw [(hreg.member wf hb').2, (hreg.member wf hbmem).2]) hvb hx hv
    · rintro ⟨b', hb', hheld⟩
      have hbb := holds_unique wf (by rw [(hreg.member wf hbmem).2, (hreg.member wf (by simp [hsplit, hb'])).2])
        (.inr ⟨x, hx, hv⟩) (.inr hheld)
      have hnd := wf.regionOnce a bs (mem_of_getElem? hreg.blocks)
      rw [hsplit] at hnd
      exact (nodup_append.mp hnd).2.2 b' hb' b (by simp) hbb.symm

omit wf in
theorem Underway.done (hreg : Regional r root p X In a dest k bs m q)
    (ho : Opened p X In dest region bs cs m q m1 q1) (h : Underway p X In n bs cs m1 q1 [] m2 q2) :
    BlocksCloned p X In n dest region bs m q m2 q2 := by
  obtain ⟨done, rest, cdone, crest, rfl, rfl, hlen, hrest, hf⟩ := h
  obtain rfl : rest = [] := by simpa using hrest.symm
  obtain rfl : crest = [] := by
    have := ho.blocks.length_eq
    simpa [hlen] using this.symm
  simp only [append_nil] at *
  refine ⟨hf.copying, ?_, fun j hj => ho.loose (hf.loose j hj), ?_, cdone, ?_, ?_⟩
  · refine ho.later.trans hf.later (fun _ _ h => h.elim) fun c hc hmem => ?_
    obtain ⟨b, -, hlt, -⟩ := forall₂_mem_right ho.blocks hmem
    exact absurd hc (Nat.not_lt.mpr hlt)
  · refine (ho.added.trans hf.added).congr fun v => ?_
    simp only [Holds, and_or_left, exists_or]
  · rw [hf.later.op dest (ho.later.hasOp hreg.hasOp) id, ho.self]
  · refine forall₂_imp_of_mem (forall₂_and ho.blocks hf.ops) fun b hb c _ hbc => ?_
    obtain ⟨⟨h1, h2, -, -, h3⟩, h4⟩ := hbc
    refine ⟨h1, hf.later.hasBlock h2, ?_, ?_⟩
    · rw [hf.later.block c h2]
      exact forall₂_imp_of_mem h3 fun v hv w _ hvw => .inl ⟨(hreg.holds b hb v (.inl hv)).1,
        hf.added.keep v w hvw⟩
    · exact h4.imp (Copied.mono (fun _ _ h => h) (Nat.le_of_eq ho.ops.symm) ho.later.blocks (.refl _ _ _) n)

omit wf in
theorem Copyable.child (h : Copyable r root p X In a) (hx : p.parent? x = some a) :
    Copyable r root p X In x where
  hasOp := hasOp_of_parent hx
  apart y hy := h.apart y ((Within.single hx).trans hy)
  inside v hv := h.inside v ⟨hv.1, (Within.single hx).trans hv.2⟩
  sees y hy := h.sees y ((Within.single hx).trans hy)

structure RegionsCloned (p : Program) (X : OpId → Prop) (In : Border) (n i : Nat) (a k : OpId) (m : Substitution)
    (q : Program) (m' : Substitution) (q' : Program) : Prop where
  copying : Copying p X In m' q'
  later : Later (· = k) (fun _ => False) q q'
  loose : ∀ j, q'.Loose j → q.Loose j
  added : Added (fun v => ∃ bs ∈ (p.op a).regions.take i, ∃ b ∈ bs, p.Holds b v) m m'
  copies : ∃ css, q'.op k = { q.op k with regions := css ++ List.replicate ((p.op a).regions.length - i) [] } ∧
    Forall₂ (Forall₂ (BlockCopied (Names In m') p q' q.blocks.size
      (Copied (Names In m') p q' q.ops.size q.blocks.size n))) ((p.op a).regions.take i) css

omit wf in
theorem RegionsCloned.step {i : Nat} {a k : OpId} (h : RegionsCloned p X In n i a k m q m1 q1) (hk : q.HasOp k)
    (hbs : (p.op a).regions[i]? = some bs) (hb : BlocksCloned p X In n k i bs m1 q1 m2 q2) :
    RegionsCloned p X In n (i + 1) a k m q m2 q2 := by
  have hlt := (List.getElem?_eq_some_iff.mp hbs).1
  have htake : (p.op a).regions.take (i + 1) = (p.op a).regions.take i ++ [bs] := by
    rw [take_add_one, hbs]
    rfl
  obtain ⟨css, hself, hcss⟩ := h.copies
  obtain ⟨cs, hself', hcs⟩ := hb.copies
  have hlen : css.length = i := by
    rw [← hcss.length_eq, length_take]
    omega
  have hag : Agree q.ops.size q.blocks.size q1 q2 := .of_later hb.later
    (fun j hj hjk => absurd hk (hjk ▸ Nat.not_lt.mpr hj)) fun _ _ h => h
  refine ⟨hb.copying, h.later.trans hb.later (fun _ _ h => h) (fun _ _ h => h),
    fun j hj => h.loose j (hb.loose j hj), ?_, css ++ [cs], ?_, ?_⟩
  · exact (h.added.trans hb.added).congr fun v => by simp [htake, or_and_right, exists_or]
  · have hrep : (p.op a).regions.length - i = ((p.op a).regions.length - (i + 1)) + 1 := by omega
    rw [hself', hself, hrep, replicate_succ]
    have := modify_length_append (· ++ cs) [] (List.replicate ((p.op a).regions.length - (i + 1)) []) css
    rw [hlen] at this
    simp [this]
  · rw [htake]
    refine rel_append (hcss.imp fun _ _ h => h.imp fun _ _ h => h.mono (Names.mono hb.added) (Nat.le_refl _)
      hag (Copied.mono (Names.mono hb.added) (Nat.le_refl _) (Nat.le_refl _) hag n))
        (.cons (hcs.imp fun _ _ hc => hc.mono (fun _ _ h => h) h.later.blocks (.refl 0 _ _)
        (Copied.mono (fun _ _ h => h) h.later.ops h.later.blocks (.refl _ _ _) n)) .nil)

theorem Copyable.uses (hc : Copyable r root p X In a)
    (hr : Ready r root p In a m) (hm : Copying p X In m q) {s : Slot} (hs : s ∈ (p.op a).operands) :
    ∃ v, s = some v ∧ q.HasValue (m.apply v) ∧ Names In m v (m.apply v) := by
  obtain ⟨v, rfl, hvis⟩ := hc.sees a .refl s hs
  have hv := wf.hasValue_operand hs
  refine ⟨v, rfl, ?_⟩
  by_cases hin : In v
  · obtain ⟨w, hw⟩ := Option.isSome_iff_exists.mp (hr.seen v hv hin (hvis hin))
    simp only [Substitution.apply, hw, Option.getD_some]
    exact ⟨(hm.new v w hin hw).2.1, .inl ⟨hin, hw⟩⟩
  · rw [hm.outside v hin]
    exact ⟨hm.later.hasValue (hm.there v hin hv), .inr ⟨hin, rfl⟩⟩

theorem Copyable.spares (hc : Copyable r root p X In a)
    (hr : Ready r root p In a m) (hm : Copying p X In m q) {w : ValueId} (hw : Spare p In w) :
    some w ∉ (p.op a).operands.map fun s => s.map m.apply := by
  intro hmem
  obtain ⟨s, hs, hsw⟩ := mem_map.mp hmem
  obtain ⟨v, rfl, -, hn⟩ := hc.uses wf hr hm hs
  obtain rfl : m.apply v = w := Option.some.inj hsw
  rcases hn with ⟨hin, hn⟩ | ⟨hin, hn⟩
  · exact (hm.new v _ hin hn).1 hw.hasValue
  · have hun := hw.unused a
    rw [← hw.alone v hin hn.symm] at hun
    exact hun hs

omit wf in
theorem Copying.resultTypes (wf : p.WellFormed) (hm : Copying p X In m q)
    (ha : p.HasOp a) (haX : ¬ X a) : q.resultTypes a = p.resultTypes a := by
  rw [Program.resultTypes, hm.later.op a ha haX]
  exact map_congr_left fun v hv => hm.later.typeOf (wf.hasValue_result hv)

def copySpec (p : Program) (a : OpId) (m : Substitution) : Edit.Spec :=
  { name := (p.op a).name
    loc := (p.op a).loc
    operands := (p.op a).operands.map fun s => s.map m.apply
    results := (p.resultTypes a).map some
    attrs := (p.op a).attrs
    regions := (p.op a).regions.length }

structure Begun (p : Program) (X : OpId → Prop) (In : Border) (a k : OpId) (m : Substitution) (q : Program)
    (m' : Substitution) (q' : Program) : Prop where
  made : Edit.NewOp (copySpec p a m) (p.resultTypes a) (p.op a).regions.length q k q'
  copying : Copying p X In m' q'
  added : Added (· ∈ (p.op a).results) m m'
  results : Forall₂ (fun v w => m'.value? v = some w) (p.op a).results (Edit.freshValues q (p.op a).results.length)

theorem begin_ok {a k : OpId} (hc : Copyable r root p X In a)
    (hr : Ready r root p In a m) (hm : Copying p X In m q) (h : Edit.newOp (copySpec p a m) q = .ok k t) :
    Begun p X In a k m q
      (((p.op a).results.zip (t.op k).results).foldl (fun m x => m.addValue x.1 x.2) m) t := by
  obtain ⟨ts, N, hts, -, -, hN, hk⟩ := Edit.newOp_ok (fun w hw => by
    obtain ⟨s, hs, hsw⟩ := mem_map.mp hw
    obtain ⟨v, rfl, hq, -⟩ := hc.uses wf hr hm hs
    cases hsw
    exact hq) h
  obtain rfl : N = (p.op a).regions.length := Edit.eq_of_checkLength hN
  obtain rfl : p.resultTypes a = ts := map_some_inj hts
  have hlen : (p.resultTypes a).length = (p.op a).results.length := by simp [Program.resultTypes]
  have hdef : ∀ v ∈ (p.op a).results, p.Defines a v := fun v hv =>
    ⟨wf.hasValue_result hv, by rw [wf.anchorOf_result hv]; exact .refl⟩
  obtain ⟨hm1, hadd, hfor⟩ := hm.addAll (hk.wellFormed hm.wellFormed) hk.later (fun _ _ h => h.elim)
    (fun _ _ h => h)
    (hk.grown.mono fun w hw => hc.spares wf hr hm hw) (wf.nodup_results a)
    (fun v hv => ⟨hc.inside v (hdef v hv), hr.fresh v (hdef v hv)⟩) (fun j v hj => by
      have hj' : (p.resultTypes a)[j]? = some (p.typeOf v) := by rw [Program.resultTypes, getElem?_map, hj]; rfl
      exact ⟨hk.hasValue.mpr (.inr ⟨j, (List.getElem?_eq_some_iff.mp hj').1, rfl⟩), (hk.new j _ hj').1⟩)
    (fun _ => rfl)
  rw [hk.self, hlen]
  exact ⟨hk, hm1, hadd, hfor⟩

namespace Begun

variable {a k : OpId} {m m1 : Substitution} {q t : Program}

omit wf in
theorem hasOp (h : Begun p X In a k m q m1 t) : ¬ q.HasOp k ∧ t.HasOp k := by
  rw [HasOp, HasOp, h.made.ops, h.made.id]
  exact ⟨Nat.lt_irrefl _, Nat.lt_succ_self _⟩

omit wf in
theorem start (h : Begun p X In a k m q m1 t) : RegionsCloned p X In n 0 a k m1 t m1 t :=
  ⟨h.copying, .refl _ _ _, fun _ h => h, (Added.refl _).congr (by simp), [], by simp [h.made.self], .nil⟩

theorem regional (h : Begun p X In a k m q m1 t) (hc : Copyable r root p X In a) (hr : Ready r root p In a m)
    (hm : Copying p X In m q) {j : Nat}
    (hreg : RegionsCloned p X In n j a k m1 t m2 q2) (hbs : (p.op a).regions[j]? = some bs) :
    Regional r root p X In a k j bs m2 q2 := by
  have howner : ∀ j bs, (p.op a).regions[j]? = some bs → ∀ b ∈ bs, (p.block b).owner = a ∧
    (p.block b).region = j :=
    fun j bs hj b hb => ((wf.region a j b).mp ⟨bs, hj, hb⟩).2
  refine ⟨hbs, hc.hasOp, hc.apart a .refl, fun hp => absurd (hm.later.hasOp hp) h.hasOp.1, hreg.copying,
    hreg.later.hasOp h.hasOp.2, ?_, ?_, ?_⟩
  · intro b hb x hx
    exact hc.child (by rw [parent_of_mem wf hx, (howner j _ hbs b hb).1])
  · intro v hv hin hvis
    exact hreg.added.isSome (h.added.isSome (hr.seen v hv hin hvis))
  · intro b hb v hv
    have hd : p.Defines a v := (howner j _ hbs b hb).1 ▸ defines_of_holds wf hv
    refine ⟨hc.inside v hd, hreg.added.eq_none (h.added.eq_none (hr.fresh v hd) fun hres => ?_) ?_⟩
    · exact not_holds_result wf (howner j _ hbs b hb).1 hres hv
    · rintro ⟨bs', hbs', b', hb', hv'⟩
      obtain ⟨i', hi'⟩ := getElem?_of_mem hbs'
      rw [getElem?_take] at hi'
      split at hi'
      · have ho := howner i' bs' hi' b' hb'
        have hbb := holds_unique wf (by rw [(howner j _ hbs b hb).1, ho.1]) hv hv'
        have := (howner j _ hbs b hb).2
        rw [hbb, ho.2] at this
        omega
      · cases hi'

theorem cloned (h : Begun p X In a k m q m1 t) (hc : Copyable r root p X In a) (hr : Ready r root p In a m)
    (hm : Copying p X In m q) (hreg : RegionsCloned p X In n (p.op a).regions.length a k m1 t m2 q2) :
    Cloned p X In (n + 1) a k m q m2 q2 := by
  obtain ⟨css, hself, hcss⟩ := hreg.copies
  rw [take_length] at hcss
  refine ⟨hreg.copying, ?_, ?_, ?_, h.hasOp.1, hreg.later.hasOp h.hasOp.2, by rw [hself, h.made.self], ?_⟩
  · exact h.made.later.trans hreg.later (fun j hj hjk => h.hasOp.1 (hjk ▸ hj)) fun _ _ h => h
  · intro j hj
    obtain ⟨hjt, hjb⟩ := hreg.loose j hj
    by_cases hjk : j = k
    · exact .inl hjk
    · rw [h.made.other j hjk] at hjb
      refine .inr ⟨?_, hjb⟩
      have hne : j.index ≠ q.ops.size := fun he => hjk (by rw [h.made.id, ← he])
      have := h.made.ops
      simp only [HasOp] at hjt ⊢
      omega
  · refine (h.added.trans hreg.added).congr fun v => ?_
    rw [defines_iff wf, take_length]
  · refine ⟨Nat.le_of_eq (by rw [h.made.id]), hreg.later.hasOp h.hasOp.2, ?_, ?_⟩
    · have hlen : (p.resultTypes a).length = (p.op a).results.length := by simp [Program.resultTypes]
      rw [hself, h.made.self, hlen]
      refine ⟨rfl, fun hloc => if_neg (by simpa [copySpec] using hloc), rfl, ?_,
        forall₂_imp_of_mem h.results fun v hv w _ hvw => .inl
        ⟨hc.inside v ((defines_iff wf).mpr (.inl hv)), hreg.added.keep v w hvw⟩⟩
      show Forall₂ _ _ ((p.op a).operands.map fun s => s.map m.apply)
      rw [forall₂_map_right_iff]
      refine forall₂_same.mpr fun s hs => ?_
      obtain ⟨v, rfl, -, hn⟩ := hc.uses wf hr hm hs
      exact .some (Names.mono hreg.added _ _ (Names.mono h.added _ _ hn))
    · rw [hself]
      simp only [Nat.sub_self, replicate_zero, append_nil]
      exact hcss.imp fun _ _ hcs => hcs.imp fun _ _ hcopy => hcopy.mono (fun _ _ h => h) h.made.later.blocks
        (.refl 0 _ _) (Copied.mono (fun _ _ h => h) h.made.later.ops h.made.later.blocks (.refl _ _ _) n)

end Begun

def RegionsLeft (p : Program) (X : OpId → Prop) (In : Border) (n : Nat) (a k : OpId) (m : Substitution)
    (q : Program) (l : List Nat) (m' : Substitution) (q' : Program) : Prop :=
  ∃ i, l = List.range' i ((p.op a).regions.length - i) ∧ i ≤ (p.op a).regions.length ∧
    RegionsCloned p X In n i a k m q m' q'

section
variable {a k : OpId} {m m' : Substitution} {q q' : Program}

omit wf in
theorem RegionsLeft.start (h : RegionsCloned p X In n 0 a k m q m' q') :
    RegionsLeft p X In n a k m q (List.range (p.op a).regions.length) m' q' :=
  ⟨0, by rw [range_eq_range']; rfl, Nat.zero_le _, h⟩

omit wf in
theorem RegionsLeft.done (h : RegionsLeft p X In n a k m q [] m' q') :
    RegionsCloned p X In n (p.op a).regions.length a k m q m' q' := by
  obtain ⟨i, hi, hle, hreg⟩ := h
  obtain rfl : i = (p.op a).regions.length := by
    have := congrArg List.length hi
    simp only [length_nil, length_range'] at this
    omega
  exact hreg

omit wf in
theorem RegionsLeft.next {j : Nat} {l : List Nat} (h : RegionsLeft p X In n a k m q (j :: l) m' q') (hk : q.HasOp k) :
    ∃ bs, (p.op a).regions[j]? = some bs ∧ RegionsCloned p X In n j a k m q m' q' ∧ ∀ m'' q'',
      BlocksCloned p X In n k j bs m' q' m'' q'' → RegionsLeft p X In n a k m q l m'' q'' := by
  obtain ⟨i, hl, hle, hreg⟩ := h
  have hlt : i < (p.op a).regions.length := by
    have := congrArg List.length hl
    simp only [length_cons, length_range'] at this
    omega
  rw [show (p.op a).regions.length - i = ((p.op a).regions.length - (i + 1)) + 1 by omega, range'_succ] at hl
  obtain ⟨rfl, rfl⟩ := List.cons.inj hl
  have hbs := getElem?_eq_getElem hlt
  exact ⟨_, hbs, hreg, fun m'' q'' hb => ⟨j + 1, rfl, hlt, hreg.step hk hbs hb⟩⟩

end

end

end Cloning

namespace Edit

open Cloning

structure RegionCopied (n : Nat) (φ : ValueId → ValueId) (bs cs : List BlockId) (p q : Program) : Prop where
  blocks : Forall₂ (BlockCopied (fun v w => w = φ v) p q p.blocks.size
    (Copied (fun v w => w = φ v) p q p.ops.size p.blocks.size n)) bs cs
  new : ∀ b ∈ bs, ∀ v, p.Holds b v → ¬ p.HasValue (φ v) ∧ q.HasValue (φ v) ∧ q.typeOf (φ v) = p.typeOf v
  inj : ∀ b ∈ bs, ∀ c ∈ bs, ∀ v w, p.Holds b v → p.Holds c w → φ v = φ w → v = w
  old : ∀ v, p.HasValue v → (∀ b ∈ bs, ¬ p.Holds b v) → φ v = v

structure RegionCloned (n : Nat) (φ : ValueId → ValueId) (dest : OpId) (region : Nat) (bs cs : List BlockId)
    (p q : Program) : Prop where
  wellFormed : q.WellFormed
  later : Later (· = dest) (fun _ => False) p q
  self : q.op dest = { p.op dest with regions := (p.op dest).regions.modify region (· ++ cs) }
  copied : RegionCopied n φ bs cs p q
  grown : Grown p.HasValue p q

namespace RegionCopied

variable {n : Nat} {φ : ValueId → ValueId} {bs cs : List BlockId} {p q t : Program}

theorem next {X : OpId → Prop} (h : RegionCopied n φ bs cs p q) (hl : Later X Y q t)
    (hX : ∀ j, p.ops.size ≤ j.index → ¬ X j) (hY : ∀ c, p.blocks.size ≤ c.index → ¬ Y c) :
    RegionCopied n φ bs cs p t where
  blocks := by
    have hag : Agree p.ops.size p.blocks.size q t := .of_later hl hX hY
    exact h.blocks.imp fun _ _ hc => hc.mono (fun _ _ h => h) (Nat.le_refl _) hag
      (Copied.mono (fun _ _ h => h) (Nat.le_refl _) (Nat.le_refl _) hag n)
  new b hb v hv := by
    obtain ⟨h1, h2, h3⟩ := h.new b hb v hv
    exact ⟨h1, hl.hasValue h2, (hl.typeOf h2).trans h3⟩
  inj := h.inj
  old := h.old

theorem of_later (wf : p.WellFormed) (hbs : (p.op a).regions[k]? = some bs)
    (hout : ¬ p.Within a (p.block b).owner) (hl : Later (fun _ => False) (· = b) p t)
    (h : RegionCopied n φ bs cs t q) : RegionCopied n φ bs cs p q := by
  have hmem : ∀ c ∈ bs, p.HasBlock c ∧ c ≠ b ∧ (p.block c).owner = a := fun c hc => by
    obtain ⟨h1, h2, -⟩ := (wf.region a k c).mp ⟨bs, hbs, hc⟩
    refine ⟨h1, ?_, h2⟩
    rintro rfl
    exact hout (h2 ▸ .refl)
  have hiff : ∀ c ∈ bs, ∀ v, p.HasValue v → (t.Holds c v ↔ p.Holds c v) := fun c hc v hv =>
    hl.holds_iff wf (hmem c hc).1 (hmem c hc).2.1 hv
  have hval : ∀ c v, p.Holds c v → p.HasValue v := fun c v hv => (defines_of_holds wf hv).1
  constructor
  · refine forall₂_imp_of_mem h.blocks fun c hc c' _ hcc => ?_
    refine BlockCopied.of_later wf hl (hmem c hc).1 (hmem c hc).2.1 (fun x hx y hxy => ?_)
      (hcc.mono (fun _ _ h => h) hl.blocks (.refl 0 _ _) fun _ _ h => h)
    refine Copied.of_later wf hl n x y (hasOp_of_block hx) (fun hw => hout ?_)
      (Copied.mono (fun _ _ h => h) hl.ops hl.blocks (.refl _ _ _) n x y hxy)
    exact (Within.single (parent?_eq_some.mpr ⟨c, hx, (hmem c hc).2.2⟩)).trans hw
  · intro c hc v hv
    obtain ⟨h1, h2, h3⟩ := h.new c hc v ((hiff c hc v (hval c v hv)).mpr hv)
    exact ⟨fun hp => h1 (hl.hasValue hp), h2, h3.trans (hl.typeOf (hval c v hv))⟩
  · intro c hc c' hc' v w hv hw
    exact h.inj c hc c' hc' v w ((hiff c hc v (hval c v hv)).mpr hv) ((hiff c' hc' w (hval c' w hw)).mpr hw)
  · intro v hv hno
    exact h.old v (hl.hasValue hv) fun c hc hheld => hno c hc ((hiff c hc v hv).mp hheld)

end RegionCopied

theorem regional_start {r : Registry} {root : OpId} {p : Program}
    (wf : p.WellFormed) (hbs : (p.op a).regions[k]? = some bs)
    (ha : p.HasOp a) (hd : p.HasOp dest) (hout : ¬ p.Within a dest)
    (hsees : ∀ x, p.Within a x → x ≠ a → ∀ s ∈ (p.op x).operands, ∃ v, s = some v ∧
      Visible r p root v x) :
    Regional r root p (· = dest) { inside := fun v => ∃ b ∈ bs, p.Holds b v } a dest k bs {} p := by
  have howner : ∀ b ∈ bs, (p.block b).owner = a := fun b hb => ((wf.region a k b).mp ⟨bs, hbs, hb⟩).2.1
  refine ⟨hbs, ha, fun had => hout (had ▸ .refl), fun _ => rfl, ?_, hd, ?_, ?_, ?_⟩
  · exact ⟨wf, .refl _ _ _, fun _ _ => rfl, fun _ _ h => h, by simp [Substitution.value?], by
      simp [Substitution.value?], .refl _ _⟩
  · intro b hb x hx
    have hpx : p.parent? x = some a := by rw [parent_of_mem wf hx, howner b hb]
    refine ⟨hasOp_of_parent hpx, ?_, fun v hv => ⟨b, hb, .inr ⟨x, hx, hv⟩⟩, ?_⟩
    · rintro y hy rfl
      exact hout ((Within.single hpx).trans hy)
    · intro y hy s hs
      obtain ⟨v, rfl, hvis⟩ := hsees y ((Within.single hpx).trans hy) (by
        rintro rfl
        exact wf.not_within_of_parent hpx hy) s hs
      exact ⟨v, rfl, fun _ => hvis⟩
  · rintro v hv ⟨b, hb, hheld⟩ hvis
    exact absurd (howner b hb ▸ (defines_of_holds wf hheld).2) (wf.not_defines_of_visible hvis)
  · exact fun b hb v hv => ⟨⟨b, hb, hv⟩, rfl⟩

end Edit

end Offload
