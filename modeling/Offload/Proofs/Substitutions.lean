import Offload.Proofs.Progress
import Offload.Proofs.Visibility

/-!
# Substitutions

What a copy of an operation is, and what a substitution knows of it on the way.
-/

namespace Offload

open Program List

variable {Y : BlockId → Prop} {b c : BlockId} {e : Fault} {t : Program} {v : ValueId}

namespace Substitution

variable {m : Substitution} {v w x : ValueId}

theorem value?_addValue : (m.addValue v w).value? x = if x = v then some w else m.value? x := by
  simp only [value?, addValue, lookup_cons]
  by_cases h : x = v
  · simp [h]
  · simp [h, beq_eq_false_iff_ne.mpr h]

theorem value?_addBlock : (m.addBlock b c).value? x = m.value? x := rfl

def addAll (m : Substitution) (l : List (ValueId × ValueId)) : Substitution :=
  l.foldl (fun m x => m.addValue x.1 x.2) m

theorem addAll_snoc (l : List (ValueId × ValueId)) (v w : ValueId) :
    m.addAll (l ++ [(v, w)]) = (m.addAll l).addValue v w := by
  simp [addAll]

theorem value?_addAll_of_not_mem : ∀ {l : List (ValueId × ValueId)} {m : Substitution}, x ∉ l.map Prod.fst →
    (m.addAll l).value? x = m.value? x
  | [], _, _ => rfl
  | (v, w) :: l, m, h => by
    simp only [map_cons, mem_cons, not_or] at h
    show ((m.addValue v w).addAll l).value? x = _
    rw [value?_addAll_of_not_mem h.2, value?_addValue, if_neg h.1]

theorem value?_addAll_of_mem : ∀ {l : List (ValueId × ValueId)} {m : Substitution}, (l.map Prod.fst).Nodup →
    (x, w) ∈ l → (m.addAll l).value? x = some w
  | (v, u) :: l, m, hn, h => by
    rw [map_cons, nodup_cons] at hn
    show ((m.addValue v u).addAll l).value? x = _
    rcases mem_cons.mp h with heq | h
    · cases heq
      rw [value?_addAll_of_not_mem hn.1, value?_addValue, if_pos rfl]
    · exact value?_addAll_of_mem hn.2 h

end Substitution

def Program.Loose (p : Program) (j : OpId) : Prop := p.HasOp j ∧ (p.op j).block = none

/-! ## Computations with a substitution -/

namespace Cloning

section
variable {α β : Type} {m m' : Substitution} {q q' : Program}

theorem seq_ok {x : Cloning α} {f : α → Cloning β} {b : β} :
    (x >>= f) m q = .ok (b, m') q' ↔ ∃ a n t, x m q = .ok (a, n) t ∧ f a n t = .ok (b, m') q' := by
  show (x m >>= fun r => f r.1 r.2) q = _ ↔ _
  rw [bind_ok]
  constructor
  · rintro ⟨⟨a, n⟩, t, h, h'⟩
    exact ⟨a, n, t, h, h'⟩
  · rintro ⟨a, n, t, h, h'⟩
    exact ⟨(a, n), t, h, h'⟩

theorem return_ok {a b : α} : (pure a : Cloning α) m q = .ok (b, m') q' ↔ a = b ∧ m = m' ∧ q = q' := by
  show (pure (a, m) : Edit _) q = _ ↔ _
  simp [and_assoc]

theorem current_ok {a : Substitution} :
    (get : Cloning Substitution) m q = .ok (a, m') q' ↔ a = m ∧ m' = m ∧ q' = q := by
  show (pure (m, m) : Edit _) q = _ ↔ _
  simp [and_assoc, eq_comm]

theorem change_ok {f : Substitution → Substitution} {u : PUnit} :
    (modify f : Cloning PUnit) m q = .ok (u, m') q' ↔ m' = f m ∧ q' = q := by
  show (pure ((), f m) : Edit _) q = _ ↔ _
  simp [eq_comm]

theorem lift_ok {x : Edit α} {a : α} : (liftM x : Cloning α) m q = .ok (a, m') q' ↔ x q = .ok a q' ∧ m' = m := by
  show (x >>= fun a => pure (a, m) : Edit _) q = _ ↔ _
  simp only [bind_ok, pure_ok, Prod.mk.injEq]
  constructor
  · rintro ⟨_, _, h, ⟨rfl, rfl⟩, rfl⟩
    exact ⟨h, rfl⟩
  · rintro ⟨h, rfl⟩
    exact ⟨_, _, h, ⟨rfl, rfl⟩, rfl⟩

theorem stop_ok {a : α} : (throw e : Cloning α) m q = .ok (a, m') q' ↔ False := by
  show (throw e >>= fun a => pure (a, m) : Edit _) q = _ ↔ _
  simp

abbrev Makes (S : Prop) (Q : α → Substitution → Program → Prop) (x : Cloning α) (m : Substitution)
    (q : Program) : Prop :=
  Gives S (fun y q' => Q y.1 y.2 q') (x m) q

namespace Makes

variable {S : Prop} {Q : α → Substitution → Program → Prop} {R : β → Substitution → Program → Prop}
    {x : Cloning α}
  {a : α} {n : Substitution} {t : Program}

theorem pure (h : Q a m q) : Makes S Q (Pure.pure a) m q := Gives.pure
    (Q := fun (y : α × Substitution) q' => Q y.1 y.2 q') h

theorem bind {f : α → Cloning β} (hx : Makes S Q x m q) (hf : ∀ a n t, Q a n t → Makes S R (f a) n t) :
    Makes S R (x >>= f) m q :=
  Gives.bind hx fun y t => hf y.1 y.2 t

theorem step {f : α → Cloning β} (hx : x m q = .ok (a, n) t) (hf : Makes S R (f a) n t) : Makes S R (x >>= f) m q :=
  Gives.step hx hf

theorem lift {x : Edit α} {Q : α → Program → Prop} (hx : Gives S Q x q) :
    Makes S (fun a n t => n = m ∧ Q a t) (liftM x) m q :=
  Gives.bind hx fun _ _ h => .pure ⟨rfl, h⟩

theorem read {x : Edit α} {f : α → Cloning β} (hx : x q = .ok a q) (hf : Makes S R (f a) m q) :
    Makes S R (liftM x >>= f) m q :=
  step (lift_ok.mpr ⟨hx, rfl⟩) hf

theorem change {g : Substitution → Substitution} {f : PUnit → Cloning β} (hf : Makes S R (f ⟨⟩) (g m) q) :
    Makes S R (modify g >>= f) m q :=
  step (change_ok.mpr ⟨rfl, rfl⟩) hf

theorem stop (h : ¬ S) : Makes S Q (throw e) m q :=
  ⟨fun _ _ ht => (stop_ok.mp ht).elim, fun hS => absurd hS h⟩

theorem forIn {P : List α → Substitution → Program → Prop} {f : α → PUnit → Cloning (ForInStep PUnit)}
    (step : ∀ a l m q, P (a :: l) m q → Makes S (fun r n t => r = .yield ⟨⟩ ∧ P l n t) (f a ⟨⟩) m q) :
    ∀ (l : List α) {m : Substitution} {q : Program}, P l m q →
      Makes S (fun _ n t => P [] n t) (ForIn.forIn l ⟨⟩ f) m q
  | [], m, q, h => by
    rw [forIn_nil]
    exact pure h
  | a :: l, m, q, h => by
    rw [forIn_cons]
    refine (step a l m q h).bind fun r n t hr => ?_
    obtain ⟨rfl, hn⟩ := hr
    exact forIn step l hn

end Makes

theorem blocksOf_ok {i : OpId} {k : Nat} {bs : List BlockId} :
    blocksOf i k m q = .ok (bs, m') q' ↔ (q.op i).regions[k]? = some bs ∧ m' = m ∧ q' = q := by
  simp only [blocksOf, seq_ok, lift_ok, Edit.getOp_ok]
  constructor
  · rintro ⟨_, _, q, ⟨⟨rfl, rfl⟩, rfl⟩, h⟩
    cases hk : (q.op i).regions[k]? with
    | none => simp only [hk, stop_ok] at h
    | some cs =>
      simp only [hk, return_ok] at h
      obtain ⟨rfl, rfl, rfl⟩ := h
      exact ⟨rfl, rfl, rfl⟩
  · rintro ⟨h, rfl, rfl⟩
    refine ⟨_, _, _, ⟨⟨rfl, rfl⟩, rfl⟩, ?_⟩
    simp only [h, return_ok, and_self]

end

/-! ## What a copy is -/

/-- Which values are inside of what is copied, and what stands for the others. -/
structure Border where
  inside : ValueId → Prop
  outer : ValueId → ValueId := id

instance : CoeFun Border fun _ => ValueId → Prop := ⟨Border.inside⟩

def Names (In : Border) (m : Substitution) (v w : ValueId) : Prop :=
  (In v ∧ m.value? v = some w) ∨ (¬ In v ∧ w = In.outer v)

structure Spare (p : Program) (In : Border) (v : ValueId) : Prop where
  hasValue : p.HasValue v
  unused : p.Unused v
  alone : ∀ u, ¬ In u → In.outer u = v → u = v

section
variable (N : ValueId → ValueId → Prop)

structure OpCopied (o o' : Op) : Prop where
  name : o'.name = o.name
  loc : o.loc ≠ "" → o'.loc = o.loc
  attrs : o'.attrs = o.attrs
  operands : Forall₂ (Option.Rel N) o.operands o'.operands
  results : Forall₂ N o.results o'.results

variable (p q : Program) (lo hi : Nat)

def BlockCopied (R : OpId → OpId → Prop) (b c : BlockId) : Prop :=
  hi ≤ c.index ∧ q.HasBlock c ∧ Forall₂ N (p.block b).args (q.block c).args ∧
    Forall₂ R (p.block b).ops (q.block c).ops

def Copied : Nat → OpId → OpId → Prop
  | 0, _, _ => False
  | n + 1, a, k => lo ≤ k.index ∧ q.HasOp k ∧ OpCopied N (p.op a) (q.op k) ∧
    Forall₂ (Forall₂ (BlockCopied N p q hi (Copied n))) (p.op a).regions (q.op k).regions

end

section
variable {N N' : ValueId → ValueId → Prop} {p q q' : Program} {lo hi lo' hi' : Nat}

theorem OpCopied.mono (hN : ∀ v w, N v w → N' v w) {o o' : Op} (h : OpCopied N o o') : OpCopied N' o o' where
  name := h.name
  loc := h.loc
  attrs := h.attrs
  operands := h.operands.imp fun s t hst => by
    cases hst with
    | some h => exact .some (hN _ _ h)
    | none => exact .none
  results := h.results.imp hN

structure Agree (lo hi : Nat) (q q' : Program) : Prop where
  op : ∀ j, lo ≤ j.index → q.HasOp j → q'.HasOp j ∧ q'.op j = { q.op j with block := (q'.op j).block }
  block : ∀ c, hi ≤ c.index → q.HasBlock c → q'.HasBlock c ∧ q'.block c = q.block c

theorem BlockCopied.mono {R R' : OpId → OpId → Prop} (hN : ∀ v w, N v w → N' v w) (hhi : hi' ≤ hi)
    (hq : Agree lo hi q q') (hR : ∀ a k, R a k → R' a k) (h : BlockCopied N p q hi R b c) :
    BlockCopied N' p q' hi' R' b c := by
  obtain ⟨hlt, hc, hargs, hops⟩ := h
  obtain ⟨hc', heq⟩ := hq.block c hlt hc
  exact ⟨Nat.le_trans hhi hlt, hc', heq ▸ hargs.imp hN, heq ▸ hops.imp hR⟩

theorem BlockCopied.of_later {R R' : OpId → OpId → Prop} (wf : p.WellFormed)
    (h : Later (fun _ => False) Y p t) (hb : p.HasBlock b) (hY : ¬ Y b)
    (hR : ∀ x, (p.op x).block = some b → ∀ y, R x y → R' x y) (hc : BlockCopied N t q hi R b c) :
    BlockCopied N p q hi R' b c := by
  obtain ⟨hlt, hcq, hargs, hops⟩ := hc
  rw [h.block_eq hb hY] at hargs hops
  exact ⟨hlt, hcq, hargs, forall₂_imp_of_mem hops fun x hx y _ => hR x ((wf.listed x b).mpr hx) y⟩

theorem Copied.mono (hN : ∀ v w, N v w → N' v w) (hlo : lo' ≤ lo) (hhi : hi' ≤ hi) (hq : Agree lo hi q q') :
    ∀ (n : Nat) (a k : OpId), Copied N p q lo hi n a k → Copied N' p q' lo' hi' n a k
  | 0, _, _, h => h
  | n + 1, a, k, ⟨hlt, hk, ho, hr⟩ => by
    obtain ⟨hk', heq⟩ := hq.op k hlt hk
    refine ⟨Nat.le_trans hlo hlt, hk', ?_, ?_⟩
    · rw [heq]
      have := ho.mono hN
      exact ⟨this.name, this.loc, this.attrs, this.operands, this.results⟩
    · rw [heq]
      exact hr.imp fun _ _ h => h.imp fun _ _ h => h.mono hN hhi hq (Copied.mono hN hlo hhi hq n)

theorem Copied.of_later (wf : p.WellFormed) (h : Later (fun _ => False) (· = b) p t) :
    ∀ (n : Nat) (a k : OpId), p.HasOp a → ¬ p.Within a (p.block b).owner → Copied N t q lo hi n a k →
      Copied N p q lo hi n a k
  | 0, _, _, _, _, hc => hc
  | n + 1, a, k, ha, hout, ⟨hlt, hk, ho, hr⟩ => by
    rw [h.op a ha id] at ho hr
    refine ⟨hlt, hk, ho, forall₂_imp_of_mem hr fun bs hbs cs _ hbcs => ?_⟩
    refine forall₂_imp_of_mem hbcs fun c hc c' _ hcc => ?_
    obtain ⟨hcb, hown⟩ := wf.owner_of_mem hbs hc
    have hne : c ≠ b := by
      rintro rfl
      exact hout (hown ▸ .refl)
    exact (BlockCopied.of_later wf h hcb hne fun x hx y => Copied.of_later wf h n x y (hasOp_of_block hx) fun hw => hout
      ((Within.single (parent?_eq_some.mpr ⟨c, hx, hown⟩)).trans hw)) hcc

theorem Agree.refl (lo hi : Nat) (q : Program) : Agree lo hi q q :=
    ⟨fun _ _ h => ⟨h, rfl⟩, fun _ _ h => ⟨h, rfl⟩⟩

theorem Agree.of_later {X : OpId → Prop} (h : Later X Y q q')
    (hX : ∀ j, lo ≤ j.index → ¬ X j) (hY : ∀ c, hi ≤ c.index → ¬ Y c) : Agree lo hi q q' where
  op j hj hq := ⟨h.hasOp hq, by rw [h.op j hq (hX j hj)]⟩
  block c hc hq := ⟨h.hasBlock hq, h.block_eq hq (hY c hc)⟩

end

/-! ## The substitution on the way -/

/-- The substitution `m` names copies, in `q`, of values inside of what is copied from `p`. -/
structure Copying (p : Program) (X : OpId → Prop) (In : Border) (m : Substitution) (q : Program) : Prop where
  wellFormed : q.WellFormed
  later : Later X (fun _ => False) p q
  outside : ∀ v, ¬ In v → m.apply v = In.outer v
  there : ∀ v, ¬ In v → p.HasValue v → p.HasValue (In.outer v)
  new : ∀ v w, In v → m.value? v = some w → ¬ p.HasValue w ∧ q.HasValue w ∧ q.typeOf w = p.typeOf v
  inj : ∀ v v' w, In v → In v' → m.value? v = some w → m.value? v' = some w → v = v'
  grown : Grown (Spare p In) p q

structure Added (S : ValueId → Prop) (m n : Substitution) : Prop where
  keep : ∀ v w, m.value? v = some w → n.value? v = some w
  add : ∀ v, S v → (n.value? v).isSome
  only : ∀ v, (n.value? v).isSome → (m.value? v).isSome ∨ S v

section
variable {p q q' : Program} {X Z : OpId → Prop} {Y : BlockId → Prop} {In : Border} {S T : ValueId → Prop}
    {m n o : Substitution}

theorem Added.refl (m : Substitution) : Added (fun _ => False) m m :=
  ⟨fun _ _ h => h, fun _ h => h.elim, fun _ h => .inl h⟩

theorem Added.trans (h : Added S m n) (h' : Added T n o) : Added (fun v => S v ∨ T v) m o where
  keep v w hv := h'.keep v w (h.keep v w hv)
  add v hv := by
    rcases hv with hv | hv
    · obtain ⟨w, hw⟩ := Option.isSome_iff_exists.mp (h.add v hv)
      rw [h'.keep v w hw]
      rfl
    · exact h'.add v hv
  only v hv := by
    rcases h'.only v hv with hv | hv
    · exact (h.only v hv).imp id .inl
    · exact .inr (.inr hv)

theorem Added.congr (h : Added S m n) (hS : ∀ v, S v ↔ T v) : Added T m n :=
  ⟨h.keep, fun v hv => h.add v ((hS v).mpr hv), fun v hv => (h.only v hv).imp id (hS v).mp⟩

theorem Added.isSome (h : Added S m n) (hv : (m.value? v).isSome) : (n.value? v).isSome := by
  obtain ⟨w, hw⟩ := Option.isSome_iff_exists.mp hv
  rw [h.keep v w hw]
  rfl

theorem Added.eq_none (h : Added S m n) (hm : m.value? v = none) (hS : ¬ S v) : n.value? v = none := by
  rw [← Option.not_isSome_iff_eq_none]
  intro hv
  rcases h.only v hv with hv | hv
  · rw [hm] at hv
    cases hv
  · exact hS hv

theorem Names.mono (h : Added S m n) (v w : ValueId) (hv : Names In m v w) : Names In n v w :=
  hv.imp (And.imp_right (h.keep v w)) id

theorem Copying.next (h : Copying p X In m q) (wf : q'.WellFormed) (hl : Later Z Y q q')
    (hZ : ∀ j, p.HasOp j → Z j → X j) (hY : ∀ c, p.HasBlock c → ¬ Y c)
    (hg : Grown (Spare p In) q q') : Copying p X In m q' where
  wellFormed := wf
  later := h.later.trans hl hZ fun c hc hYc => hY c hc hYc
  outside := h.outside
  there := h.there
  new v w hin hv := by
    obtain ⟨h1, h2, h3⟩ := h.new v w hin hv
    exact ⟨h1, hl.hasValue h2, (hl.typeOf h2).trans h3⟩
  inj := h.inj
  grown := h.grown.trans hg fun _ hv => hv

theorem Copying.addAll (h : Copying p X In m q) (wf : q'.WellFormed) (hl : Later Z Y q q')
    (hZ : ∀ j, p.HasOp j → Z j → X j) (hY : ∀ c, p.HasBlock c → ¬ Y c)
    (hg : Grown (Spare p In) q q') {vs : List ValueId} (hn : vs.Nodup) (hvs : ∀ v ∈ vs, In v ∧ m.value? v = none)
    (ht : ∀ k v, vs[k]? = some v → q'.HasValue ⟨q.values.size + k⟩ ∧
      q'.typeOf ⟨q.values.size + k⟩ = p.typeOf v)
    (hval : ∀ v, n.value? v = (m.addAll (vs.zip (Edit.freshValues q vs.length))).value? v) :
    Copying p X In n q' ∧ Added (· ∈ vs) m n ∧
      Forall₂ (fun v w => n.value? v = some w) vs (Edit.freshValues q vs.length) := by
  have hfst : (vs.zip (Edit.freshValues q vs.length)).map Prod.fst = vs :=
    map_fst_zip (by simp)
  have hold : ∀ v, v ∉ vs → n.value? v = m.value? v := fun v hv => by
    rw [hval, Substitution.value?_addAll_of_not_mem (by rwa [hfst])]
  have hnew : ∀ k v, vs[k]? = some v → n.value? v = some ⟨q.values.size + k⟩ := by
    intro k v hk
    rw [hval]
    refine Substitution.value?_addAll_of_mem (by rwa [hfst]) (mem_iff_getElem?.mpr ⟨k, ?_⟩)
    rw [List.zip, getElem?_zipWith, hk,
      Edit.getElem?_freshValues.mpr ⟨(List.getElem?_eq_some_iff.mp hk).1, rfl⟩]
  have hcase : ∀ v w, n.value? v = some w →
      (v ∉ vs ∧ m.value? v = some w) ∨ ∃ k, vs[k]? = some v ∧ w = ⟨q.values.size + k⟩ := by
    intro v w hv
    by_cases hmem : v ∈ vs
    · obtain ⟨k, hk⟩ := getElem?_of_mem hmem
      exact .inr ⟨k, hk, by simpa [hnew k v hk, eq_comm] using hv⟩
    · exact .inl ⟨hmem, by rwa [← hold v hmem]⟩
  refine ⟨⟨wf, h.later.trans hl hZ fun c hc hYc => hY c hc hYc, ?_, h.there, ?_, ?_,
    h.grown.trans hg fun _ hv => hv⟩, ⟨?_, ?_, ?_⟩, ?_⟩
  · intro v hout
    rw [← h.outside v hout, Substitution.apply, Substitution.apply, hold v fun hmem => hout (hvs v hmem).1]
  · intro v w hin hv
    rcases hcase v w hv with ⟨-, hv⟩ | ⟨k, hk, rfl⟩
    · obtain ⟨h1, h2, h3⟩ := h.new v w hin hv
      exact ⟨h1, hl.hasValue h2, (hl.typeOf h2).trans h3⟩
    · refine ⟨fun hp => ?_, ht k v hk⟩
      have := h.later.values
      simp only [HasValue] at hp
      omega
  · intro v v' w hin hin' hv hv'
    rcases hcase v w hv with ⟨-, hv⟩ | ⟨k, hk, rfl⟩
    · rcases hcase v' w hv' with ⟨-, hv'⟩ | ⟨k', -, rfl⟩
      · exact h.inj v v' w hin hin' hv hv'
      · have := (h.new v _ hin hv).2.1
        simp only [HasValue] at this
        omega
    · rcases hcase v' _ hv' with ⟨-, hv'⟩ | ⟨k', hk', heq⟩
      · have := (h.new v' _ hin' hv').2.1
        simp only [HasValue] at this
        omega
      · obtain rfl : k = k' := by simpa using heq
        exact Option.mem_unique hk hk'
  · intro v w hv
    rw [hold v fun hmem => by simp [(hvs v hmem).2] at hv, hv]
  · intro v hv
    obtain ⟨k, hk⟩ := getElem?_of_mem hv
    rw [hnew k v hk]
    rfl
  · intro v hv
    by_cases hmem : v ∈ vs
    · exact .inr hmem
    · exact .inl (by rwa [← hold v hmem])
  · rw [forall₂_iff_get]
    refine ⟨by simp, fun k hk hk' => ?_⟩
    simp only [get_eq_getElem]
    rw [hnew k _ (getElem?_eq_getElem hk)]
    simp [Edit.freshValues]

end

end Cloning

end Offload
