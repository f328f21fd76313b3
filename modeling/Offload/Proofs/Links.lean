import Mathlib.Data.List.Forall2
import Offload.Proofs.Frames

/-!
# Runs side by side

A link says which cell of one store goes with which cell of the other, and linked cells have the same elements.
`Paired` says that the second computation does what the first does, failures included, and that both leave alone
the cells without a link that were there before.
-/

namespace Offload.Execution

open EStateM.Result List Exec

variable {α β : Type}

abbrev Link := Nat → Nat → Prop

variable {R R' R'' : Link} {s s' t t' u u' : Store} {a b : Nat}

structure Linked (R : Link) (s s' : Store) : Prop where
  left : ∀ {a b b'}, R a b → R a b' → b = b'
  right : ∀ {a a' b}, R a b → R a' b → a = a'
  same : ∀ {a b}, R a b → ∃ data, s.cells[a]? = some data ∧ s'.cells[b]? = some data

theorem Linked.lt_left (h : Linked R s s') (hr : R a b) : a < s.cells.size := by
  obtain ⟨_, hs, _⟩ := h.same hr
  exact (Array.getElem?_eq_some_iff.mp hs).1

theorem Linked.lt_right (h : Linked R s s') (hr : R a b) : b < s'.cells.size := by
  obtain ⟨_, _, hs⟩ := h.same hr
  exact (Array.getElem?_eq_some_iff.mp hs).1

/-- How two runs got from the stores `s` and `s'` to `t` and `t'`: links are kept and only new cells get linked,
and cells without a link are left alone. -/
structure Advanced (R R' : Link) (s s' t t' : Store) : Prop where
  linked : Linked R' t t'
  keeps : ∀ {a b}, R a b → R' a b
  fresh : ∀ {a b}, R' a b → R a b ∨ s.cells.size ≤ a ∧ s'.cells.size ≤ b
  left : Frame (fun c => c < s.cells.size ∧ ∀ d, ¬ R c d) s t
  right : Frame (fun d => d < s'.cells.size ∧ ∀ c, ¬ R c d) s' t'

theorem Advanced.refl (h : Linked R s s') : Advanced R R s s' s s' :=
  ⟨h, id, .inl, .refl _ s, .refl _ s'⟩

theorem Advanced.trans (h : Advanced R R' s s' t t') (h' : Advanced R' R'' t t' u u') : Advanced R R'' s s' u u' where
  linked := h'.linked
  keeps hr := h'.keeps (h.keeps hr)
  fresh hr := (h'.fresh hr).elim h.fresh fun hn =>
    .inr ⟨Nat.le_trans h.left.grows hn.1, Nat.le_trans h.right.grows hn.2⟩
  left := h.left.trans (h'.left.mono fun _ hc => ⟨Nat.lt_of_lt_of_le hc.1 h.left.grows, fun d hd =>
    (h.fresh hd).elim (hc.2 d) fun hn => Nat.not_lt.mpr hn.1 hc.1⟩)
  right := h.right.trans (h'.right.mono fun _ hd => ⟨Nat.lt_of_lt_of_le hd.1 h.right.grows, fun c hc =>
    (h.fresh hc).elim (hd.2 c) fun hn => Nat.not_lt.mpr hn.2 hd.1⟩)

theorem Advanced.write (h : Linked R s s') (hr : R a b) (data : Array Float) (ha : t.cells[a]? = some data)
    (hb : t'.cells[b]? = some data) (ho : ∀ c, c ≠ a → t.cells[c]? = s.cells[c]?)
    (ho' : ∀ d, d ≠ b → t'.cells[d]? = s'.cells[d]?) (hn : t.cells.size = s.cells.size)
    (hn' : t'.cells.size = s'.cells.size) : Advanced R R s s' t t' where
  linked := by
    refine ⟨h.left, h.right, @fun c d hcd => ?_⟩
    by_cases hc : c = a
    · subst hc
      obtain rfl := h.left hr hcd
      exact ⟨data, ha, hb⟩
    · have hd : d ≠ b := fun hd => hc (h.right (hd ▸ hcd) hr)
      rw [ho c hc, ho' d hd]
      exact h.same hcd
  keeps := id
  fresh := .inl
  left := ⟨Nat.le_of_eq hn.symm, fun c hc => ho c fun he => hc.2 b (he ▸ hr)⟩
  right := ⟨Nat.le_of_eq hn'.symm, fun d hd => ho' d fun he => hd.2 a (he ▸ hr)⟩

theorem Advanced.alloc (h : Linked R s s') (data : Array Float) :
    Advanced R (fun a b => R a b ∨ a = s.cells.size ∧ b =
      s'.cells.size) s s' ⟨s.cells.push data⟩ ⟨s'.cells.push data⟩ := by
  have hold : ∀ (u : Store) (c : Nat), c < u.cells.size → (u.cells.push data)[c]? = u.cells[c]? := fun u c hc => by
    rw [Array.getElem?_push, if_neg (Nat.ne_of_lt hc)]
  refine ⟨⟨?_, ?_, ?_⟩, .inl, ?_, ⟨by simp, fun c hc => hold s c hc.1⟩,
    ⟨by simp, fun d hd => hold s' d hd.1⟩⟩
  · rintro a b b' (hb | ⟨rfl, rfl⟩) (hb' | ⟨ha, rfl⟩)
    · exact h.left hb hb'
    · exact absurd (h.lt_left hb) (ha ▸ Nat.lt_irrefl _)
    · exact absurd (h.lt_left hb') (Nat.lt_irrefl _)
    · rfl
  · rintro a a' b (ha | ⟨rfl, rfl⟩) (ha' | ⟨rfl, hb⟩)
    · exact h.right ha ha'
    · exact absurd (h.lt_right ha) (hb ▸ Nat.lt_irrefl _)
    · exact absurd (h.lt_right ha') (Nat.lt_irrefl _)
    · rfl
  · rintro a b (hr | ⟨rfl, rfl⟩)
    · obtain ⟨old, ho, ho'⟩ := h.same hr
      exact ⟨old, (hold s a (h.lt_left hr)).trans ho, (hold s' b (h.lt_right hr)).trans ho'⟩
    · exact ⟨data, Array.getElem?_push_size, Array.getElem?_push_size⟩
  · rintro a b (hr | ⟨rfl, rfl⟩)
    · exact .inl hr
    · exact .inr ⟨Nat.le_refl _, Nat.le_refl _⟩

/-! ## References and data that go together -/

def Ref.Like (R : Link) (r r' : Ref) : Prop := r.shape = r'.shape ∧ R r.cell r'.cell

inductive Datum.Like (R : Link) : Datum → Datum → Prop
  | ref {r r' : Ref} (h : r.Like R r') : Like R (.ref r) (.ref r')
  | workgroup (extents : List Int) : Like R (.workgroup extents) (.workgroup extents)
  | buffer {rs rs' : List Ref} (h : Forall₂ (Ref.Like R) rs rs') : Like R (.buffer rs) (.buffer rs')
  | token : Like R .token .token

theorem Ref.Like.mono {r r' : Ref} (hk : ∀ {a b}, R a b → R' a b) (h : r.Like R r') : r.Like R' r' :=
    ⟨h.1, hk h.2⟩

theorem Datum.Like.mono {d d' : Datum} (hk : ∀ {a b}, R a b → R' a b) (h : d.Like R d') : d.Like R' d' := by
  cases h with
  | ref h => exact .ref (h.mono hk)
  | workgroup extents => exact .workgroup extents
  | buffer h => exact .buffer (h.imp fun _ _ => Ref.Like.mono hk)
  | token => exact .token

/-! ## Computations that look at the stores -/

structure Still (Q : α → α → Prop) (s s' : Store) (x y : Exec α) : Prop where
  ok : ∀ {a t}, x s = .ok a t → t = s ∧ ∃ b, y s' = .ok b s' ∧ Q a b
  error : ∀ {e t}, x s = .error e t → t = s ∧ y s' = .error e s'

namespace Still

variable {Q Q' : α → α → Prop} {P : β → β → Prop} {x y : Exec α} {f g : α → Exec β}

theorem weaken (h : Still Q s s' x y) (hq : ∀ a b, Q a b → Q' a b) : Still Q' s s' x y where
  ok hx := (h.ok hx).imp_right (Exists.imp fun _ hb => hb.imp_right (hq _ _))
  error := h.error

theorem with_left {P : α → Prop} (h : Still Q s s' x y) (hp : ∀ a, x s = .ok a s → P a) :
    Still (fun a b => Q a b ∧ P a) s s' x y where
  ok hx := by
    obtain ⟨rfl, b, hy, hq⟩ := h.ok hx
    exact ⟨rfl, b, hy, hq, hp _ hx⟩
  error := h.error

theorem pure {a b : α} (h : Q a b) : Still Q s s' (pure a) (pure b) where
  ok hx := by
    obtain ⟨rfl, rfl⟩ := ok.inj hx
    exact ⟨rfl, b, rfl, h⟩
  error hx := nomatch hx

theorem throw (e : Stop RunError) : Still Q s s' (throw e) (throw e) where
  ok hx := nomatch hx
  error hx := by
    obtain ⟨rfl, rfl⟩ := error.inj hx
    exact ⟨rfl, rfl⟩

theorem crash : Still Q s s' crash crash := throw _

theorem andThen (hx : Still Q s s' x y) (hf : ∀ {a b}, Q a b → Still P s s' (f a) (g b)) :
    Still P s s' (x >>= f) (y >>= g) where
  ok h := by
    obtain ⟨a, t, ha, hc⟩ := bind_ok.mp h
    obtain ⟨rfl, b, hb, hq⟩ := hx.ok ha
    obtain ⟨rfl, d, hd, hp⟩ := (hf hq).ok hc
    exact ⟨rfl, d, bind_ok.mpr ⟨b, s', hb, hd⟩, hp⟩
  error {e u} h := by
    cases ha : x s with
    | ok a t =>
      obtain ⟨rfl, b, hb, hq⟩ := hx.ok ha
      obtain ⟨rfl, hd⟩ := (hf hq).error (bind_of_ok (f := f) ha ▸ h)
      exact ⟨rfl, (bind_of_ok hb).trans hd⟩
    | error e' t =>
      obtain ⟨rfl, rfl⟩ := error.inj ((bind_of_error ha).symm.trans h)
      obtain ⟨rfl, hb⟩ := hx.error ha
      exact ⟨rfl, bind_of_error hb⟩

theorem except (a : Except Fault α) :
    Still (fun x y => x = y ∧ a = .ok x) s s' (ofExcept a) (ofExcept a) := by
  cases a with
  | ok x => exact pure ⟨rfl, rfl⟩
  | error e => exact throw _

section
variable {r r' : Ref} (hl : Linked R s s') (hr : r.Like R r')
include hl hr

theorem load : Still Eq s s' (Exec.load r) (Exec.load r') := by
  obtain ⟨data, hs, hs'⟩ := hl.same hr.2
  refine ⟨fun hx => ?_, fun hx => ?_⟩
  all_goals rw [Held.load_of_some hs] at hx
  · obtain ⟨rfl, rfl⟩ := ok.inj hx
    exact ⟨rfl, _, Held.load_of_some hs', by rw [hr.1]⟩
  · cases hx

theorem element (i : Int) : Still Eq s s' (element r i) (element r' i) :=
  (load hl hr).andThen fun h => h ▸ (except _).weaken fun _ _ h => h.1

theorem view (dims : List Int) : Still (Ref.Like R) s s' (view r dims) (view r' dims) :=
  (load hl hr).andThen fun h => h ▸ (except _).andThen fun h => .pure ⟨h.1, hr.2⟩

end

theorem mapM {l l' : List α} (h : Forall₂ (fun a b => Still P s s' (f a) (g b)) l l') :
    Still (Forall₂ P) s s' (l.mapM f) (l'.mapM g) := by
  induction h with
  | nil =>
    rw [mapM_nil, mapM_nil]
    exact pure .nil
  | cons hab _ ih =>
    rw [mapM_cons, mapM_cons]
    exact hab.andThen fun hp => ih.andThen fun hps => pure (.cons hp hps)

theorem loads (hl : Linked R s s') {rs rs' : List Ref} (h : Forall₂ (Ref.Like R) rs rs') :
    Still Eq s s' (rs.mapM Exec.load) (rs'.mapM Exec.load) :=
  (mapM (h.imp fun _ _ hr => load hl hr)).weaken fun _ _ h => forall₂_eq_eq_eq ▸ h

end Still

/-! ## Computations side by side -/

/-- The second computation does on `s'` what the first does on `s`: it succeeds if the first does, with `Q` for
the links and the two results, and it fails in the same way if the first does. -/
structure Paired (R : Link) (Q : Link → α → α → Prop) (s s' : Store) (x y : Exec α) : Prop where
  ok : ∀ {a t}, x s = .ok a t → ∃ R' b t', y s' = .ok b t' ∧ Advanced R R' s s' t t' ∧ Q R' a b
  error : ∀ {e t}, x s = .error e t → ∃ R' t', y s' = .error e t' ∧ Advanced R R' s s' t t'

section
variable {Q Q' : Link → α → α → Prop} {P : Link → β → β → Prop} {x y : Exec α} {f g : α → Exec β}

theorem Still.paired (h : Still (Q R) s s' x y) (hl : Linked R s s') : Paired R Q s s' x y where
  ok hx := by
    obtain ⟨rfl, b, hy, hq⟩ := h.ok hx
    exact ⟨R, b, s', hy, .refl hl, hq⟩
  error hx := by
    obtain ⟨rfl, hy⟩ := h.error hx
    exact ⟨R, s', hy, .refl hl⟩

theorem Still.bind {Q : α → α → Prop} (hx : Still Q s s' x y) (hl : Linked R s s')
    (hf : ∀ {a b}, Q a b → Paired R P s s' (f a) (g b)) : Paired R P s s' (x >>= f) (y >>= g) where
  ok h := by
    obtain ⟨a, t, ha, hc⟩ := bind_ok.mp h
    obtain ⟨rfl, b, hb, hq⟩ := hx.ok ha
    exact bind_of_ok (f := g) hb ▸ (hf hq).ok hc
  error {e u} h := by
    cases ha : x s with
    | ok a t =>
      obtain ⟨rfl, b, hb, hq⟩ := hx.ok ha
      exact bind_of_ok (f := g) hb ▸ (hf hq).error (bind_of_ok (f := f) ha ▸ h)
    | error e' t =>
      obtain ⟨rfl, rfl⟩ := error.inj ((bind_of_error ha).symm.trans h)
      obtain ⟨rfl, hb⟩ := hx.error ha
      exact ⟨R, s', bind_of_error hb, .refl hl⟩

theorem Still.same (hx : Still Eq s s' x y) (hl : Linked R s s') (hf : ∀ a, Paired R P s s' (f a) (g a)) :
    Paired R P s s' (x >>= f) (y >>= g) :=
  hx.bind hl fun h => h ▸ hf _

namespace Paired

theorem pure (hl : Linked R s s') {a b : α} (h : Q R a b) : Paired R Q s s' (pure a) (pure b) :=
  (Still.pure h).paired hl

theorem throw (hl : Linked R s s') (e : Stop RunError) : Paired R Q s s' (throw e) (throw e) :=
    (Still.throw e).paired hl

theorem crash (hl : Linked R s s') : Paired R Q s s' crash crash := throw hl _

theorem bind (hx : Paired R Q s s' x y)
    (hf : ∀ {R' a b t t'}, x s = .ok a t → Advanced R R' s s' t t' → Q R' a b → Paired R' P t t' (f a) (g b)) :
    Paired R P s s' (x >>= f) (y >>= g) where
  ok {c u} h := by
    obtain ⟨a, t, ha, hc⟩ := bind_ok.mp h
    obtain ⟨R', b, t', hb, hadv, hq⟩ := hx.ok ha
    obtain ⟨R'', d, u', hd, hadv', hp⟩ := (hf ha hadv hq).ok hc
    exact ⟨R'', d, u', bind_ok.mpr ⟨b, t', hb, hd⟩, hadv.trans hadv', hp⟩
  error {e u} h := by
    cases ha : x s with
    | ok a t =>
      obtain ⟨R', b, t', hb, hadv, hq⟩ := hx.ok ha
      obtain ⟨R'', u', hd, hadv'⟩ := (hf ha hadv hq).error (bind_of_ok (f := f) ha ▸ h)
      exact ⟨R'', u', (bind_of_ok hb).trans hd, hadv.trans hadv'⟩
    | error e' t =>
      obtain ⟨rfl, rfl⟩ := error.inj ((bind_of_error ha).symm.trans h)
      obtain ⟨R', t', hb, hadv⟩ := hx.error ha
      exact ⟨R', t', bind_of_error hb, hadv⟩

theorem ite {c : Prop} [Decidable c] {x' y' : Exec α} (h : c → Paired R Q s s' x y)
    (h' : ¬ c → Paired R Q s s' x' y') : Paired R Q s s' (if c then x else x') (if c then y else y') := by
  by_cases hd : c
  · rw [if_pos hd, if_pos hd]
    exact h hd
  · rw [if_neg hd, if_neg hd]
    exact h' hd

/-! ## Cells -/

theorem alloc (hl : Linked R s s') (v : Tensor) : Paired R Ref.Like s s' (alloc v) (alloc v) where
  ok hx := by
    obtain ⟨rfl, rfl⟩ := ok.inj hx
    exact ⟨_, _, _, rfl, .alloc hl v.data, rfl, .inr ⟨rfl, rfl⟩⟩
  error hx := nomatch hx

theorem modify (hadv : Advanced R R s s' t t') {h h' : Store → Store} (ht : h s = t) (ht' : h' s' = t') :
    Paired R (fun _ _ _ => True) s s' (modify h : Exec Unit) (modify h') where
  ok hx := by
    obtain ⟨-, rfl⟩ := ok.inj hx
    subst ht ht'
    exact ⟨R, (), _, rfl, hadv, trivial⟩
  error hx := nomatch hx

section
variable {r r' : Ref} (hl : Linked R s s') (hr : r.Like R r')
include hl hr

theorem setElement (i : Int) (v : Float) :
    Paired R (fun _ _ _ => True) s s' (setElement r i v) (setElement r' i v) := by
  have hread : Still (fun _ _ => True) s s' (discard (element r i)) (discard (element r' i)) :=
    (Still.element hl hr i).andThen (f := fun _ => Pure.pure ()) (g := fun _ => Pure.pure ()) fun _ => .pure trivial
  refine hread.bind hl fun _ => ?_
  obtain ⟨data, hs, hs'⟩ := hl.same hr.2
  refine modify (.write hl hr.2 (data.setIfInBounds i.toNat v) ?_ ?_ (fun c hc => ?_) (fun d hd => ?_) ?_ ?_)
    rfl rfl
  · simp [Array.getElem?_modify, hs]
  · simp [Array.getElem?_modify, hs']
  · simp [Array.getElem?_modify, hc.symm]
  · simp [Array.getElem?_modify, hd.symm]
  · simp
  · simp

theorem store (data : Array Float) :
    Paired R (fun _ _ _ => True) s s' (store r data) (store r' data) := by
  refine modify (.write hl hr.2 data ?_ ?_ (fun c hc => ?_) (fun d hd => ?_) ?_ ?_) rfl rfl
  · simp [hl.lt_left hr.2]
  · simp [hl.lt_right hr.2]
  · simp [hc.symm]
  · simp [hd.symm]
  · simp
  · simp

theorem clone : Paired R Ref.Like s s' (clone r) (clone r') :=
  (Still.load hl hr).bind hl fun h => h ▸ alloc hl _

end

/-! ## Loops -/

theorem mapM (mono : ∀ {R R' : Link} {c d}, (∀ {a b}, R a b → R' a b) → P R c d → P R' c d) {l l' : List α}
    (h : Forall₂ (fun a b => ∀ R' t t', Advanced R R' s s' t t' → Paired R' P t t' (f a) (g b)) l l')
    (hl : Linked R s s') : Paired R (fun R' => Forall₂ (P R')) s s' (l.mapM f) (l'.mapM g) := by
  induction l generalizing l' R s s' with
  | nil =>
    obtain rfl := forall₂_nil_left_iff.mp h
    rw [mapM_nil, mapM_nil]
    exact pure hl .nil
  | cons a l ih =>
    obtain ⟨b, l', hab, hrest, rfl⟩ := forall₂_cons_left_iff.mp h
    rw [mapM_cons, mapM_cons]
    refine (hab _ _ _ (.refl hl)).bind fun _ hadv hp => ?_
    refine (ih (hrest.imp fun _ _ hab R' t t' hadv' => hab R' t t' (hadv.trans hadv')) hadv.linked).bind
      fun _ hadv' hps => ?_
    exact pure hadv'.linked (.cons (mono hadv'.keeps hp) hps)

theorem forM {f g : α → Exec Unit} {l l' : List α}
    (h : Forall₂ (fun a b => ∀ R' t t', Advanced R R' s s' t t' →
      Paired R' (fun _ _ _ => True) t t' (f a) (g b)) l l')
    (hl : Linked R s s') : Paired R (fun _ _ _ => True) s s' (l.forM f) (l'.forM g) := by
  induction l generalizing l' R s s' with
  | nil =>
    obtain rfl := forall₂_nil_left_iff.mp h
    exact pure hl trivial
  | cons a l ih =>
    obtain ⟨b, l', hab, hrest, rfl⟩ := forall₂_cons_left_iff.mp h
    exact (hab _ _ _ (.refl hl)).bind fun _ hadv _ =>
      ih (hrest.imp fun _ _ hab R' t t' hadv' => hab R' t t' (hadv.trans hadv')) hadv.linked

theorem withContext {p : Program} {i : OpId} (h : Paired R Q s s' x y) :
    Paired R Q s s' (withContext p i x) (withContext p i y) where
  ok {a t} hx := by
    unfold Execution.withContext at hx
    split at hx
    · cases hx
    · obtain ⟨R', b, t', hy, hadv, hq⟩ := h.ok hx
      exact ⟨R', b, t', by rw [Execution.withContext, hy], hadv, hq⟩
  error {e t} hx := by
    unfold Execution.withContext at hx
    split at hx
    · obtain ⟨rfl, rfl⟩ := error.inj hx
      obtain ⟨R', t', hy, hadv⟩ := h.error ‹_›
      exact ⟨R', t', by rw [Execution.withContext, hy], hadv⟩
    · rename_i hne
      obtain ⟨R', t', hy, hadv⟩ := h.error hx
      refine ⟨R', t', ?_, hadv⟩
      cases e with
      | error e => exact (hne e t hx).elim
      | fault e => rw [Execution.withContext, hy]

end Paired

end

end Offload.Execution
