import Offload.Proofs.Copies

/-!
# Copies can be made

A region can be copied if everything in it could be created again. The fuel of a copy is enough, because a
chain of nested operations is no longer than the program.
-/

namespace Offload

open Program List

variable {a : OpId} {b : BlockId} {bs : List BlockId} {g : OpId → Cloning OpId} {k : Nat} {m : Substitution}
  {q : Program}

namespace Program

structure Remakable (p : Program) (a : OpId) : Prop where
  named : ∀ x, p.Within a x → (p.op x).name.toList.contains '.' = true
  room : ∀ x, p.Within a x → checkLength (p.op x).regions.length = .ok (p.op x).regions.length
  typed : ∀ v, p.Defines a v → p.typeOf v ≠ .absent

variable {p : Program} {a x : OpId}

theorem Creatable.remakable (hp : p.Creatable) (ha : p.HasOp a) : p.Remakable a where
  named x hx := hp.named x (hx.hasOp ha)
  room x hx := hp.room x (hx.hasOp ha)
  typed v hv := hp.typed v hv.1

theorem Remakable.child (h : p.Remakable a) (hx : p.parent? x = some a) : p.Remakable x where
  named y hy := h.named y ((Within.single hx).trans hy)
  room y hy := h.room y ((Within.single hx).trans hy)
  typed v hv := h.typed v ⟨hv.1, (Within.single hx).trans hv.2⟩

end Program

namespace Cloning

variable {T : Prop} {dest : OpId} {region : Nat}

theorem cloneBlock_makes (wf : q.WellFormed) (hd : q.HasOp dest) (hb : q.HasBlock b)
    (hT : T → region < (q.op dest).regions.length ∧ ∀ v ∈ (q.block b).args, q.typeOf v ≠ .absent) :
    Makes T (fun c m' q' => Edit.NewBlock dest region (q.argTypes b) c q q' ∧
      ∀ v, m'.value? v = (m.addAll ((q.block b).args.zip (Edit.freshValues q (q.block b).args.length))).value? v)
      (cloneBlock dest region b) m q := by
  rw [cloneBlock]
  refine (Makes.lift ⟨fun _ _ => Edit.newBlock_ok hd, fun h => Edit.newBlock_succeeds [] (hT h).1 (by simp)⟩).bind
    fun c n t hc => ?_
  obtain ⟨rfl, ts, hts, hnew⟩ := hc
  obtain rfl : ts = [] := by simpa using hts
  refine .read (Edit.getBlock_ok.mpr ⟨rfl, rfl⟩) ?_
  rw [hnew.away b fun h => hnew.not_hasBlock (h ▸ hb)]
  refine (Makes.forIn (P := fun l m' u => ∃ pre, (q.block b).args = pre ++ l ∧
    Edit.NewBlock dest region (pre.map q.typeOf) c q u ∧ m' = n.addAll (pre.zip (Edit.freshValues q pre.length)))
    ?_ _ ⟨[], rfl, hnew, rfl⟩).bind fun _ m' u h => ?_
  · rintro arg l m' u ⟨pre, hpre, hu, rfl⟩
    have harg : q.HasValue arg := wf.hasValue_argument (b := b) (by simp [hpre])
    refine .read (Edit.getValue_ok.mpr ⟨rfl, rfl⟩) ?_
    rw [hu.old arg harg]
    refine (Makes.lift ⟨fun _ _ => Edit.addArgument_ok hu, fun h =>
      Edit.addArgument_succeeds ((hT h).2 arg (by simp [hpre]))⟩).bind fun w m' u' h => ?_
    obtain ⟨rfl, t, ht, rfl, hu'⟩ := h
    refine .change (.pure ⟨rfl, pre ++ [arg], by simp [hpre], ?_, ?_⟩)
    · rw [Option.some.injEq] at ht
      rw [map_append, map_singleton, ht]
      exact hu'
    · rw [length_append, length_singleton, Edit.freshValues_snoc, zip_append (by simp), length_map]
      exact (Substitution.addAll_snoc _ _ _).symm
  · obtain ⟨pre, hpre, hq, rfl⟩ := h
    obtain rfl : (q.block b).args = pre := by simpa using hpre
    exact .change (.pure ⟨hq, fun v => Substitution.value?_addBlock⟩)

section
variable {r : Registry} {root : OpId} {p : Program} (wf : p.WellFormed) {X : OpId → Prop} {In : Border} {n : Nat}
include wf

theorem openBlocks_makes (hX : p.HasOp dest → X dest) :
    ∀ {bs : List BlockId} {m : Substitution} {q : Program}, Copying p X In m q → q.HasOp dest → bs.Nodup →
      (∀ b ∈ bs, p.HasBlock b ∧ ∀ v ∈ (p.block b).args, In v ∧ m.value? v = none) →
      (T → region < (q.op dest).regions.length ∧ ∀ b ∈ bs, ∀ v ∈ (p.block b).args,
        p.typeOf v ≠ .absent) →
      Makes T (fun cs => Opened p X In dest region bs cs m q) (bs.mapM (cloneBlock dest region)) m q
  | [], m, q, hm, hd, _, _, _ => by
    rw [mapM_nil]
    exact .pure ⟨hm, .refl _ _ _, rfl, (Added.refl m).congr (by simp), by simp [modify_self], .nil, .nil⟩
  | b :: bs, m, q, hm, hd, hn, hb, hT => by
    obtain ⟨hbp, hargs⟩ := hb b (by simp)
    have hbq : q.block b = p.block b := hm.later.block_eq hbp id
    have htype : ∀ v ∈ (p.block b).args, q.typeOf v = p.typeOf v := fun v hv =>
      hm.later.typeOf (wf.hasValue_argument hv)
    rw [mapM_cons]
    refine (cloneBlock_makes hm.wellFormed hd (hm.later.hasBlock hbp) fun h => ⟨(hT h).1, fun v hv => ?_⟩).bind
      fun c m1 q1 hc => ?_
    · rw [hbq] at hv
      rw [htype v hv]
      exact (hT h).2 b (by simp) v hv
    obtain ⟨hnew, hval⟩ := hc
    rw [hbq] at hval
    obtain ⟨hm1, hadd, hfor⟩ := hm.addAll (hnew.wellFormed hm.wellFormed) hnew.later
      (fun j hj hjd => hjd ▸ hX (hjd ▸ hj)) (fun _ _ h => h) (hnew.grown _) (wf.nodup_args b) hargs
        (fun k v hk => by
        have hty : (q.argTypes b)[k]? = some (q.typeOf v) := by
          rw [Program.argTypes, hbq, getElem?_map, hk]
          rfl
        refine ⟨?_, ?_⟩
        · rw [hnew.hasValue]
          exact .inr ⟨k, (List.getElem?_eq_some_iff.mp hty).1, rfl⟩
        · rw [Program.typeOf, hnew.new k _ hty]
          exact htype v (mem_of_getElem? hk)) hval
    rw [nodup_cons] at hn
    refine (openBlocks_makes hX hm1 (hnew.later.hasOp hd) hn.2 (fun b' hb' => ?_) fun h => ⟨?_, fun b' hb' =>
      (hT h).2 b' (mem_cons_of_mem _ hb')⟩).bind fun cs m' q' h1 => .pure ?_
    · obtain ⟨hbp', hargs'⟩ := hb b' (mem_cons_of_mem _ hb')
      refine ⟨hbp', fun v hv => ⟨(hargs' v hv).1, hadd.eq_none (hargs' v hv).2 fun hvb => hn.1 ?_⟩⟩
      rwa [wf.eq_of_mem_args hvb hv]
    · rw [hnew.self, length_modify]
      exact (hT h).1
    have hcq1 : q1.HasBlock c := hnew.hasBlock.mpr (.inr rfl)
    have hcnot : c ∉ cs := by
      intro hmem
      obtain ⟨b', -, hlt, -⟩ := forall₂_mem_right h1.blocks hmem
      exact absurd hcq1 (Nat.not_lt.mpr hlt)
    refine ⟨h1.copying, hnew.later.trans h1.later (fun _ _ h => h) (fun _ _ h => h), ?_, ?_, ?_, ?_, ?_⟩
    · rw [h1.ops, hnew.ops]
    · exact (hadd.trans h1.added).congr fun v => by simp
    · rw [h1.self, hnew.self]
      simp [modify_modify_eq, Function.comp_def]
    · exact nodup_cons.mpr ⟨hcnot, h1.nodup⟩
    · have hcq : q'.block c = q1.block c := h1.later.block_eq hcq1 id
      refine .cons ⟨Nat.le_of_eq (by rw [hnew.id]), h1.later.hasBlock hcq1, by rw [hcq, hnew.here], by
        rw [hcq, hnew.here], ?_⟩
        (h1.blocks.imp fun b' c' hc' => ⟨?_, hc'.2⟩)
      · rw [hcq, hnew.here, Program.argTypes, length_map, hbq]
        exact hfor.imp fun v w hv => h1.added.keep v w hv
      · have := hnew.blocks
        omega

def Clones (T : Prop) (r : Registry) (root : OpId) (p : Program) (X : OpId → Prop) (In : Border) (n : Nat)
    (g : OpId → Cloning OpId) (x : OpId) : Prop :=
  ∀ m q, Copyable r root p X In x → Ready r root p In x m → Copying p X In m q →
    Makes T (fun k => Cloned p X In n x k m q) (g x) m q

theorem fillBlock_makes {b c : BlockId} (hg : ∀ x ∈ (p.block b).ops, Clones T r root p X In n g x)
    (hfill : Fillable r root p X In b c m q) :
    Makes T (fun _ => Filling p X In n c (p.block b).ops m q) (forIn (p.block b).ops ⟨⟩ fun x _ => do
      let copy ← g x
      Edit.append c copy
      pure (ForInStep.yield PUnit.unit)) m q := by
  refine (Makes.forIn (P := fun l m' q' => ∃ pre, (p.block b).ops = pre ++ l ∧ Filling p X In n c pre m q m' q')
    ?_ _ ⟨[], rfl, hfill.start⟩).weaken fun _ q' h => ?_
  · rintro x l m1 q1 ⟨pre, hpre, hpart⟩
    have hx : x ∈ (p.block b).ops := by simp [hpre]
    refine (hg x hx m1 q1 (hfill.copyable x hx)
      (ready_of_block wf hpre hpart.added hfill.above hfill.args hfill.fresh) hpart.copying).bind fun k m2 t hcl => ?_
    refine (Makes.lift (Q := fun _ q2 => Filling p X In n c (pre ++ [x]) m q m2 q2)
      ⟨fun _ _ => filling_step hfill.hasBlock hfill.new hpart hcl, fun _ => Edit.append_succeeds hcl.detached⟩).bind
      fun _ m3 q2 h => .pure ⟨rfl, pre ++ [x], by simp [hpre], ?_⟩
    obtain ⟨rfl, h⟩ := h
    exact h
  · obtain ⟨pre, hpre, h⟩ := h
    rw [append_nil] at hpre
    rwa [hpre]

theorem cloneBlocks_makes (hg : ∀ b ∈ bs, ∀ x ∈ (p.block b).ops, Clones T r root p X In n g x)
    (hreg : Regional r root p X In a dest k bs m q) (hT : T → p.Remakable a ∧ region < (q.op dest).regions.length) :
    Makes T (fun _ => BlocksCloned p X In n dest region bs m q) (cloneBlocks g a k dest region) m q := by
  rw [cloneBlocks]
  refine .step (blocksOf_ok.mpr ⟨by rw [hreg.copying.later.op a hreg.source hreg.apart, hreg.blocks], rfl, rfl⟩) ?_
  refine (openBlocks_makes wf hreg.target hreg.copying hreg.hasOp
    (wf.regionOnce a bs (mem_of_getElem? hreg.blocks))
    (fun b hb => ⟨(hreg.member wf hb).1, fun v hv => hreg.holds b hb v (.inl hv)⟩)
    fun h => ⟨(hT h).2, fun b hb v hv => (hT h).1.typed v ((hreg.member wf hb).2 ▸ defines_of_holds wf
      (.inl hv))⟩).bind
    fun cs m1 q1 ho => ?_
  refine .step (blocksOf_ok.mpr ⟨by rw [ho.copying.later.op a hreg.source hreg.apart, hreg.blocks], rfl, rfl⟩) ?_
  refine (Makes.forIn (P := Underway p X In n bs cs m1 q1) ?_ _ (.start ho.copying)).bind
    fun _ m2 q2 h => .pure (h.done hreg ho)
  rintro ⟨b, index⟩ l m2 q2 hway
  obtain ⟨hb, c, hindex, hfill, hnext⟩ := hway.next wf hreg ho
  refine .read (Edit.getBlock_ok.mpr ⟨rfl, rfl⟩) ?_
  simp only [hindex, hfill.copying.later.block_eq (hreg.member wf hb).1 id]
  exact (fillBlock_makes wf (hg b hb) hfill).bind fun _ m3 q3 h => .pure ⟨rfl, hnext m3 q3 h⟩

theorem cloneFrom_makes : ∀ (n : Nat) (a : OpId),
    (T → p.Remakable a ∧ p.ops.size < n + (p.enclosing a).length) → Clones T r root p X In n (cloneFrom n) a
  | 0, a, hT => by
    intro m q hc _ _
    rw [cloneFrom]
    refine .stop fun h => ?_
    have hle := wf.enclosingFrom_length_le (p.ops.size + 1) hc.hasOp
    have hlt := (hT h).2
    rw [enclosing] at hlt
    omega
  | n + 1, a, hT => by
    intro m q hc hr hm
    have haX : ¬ X a := hc.apart a .refl
    rw [cloneFrom]
    refine .read (Edit.getOp_ok.mpr ⟨rfl, rfl⟩) (.step (current_ok.mpr ⟨rfl, rfl, rfl⟩)
      (.read (getThe_ok.mpr ⟨rfl, rfl⟩) ?_))
    rw [hm.later.op a hc.hasOp haX, hm.resultTypes wf hc.hasOp haX]
    refine (Makes.lift ⟨fun _ _ => begin_ok wf hc hr hm, fun h => ?_⟩).bind fun k m1 t hk => ?_
    · refine Edit.newOp_succeeds ((hT h).1.named a .refl) ?_ rfl ?_ ((hT h).1.room a .refl)
      · intro hnone
        obtain ⟨s, hs, hsn⟩ := mem_map.mp hnone
        obtain ⟨v, rfl, -⟩ := hc.uses wf hr hm hs
        cases hsn
      · intro habs
        obtain ⟨v, hv, hvt⟩ := mem_map.mp habs
        exact (hT h).1.typed v ((defines_iff wf).mpr (.inl hv)) hvt
    obtain ⟨rfl, hbegun⟩ := hk
    refine .read (Edit.getOp_ok.mpr ⟨rfl, rfl⟩) (.change ?_)
    refine (Makes.forIn (P := RegionsLeft p X In n a k _ t) ?_ _ (.start hbegun.start)).bind
      fun _ m2 q2 h => .pure (hbegun.cloned wf hc hr hm h.done)
    intro j l m3 q3 hleft
    obtain ⟨bs, hbs, hreg, hnext⟩ := hleft.next hbegun.hasOp.2
    have hregional := hbegun.regional wf hc hr hm hreg hbs
    refine (cloneBlocks_makes wf (fun b hb x hx => cloneFrom_makes n x fun h => ?_) hregional
      fun h => ⟨(hT h).1, ?_⟩).bind fun _ m4 q4 h => .pure ⟨rfl, hnext m4 q4 h⟩
    · have hpx : p.parent? x = some a := by rw [parent_of_mem wf hx, (hregional.member wf hb).2]
      refine ⟨(hT h).1.child hpx, ?_⟩
      have hlt := (hT h).2
      have hl := wf.length_enclosing_of_parent hpx
      omega
    · obtain ⟨css, hself, hcss⟩ := hreg.copies
      have hlen := hcss.length_eq
      have hlt := (List.getElem?_eq_some_iff.mp hbs).1
      rw [length_take] at hlen
      rw [hself, length_append, length_replicate]
      omega

end

end Cloning

namespace Edit

open Cloning

theorem cloneRegion_gives {T : Prop} {r : Registry} {root : OpId} {p : Program} {a dest : OpId} {k region : Nat}
    (wf : p.WellFormed) (hbs : (p.op a).regions[k]? = some bs)
    (ha : p.HasOp a) (hd : p.HasOp dest) (hout : ¬ p.Within a dest)
    (hsees : ∀ x, p.Within a x → x ≠ a → ∀ s ∈ (p.op x).operands, ∃ v, s = some v ∧
      Visible r p root v x)
    (hT : T → p.Creatable ∧ region < (p.op dest).regions.length) :
    Gives T (fun _ q => ∃ φ cs, RegionCloned (p.ops.size + 1) φ dest region bs cs p q)
      (cloneRegion a k dest region {}) p := by
  have hreg := regional_start wf hbs ha hd hout hsees
  rw [cloneRegion]
  refine .step (get_ok.mpr ⟨rfl, rfl⟩) (.step (get_ok.mpr ⟨rfl, rfl⟩) ?_)
  split
  · exact .stop fun h => absurd (hT h).2 (by omega)
  refine Gives.bind (cloneBlocks_makes wf (fun b hb x hx => cloneFrom_makes wf (p.ops.size + 1) x fun h =>
    ⟨((hT h).1.remakable ha).child (by rw [parent_of_mem wf hx, (hreg.member wf hb).2]), by omega⟩) hreg
    fun h => ⟨(hT h).1.remakable ha, (hT h).2⟩) fun x q hc => ?_
  obtain ⟨_, m⟩ := x
  refine .pure ?_
  obtain ⟨cs, hself, hblocks⟩ := hc.copies
  have hnames : ∀ v w, Names { inside := fun v => ∃ b ∈ bs, p.Holds b v } m v w → w = m.apply v := by
    rintro v w (⟨-, hv⟩ | ⟨hv, rfl⟩)
    · simp [Substitution.apply, hv]
    · exact (hc.copying.outside _ hv).symm
  have hsome : ∀ b ∈ bs, ∀ v, p.Holds b v → m.value? v = some (m.apply v) := by
    intro b hb v hv
    obtain ⟨w, hw⟩ := Option.isSome_iff_exists.mp (hc.added.add v ⟨b, hb, hv⟩)
    simp [Substitution.apply, hw]
  refine ⟨m.apply, cs, hc.copying.wellFormed, hc.later, hself, ⟨?_, ?_, ?_, ?_⟩,
    fun v hv hu => hc.copying.grown.unused v ⟨hv, hu, fun _ _ h => h⟩ hu, hc.copying.grown.creatable⟩
  · exact hblocks.imp fun _ _ h => h.mono hnames (Nat.le_refl _) (.refl p.ops.size _ _)
      (Copied.mono hnames (Nat.le_refl _) (Nat.le_refl _) (.refl _ _ _) _)
  · exact fun b hb v hv => hc.copying.new v _ ⟨b, hb, hv⟩ (hsome b hb v hv)
  · intro b hb c hc' v w hv hw heq
    exact hc.copying.inj v w _ ⟨b, hb, hv⟩ ⟨c, hc', hw⟩ (hsome b hb v hv) (heq ▸ hsome c hc' w hw)
  · intro v _ hv
    have hfree : ¬ ∃ b ∈ bs, p.Holds b v := by
      rintro ⟨b, hb, h⟩
      exact hv b hb h
    exact (hnames v v (.inr ⟨hfree, rfl⟩)).symm

end Edit

end Offload
