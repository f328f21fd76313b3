import Offload.Proofs.Placement

/-!
# Building before an operation

Operations that are built right before another one come before it in the order in which they were built.
`Emitted` says so, and that nothing that was there before looks different; it composes.
-/

namespace Offload

open Program List

variable {b : BlockId} {s : Edit.Spec} {v : ValueId}

theorem flatMap_before_of_not_mem {i : OpId} (js : List OpId) {l : List OpId} (h : i ∉ l) :
    (l.flatMap fun j => if j = i then js ++ [j] else [j]) = l := by
  rw [flatMap_congr (g := fun j => [j]) fun j hj => if_neg fun (hji : j = i) => h (hji ▸ hj)]
  simp

theorem insertIdx_length_append {α : Type} (a : α) (r : List α) :
    ∀ l : List α, (l ++ r).insertIdx l.length a = l ++ a :: r
  | [] => by simp
  | x :: l => by simp [insertIdx_length_append a r l]

/-- The operations `js` are new and stand right before `i`. What was there before is unchanged. -/
structure Emitted (i : OpId) (js : List OpId) (p q : Program) : Prop where
  wellFormed : q.WellFormed
  ops : p.ops.size ≤ q.ops.size
  blocks : p.blocks.size ≤ q.blocks.size
  values : p.values.size ≤ q.values.size
  op : ∀ j, p.HasOp j → q.op j = p.op j
  block : ∀ c, p.HasBlock c →
    q.block c = { p.block c with ops := (p.block c).ops.flatMap fun j => if j = i then js ++ [j] else [j] }
  value : ∀ v, p.HasValue v → (q.value v).type = (p.value v).type ∧ (q.value v).source = (p.value v).source
  new : ∀ j ∈ js, ¬ p.HasOp j
  all : ∀ j, q.HasOp j → p.HasOp j ∨ j ∈ js

namespace Emitted

variable {p m q : Program} {i : OpId} {js ks : List OpId}

theorem refl (i : OpId) (wf : p.WellFormed) : Emitted i [] p p where
  wellFormed := wf
  ops := Nat.le_refl _
  blocks := Nat.le_refl _
  values := Nat.le_refl _
  op _ _ := rfl
  block c _ := by simp
  value _ _ := ⟨rfl, rfl⟩
  new := by simp
  all _ hj := .inl hj

theorem hasOp (h : Emitted i js p q) {j : OpId} (hj : p.HasOp j) : q.HasOp j := Nat.lt_of_lt_of_le hj h.ops

theorem hasBlock (h : Emitted i js p q) {c : BlockId} (hc : p.HasBlock c) : q.HasBlock c :=
  Nat.lt_of_lt_of_le hc h.blocks

theorem hasValue (h : Emitted i js p q) (hv : p.HasValue v) : q.HasValue v :=
  Nat.lt_of_lt_of_le hv h.values

theorem typeOf (h : Emitted i js p q) (hv : p.HasValue v) : q.typeOf v = p.typeOf v :=
  (h.value v hv).1

theorem trans (hi : p.HasOp i) (h : Emitted i js p m) (h' : Emitted i ks m q) : Emitted i (js ++ ks) p q where
  wellFormed := h'.wellFormed
  ops := Nat.le_trans h.ops h'.ops
  blocks := Nat.le_trans h.blocks h'.blocks
  values := Nat.le_trans h.values h'.values
  op j hj := (h'.op j (h.hasOp hj)).trans (h.op j hj)
  block c hc := by
    rw [h'.block c (h.hasBlock hc), h.block c hc]
    simp only [flatMap_assoc, Block.mk.injEq, true_and]
    refine flatMap_congr fun j _ => ?_
    by_cases hj : j = i
    · -- none of the first ones is `i`
      have hjs := flatMap_before_of_not_mem ks fun hm => h.new i hm hi
      simp [hj, hjs]
    · simp [hj]
  value v hv := by
    have h1 := h.value v hv
    have h2 := h'.value v (h.hasValue hv)
    exact ⟨h2.1.trans h1.1, h2.2.trans h1.2⟩
  new j hj := by
    rcases mem_append.mp hj with hj | hj
    · exact h.new j hj
    · exact fun hp => h'.new j hj (h.hasOp hp)
  all j hj := by
    rw [mem_append, ← or_assoc]
    exact (h'.all j hj).imp_left (h.all j)

end Emitted

namespace Build

variable {c c' : Construction} {i j : OpId}

def Before (i : OpId) (c : Construction) : Prop :=
  ∃ b l r, c.builder.block = some b ∧ (c.program.op i).block = some b ∧
    (c.program.block b).ops = l ++ i :: r ∧ c.builder.place = l.length

theorem before_of_idxOf? {place : Nat} (hb : (c.program.op i).block = some b)
    (hi : (c.program.block b).ops.idxOf? i = some place) (h : c.builder.block = some b)
    (hp : c.builder.place = place) : Before i c := by
  obtain ⟨hlt, hidx⟩ := findIdx?_eq_some_iff_findIdx_eq.mp hi
  have hget : (c.program.block b).ops[place]? = some i := by
    have := findIdx_getElem (p := (· == i)) (w := show (c.program.block b).ops.findIdx (· == i) < _ by rwa [hidx])
    rw [getElem?_eq_getElem hlt]
    simp only [hidx, beq_iff_eq] at this
    rw [this]
  refine ⟨b, (c.program.block b).ops.take place, (c.program.block b).ops.drop (place + 1), h, hb, ?_, ?_⟩
  · obtain ⟨_, hg⟩ := List.getElem?_eq_some_iff.mp hget
    rw [← hg, getElem_cons_drop, take_append_drop]
  · rw [hp, length_take]
    omega

structure Made (s : Edit.Spec) (ts : List Ty) (n : Nat) (c : Construction) (j : OpId) (q : Program) : Prop where
  id : j = ⟨c.program.ops.size⟩
  ops : q.ops.size = c.program.ops.size + 1
  blocks : q.blocks.size = c.program.blocks.size
  values : q.values.size = c.program.values.size + ts.length
  op : q.op j = {
    name := s.name
    loc := if s.loc.isEmpty then (if c.builder.loc.isEmpty then "unknown" else c.builder.loc) else s.loc
    operands := s.operands
    results := Edit.freshValues c.program ts.length
    attrs := s.attrs
    regions := List.replicate n []
    block := c.builder.block }
  results : ∀ k t, ts[k]? = some t → q.typeOf ⟨c.program.values.size + k⟩ = t

theorem not_within_of_no_children {p : Program} (wf : p.WellFormed) (hi : p.children i = []) {a : OpId}
    (h : p.Within i a) : a = i := by
  by_contra hne
  -- the chain from `a` outwards to `i` ends with a child of `i`
  have : ∃ k, p.parent? k = some i := by
    clear hi
    induction h with
    | refl => exact absurd rfl hne
    | @step k q hp hw ih =>
      by_cases hq : q = i
      · exact ⟨k, hq ▸ hp⟩
      · exact ih hq
  obtain ⟨k, hk⟩ := this
  have := wf.mem_children.mpr hk
  rw [hi] at this
  cases this

structure Created (b : BlockId) (s : Edit.Spec) (ts : List Ty) (n : Nat) (j : OpId) (c c' : Construction) : Prop where
  wellFormed : c'.program.WellFormed
  made : Made s ts n c j c'.program
  created : c'.created = c.created ++ [j]
  builder : c'.builder = { c.builder with place := c.builder.place + 1 }
  le : c.builder.place ≤ (c.program.block b).ops.length
  here : c'.program.block b =
    { c.program.block b with ops := (c.program.block b).ops.insertIdx c.builder.place j }
  away : ∀ d, d ≠ b → c'.program.block d = c.program.block d
  op : ∀ k, c.program.HasOp k → c'.program.op k = c.program.op k
  value : ∀ v, c.program.HasValue v →
    (c'.program.value v).type = (c.program.value v).type ∧ (c'.program.value v).source = (c.program.value v).source
  grown : Grown (fun v => some v ∉ s.operands) c.program c'.program

theorem create_at (wf : c.program.WellFormed) (hb : c.builder.block = some b)
    (hB : c.program.HasBlock b) (hv : ∀ v, some v ∈ s.operands → c.program.HasValue v)
    (h : Build.create s c = .ok j c') :
    ∃ ts n, s.results = ts.map some ∧ checkLength s.regions = .ok n ∧ Created b s ts n j c c' := by
  obtain ⟨m, q, hm, hq, rfl⟩ := (create_ok hb).mp h
  obtain ⟨ts, n, hts, _, _, hn, hnew⟩ := Edit.newOp_ok (by exact hv) hm
  have hj : ¬ c.program.HasOp j := by rw [hnew.id]; exact Nat.lt_irrefl _
  have wfm := hnew.wellFormed wf
  have hins := Edit.insertAt_ok (by rw [HasOp, hnew.ops, hnew.id]; simp) (by rwa [HasBlock, hnew.blocks]) hq
  have hmb : m.block b = c.program.block b := hnew.block b
  -- the new operation holds nothing, so that its block is not inside of it
  have howner : ¬ m.Within j (m.block b).owner := by
    intro hw
    have := not_within_of_no_children wfm (by simp [children, hnew.self]) hw
    rw [hmb] at this
    exact hj (this ▸ wf.hasOp_owner hB)
  refine ⟨ts, n, hts, hn, hins.wellFormed wfm howner, ?_, rfl, rfl, hmb ▸ hins.le, ?_, ?_, ?_, ?_,
    hnew.grown.trans (hins.grown fun _ => True) fun _ _ => trivial⟩
  · refine ⟨hnew.id, by rw [hins.ops, hnew.ops], by rw [hins.blocks, hnew.blocks],
      by rw [hins.values, hnew.values], ?_, ?_⟩
    · rw [hins.self, hnew.self, hb]
      by_cases hs : s.loc.isEmpty <;> simp [hs]
    · intro k t hk
      rw [Program.typeOf, hins.value]
      exact (hnew.new k t hk).1
  · rw [hins.here, hmb]
  · intro d hd
    rw [hins.away d hd, hnew.block]
  · intro k hk
    have hkj : k ≠ j := fun h => hj (h ▸ hk)
    rw [hins.other k hkj, hnew.other k hkj]
  · intro v hv
    rw [hins.value]
    exact hnew.old v hv

theorem create_before (wf : c.program.WellFormed) (hb : Before i c)
    (hv : ∀ v, some v ∈ s.operands → c.program.HasValue v) (h : Build.create s c = .ok j c') :
    Before i c' ∧ Emitted i [j] c.program c'.program ∧ c'.created = c.created ++ [j] ∧
      c'.builder = { c.builder with place := c.builder.place + 1 } ∧
      ∃ ts n, s.results = ts.map some ∧ checkLength s.regions = .ok n ∧ Made s ts n c j c'.program := by
  obtain ⟨b, l, r, hbb, hib, hops, hplace⟩ := hb
  obtain ⟨ts, n, hts, hn, hc⟩ := create_at wf hbb (wf.hasBlock_of_block hib) hv h
  have hi : c.program.HasOp i := hasOp_of_block hib
  have hj : ¬ c.program.HasOp j := by rw [hc.made.id]; exact Nat.lt_irrefl _
  have hidx : (c.program.block b).ops.insertIdx c.builder.place j = l ++ j :: i :: r := by
    rw [hops, hplace, insertIdx_length_append]
  have hnew : (c'.program.block b).ops = l ++ j :: i :: r := by rw [hc.here, hidx]
  refine ⟨⟨b, l ++ [j], r, by rw [hc.builder, hbb], by rw [hc.op i hi, hib], by simp [hnew], ?_⟩, ?_, hc.created,
    hc.builder, ts, n, hts, hn, hc.made⟩
  · rw [hc.builder]
    simp [hplace]
  · refine ⟨hc.wellFormed, ?_, Nat.le_of_eq hc.made.blocks.symm, ?_, hc.op, ?_, hc.value, by simpa using hj, ?_⟩
    · rw [hc.made.ops]
      exact Nat.le_succ _
    · rw [hc.made.values]
      exact Nat.le_add_right ..
    · intro d _
      by_cases hd : d = b
      · subst hd
        have hnd := wf.once d
        rw [hops] at hnd
        have hl : i ∉ l := fun hk => (nodup_append.mp hnd).2.2 i hk i (by simp) rfl
        have hr : i ∉ r := (nodup_cons.mp (nodup_append.mp hnd).2.1).1
        rw [hc.here, hidx, hops, flatMap_append, flatMap_cons, flatMap_before_of_not_mem _ hl,
          flatMap_before_of_not_mem _ hr]
        simp
      · have hid : i ∉ (c.program.block d).ops := by
          rw [← wf.listed, hib]
          exact fun h => hd (Option.some.inj h).symm
        rw [hc.away d hd, flatMap_before_of_not_mem _ hid]
    · intro k hk
      rw [HasOp, hc.made.ops] at hk
      refine (Nat.lt_succ_iff_lt_or_eq.mp hk).imp_right fun hk => ?_
      rw [mem_singleton, hc.made.id, ← hk]

end Build

end Offload
