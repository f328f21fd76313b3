import Offload.Proofs.QubitStages

/-!
# How a lowering ends

At an operation to which no pattern applies, at the commit because a register is still used, or with
everything lowered. In the first two cases the operations on registers are all still there.
-/

namespace Offload.Qubits

open Program Build Rewrite Lowering List Register

variable {t : Session QubitMap} {v : ValueId}
variable {p q : Program} {root i : OpId} {done : List OpId} {trace : List (OpId × List Event)} {m : Machine}
  {n : Naming} {new : OpId → List OpId} {s : Session QubitMap} {b : BlockId} {place : Nat}

def Allocatable (p : Program) (i : OpId) : Prop := ∀ r ∈ (p.op i).results, (p.typeOf r).qubits < capacity

/-- How the lowering of `root` in `p` ends. -/
inductive Ends (p : Program) (root : OpId) : Lowered → Program → Prop where
  | stuck {i : OpId} {l : Lowered} {done rest : List OpId} {trace m n new s b place} (e : l.error ≠ none)
      (walk : walk p root = done ++ i :: rest) (quantum : isQuantum (p.op i) = true)
      (sim : Simulates p done trace m n new s) (block : (s.work.program.op i).block = some b)
      (idxOf? : (s.work.program.block b).ops.idxOf? i = some place)
      (unapplied : ∀ t, attempt patterns i s b place ≠ .ok .applied t) : Ends p root l s.work.program
  | used {l : Lowered} {trace m n new s} (e : l.error ≠ none) (sim : Simulates p (walk p root) trace m n new s)
      (used : ¬ Rewriting.Released s (Rewriting.roots s)) : Ends p root l s.work.program
  | lowered {l : Lowered} {q : Program} {trace m n new s t} (e : l.error = none)
      (sim : Simulates p (walk p root) trace m n new s) (released : Rewriting.Released s (Rewriting.roots s))
      (commit : (Rewriting.commit : Lowering _) s = .ok none t) (program : t.work.program = q)
      (allocatable : ∀ i ∈ walk p root, (p.op i).name = allocName → Allocatable p i) : Ends p root l q

/-! ## The driver -/

theorem length_walk (wf : p.WellFormed) (root : OpId) : (walk p root).length ≤ p.ops.size := by
  have hnd : ((walk p root).map OpId.index).Nodup :=
    (nodup_walk wf root).map fun _ _ h => congrArg OpId.mk h
  have hsub : (walk p root).map OpId.index ⊆ List.range p.ops.size := by
    intro k hk
    obtain ⟨j, hj, rfl⟩ := mem_map.mp hk
    exact mem_range.mpr (mem_walk wf hj).1
  simpa using (hnd.subperm hsub).length_le

theorem listed_of_walk (wf : p.WellFormed) (h : Simulates p done trace m n new s) (hi : i ∈ walk p root) :
    ∃ b place, (s.work.program.op i).block = some b ∧ (s.work.program.block b).ops.idxOf? i = some place := by
  obtain ⟨hp, hw, hne⟩ := mem_walk wf hi
  obtain ⟨a, hpar, _⟩ := hw.of_ne (Ne.symm hne)
  obtain ⟨b, hb, _⟩ := parent?_eq_some.mp hpar
  have hb' : (s.work.program.op i).block = some b := by rw [h.op i hp, hb]
  obtain ⟨place, hplace⟩ := Option.isSome_iff_exists.mp (isSome_idxOf?.mpr ((h.wellFormed.listed i b).mp hb'))
  exact ⟨b, place, hb', hplace⟩

def Attended (p : Program) (root : OpId) (worklist : List OpId) (s : Session QubitMap) : Prop :=
  Underway p root worklist s ∧
    ∀ i ∈ walk p root, (p.op i).name = allocName → i ∈ worklist ∨ Allocatable p i

theorem isQuantum_alloc (hn : (p.op i).name = allocName) : isQuantum (p.op i) = true := by
  rw [isQuantum, Op.dialect, hn]
  decide

theorem not_skipped (wf : p.WellFormed) (flat : Flat p root) {rest : List OpId}
    (h : Underway p root (i :: rest) s) (hi : i ∈ walk p root) (hq : isQuantum (p.op i) = true) :
    ¬ Skipped root target s i := by
  obtain ⟨news, done, todo, trace, m, n, new, hl, hw, hnews, h⟩ := h
  have hqs : isQuantum (s.work.program.op i) = true := (h.isQuantum_op (mem_walk wf hi).1).trans hq
  rintro (he | he | ⟨l, hl, ha⟩)
  · have hpend := (h.erasedAt_iff wf flat fun j hj => by rw [hw]; simp [hj]).mp he
    rw [h.pending, mem_filter] at hpend
    cases news with
    | cons j news =>
      obtain ⟨rfl, rfl⟩ := List.cons.inj hl
      rw [hnews i (mem_cons_self ..)] at hqs
      cases hqs
    | nil =>
      rw [nil_append] at hl
      subst hl
      exact (walk_next wf hw).1 hpend.1
  · rw [isInside_eq] at he
    cases he
  · rw [legality_eq, if_pos hqs] at hl
    cases hl
    cases ha

theorem allocatable_of_applied (wf : p.WellFormed) (h : Simulates p done trace m n new s) (hp : p.HasOp i)
    (hk : p.checkKind catalogue i = .ok ()) (hn : (p.op i).name = allocName) {pattern : Pattern QubitMap}
    (hpat : pattern ∈ patterns) (hkind : pattern.kind = (p.op i).name) {loc : String}
    (hr : pattern.rewrite i (Rewriting.placed s b place loc) = .ok .applied t) : Allocatable p i := by
  have hgates : ∀ g ∈ gates, gateName g ≠ allocName := by decide
  rw [hn] at hkind
  simp only [patterns, mem_append, mem_cons, not_mem_nil, or_false, mem_map] at hpat
  rcases hpat with (rfl | rfl | rfl | rfl | rfl | rfl) | ⟨g, hg, rfl⟩
  · simp only [lowerAlloc, bind_ok, result_ok, Rewriting.program_ok, Rewriting.fail_ok] at hr
    obtain ⟨r, _, ⟨hres, rfl⟩, _, _, ⟨rfl, rfl⟩, size, _, ⟨hsize, rfl⟩, _⟩ := hr
    rw [show (Rewriting.placed s b place loc).work.program.op i = _ from h.op i hp] at hres
    obtain ⟨_, t, ht, _⟩ := alloc_checked hk hn
    obtain ⟨hrs, rfl⟩ := results_of_types ht hres
    rw [show (Rewriting.placed s b place loc).work.program.typeOf r = p.typeOf r from
      h.value r (wf.hasValue_result (mem_of_getElem? hres))] at hsize
    intro v hv
    rw [hrs, mem_singleton] at hv
    subst hv
    unfold checkLength at hsize
    split at hsize
    · exact And.right ‹_›
    · cases hsize
  all_goals first | exact absurd hkind (by decide) | exact absurd hkind (hgates g hg)

section
variable (wf : p.WellFormed) (hrange : ∀ v, Word.InRange (p.typeOf v).qubits) (flat : Flat p root)
  (hv : p.verify catalogue root = .ok ())
include wf hrange flat hv

theorem keeps_attended : Keeps root target patterns (Attended p root) where
  skip i rest s hI hs := by
    refine ⟨(keeps_underway wf hrange flat).skip i rest s hI.1 hs, fun j hj hn => ?_⟩
    refine (hI.2 j hj hn).imp_left fun hmem => ?_
    rcases mem_cons.mp hmem with rfl | hmem
    · exact absurd hs (not_skipped wf flat hI.1 hj (isQuantum_alloc hn))
    · exact hmem
  rewrite i rest s b place pattern s' hI hns hill hb hidx hpat hk hr := by
    refine ⟨(keeps_underway wf hrange flat).rewrite i rest s b place pattern s' hI.1 hns hill hb hidx hpat hk hr,
      ?_⟩
    obtain ⟨done, trace, m, n, new, hw, _, h⟩ := hI.1.next wf hill
    intro j hj hn
    rcases hI.2 j hj hn with hmem | ha
    · rcases mem_cons.mp hmem with rfl | hmem
      · have hp := mem_walk wf hj
        rw [h.op j hp.1] at hk
        exact .inr (allocatable_of_applied wf h hp.1 (accepted wf hv hp.2.1).2.2 hn hpat hk hr)
      · exact .inl (mem_append_right _ hmem)
    · exact .inr ha

theorem drives_attended : Drives root target patterns (Attended p root) where
  toKeeps := keeps_attended wf hrange flat hv
  legality i rest s _ _ _ := ⟨_, legality_eq _ _⟩
  place i rest s hI hns := by
    have hill : target.legality s.work.program i = .ok .illegal := by
      rw [legality_eq]
      by_contra hne
      refine hns (.inr (.inr ⟨_, legality_eq _ _, ?_⟩))
      by_cases hq : isQuantum (s.work.program.op i) = true
      · simp [hq] at hne
      · rw [if_neg hq]
        split <;> rfl
    obtain ⟨done, trace, m, n, new, hw, _, h⟩ := hI.1.next wf hill
    exact listed_of_walk wf h (show i ∈ walk p root by simp [hw])
  applied i rest s b place s' hand hat := by
    obtain ⟨done, trace, m, n, new, hw, hq, h⟩ := hand.inv.1.next wf hand.illegal
    obtain ⟨hi, hp⟩ := walk_next wf hw
    obtain ⟨pattern, hpat, hk, hr⟩ := Rewriting.applyPatterns_ok quiet_patterns hat
    have hk : pattern.kind = (p.op i).name := by
      rw [hk, show (Rewriting.placed s b place s.work.builder.loc).work.program.op i = _ from h.op i hp]
    obtain ⟨trace', m', n', new', h', _⟩ :=
      (pattern_acts wf h hi hp hq hand.block hand.idxOf? hrange False.elim hpat hk).ok s' hr
    have hpend : s'.pending = s.pending ++ [i] := by
      rw [show s'.pending = _ from h'.pending, h.pending]
      simp [hq]
    refine ⟨?_, ?_, _, legality_eq _ _⟩
    · have := h'.rewritten
      rw [show (afterRewrite s').pending = s.pending ++ [i] from hpend, length_append, ← h.rewritten] at this
      exact Nat.succ.inj this
    · have hd : ∀ j ∈ done ++ [i], j ∈ walk p root := by
        intro j hj
        rw [hw, append_cons]
        exact mem_append_left _ hj
      exact (h'.erasedAt_iff wf flat hd).mpr (by simp [show (afterRewrite s').pending = _ from hpend])

end

/-! ## The commit -/

theorem Naming.Fits.rename_eq (h : n.Fits m p q) (hv : p.HasValue (n.rename m v)) :
    n.rename m v = v ∧ v ∉ m.bits := by
  by_cases hb : v ∈ m.bits
  · exact absurd hv (h.fresh _ (.inr (.inr (n.rename_mem h.reads hb)))).1
  · exact ⟨Naming.rename_of_not_mem hb, hb⟩

theorem Simulates.mem_operands (h : Simulates p done trace m n new s) (hi : p.HasOp i) (hv : p.HasValue v) :
    some v ∈ (s.work.program.op i).operands ↔ some v ∈ (p.op i).operands ∧ v ∉ m.bits := by
  rw [h.op i hi, mem_map]
  constructor
  · rintro ⟨sl, hsl, hmap⟩
    obtain ⟨u, rfl, rfl⟩ := Option.map_eq_some_iff.mp hmap
    obtain ⟨heq, hb⟩ := h.names.rename_eq hv
    rw [heq]
    exact ⟨hsl, hb⟩
  · rintro ⟨hmem, hb⟩
    exact ⟨some v, hmem, by rw [Option.map_some, Naming.rename_of_not_mem hb]⟩

theorem Simulates.layered (wf : p.WellFormed) (flat : Flat p root) (hv : p.verify catalogue root = .ok ())
    (h : Simulates p (walk p root) trace m n new s) (hr : Rewriting.Released s (Rewriting.roots s)) :
    Layered s.work.program (p.nested root).idxOf (Rewriting.roots s) := by
  rw [Rewriting.Released, h.roots_eq wf flat fun _ hj => hj] at hr
  rw [h.roots_eq wf flat fun _ hj => hj]
  have hpend : ∀ j ∈ s.pending, p.HasOp j ∧ p.Within root j ∧ j ≠ root := by
    intro j hj
    rw [h.pending, mem_filter] at hj
    exact mem_walk wf hj.1
  intro i hi r hres u hu
  obtain ⟨hp, hw, hne⟩ := hpend i hi
  have hru : u.op ∈ s.work.program.users r := mem_eraseDups.mpr (mem_map_of_mem hu)
  have hj := (h.erasedAt_iff wf flat fun _ hj => hj).mp (hr i hi r hres _ hru)
  rw [h.op i hp] at hres
  obtain ⟨hpj, hwj, _⟩ := hpend _ hj
  have huse := mem_of_getElem? (h.wellFormed.consistent.mem_uses.mp hu)
  have hold := ((h.mem_operands hpj (wf.hasValue_result hres)).mp huse).1
  obtain ⟨_, heq, hvis⟩ := (accepted wf hv hwj).1 _ hold
  obtain rfl := Option.some.inj heq
  have hpre := wf.precedes_nested hres hw hne hvis
  exact ⟨u.op, hj, .refl, ((precedes_iff_idxOf (wf.nodup_nested root) hpre.mem.1).mp hpre).2⟩

/-! ## The whole lowering -/

section
variable (wf : p.WellFormed) (hrange : ∀ v, Word.InRange (p.typeOf v).qubits) (flat : Flat p root)
  (hv : p.verify catalogue root = .ok ())
include wf hrange flat hv

omit flat in
theorem Ends.of_stuck {l : Lowered} (hl : l.error ≠ none)
    (h : Stuck root target patterns (Attended p root) t) : Ends p root l t.work.program := by
  obtain ⟨i, rest, s, b, place, hand, hna, rfl⟩ := h
  obtain ⟨done, trace, m, n, new, hw, hq, h⟩ := hand.inv.1.next wf hand.illegal
  obtain ⟨hi, hp⟩ := walk_next wf hw
  have hkind := (accepted wf hv (mem_walk wf (show i ∈ walk p root by simp [hw])).2.1).2.2
  rcases attempt_settles (s := s) b place quiet_patterns fun pattern hpat hk =>
    (pattern_acts wf h hi hp hq hand.block hand.idxOf? hrange (fun _ : True => hkind) hpat
      (by rw [hk, h.op i hp])).settles trivial with ⟨t, ht⟩ | hlook
  · exact absurd ht (hna t)
  · rw [hlook]
    exact .stuck hl hw hq h hand.block hand.idxOf? hna

theorem lower_ends : ∃ l q, lower root p = .ok l q ∧ Ends p root l q := by
  have hbound : ∀ rest t, Attended p root rest t → t.rewritten ≤ p.ops.size := by
    rintro rest t ⟨⟨_, done, todo, _, _, _, _, _, hw, _, h⟩, _⟩
    rw [h.rewritten, h.pending]
    refine (length_filter_le _ _).trans (Nat.le_trans ?_ (length_walk wf root))
    simp [hw]
  rw [lower, start]
  let s₀ : Session QubitMap := { work := { program := p }, deferred := true, extra := {} }
  rcases steps_total rfl quiet_patterns (drives_attended wf hrange flat hv) .partly hbound p.ops.size (walk p root)
    ⟨⟨[], [], walk p root, [], {}, {}, fun _ => [], rfl, rfl, by simp, simulates_start wf⟩,
      fun _ hi _ => .inl hi⟩
    (Nat.le_add_left _ _)
    with ⟨s, hsteps, hI⟩ | ⟨t, hstuck, ⟨cause, hsteps⟩ | ⟨e, hsteps⟩⟩
  all_goals rw [walk, ← descends] at hsteps
  · obtain ⟨⟨_, done, todo, trace, m, n, new, hnil, hw, _, h⟩, halloc⟩ := hI
    obtain ⟨rfl, rfl⟩ := append_eq_nil_iff.mp hnil.symm
    rw [append_nil] at hw
    subst hw
    rcases Rewriting.commit_total h.wellFormed fun hr => ⟨_, h.layered wf flat hv hr⟩
      with ⟨e, hc, hu⟩ | ⟨t, hc, hr⟩
    · rw [convert_of_commit (s := s₀) hsteps hc]
      refine ⟨_, _, rfl, ?_⟩
      exact .used (by simp) h hu
    · rw [convert_of_commit (s := s₀) hsteps hc]
      refine ⟨_, _, rfl, ?_⟩
      exact .lowered rfl h hr hc rfl fun i hi hn => (halloc i hi hn).resolve_left (by simp)
  · rw [convert_of_failed (s := s₀) hsteps]
    refine ⟨_, _, rfl, ?_⟩
    exact .of_stuck wf hrange hv (by simp) hstuck
  · rw [convert_of_error (s := s₀) hsteps]
    refine ⟨_, _, rfl, ?_⟩
    exact .of_stuck wf hrange hv (by simp) hstuck

end

end Offload.Qubits
