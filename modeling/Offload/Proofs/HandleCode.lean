import Offload.Proofs.Circuits
import Offload.Proofs.Progress
import Offload.Proofs.Sessions

/-!
# Building operations on handles

Each builder of an operation on handles, run in a session that stands before an operation, puts exactly
that operation there. `Emits` collects what a sequence of them builds.
-/

namespace Offload.Qubits

open Program Build Rewrite Rewriting Handle List

variable {o q : ValueId} {spec : Edit.Spec}
variable {σ : Type} {i : OpId} {js ks : List OpId} {xs ys : List Instr} {s t s' : Session σ}

structure Emits (i : OpId) (js : List OpId) (xs : List Instr) (s s' : Session σ) : Prop where
  emitted : Emitted i js s.work.program s'.work.program
  before : Before i s'.work
  created : s'.work.created = s.work.created ++ js
  blocks : s'.work.program.blocks.size = s.work.program.blocks.size
  regions : ∀ j ∈ js, s'.work.program.HasOp j ∧ (s'.work.program.op j).regions = []
  code : js.map (instr s'.work.program) = xs
  rest : ∃ w k, s' = { s with work := w, mutations := k }

namespace Emits

theorem refl (wf : s.work.program.WellFormed) (hb : Before i s.work) : Emits i [] [] s s where
  emitted := .refl i wf
  before := hb
  created := by simp
  blocks := rfl
  regions := by simp
  code := rfl
  rest := ⟨_, _, rfl⟩

theorem trans (hi : s.work.program.HasOp i) (h : Emits i js xs s t) (h' : Emits i ks ys t s') :
    Emits i (js ++ ks) (xs ++ ys) s s' where
  emitted := h.emitted.trans hi h'.emitted
  before := h'.before
  created := by rw [h'.created, h.created, append_assoc]
  blocks := h'.blocks.trans h.blocks
  regions j hj := by
    rcases mem_append.mp hj with hj | hj
    · have := h.regions j hj
      rw [h'.emitted.op j this.1]
      exact ⟨h'.emitted.hasOp this.1, this.2⟩
    · exact h'.regions j hj
  code := by
    rw [map_append, h'.code]
    congr 1
    rw [← h.code]
    refine map_congr_left fun j hj => ?_
    refine instr_congr (h'.emitted.op j (h.regions j hj).1) fun v hv => ?_
    exact h'.emitted.typeOf (h.emitted.wellFormed.hasValue_result hv)
  rest := by
    obtain ⟨w, k, rfl⟩ := h.rest
    obtain ⟨w', k', rfl⟩ := h'.rest
    exact ⟨w', k', rfl⟩

theorem deferred (h : Emits i js xs s s') : s'.deferred = s.deferred := by
  obtain ⟨w, k, rfl⟩ := h.rest
  rfl

theorem extra (h : Emits i js xs s s') : s'.extra = s.extra := by
  obtain ⟨w, k, rfl⟩ := h.rest
  rfl

end Emits

structure Ready (i : OpId) (s : Session σ) : Prop where
  wellFormed : s.work.program.WellFormed
  before : Before i s.work

theorem Ready.hasOp (h : Ready i s) : s.work.program.HasOp i := by
  obtain ⟨b, l, r, _, hb, _⟩ := h.before
  exact hasOp_of_block hb

theorem Emits.ready (h : Emits i js xs s s') : Ready i s' := ⟨h.emitted.wellFormed, h.before⟩

theorem build_gives {α : Type} {V : Prop} {Q : α → Construction → Prop} {x : Build α} (h : Gives V Q x s.work) :
    Gives V (fun a s' => ∃ w k, Q a w ∧ s' = { s with work := w, mutations := k })
    (build x : Rewriting σ α) s where
  ok a _ ha := by
    obtain ⟨w, hw, rfl⟩ := build_ok.mp ha
    exact ⟨w, _, h.ok a w hw, rfl⟩
  runs hV := by
    obtain ⟨a, w, hw⟩ := h.runs hV
    exact ⟨a, _, build_ok.mpr ⟨w, hw, rfl⟩⟩

section
variable {V : Prop} (hs : Ready i s)
include hs

theorem create_made (ts : List Ty) (hts : spec.results = ts.map some) (habs : .absent ∉ ts)
    (hr : spec.regions = 0) (hname : spec.name.toList.contains '.' = true)
    (hv : ∀ x ∈ spec.operands, ∃ v, x = some v ∧ s.work.program.HasValue v) :
    Gives V (fun j w => (∀ k, Emits i [j] [instr w.program j] s { s with work := w, mutations := k }) ∧
      Made spec ts 0 s.work j w.program) (Build.create spec) s.work where
  ok j w h := by
    obtain ⟨hb, he, hc, _, us, n, hus, hn, hm⟩ := create_before hs.wellFormed hs.before (filled_slots hv).2 h
    obtain rfl := map_some_inj (hts.symm.trans hus)
    obtain rfl : n = 0 := by
      rw [hr] at hn
      simpa [checkLength, capacity, eq_comm] using hn
    refine ⟨fun k => ⟨he, hb, hc, hm.blocks, fun j' hj' => ?_, rfl, ⟨_, _, rfl⟩⟩, hm⟩
    obtain rfl := mem_singleton.mp hj'
    refine ⟨?_, by simp [hm.op]⟩
    rw [HasOp, hm.id]
    simp only [hm.ops]
    omega
  runs _ := by
    obtain ⟨b, l, r, hb, _, hops, hplace⟩ := hs.before
    exact create_succeeds (n := 0) hb (by rw [hops, hplace]; simp) hname (filled_slots hv).2
      (filled_slots hv).1 hts habs
      (by rw [hr]; rfl)

theorem create_emits (hn : spec.results = []) (hr : spec.regions = 0) (hname : spec.name.toList.contains '.' = true)
    (hv : ∀ x ∈ spec.operands, ∃ v, x = some v ∧ s.work.program.HasValue v) :
    Gives V (fun j => Emits i [j] [spec.code []] s) (build (Build.create spec) : Rewriting σ _) s := by
  refine (build_gives (create_made hs [] hn (by simp) hr hname hv)).weaken fun j s' h => ?_
  obtain ⟨w, k, ⟨he, hm⟩, rfl⟩ := h
  rw [show spec.code [] = instr w.program j by simp [instr, Edit.Spec.code, hm.op, Edit.freshValues]]
  exact he k

def Emits.Value (i : OpId) (x : Instr) (t : Ty) (s : Session σ) (v : ValueId) (s' : Session σ) : Prop :=
  ¬ s.work.program.HasValue v ∧ s'.work.program.HasValue v ∧
    ∃ j, Emits i [j] [{ x with results := [(v, t)] }] s s'

theorem createValue_emits {t : Ty} (hn : spec.results = [some t]) (habs : t ≠ .absent)
    (hr : spec.regions = 0) (hname : spec.name.toList.contains '.' = true)
    (hv : ∀ x ∈ spec.operands, ∃ v, x = some v ∧ s.work.program.HasValue v) :
    Gives V (Emits.Value i (spec.code []) t s) (build (Build.createValue spec) : Rewriting σ _) s := by
  refine (build_gives ((create_made hs [t] hn (by simpa using Ne.symm habs) hr hname hv).bind
    (R := fun v w => v = ⟨s.work.program.values.size⟩ ∧ ∃ j,
      (∀ k, Emits i [j] [instr w.program j] s { s with work := w, mutations := k }) ∧
        Made spec [t] 0 s.work j w.program) fun j w h => ?_)).weaken fun v s' h => ?_
  · exact .of_ok (resultOf_ok.mpr ⟨by rw [h.2.op]; rfl, rfl⟩) ⟨rfl, j, h⟩
  · obtain ⟨w, k, ⟨rfl, j, he, hm⟩, rfl⟩ := h
    refine ⟨by simp [HasValue], by simp [HasValue, hm.values], j, ?_⟩
    have ht := hm.results 0 t rfl
    simp only [Nat.add_zero] at ht
    have hcode : instr w.program j = { spec.code [] with results := [(⟨s.work.program.values.size⟩, t)] } := by
      simp [instr, Edit.Spec.code, hm.op, Edit.freshValues, ht]
    rw [← hcode]
    exact he k

/-! ## The builders -/

theorem alloc_gives : Gives V (Emits.Value i { name := allocName } .qubit s) (build alloc) s :=
  (createValue_emits hs rfl (by simp) rfl (by decide) (by simp)).weaken fun _ _ h => h

theorem allocOutcome_gives :
    Gives V (Emits.Value i { name := outcomeAllocName } .outcome s) (build allocOutcome) s :=
  (createValue_emits hs rfl (by simp) rfl (by decide) (by simp)).weaken fun _ _ h => h

theorem read_gives (ho : s.work.program.HasValue o) :
    Gives V (Emits.Value i { name := readName, operands := [some o] } (.scalar .bool) s)
      (build (read (some o))) s :=
  (createValue_emits hs rfl (by simp) rfl (by dsimp only; decide) (by simpa using ho)).weaken fun _ _ h => h

theorem measure_gives (hq : s.work.program.HasValue q) (ho : s.work.program.HasValue o) :
    Gives V (fun j => Emits i [j] [{ name := measureName, operands := [some q, some o] }] s)
      (build (measure (some q) (some o))) s :=
  (create_emits hs rfl rfl (by dsimp only; decide) (by simp [hq, ho])).weaken fun _ _ h => h

theorem cnot_gives {c t : ValueId} (hc : s.work.program.HasValue c) (ht : s.work.program.HasValue t) :
    Gives V (fun j => Emits i [j] [{ name := cnotName, operands := [some c, some t] }] s)
      (build (cnot (some c) (some t))) s :=
  (create_emits hs rfl rfl (by dsimp only; decide) (by simp [hc, ht])).weaken fun _ _ h => h

theorem release_gives (hq : s.work.program.HasValue q) :
    Gives V (fun j => Emits i [j] [{ name := releaseName, operands := [some q] }] s)
      (build (release (some q))) s :=
  (create_emits hs rfl rfl (by dsimp only; decide) (by simpa using hq)).weaken fun _ _ h => h

theorem applyGate_gives {gate : String} {attrs : List (String × Attr)} (hg : gate ∈ Register.gates)
    (hq : s.work.program.HasValue q) :
    Gives V (fun j => Emits i [j] [{ name := gateName gate, attrs, operands := [some q] }] s)
      (build (applyGate gate (some q) attrs)) s := by
  rw [applyGate, if_pos (by simpa using hg)]
  exact (create_emits hs rfl rfl (by simp [gateName]) (by simpa using hq)).weaken fun _ _ h => h

end

/-! ## Loops -/

section
variable {V : Prop}

theorem forM_gives {f : ValueId → Rewriting σ Unit} {g : ValueId → Instr} {o : Op}
    (step : ∀ h t, Ready i t → t.work.program.op i = o → t.work.program.HasValue h →
      Gives V (fun _ t' => ∃ j, Emits i [j] [g h] t t') (f h) t) :
    ∀ (hs : List ValueId) {s : Session σ}, Ready i s → s.work.program.op i = o →
      (∀ h ∈ hs, s.work.program.HasValue h) → Gives V (fun _ s' => ∃ js,
        Emits i js (hs.map g) s s') (hs.forM f) s
  | [], s, hs, _, _ => by
    rw [forM_eq_forM, forM_nil]
    exact .pure ⟨[], .refl hs.wellFormed hs.before⟩
  | x :: l, s, hs, ho, hv => by
    rw [forM_eq_forM, forM_cons, ← forM_eq_forM]
    refine (step x s hs ho (hv x (mem_cons_self ..))).bind fun _ t h => ?_
    obtain ⟨j, hj⟩ := h
    refine (forM_gives step l hj.ready ((hj.emitted.op i hs.hasOp).trans ho)
      fun y hy => hj.emitted.hasValue (hv y (mem_cons_of_mem _ hy))).weaken fun _ s' h => ?_
    obtain ⟨js, hjs⟩ := h
    exact ⟨j :: js, hj.trans hs.hasOp hjs⟩

theorem mapM_alloc_gives : ∀ (n : Nat) {s : Session σ}, Ready i s →
    Gives V (fun hs s' => hs.length = n ∧ hs.Nodup ∧ (∀ h ∈ hs, ¬ s.work.program.HasValue h ∧
        s'.work.program.HasValue h) ∧
        ∃ js, Emits i js (hs.map fun h => { name := allocName, results := [(h, .qubit)] }) s s')
      ((List.replicate n ()).mapM fun _ => (build alloc : Rewriting σ _)) s
  | 0, s, hr => .pure ⟨rfl, nodup_nil, by simp, [], .refl hr.wellFormed hr.before⟩
  | n + 1, s, hr => by
    rw [replicate_succ, mapM_cons]
    refine (alloc_gives hr).bind fun v t h => ?_
    obtain ⟨hv, hv', j, hj⟩ := h
    refine (mapM_alloc_gives n hj.ready).bind fun vs s' h => .pure ?_
    obtain ⟨hlen, hnd, hnew, js, hjs⟩ := h
    refine ⟨by simp [hlen], nodup_cons.mpr ⟨fun hm => (hnew v hm).1 hv', hnd⟩, ?_, j :: js, ?_⟩
    · intro x hx
      rcases mem_cons.mp hx with rfl | hx
      · exact ⟨hv, hjs.emitted.hasValue hv'⟩
      · exact ⟨fun h => (hnew x hx).1 (hj.emitted.hasValue h), (hnew x hx).2⟩
    · exact hj.trans hr.hasOp hjs

end

end Offload.Qubits
