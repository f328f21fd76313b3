import Offload.Proofs.QubitSimulation
import Offload.Proofs.Settling
import Offload.Proofs.Verified

/-!
# Every pattern does what its operation does

One lemma for each pattern of the lowering: where it applies, the reference semantics can run the
operation, and the pattern builds the code of its events and keeps the simulation.
-/

namespace Offload

open List Register

variable {e : QubitMap} {hs : List ValueId} {js : List OpId} {k : Nat} {qs : List Nat} {xs : List Instr}

theorem checkLength_ok {n : Int} (h : checkLength n = .ok k) : 0 ≤ n ∧ k = n.toNat := by
  unfold checkLength at h
  split at h
  · exact ⟨‹_ ∧ _›.1, (Except.ok.inj h).symm⟩
  · cases h

theorem Word.add_eq_of_le {a b : Int} (ha : 0 ≤ a) (ha' : InRange a) (hb : InRange b) (h : a ≤ add a b) :
    add a b = a + b := by
  unfold InRange at ha' hb
  unfold add wrap at h ⊢
  split at h
  · rw [if_pos ‹_›]
  · rw [Int.bmod] at h
    split at h <;> omega

theorem Word.inRange_add (a b : Int) : InRange (add a b) := by
  unfold InRange add wrap
  split
  · assumption
  · rw [Int.bmod]
    split <;> omega

namespace Qubits

open Program Build Rewrite Rewriting

namespace Lowering

variable {i : OpId} {k : Nat} {s s' : Session QubitMap} {sl : Slot} {v : ValueId} {hs : List ValueId}

theorem operand_ok : Lowering.operand i k s = .ok sl s' ↔
    (s.work.program.op i).operands[k]? = some sl ∧ s' = s := by
  simp only [operand, bind_ok, Rewriting.program_ok]
  constructor
  · rintro ⟨_, s, ⟨rfl, rfl⟩, h⟩
    cases hk : (s.work.program.op i).operands[k]? with
    | none => simp [hk] at h
    | some x =>
      simp only [hk, pure_ok] at h
      exact ⟨by rw [h.1], h.2.symm⟩
  · rintro ⟨h, rfl⟩
    exact ⟨_, _, ⟨rfl, rfl⟩, by simp [h]⟩

theorem result_ok : Lowering.result i k s = .ok v s' ↔
    (s.work.program.op i).results[k]? = some v ∧ s' = s := by
  simp only [result, bind_ok, Rewriting.program_ok]
  constructor
  · rintro ⟨_, s, ⟨rfl, rfl⟩, h⟩
    cases hk : (s.work.program.op i).results[k]? with
    | none => simp [hk] at h
    | some x =>
      simp only [hk, pure_ok] at h
      exact ⟨by rw [h.1], h.2.symm⟩
  · rintro ⟨h, rfl⟩
    exact ⟨_, _, ⟨rfl, rfl⟩, by simp [h]⟩

@[simp] theorem allocate_ok {u : Unit} : Lowering.allocate v hs s = .ok u s' ↔
    s' = { s with extra := s.extra.allocate v hs } := by
  simp [allocate]

theorem handles_ok : Lowering.handles sl s = .ok hs s' ↔
    (∃ v, sl = some v ∧ s.extra.find? v = some hs) ∧ s' = s := by
  cases sl with
  | none => simp [handles]
  | some v =>
    simp only [handles, bind_ok, Rewriting.program_ok, get_ok, fail_ok, AllocationMap.find_ok]
    constructor
    · rintro ⟨_, _, ⟨rfl, rfl⟩, _, s, ⟨rfl, rfl⟩, h, rfl⟩
      exact ⟨⟨v, rfl, h⟩, rfl⟩
    · rintro ⟨⟨_, ⟨⟩, h⟩, rfl⟩
      exact ⟨_, _, ⟨rfl, rfl⟩, _, _, ⟨rfl, rfl⟩, h, rfl⟩

/-! ## Looking things up -/

theorem looks_operand : Looks (Lowering.operand i k) s := by
  refine Looks.program.bind fun p t _ => ?_
  split
  · exact .pure _
  · exact .throw _

theorem looks_result : Looks (Lowering.result i k) s := by
  refine Looks.program.bind fun p t _ => ?_
  split
  · exact .pure _
  · exact .throw _

theorem looks_handles : Looks (Lowering.handles sl) s := by
  cases sl with
  | none => exact .throw _
  | some v => exact Looks.program.bind fun _ _ _ => Looks.bind rfl fun _ _ _ => .fail _

theorem looks_cutHandles : ∀ (rs : List ValueId) {offset : Int} {s : Session QubitMap},
    Looks (cutHandles hs offset rs) s
  | [], _, _ => .pure _
  | r :: rs, offset, s => by
    rw [cutHandles]
    refine Looks.program.bind fun p t _ => ?_
    simp only
    split
    · exact .pure _
    · split
      · exact .throw _
      · exact Looks.bind rfl fun _ _ _ => looks_cutHandles rs

end Lowering

open Lowering

variable {p : Program} {done : List OpId} {trace : List (OpId × List Event)} {m : Machine} {n : Naming}
  {new : OpId → List OpId} {s s' : Session QubitMap} {i : OpId} {b : BlockId} {place : Nat} {loc : String}

def Advanced (p : Program) (done : List OpId) (i : OpId) (s' : Session QubitMap) : Prop :=
  ∃ trace m n new, Simulates p (done ++ [i]) trace m n new (afterRewrite s') ∧ s'.work.created = new i

namespace Simulates

theorem operand (wf : p.WellFormed) (h : Simulates p done trace m n new s) (hp : p.HasOp i)
    {sl : Slot} (ho : (s.work.program.op i).operands[k]? = some sl)
    (hh : ∃ v, sl = some v ∧ s.extra.find? v = some hs) :
    ∃ qs, m.operand (p.op i) k = some qs ∧ n.handlesOf qs = some hs := by
  obtain ⟨v, rfl, hv⟩ := hh
  rw [h.op i hp, getElem?_map, Option.map_eq_some_iff] at ho
  obtain ⟨x, hx, hxv⟩ := ho
  obtain ⟨u, rfl, rfl⟩ := Option.map_eq_some_iff.mp hxv
  obtain ⟨qs, hqs, hh⟩ := h.register_of_find? wf hv
  exact ⟨qs, by simp [Machine.operand, hx, Machine.slot, hqs], hh⟩

theorem hasValue_handle (h : Simulates p done trace m n new s)
    (hq : n.handlesOf qs = some hs) : ∀ x ∈ hs, s.work.program.HasValue x := by
  intro x hx
  obtain ⟨q, _, hq⟩ := (Naming.mem_handlesOf hq).mp hx
  exact (h.names.fresh x (.inl (mem_of_getElem? hq))).2

theorem next_same (wf : p.WellFormed) (h : Simulates p done trace m n new s) (hi : i ∉ done) (hp : p.HasOp i)
    (hq : isQuantum (p.op i) = true) {t : Session QubitMap} (n' : Naming) (m' : Machine) (es : List Event)
    (he : Emits i js xs (placed s b place loc) t)
    (hx : Runs p i m es m') (hn : n.Extends n') (hc : n'.code es = some xs)
    (hbits : m'.bits = m.bits) (hreads : n'.reads = n.reads) (hl : Linked n' m' e) (hf : n'.Fits m' p t.work.program)
    (hb : ∀ v, (m'.registers v).isSome → (m.registers v).isSome ∨ v ∈ (p.op i).results)
    (hs' : s' = { t with extra := e, mutations := k, erased := i :: t.erased, pending := t.pending ++ [i] }) :
    Advanced p done i s' := by
  subst hs'
  refine ⟨_, _, _, _, h.next wf hi hp hq n' m' es he hx hn hc (.refl _) he.emitted.wellFormed (f := id) (by simp)
    (fun v _ => by simp [Naming.rename, hbits, hreads]) (fun _ _ => rfl) hl hf (fun v hv => ?_) rfl, ?_⟩
  · rw [hbits] at hv
    rcases hv with hv | hv
    · exact (hb v hv).imp_left .inl
    · exact .inl (.inr hv)
  · simpa [placed, h.created] using he.created

end Simulates

def Known (s : Session QubitMap) (i : OpId) (k : Nat) (hs : List ValueId) : Prop :=
  ∃ v, (s.work.program.op i).operands[k]? = some (some v) ∧ s.extra.find? v = some hs

theorem Known.unique {hs hs' : List ValueId} (h : Known s i k hs) (h' : Known s i k hs') : hs = hs' := by
  obtain ⟨v, hv, hf⟩ := h
  obtain ⟨w, hw, hf'⟩ := h'
  cases hv.symm.trans hw
  exact Option.mem_unique hf hf'

theorem exists_result {ts : List Ty} (ht : p.resultTypes i = ts) (hk : k < ts.length) :
    ∃ r, (p.op i).results[k]? = some r :=
  ⟨_, getElem?_eq_getElem (by rwa [← ht, resultTypes, length_map] at hk)⟩

theorem results_ne (wf : p.WellFormed) {r r' : ValueId} (hr : (p.op i).results[0]? = some r)
    (hr' : (p.op i).results[1]? = some r') : r' ≠ r := by
  rintro rfl
  have h0 := ((wf.result i 0 r').mp hr).2
  rw [((wf.result i 1 r').mp hr').2] at h0
  cases h0

theorem bound_of_bind {r v : ValueId} (hr : (p.op i).results[k]? = some r)
    (hv : ((m.bind r qs).registers v).isSome) : (m.registers v).isSome ∨ v ∈ (p.op i).results :=
  (Machine.isSome_bind.mp hv).imp_right fun (hv : v = r) => hv ▸ mem_of_getElem? hr

theorem result_gives {V : Prop} {t : Session QubitMap} {l : List ValueId}
    (hl : (t.work.program.op i).results = l) (hV : V → ∃ r, l[k]? = some r) :
    Gives V (fun r t' => l[k]? = some r ∧ t = t') (Lowering.result i k) t where
  ok _ _ h := by
    obtain ⟨hr, rfl⟩ := result_ok.mp h
    exact ⟨hl ▸ hr, rfl⟩
  runs h := (hV h).imp fun _ hr => ⟨t, result_ok.mpr ⟨hl ▸ hr, rfl⟩⟩

section
variable {V K : Prop} {Q : Session QubitMap → Prop} (wf : p.WellFormed) (h : Simulates p done trace m n new s)
  (hi : i ∉ done) (hp : p.HasOp i) (hq : isQuantum (p.op i) = true) (hb : (s.work.program.op i).block = some b)
  (hidx : (s.work.program.block b).ops.idxOf? i = some place)
include wf h hi hp hq hb hidx

omit wf hi hp hq in
theorem ready (loc : String) : Ready i (placed s b place loc) := ⟨h.wellFormed, before_of_idxOf? hb hidx rfl rfl⟩

omit wf hp hq hb hidx in
theorem not_erased : i ∉ s.erased := by
  rw [h.erased, h.pending, mem_filter]
  exact fun hd => hi hd.1

omit wf hi hq hb hidx in
theorem results_eq {t : Session QubitMap}
    (he : Emits i js xs (placed s b place loc) t) : (t.work.program.op i).results = (p.op i).results := by
  rw [he.emitted.op i (h.hasOp hp), show (placed s b place loc).work.program.op i = _ from h.op i hp]

omit wf hp hq hb hidx in
theorem erase_gives {t : Session QubitMap} (he : Emits i js xs (placed s b place loc) t)
    (hQ : ∀ k, Q { t with extra := e, mutations := k, erased := i :: t.erased, pending := t.pending ++ [i] }) :
    Gives V (fun o t => o = Outcome.applied ∧ Q t) (do eraseOp i; return Outcome.applied) { t with extra := e } := by
  have hne := not_erased h hi
  refine .step (a := ()) ((eraseOp_ok (by exact he.deferred.trans h.deferred)).mpr ⟨?_, rfl⟩)
    (.pure ⟨rfl, hQ _⟩)
  obtain ⟨w, k, rfl⟩ := he.rest
  exact hne

omit hi hq hb hidx in
theorem acts_handles {f : List ValueId → Lowering Outcome} (hK : K → ∃ hs, Known s i k hs)
    (hf : ∀ hs qs, Known s i k hs → m.operand (p.op i) k = some qs → n.handlesOf qs = some hs →
      Acts V K Q (f hs) (placed s b place loc)) :
    Acts V K Q (Lowering.operand i k >>= fun sl => Lowering.handles sl >>= f) (placed s b place loc) := by
  refine .look looks_operand ⟨fun _ _ => operand_ok.mp, fun hVK => ?_⟩ fun sl t hsl => ?_
  · obtain ⟨hs, v, hv, -⟩ := hK hVK.2
    exact ⟨_, _, operand_ok.mpr ⟨hv, rfl⟩⟩
  obtain ⟨ho, rfl⟩ := hsl
  refine .look looks_handles ⟨fun _ _ => handles_ok.mp, fun hVK => ?_⟩ fun hs t hhs => ?_
  · obtain ⟨hs, v, hv, hf⟩ := hK hVK.2
    exact ⟨hs, _, handles_ok.mpr ⟨⟨v, Option.mem_unique ho hv, hf⟩, rfl⟩⟩
  obtain ⟨hh, rfl⟩ := hhs
  obtain ⟨qs, hqs, hn⟩ := h.operand wf hp ho hh
  obtain ⟨v, rfl, hv⟩ := hh
  exact hf hs qs ⟨v, ho, hv⟩ hqs hn

omit hi hq hb hidx in
theorem acts_single {role : String} {f : Except PatternError ValueId → Lowering Outcome}
    (herr : ∀ e, f (.error e) = pure (.failed e)) (hK : K → ∃ x, Known s i k [x])
    (hf : ∀ x q, m.operand (p.op i) k = some [q] → n.handlesOf [q] = some [x] →
      Acts V K Q (f (.ok x)) (placed s b place loc)) :
    Acts V K Q (Lowering.operand i k >>= fun sl => singleHandle role sl >>= f) (placed s b place loc) := by
  simp only [singleHandle, bind_assoc]
  refine acts_handles wf h hp (fun hk => (hK hk).elim fun x hx => ⟨[x], hx⟩) fun hs qs hknown hqs hn => ?_
  split
  · obtain ⟨q, rfl⟩ := length_eq_one_iff.mp (Naming.handlesOf_length hn).symm
    rw [pure_bind]
    exact hf _ q hqs hn
  · rename_i hne
    rw [pure_bind, herr]
    refine .giveUp fun hVK => ?_
    obtain ⟨x, hx⟩ := hK hVK.2
    exact hne x (hknown.unique hx)

theorem lowerGate_acts {gate : String} (hg : gate ∈ gates) (hname : (p.op i).name = gateName gate)
    (hV : V → ∃ r, (p.op i).results[0]? = some r) (hK : K → ∃ hs, Known s i 0 hs) :
    Acts V K (Advanced p done i) (lowerGate gate i) (placed s b place loc) := by
  have hready := ready h hb hidx loc
  rw [lowerGate]
  refine acts_handles wf h hp hK fun hs qs _ hqs hhs => .build ?_
  refine (forM_gives (o := s.work.program.op i)
    (g := fun x => { name := Handle.gateName gate, attrs := (p.op i).attrs, operands := [some x] })
    (fun x t ht hop hx => ?_) hs hready rfl (h.hasValue_handle hhs)).bind fun _ t he => ?_
  · refine .step (Rewriting.program_ok.mpr ⟨rfl, rfl⟩) ?_
    rw [hop, h.op i hp]
    exact .discard ((applyGate_gives ht hg hx).weaken fun j _ hj => ⟨j, hj⟩)
  obtain ⟨js, he⟩ := he
  refine (result_gives (results_eq h hp he) hV).bind fun r t' hr => ?_
  obtain ⟨hr, rfl⟩ := hr
  refine .step (a := ()) (allocate_ok.mpr rfl) (erase_gives h hi he fun k => ?_)
  have hunb := h.unbound wf hi (mem_of_getElem? hr)
  refine h.next_same wf hi hp hq n _ _ he (.gate hg hname hqs hr) (.refl n)
    (Naming.code_map (fun q x hx => by simp [Naming.instrs, hx]) hhs) rfl rfl ?_ (h.names.mono he.emitted.values)
    (fun _ => bound_of_bind hr) rfl
  rw [he.extra]
  exact h.linked.bind hunb.1 hunb.2 hhs

theorem lowerAlloc_acts (hname : (p.op i).name = allocName) (hV : V → ∃ r, (p.op i).results[0]? = some r)
    (hK : K → ∀ r, (p.op i).results[0]? = some r → ∃ size, checkLength (p.typeOf r).qubits = .ok size) :
    Acts V K (Advanced p done i) (lowerAlloc i) (placed s b place loc) := by
  have hready := ready h hb hidx loc
  have hop : (placed s b place loc).work.program.op i = _ := h.op i hp
  rw [lowerAlloc]
  refine .look looks_result (result_gives (by rw [hop]) fun hVK => hV hVK.1) fun r t hr => ?_
  obtain ⟨hr, rfl⟩ := hr
  have hrv : p.HasValue r := wf.hasValue_result (mem_of_getElem? hr)
  refine .program ?_
  rw [show (placed s b place loc).work.program.typeOf r = _ from h.value r hrv]
  refine .look (.fail _) ⟨fun _ _ => fail_ok.mp, fun hVK => ?_⟩ fun size t hsize => .build ?_
  · obtain ⟨size, hsize⟩ := hK hVK.2 r hr
    exact ⟨size, _, fail_ok.mpr ⟨hsize, rfl⟩⟩
  obtain ⟨hsize, rfl⟩ := hsize
  refine (mapM_alloc_gives size hready).bind fun hs t he => ?_
  obtain ⟨hlen, hnd, hfresh, js, he⟩ := he
  refine .step (a := ()) (allocate_ok.mpr rfl) (erase_gives h hi he fun k => ?_)
  obtain ⟨hpos, rfl⟩ := checkLength_ok hsize
  have hunb := h.unbound wf hi (mem_of_getElem? hr)
  -- the new handles are the names of the new qubits
  have hext : n.Extends { n with handles := n.handles ++ hs } :=
    ⟨prefix_append .., prefix_rfl, prefix_rfl⟩
  have hnames : Naming.handlesOf { n with handles := n.handles ++ hs }
      (List.range' m.qubits (p.typeOf r).qubits.toNat) = some hs := by
    have := Naming.handlesOf_new (n := { n with handles := n.handles ++ hs }) rfl
    rwa [h.names.qubits, hlen] at this
  refine h.next_same wf hi hp hq { n with handles := n.handles ++ hs } _ _ he (.alloc hname hr hpos) hext
    (Naming.code_map (fun q x hx => by simp [Naming.instrs, hx]) hnames) rfl rfl ?_ ?_ (fun _ => bound_of_bind hr) rfl
  · rw [he.extra]
    have := (h.linked.mono hext).bind hunb.1 hunb.2 hnames
    exact ⟨this.register, this.known⟩
  · exact h.names.extend hs [] [] rfl (append_nil _).symm (append_nil _).symm
      ⟨hnd, .nil, .nil⟩ (fun _ _ => ⟨not_mem_nil, not_mem_nil⟩)
      (fun v hv => hfresh v (by simpa using hv)) h.values he.emitted.values (by simp [hlen]) rfl rfl

theorem lowerDealloc_acts (hname : (p.op i).name = deallocName) (hK : K → ∃ hs, Known s i 0 hs) :
    Acts V K (Advanced p done i) (lowerDealloc i) (placed s b place loc) := by
  have hready := ready h hb hidx loc
  rw [lowerDealloc]
  refine acts_handles wf h hp hK fun hs qs _ hqs hhs => .build ?_
  refine (forM_gives (o := s.work.program.op i) (g := fun x => { name := Handle.releaseName, operands := [some x] })
    (fun x t ht _ hx => .discard ((release_gives ht hx).weaken fun j _ hj => ⟨j, hj⟩)) hs hready rfl
    (h.hasValue_handle hhs)).bind fun _ t he => ?_
  obtain ⟨js, he⟩ := he
  refine erase_gives h hi he fun k => ?_
  refine h.next_same wf hi hp hq n _ _ he (.dealloc hname hqs) (.refl n)
    (Naming.code_map (fun q x hx => by simp [Naming.instrs, hx]) hhs) rfl rfl (e := t.extra) ?_
    (h.names.mono he.emitted.values) (fun v hv => .inl hv) rfl
  rw [he.extra]
  exact h.linked

omit wf h hi hp hq hb hidx in
theorem cutHandles_ok : ∀ (rs : List ValueId) (qs : List Nat) {offset : Int} {s s' : Session QubitMap}
    {m : Machine}, 0 ≤ offset → Word.InRange offset →
    (∀ r ∈ rs, Word.InRange (s.work.program.typeOf r).qubits) → rs.Nodup →
    (∀ r ∈ rs, m.registers r = none ∧ r ∉ m.bits) → Linked n m s.extra →
    n.handlesOf qs = some (hs.drop offset.toNat) → cutHandles hs offset rs s = .ok none s' →
      ∃ e pieces, s' = { s with extra := e } ∧
        Machine.cut qs (rs.map fun r => (s.work.program.typeOf r).qubits) = some pieces ∧
        Linked n (m.bindAll (rs.zip pieces)) e
  | [], qs, offset, s, s', m, _, _, _, _, _, hl, _, h => by
    simp only [cutHandles, pure_ok, true_and] at h
    exact ⟨s.extra, [], h.symm, rfl, hl⟩
  | r :: rs, qs, offset, s, s', m, hpos, hoff, hrange, hnd, hunb, hl, hq, h => by
    simp only [cutHandles, bind_ok, Rewriting.program_ok] at h
    obtain ⟨_, s, ⟨rfl, rfl⟩, h⟩ := h
    set size := (s.work.program.typeOf r).qubits with hsize
    rw [ite_ok] at h
    rcases h with ⟨_, h⟩ | ⟨hle, h⟩
    · simp at h
    rw [ite_ok] at h
    rcases h with ⟨_, h⟩ | ⟨hge, h⟩
    · simp at h
    simp only [bind_ok, allocate_ok] at h
    obtain ⟨_, _, rfl, h⟩ := h
    have hsum : Word.add offset size = offset + size :=
      Word.add_eq_of_le hpos hoff (hrange r (mem_cons_self ..)) (Int.not_lt.mp hge)
    have hstop := Word.inRange_add offset size
    rw [hsum] at h hle hge hstop
    have hlen := Naming.handlesOf_length hq
    rw [length_drop] at hlen
    obtain ⟨htake, hdrop⟩ := Naming.handlesOf_take size.toNat hq
    obtain ⟨hr, hnd⟩ := nodup_cons.mp hnd
    have hunr := hunb r (mem_cons_self ..)
    obtain ⟨e, pieces, rfl, hcut, hl⟩ := cutHandles_ok rs (qs.drop size.toNat) (m := m.bind r (qs.take size.toNat))
      (s := { s with extra := s.extra.allocate r ((hs.drop offset.toNat).take size.toNat) })
      (by omega) hstop (fun x hx => hrange x (mem_cons_of_mem _ hx)) hnd
      (fun x hx => by
        have := hunb x (mem_cons_of_mem _ hx)
        have hxr : x ≠ r := fun he => hr (he ▸ hx)
        exact ⟨by simp [Machine.bind, hxr, this.1], this.2⟩)
      (hl.bind hunr.1 hunr.2 htake)
      (by
        rw [hdrop, drop_drop]
        congr 2
        omega) h
    refine ⟨e, qs.take size.toNat :: pieces, rfl, ?_, hl⟩
    rw [map_cons, Machine.cut, if_pos (by omega)]
    simp only [← hsize]
    rw [show Machine.cut (qs.drop size.toNat) _ = some pieces from hcut]
    rfl

theorem lowerSplit_acts (hrange : ∀ v, Word.InRange (p.typeOf v).qubits) (hname : (p.op i).name = splitName)
    (hK : K → ∃ hs, Known s i 0 hs ∧
      ∃ t, cutHandles hs 0 (p.op i).results (placed s b place loc) = .ok none t) :
    Acts V K (Advanced p done i) (lowerSplit i) (placed s b place loc) := by
  have hready := ready h hb hidx loc
  rw [lowerSplit]
  refine acts_handles wf h hp (fun hk => (hK hk).imp fun _ hx => hx.1) fun hs qs hknown hqs hhs => ?_
  refine .program ?_
  rw [show ((placed s b place loc).work.program.op i).results = (p.op i).results by
    rw [show (placed s b place loc).work.program.op i = _ from h.op i hp]]
  have hcutK : K → ∃ t, cutHandles hs 0 (p.op i).results (placed s b place loc) = .ok none t := fun hk => by
    obtain ⟨hs', hknown', ht⟩ := hK hk
    exact hknown.unique hknown' ▸ ht
  refine .look (looks_cutHandles _) (P := fun e t =>
    cutHandles hs 0 (p.op i).results (placed s b place loc) = .ok e t) ⟨fun _ _ h => h, fun hVK => ?_⟩
    fun o t hcut => ?_
  · obtain ⟨t, ht⟩ := hcutK hVK.2
    exact ⟨none, t, ht⟩
  cases o with
  | some e =>
    refine .giveUp fun hVK => ?_
    obtain ⟨t', ht'⟩ := hcutK hVK.2
    rw [ht'] at hcut
    cases hcut
  | none =>
    have htype : ∀ r ∈ (p.op i).results, (placed s b place loc).work.program.typeOf r = p.typeOf r :=
      fun r hr => h.value r (wf.hasValue_result hr)
    obtain ⟨e, pieces, rfl, hpieces, hl⟩ := cutHandles_ok _ qs (Int.le_refl 0) (by simp [Word.InRange])
      (fun r hr => by rw [htype r hr]; exact hrange r) (wf.nodup_results i) (fun r hr => h.unbound wf hi hr)
      (by exact h.linked) (by simpa using hhs) hcut
    rw [map_congr_left fun r hr => by rw [htype r hr]] at hpieces
    refine .build (erase_gives h hi (.refl hready.wellFormed hready.before) fun k => ?_)
    refine h.next_same wf hi hp hq n _ _ (.refl hready.wellFormed hready.before)
      (.split hname hqs hpieces) (.refl n) rfl
      Machine.bindAll_qubits.2 rfl hl
      (h.names.mono (Nat.le_refl _) Machine.bindAll_qubits.1 Machine.bindAll_qubits.2) (fun v hv => ?_) rfl
    refine (Machine.isSome_bindAll.mp hv).imp_right fun hv => ?_
    obtain ⟨x, hx, rfl⟩ := mem_map.mp hv
    exact (of_mem_zip hx).1

omit hi hp hq hb hidx in
theorem mapM_handles : ∀ {sls : List Slot} {hss : List (List ValueId)} {t t' : Session QubitMap},
    t.extra = s.extra → (sls.map (Option.map (n.rename m))).mapM handles t = .ok hss t' →
      t' = t ∧ ∃ qss, sls.mapM m.slot = some qss ∧ n.handlesOf qss.flatten = some hss.flatten
  | [], hss, t, t', _, hr => by
    simp only [map_nil, mapM_nil, pure_ok] at hr
    obtain ⟨rfl, rfl⟩ := hr
    exact ⟨rfl, [], rfl, rfl⟩
  | sl :: sls, hss, t, t', ht, hr => by
    simp only [map_cons, mapM_cons, bind_ok, handles_ok, pure_ok] at hr
    obtain ⟨hs, _, ⟨⟨v, hv, hf⟩, rfl⟩, hss, _, hr, rfl, rfl⟩ := hr
    obtain ⟨u, rfl, rfl⟩ := Option.map_eq_some_iff.mp hv
    rw [ht] at hf
    obtain ⟨qs, hqs, hhs⟩ := h.register_of_find? wf hf
    obtain ⟨rfl, qss, hqss, hhss⟩ := mapM_handles ht hr
    refine ⟨rfl, qs :: qss, ?_, ?_⟩
    · simp [mapM_cons, Machine.slot, hqs, hqss]
    · simpa using Naming.handlesOf_append hhs hhss

theorem lowerMerge_acts (hname : (p.op i).name = mergeName) (hV : V → ∃ r, (p.op i).results[0]? = some r)
    (hK : K → ∃ hss, (s.work.program.op i).operands.mapM handles (placed s b place loc) =
      .ok hss (placed s b place loc)) :
    Acts V K (Advanced p done i) (lowerMerge i) (placed s b place loc) := by
  have hready := ready h hb hidx loc
  have hop : (placed s b place loc).work.program.op i = _ := h.op i hp
  rw [lowerMerge]
  refine .program ?_
  refine .look (.mapM (fun _ _ => looks_handles) _) (P := fun hss t => t = placed s b place loc ∧
    ∃ qss, (p.op i).operands.mapM m.slot = some qss ∧ n.handlesOf qss.flatten = some hss.flatten)
    ⟨fun hss t hmap => ?_, fun hVK => ?_⟩ fun hss t hmap => .build ?_
  · rw [hop] at hmap
    exact mapM_handles wf h (t := placed s b place loc) rfl hmap
  · obtain ⟨hss, hmap⟩ := hK hVK.2
    exact ⟨hss, _, hmap⟩
  obtain ⟨rfl, qss, hqss, hhs⟩ := hmap
  refine (result_gives (by rw [hop]) hV).bind fun r t hr => ?_
  obtain ⟨hr, rfl⟩ := hr
  refine .step (a := ()) (allocate_ok.mpr rfl) (erase_gives h hi (.refl hready.wellFormed hready.before) fun k => ?_)
  have hunb := h.unbound wf hi (mem_of_getElem? hr)
  exact h.next_same wf hi hp hq n _ _ (.refl hready.wellFormed hready.before) (.merge hname hqss hr)
    (.refl n) rfl rfl rfl
    (h.linked.bind hunb.1 hunb.2 hhs) (h.names.mono (Nat.le_refl _)) (fun _ => bound_of_bind hr) rfl

theorem lowerCnot_acts (hname : (p.op i).name = cnotName)
    (hV : V → (∃ r, (p.op i).results[0]? = some r) ∧ ∃ r, (p.op i).results[1]? = some r)
    (hK : K → (∃ x, Known s i 0 [x]) ∧ ∃ x, Known s i 1 [x]) :
    Acts V K (Advanced p done i) (lowerCnot i) (placed s b place loc) := by
  have hready := ready h hb hidx loc
  rw [lowerCnot]
  refine acts_single wf h hp (fun _ => rfl) (fun hk => (hK hk).1) fun c q hqs hhs => ?_
  refine acts_single wf h hp (fun _ => rfl) (fun hk => (hK hk).2) fun x q' hqs' hhs' => .build ?_
  refine (Gives.discard (Q := fun t => ∃ j, Emits i [j] _ _ t) ((cnot_gives hready (h.hasValue_handle hhs c (by simp))
    (h.hasValue_handle hhs' x (by simp))).weaken fun j _ hj => ⟨j, hj⟩)).bind fun _ t he => ?_
  obtain ⟨j, he⟩ := he
  have hres := results_eq h hp he
  refine (result_gives hres fun hv => (hV hv).1).bind fun r t' hr => ?_
  obtain ⟨hr, rfl⟩ := hr
  refine .step (a := ()) (allocate_ok.mpr rfl) ((result_gives (by exact hres) fun hv => (hV hv).2).bind
    fun r' t' hr' => ?_)
  obtain ⟨hr', rfl⟩ := hr'
  refine .step (a := ()) (allocate_ok.mpr rfl) (erase_gives (t := t) h hi he fun k => ?_)
  have hunb := h.unbound wf hi (mem_of_getElem? hr)
  have hunb' := h.unbound wf hi (mem_of_getElem? hr')
  refine h.next_same wf hi hp hq n _ _ he (.cnot hname hqs hqs' hr hr') (.refl n) ?_
    rfl rfl ?_ (h.names.mono he.emitted.values) (fun v hv => ?_) rfl
  · obtain ⟨_, _, hc, _, h1⟩ := Naming.handlesOf_cons.mp hhs
    obtain ⟨_, _, hx, _, h2⟩ := Naming.handlesOf_cons.mp hhs'
    cases h1
    cases h2
    simp [Naming.code, Naming.instrs, hc, hx]
  · rw [he.extra]
    refine (h.linked.bind hunb.1 hunb.2 hhs).bind ?_ hunb'.2 hhs'
    simp [Machine.bind, results_ne wf hr hr', hunb'.1]
  · exact (bound_of_bind hr' hv).elim (bound_of_bind hr) .inr

theorem lowerMeasure_acts (hname : (p.op i).name = measureName)
    (hV : V → (∃ r, (p.op i).results[0]? = some r) ∧ ∃ r, (p.op i).results[1]? = some r)
    (hK : K → ∃ x, Known s i 0 [x]) :
    Acts V K (Advanced p done i) (lowerMeasure i) (placed s b place loc) := by
  have hready := ready h hb hidx loc
  rw [lowerMeasure]
  refine acts_single wf h hp (fun _ => rfl) hK fun x q hqs hhs => .build ?_
  -- an outcome, the measurement into it, and the bit read from it
  refine (allocOutcome_gives hready).bind fun o t1 ho => ?_
  obtain ⟨ho1, ho2, j1, he1⟩ := ho
  refine (Gives.discard (Q := fun t => ∃ j, Emits i [j] _ _ t) ((measure_gives he1.ready
    (he1.emitted.hasValue (h.hasValue_handle hhs x (by simp))) ho2).weaken fun j _ hj => ⟨j, hj⟩)).bind
      fun _ t2 he2 => ?_
  obtain ⟨j2, he2⟩ := he2
  refine (read_gives he2.ready (he2.emitted.hasValue ho2)).bind fun bit t3 hbit => ?_
  obtain ⟨hb1, hb2, j3, he3⟩ := hbit
  have he12 := he1.trans hready.hasOp he2
  have he := he12.trans hready.hasOp he3
  have hres := results_eq h hp he
  refine (result_gives hres fun hv => (hV hv).1).bind fun r t' hr => ?_
  obtain ⟨hr, rfl⟩ := hr
  refine .step (a := ()) (allocate_ok.mpr rfl) ((result_gives (by exact hres) fun hv => (hV hv).2).bind
    fun r' t' hr' => ?_)
  obtain ⟨hr', rfl⟩ := hr'
  refine .step (a := ()) (allocate_ok.mpr rfl) ((result_gives (by exact hres) fun hv => (hV hv).1).bind
    fun r2 t' hr2 => ?_)
  obtain ⟨hr2, rfl⟩ := hr2
  obtain rfl : r2 = r := Option.mem_unique hr2 hr
  have hrv : p.HasValue r2 := wf.hasValue_result (mem_of_getElem? hr)
  have hne : bit ≠ r2 := by
    rintro rfl
    exact hb1 (he12.emitted.hasValue (h.hasValue hrv))
  obtain ⟨_, w, hw⟩ := Edit.replaceAllUses_succeeds (v := r2) he.emitted.wellFormed.consistent hb2
  refine .step (a := ()) ((replaceAllUses_ok hne).mpr ⟨w, hw, rfl⟩) ?_
  have hrep : Edit.Replaced r2 bit t3.work.program w :=
    Edit.replaceAllUses_ok he.emitted.wellFormed.consistent hb2 hw
  refine .step (a := ()) ((eraseOp_ok (by exact he.deferred.trans h.deferred)).mpr ⟨?_, rfl⟩) (.pure ⟨rfl, ?_⟩)
  · have hne := not_erased h hi
    obtain ⟨_, _, rfl⟩ := he.rest
    exact hne
  have hunb := h.unbound wf hi (mem_of_getElem? hr)
  have hunb' := h.unbound wf hi (mem_of_getElem? hr')
  have hf := h.names
  have hext : n.Extends { n with outcomes := n.outcomes ++ [o], reads := n.reads ++ [bit] } :=
    ⟨prefix_rfl, prefix_append .., prefix_append ..⟩
  have hlinked := ((h.linked.mono hext).bit [o] hunb.1).bind (v := r') hunb'.1
    (by simp [hunb'.2, results_ne wf hr hr']) (Naming.handlesOf_mono hext hhs)
  rw [← show t3.extra = s.extra from he.extra] at hlinked
  have hwv : ∀ v, t3.work.program.HasValue v → w.HasValue v := fun v => (hrep.same.hasValue v).mpr
  have hob : t3.work.program.HasValue o := he3.emitted.hasValue (he2.emitted.hasValue ho2)
  refine ⟨_, _, _, _, h.next wf hi hp hq
    { n with outcomes := n.outcomes ++ [o], reads := n.reads ++ [bit] } _ _ he (q := w)
    (f := fun v => if v = r2 then bit else v) (k := t3.mutations + 1 + 1)
    (.measure hname hqs hr hr') hext ?_ hrep.same (hrep.wellFormed he.emitted.wellFormed) ?_ ?_ ?_ hlinked ?_ ?_ rfl,
      ?_⟩
  · obtain ⟨_, _, hx, _, h1⟩ := Naming.handlesOf_cons.mp hhs
    cases h1
    simp [Naming.code, Naming.instrs, hx, ← hf.outcomes,
      show n.outcomes.length = n.reads.length from hf.outcomes.trans hf.reads.symm]
  · intro j
    rw [hrep.operands]
    refine map_congr_left fun x _ => ?_
    cases x with
    | none => rfl
    | some v => by_cases hv : v = r2 <;> simp [hv]
  · intro v hv
    rw [Naming.rename_snoc hf.reads hunb.2 rfl
      (show ({ n with outcomes := n.outcomes ++ [o], reads := n.reads ++ [bit] } : Naming).reads = _ from rfl)]
    by_cases hvr : v = r2
    · simp [hvr, Naming.rename_of_not_mem hunb.2]
    · simp only [hvr, if_false]
      refine if_neg fun hren => ?_
      by_cases hvb : v ∈ m.bits
      · exact (hf.fresh _ (.inr (.inr (Naming.rename_mem hf.reads hvb)))).1 (hren ▸ hrv)
      · rw [Naming.rename_of_not_mem hvb] at hren
        exact hvr hren
  · intro v hv
    exact if_neg fun (hvr : v = r2) => hv (hvr ▸ hrv)
  · refine hf.extend [] [o] [bit] (append_nil _).symm rfl rfl ⟨.nil, nodup_singleton o, nodup_singleton bit⟩
      (fun _ hv => (not_mem_nil hv).elim) (fun v hv => ?_) h.values
      (Nat.le_trans he.emitted.values (Nat.le_of_eq hrep.same.values.symm)) rfl (by simp) rfl
    simp only [not_mem_nil, mem_singleton, false_or] at hv
    rcases hv with rfl | rfl
    · exact ⟨ho1, hwv v hob⟩
    · exact ⟨fun hv => hb1 (he12.emitted.hasValue hv), hwv v hb2⟩
  · intro v hv
    rcases hv with hv | hv
    · exact (bound_of_bind hr' hv).imp_left .inl
    · rcases mem_append.mp hv with hv | hv
      · exact .inl (.inr hv)
      · obtain rfl := mem_singleton.mp hv
        exact .inr (mem_of_getElem? hr)
  · simpa [placed, h.created] using he.created

theorem pattern_acts (hrange : ∀ v, Word.InRange (p.typeOf v).qubits) (hV : V → p.checkKind catalogue i = .ok ())
    {pattern : Pattern QubitMap} (hpat : pattern ∈ patterns) (hk : pattern.kind = (p.op i).name) :
    Acts V False (Advanced p done i) (pattern.rewrite i) (placed s b place loc) := by
  simp only [patterns, mem_append, mem_cons, not_mem_nil, or_false, mem_map] at hpat
  rcases hpat with (rfl | rfl | rfl | rfl | rfl | rfl) | ⟨g, hg, rfl⟩
  · refine lowerAlloc_acts wf h hi hp hq hb hidx hk.symm (fun hv => ?_) False.elim
    obtain ⟨_, t, ht, _⟩ := alloc_checked (hV hv) hk.symm
    exact exists_result ht (by simp)
  · exact lowerDealloc_acts wf h hi hp hq hb hidx hk.symm False.elim
  · exact lowerSplit_acts wf h hi hp hq hb hidx hrange hk.symm False.elim
  · refine lowerMerge_acts wf h hi hp hq hb hidx hk.symm (fun hv => ?_) False.elim
    obtain ⟨_, _, t, ht, _⟩ := merge_checked (hV hv) hk.symm
    exact exists_result ht (by simp)
  · refine lowerCnot_acts wf h hi hp hq hb hidx hk.symm (fun hv => ?_) False.elim
    obtain ⟨-, _, _, ht, _⟩ := cnot_checked (hV hv) hk.symm
    exact ⟨exists_result ht (by simp), exists_result ht (by simp)⟩
  · refine lowerMeasure_acts wf h hi hp hq hb hidx hk.symm (fun hv => ?_) False.elim
    obtain ⟨-, _, ht, _⟩ := measure_checked (hV hv) hk.symm
    exact ⟨exists_result ht (by simp), exists_result ht (by simp)⟩
  · refine lowerGate_acts wf h hi hp hq hb hidx hg hk.symm (fun hv => ?_) False.elim
    obtain ⟨t, _, ht, _⟩ := gate_checked (hV hv) hg hk.symm
    exact exists_result ht (by simp)

end

end Qubits

end Offload
