import Mathlib.Data.List.Nodup
import Offload.Proofs.Circuits
import Offload.Qubits.Allocation

/-!
# Namings and allocation maps

A naming that is extended keeps the code of the events it could already tell. What stands in an allocation
map after an allocation.
-/

namespace Offload

open Handle List Option

variable {e : Event} {es : List Event} {hs ks : List ValueId} {m : Machine} {qs : List Nat} {v : ValueId}
  {xs : List Instr}

namespace Qubits.Naming

variable {n : Naming}

def handlesOf (n : Naming) (qs : List Nat) : Option (List ValueId) := qs.mapM fun q => n.handles[q]?

theorem handlesOf_cons {q : Nat} :
    n.handlesOf (q :: qs) = some hs ↔
      ∃ h hs', n.handles[q]? = some h ∧ n.handlesOf qs = some hs' ∧ hs = h :: hs' := by
  simp [handlesOf, mapM_cons, bind_eq_some_iff, @eq_comm _ _ hs]

theorem code_cons : n.code (e :: es) = some xs ↔
    ∃ ys zs, n.instrs e = some ys ∧ n.code es = some zs ∧ xs = ys ++ zs := by
  simp [code, bind_eq_some_iff, @eq_comm _ _ xs]

end Qubits.Naming

namespace AllocationMap

variable {L P : Type} [DecidableEq L]

private theorem lookup_add (l k : L) (ps : List P) : ∀ entries : List (L × List P),
    (add l ps entries).lookup k =
      if k = l then some ((entries.lookup l).getD [] ++ ps) else entries.lookup k
  | [] => by
    by_cases h : k = l
    · simp [add, h]
    · have hk : (k == l) = false := by simpa using h
      simp [add, lookup_cons, h, hk]
  | (l', ps') :: rest => by
    rw [add]
    by_cases hl : l' = l
    · subst hl
      by_cases h : k = l'
      · simp [h]
      · have hk : (k == l') = false := by simpa using h
        simp [lookup_cons, h, hk]
    · have hl' : (l == l') = false := by simpa using Ne.symm hl
      simp only [hl, if_false, lookup_cons, lookup_add l k ps rest, hl']
      by_cases h : k = l'
      · subst h; simp [hl]
      · have hk : (k == l') = false := by simpa using h
        simp [hk]

theorem find?_allocate (m : AllocationMap L P) (l k : L) (ps : List P) :
    (m.allocate l ps).find? k = if k = l then some ((m.find? l).getD [] ++ ps) else m.find? k :=
  lookup_add l k ps m.entries

theorem find_ok {m : AllocationMap L P} {describe : L → String} {l : L} {ps : List P} :
    m.find describe l = .ok ps ↔ m.find? l = some ps := by
  unfold find
  cases m.find? l <;> simp

end AllocationMap

namespace Qubits

namespace Naming

variable {n n' : Naming}

structure Extends (n n' : Naming) : Prop where
  handles : n.handles <+: n'.handles
  outcomes : n.outcomes <+: n'.outcomes
  reads : n.reads <+: n'.reads

theorem Extends.refl (n : Naming) : n.Extends n := ⟨prefix_rfl, prefix_rfl, prefix_rfl⟩

private theorem getElem?_of_prefix {α : Type} {l l' : List α} (h : l <+: l') {k : Nat} {a : α}
    (hk : l[k]? = some a) : l'[k]? = some a := by
  obtain ⟨r, rfl⟩ := h
  rw [getElem?_append_left (List.getElem?_eq_some_iff.mp hk).1, hk]

theorem handlesOf_mono (hn : n.Extends n') : ∀ {qs : List Nat} {hs : List ValueId},
    n.handlesOf qs = some hs → n'.handlesOf qs = some hs
  | [], hs, h => h
  | q :: qs, hs, h => by
    obtain ⟨x, xs, hx, hxs, rfl⟩ := handlesOf_cons.mp h
    exact handlesOf_cons.mpr ⟨x, xs, getElem?_of_prefix hn.handles hx, handlesOf_mono hn hxs, rfl⟩

theorem handlesOf_length : ∀ {qs : List Nat} {hs : List ValueId}, n.handlesOf qs = some hs → hs.length = qs.length
  | [], hs, h => by cases h; rfl
  | q :: qs, hs, h => by
    obtain ⟨x, xs, _, hxs, rfl⟩ := handlesOf_cons.mp h
    simp [handlesOf_length hxs]

theorem mem_handlesOf {h : ValueId} : ∀ {qs : List Nat} {hs : List ValueId},
    n.handlesOf qs = some hs → (h ∈ hs ↔ ∃ q ∈ qs, n.handles[q]? = some h)
  | [], hs, e => by cases e; simp
  | q :: qs, hs, e => by
    obtain ⟨x, xs, hx, hxs, rfl⟩ := handlesOf_cons.mp e
    simp [mem_handlesOf hxs, hx, eq_comm]

theorem handlesOf_take : ∀ {qs : List Nat} (k : Nat), n.handlesOf qs = some hs →
    n.handlesOf (qs.take k) = some (hs.take k) ∧ n.handlesOf (qs.drop k) = some (hs.drop k) := by
  induction hs with
  | nil =>
    intro qs k h
    obtain rfl : qs = [] := length_eq_zero_iff.mp (handlesOf_length h).symm
    simp [handlesOf]
  | cons x xs ih =>
    intro qs k h
    cases qs with
    | nil => cases h
    | cons q qs =>
      obtain ⟨y, ys, hy, hys, he⟩ := handlesOf_cons.mp h
      cases he
      cases k with
      | zero => exact ⟨rfl, h⟩
      | succ k =>
        simp only [take_succ_cons, drop_succ_cons]
        exact ⟨handlesOf_cons.mpr ⟨x, _, hy, (ih k hys).1, rfl⟩, (ih k hys).2⟩

theorem handlesOf_append {qs rs : List Nat} (hq : n.handlesOf qs = some hs)
    (hr : n.handlesOf rs = some ks) : n.handlesOf (qs ++ rs) = some (hs ++ ks) := by
  induction qs generalizing hs with
  | nil => cases hq; exact hr
  | cons q qs ih =>
    obtain ⟨x, xs, hx, hxs, rfl⟩ := handlesOf_cons.mp hq
    exact handlesOf_cons.mpr ⟨x, xs ++ ks, hx, ih hxs, rfl⟩

theorem handlesOf_new (hh : n.handles = hs ++ ks) :
    n.handlesOf (List.range' hs.length ks.length) = some ks := by
  induction ks generalizing hs with
  | nil => rfl
  | cons k ks ih =>
    rw [length_cons, range'_succ]
    refine handlesOf_cons.mpr ⟨k, ks, by rw [hh]; simp, ?_, rfl⟩
    have := ih (show n.handles = (hs ++ [k]) ++ ks by rw [hh]; simp)
    rwa [length_append, length_singleton] at this

theorem instrs_mono (hn : n.Extends n') (h : n.instrs e = some xs) :
    n'.instrs e = some xs := by
  have hh : ∀ {q v}, n.handles[q]? = some v → n'.handles[q]? = some v := getElem?_of_prefix hn.handles
  cases e with
  | alloc q =>
    simp only [instrs, Option.pure_def, bind_eq_bind, bind_eq_some_iff] at h ⊢
    obtain ⟨v, hv, hx⟩ := h
    exact ⟨v, hh hv, hx⟩
  | gate g attrs q =>
    simp only [instrs, Option.pure_def, bind_eq_bind, bind_eq_some_iff] at h ⊢
    obtain ⟨v, hv, hx⟩ := h
    exact ⟨v, hh hv, hx⟩
  | cnot c t =>
    simp only [instrs, Option.pure_def, bind_eq_bind, bind_eq_some_iff] at h ⊢
    obtain ⟨v, hv, w, hw, hx⟩ := h
    exact ⟨v, hh hv, w, hh hw, hx⟩
  | measure q k =>
    simp only [instrs, Option.pure_def, bind_eq_bind, bind_eq_some_iff] at h ⊢
    obtain ⟨v, hv, w, hw, u, hu, hx⟩ := h
    exact ⟨v, hh hv, w, getElem?_of_prefix hn.outcomes hw, u, getElem?_of_prefix hn.reads hu, hx⟩
  | release q =>
    simp only [instrs, Option.pure_def, bind_eq_bind, bind_eq_some_iff] at h ⊢
    obtain ⟨v, hv, hx⟩ := h
    exact ⟨v, hh hv, hx⟩

theorem code_mono (hn : n.Extends n') : ∀ {es : List Event} {xs : List Instr},
    n.code es = some xs → n'.code es = some xs
  | [], xs, h => h
  | e :: es, xs, h => by
    obtain ⟨ys, zs, hy, hz, rfl⟩ := code_cons.mp h
    exact code_cons.mpr ⟨ys, zs, instrs_mono hn hy, code_mono hn hz, rfl⟩

theorem code_map {f : Nat → Event} {g : ValueId → Instr}
    (hfg : ∀ q h, n.handles[q]? = some h → n.instrs (f q) = some [g h]) :
    ∀ {qs : List Nat} {hs : List ValueId}, n.handlesOf qs = some hs → n.code (qs.map f) = some (hs.map g)
  | [], hs, h => by cases h; rfl
  | q :: qs, hs, h => by
    obtain ⟨x, xs, hx, hxs, rfl⟩ := handlesOf_cons.mp h
    exact code_cons.mpr ⟨[g x], xs.map g, hfg q x hx, code_map hfg hxs, rfl⟩

inductive Builds (n : Naming) : Event → Instr → Prop
  | alloc {q v} : n.handles[q]? = some v → Builds n (.alloc q) { name := Handle.allocName, results := [(v, .qubit)] }
  | gate {g attrs q v} : n.handles[q]? = some v →
      Builds n (.gate g attrs q) { name := Handle.gateName g, attrs, operands := [some v] }
  | cnot {c t v w} : n.handles[c]? = some v → n.handles[t]? = some w →
      Builds n (.cnot c t) { name := Handle.cnotName, operands := [some v, some w] }
  | outcome {q k o} : n.outcomes[k]? = some o →
      Builds n (.measure q k) { name := Handle.outcomeAllocName, results := [(o, .outcome)] }
  | measure {q k v o} : n.handles[q]? = some v → n.outcomes[k]? = some o →
      Builds n (.measure q k) { name := Handle.measureName, operands := [some v, some o] }
  | read {q k o b} : n.outcomes[k]? = some o → Builds n (.measure q k)
      { name := Handle.readName, operands := [some o], results := [(b, .scalar .bool)] }
  | release {q v} : n.handles[q]? = some v →
      Builds n (.release q) { name := Handle.releaseName, operands := [some v] }

theorem builds_of_instrs {ys : List Instr} {y : Instr} (h : n.instrs e = some ys) (hy : y ∈ ys) :
    n.Builds e y := by
  cases e <;> simp only [instrs, Option.pure_def, bind_eq_bind, bind_eq_some_iff, some.injEq] at h
  case measure q k =>
    obtain ⟨v, hv, o, ho, b, _, rfl⟩ := h
    simp only [mem_cons, not_mem_nil, or_false] at hy
    obtain rfl | rfl | rfl := hy
    · exact .outcome ho
    · exact .measure hv ho
    · exact .read ho
  case cnot c t =>
    obtain ⟨v, hv, w, hw, rfl⟩ := h
    exact mem_singleton.mp hy ▸ .cnot hv hw
  all_goals
    obtain ⟨v, hv, rfl⟩ := h
    obtain rfl := mem_singleton.mp hy
    constructor
    exact hv

theorem builds_of_code {x : Instr} : ∀ {es : List Event} {xs : List Instr}, n.code es = some xs → x ∈ xs →
    ∃ e ∈ es, n.Builds e x
  | [], xs, h, hx => by
    cases h
    cases hx
  | e :: es, xs, h, hx => by
    obtain ⟨ys, zs, hy, hz, rfl⟩ := code_cons.mp h
    rcases mem_append.mp hx with hx | hx
    · exact ⟨e, mem_cons_self .., builds_of_instrs hy hx⟩
    · obtain ⟨e', he', hys⟩ := builds_of_code hz hx
      exact ⟨e', mem_cons_of_mem _ he', hys⟩

theorem rename_of_not_mem (hv : v ∉ m.bits) : n.rename m v = v := by
  have : (m.bits.zip n.reads).lookup v = none := by
    refine lookup_eq_none_iff.mpr fun x hx => ?_
    have := (of_mem_zip hx).1
    simpa using fun he : v = x.1 => hv (he ▸ this)
  simp [rename, this]

theorem rename_getElem? (hl : n.reads.length = m.bits.length) (hv : v ∈ m.bits) :
    ∃ k : Nat, m.bits[k]? = some v ∧ n.reads[k]? = some (n.rename m v) := by
  cases hx : (m.bits.zip n.reads).lookup v with
  | none =>
    rw [lookup_eq_none_iff] at hx
    obtain ⟨k, hk, rfl⟩ := getElem_of_mem hv
    have hz : (m.bits[k], n.reads[k]) ∈ m.bits.zip n.reads :=
      mem_iff_getElem.mpr ⟨k, by simp [hl, hk], by simp⟩
    simpa using hx _ hz
  | some w =>
    obtain ⟨k, hk⟩ := getElem?_of_mem (mem_of_lookup hx)
    rw [rename, hx]
    exact ⟨k, getElem?_zip_eq_some.mp hk⟩

theorem rename_mem (hl : n.reads.length = m.bits.length) (hv : v ∈ m.bits) :
    n.rename m v ∈ n.reads := by
  obtain ⟨k, -, hk⟩ := rename_getElem? hl hv
  exact mem_of_getElem? hk

theorem rename_snoc {m m' : Machine} {b r v : ValueId} (hl : n.reads.length = m.bits.length) (hb : b ∉ m.bits)
    (hm : m'.bits = m.bits ++ [b]) (hn : n'.reads = n.reads ++ [r]) :
    n'.rename m' v = if v = b then r else n.rename m v := by
  have hz : m'.bits.zip n'.reads = m.bits.zip n.reads ++ [(b, r)] := by
    rw [hm, hn, zip_append hl.symm]
    rfl
  rw [rename, hz, lookup_append]
  by_cases hv : v = b
  · subst hv
    have : (m.bits.zip n.reads).lookup v = none :=
      lookup_eq_none_iff.mpr fun x hx => by
        simpa using fun he : v = x.1 => hb (he ▸ (of_mem_zip hx).1)
    simp [this]
  · have hv' : (v == b) = false := by simpa using hv
    simp [rename, hv, lookup_cons, hv']

theorem code_instr (h : n.code es = some xs) : ∀ x ∈ xs,
    (∀ v, some v ∈ x.operands → v ∈ n.handles ∨ v ∈ n.outcomes) ∧
      isQuantum { name := x.name } = false := by
  intro x hx
  obtain ⟨e, -, hb⟩ := builds_of_code h hx
  constructor
  · intro v hv
    cases hb <;> simp only [mem_cons, some.injEq, not_mem_nil, or_false] at hv
    case gate hw => exact .inl (hv ▸ mem_of_getElem? hw)
    case release hw => exact .inl (hv ▸ mem_of_getElem? hw)
    case read ho => exact .inr (hv ▸ mem_of_getElem? ho)
    case cnot hc ht =>
      rcases hv with rfl | rfl
      · exact .inl (mem_of_getElem? hc)
      · exact .inl (mem_of_getElem? ht)
    case measure hw ho =>
      rcases hv with rfl | rfl
      · exact .inl (mem_of_getElem? hw)
      · exact .inr (mem_of_getElem? ho)
  · cases hb <;> simp [isQuantum, Op.dialect, Register.dialect, allocName, gateName, cnotName,
      outcomeAllocName, measureName, readName, releaseName]

end Naming

end Qubits

end Offload
