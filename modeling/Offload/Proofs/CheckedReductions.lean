import Offload.Proofs.Verified

/-!
# Checked reductions

What the verifier asks of a reduction, as a statement.
-/

namespace Offload

open Program List

variable {axes : List Int} {b : BlockId} {c : Prop} {m n : Int} {shapes : List Shape} {u : Unit} {α ε : Type}

namespace Reduction

variable {p : Program} {i : OpId}

theorem operandShapes_ok : ∀ (ts : List Ty) {k : Nat} {shapes : List Shape},
    operandShapes k ts = .ok shapes ↔ ts.map Ty.shape? = shapes.map some
  | [], k, shapes => by cases shapes <;> simp [operandShapes]
  | t :: ts, k, shapes => by
    rw [operandShapes]
    cases ht : t.shape? with
    | none => cases shapes <;> simp [ht]
    | some s =>
      simp only [except_bind_ok, except_pure_ok, operandShapes_ok ts, map_cons, ht]
      constructor
      · rintro ⟨rest, hrest, rfl⟩
        rw [hrest]
        rfl
      · intro h
        cases shapes with
        | nil => cases h
        | cons s' rest =>
          obtain ⟨hs, hrest⟩ := List.cons.inj h
          exact ⟨rest, hrest, by rw [Option.some.inj hs]⟩

theorem rejectFirst_ok {test : α → Bool} {flaw : Nat → α → Flaw} {xs : List α} :
    rejectFirst test flaw xs = .ok u ↔ ∀ x ∈ xs, test x = true := by
  unfold rejectFirst
  split
  case h_2 hf =>
    simp only [true_iff]
    intro x hx
    obtain ⟨k, hk⟩ := getElem?_of_mem hx
    simpa using List.find?_eq_none.mp hf (x, k) (mem_zipIdx_iff_getElem?.mpr hk)
  case h_1 x k hf =>
    simp only [reduceCtorEq, false_iff]
    intro h
    have hm := mem_zipIdx_iff_getElem?.mp (mem_of_find?_eq_some hf)
    simpa [h x (mem_of_getElem? hm)] using find?_some hf

theorem guard_ok {ε α β : Type} [Decidable c] {e : ε} {x : Except ε α} {f : β → Except ε α} {a : α} :
    (if c then x else throw e >>= f) = .ok a ↔ c ∧ x = .ok a := by
  by_cases h : c
  · simp [h]
  · simp [h, throw, throwThe, MonadExceptOf.throw, bind, Except.bind]

theorem unless_ok [Decidable c] {e : ε} :
    (if c then pure () else throw e : Except ε Unit) = .ok u ↔ c := by
  by_cases h : c
  · simp [h, pure, Except.pure]
  · simp [h, throw, throwThe, MonadExceptOf.throw]

structure Fitting (operands results : List Ty) (n : Nat) (axes : List Int) (shapes : List Shape) : Prop where
  shaped : operands.map Ty.shape? = shapes.map some
  inputs : ∀ s ∈ shapes.take n, s.dims = (shapes.headD default).dims
  sorted : axesFit (shapes.headD default).rank none axes = true
  inits : ∀ s ∈ shapes.drop n, s.dims = keptDims (shapes.headD default).dims axes
  outputs : results = if operands.all Ty.isTensor then operands.drop n else []

theorem eq_of_zip : ∀ {l l' : List α}, l.length = l'.length → (∀ x ∈ l.zip l', x.1 = x.2) → l = l'
  | [], [], _, _ => rfl
  | a :: l, b :: l', hlen, h => by
    have hab : a = b := h (a, b) mem_cons_self
    rw [hab, eq_of_zip (Nat.succ.inj hlen) fun x hx => h x (mem_cons_of_mem _ hx)]

theorem zip_self {l : List α} : ∀ x ∈ l.zip l, x.1 = x.2 := by
  intro x hx
  induction l with
  | nil => cases hx
  | cons a l ih =>
    rcases mem_cons.mp hx with rfl | hx
    · rfl
    · exact ih hx

theorem checkTypes_ok {operands results : List Ty} {n : Nat} :
    checkTypes operands results n axes = .ok u ↔ ∃ shapes, Fitting operands results n axes shapes := by
  simp only [checkTypes, except_bind_ok, operandShapes_ok, rejectFirst_ok, guard_ok, decide_eq_true_eq]
  constructor
  · rintro ⟨shapes, hs, _, hin, hax, _, hinit, hres⟩
    refine ⟨shapes, hs, hin, hax, hinit, ?_⟩
    by_cases hall : operands.all Ty.isTensor = true
    · rw [if_pos hall, guard_ok, rejectFirst_ok] at hres
      rw [if_pos hall]
      exact eq_of_zip hres.1 fun x hx => by simpa using hres.2 x hx
    · rw [if_neg hall, unless_ok] at hres
      rw [if_neg hall]
      simpa using hres
  · rintro ⟨shapes, hs, hin, hax, hinit, rfl⟩
    refine ⟨shapes, hs, (), hin, hax, (), hinit, ?_⟩
    by_cases hall : operands.all Ty.isTensor = true
    · simp only [if_pos hall, guard_ok, rejectFirst_ok, decide_eq_true_eq, true_and]
      exact zip_self
    · rw [if_neg hall, if_neg hall, unless_ok]
      rfl

structure Checked (p : Program) (i : OpId) (m n : Int) (axes : List Int) (shapes : List Shape)
    (b : BlockId) : Prop where
  segments : ((p.op i).attr? segmentsAttr).bind Attr.ints? = some [m, n]
  positive : 1 ≤ m ∧ 1 ≤ n
  total : Word.add m n = ((p.op i).operands.filterMap p.slotType?).length
  dimensions : ((p.op i).attr? dimensionsAttr).bind Attr.ints? = some axes
  types : Fitting ((p.op i).operands.filterMap p.slotType?) (p.resultTypes i) m.toNat axes shapes
  body : ∃ bs rs, (p.op i).regions = (b :: bs) :: rs
  args : (p.block b).args.length = ((p.op i).operands.filterMap p.slotType?).length
  ending : ∃ k, p.last? b = some k ∧ (p.op k).name = yieldName ∧
    (p.op k).operands.length = ((p.op i).operands.filterMap p.slotType?).length - m.toNat

theorem getD_eq_pair {o : Option (List Int)} (h : o.getD [] = [m, n]) : o = some [m, n] := by
  cases o with
  | none => cases h
  | some l => rw [← h]; rfl

theorem checked_of_checkReduce (h : checkReduce p i = .ok ()) :
    ∃ m n axes shapes b, Checked p i m n axes shapes b := by
  simp only [checkReduce] at h
  split at h
  · rename_i m n hgiven
    rw [guard_ok, except_bind_ok] at h
    obtain ⟨⟨hm, hn, hmn⟩, k, hk, h⟩ := h
    obtain rfl := except_pure_ok.mp hk
    split at h
    · cases h
    · rename_i axes haxes
      simp only [except_bind_ok, mapError_ok, checkTypes_ok] at h
      obtain ⟨_, ⟨shapes, hfit⟩, h⟩ := h
      split at h
      · cases h
      · rename_i blocks rs hregions
        split at h
        · cases h
        · rename_i b hb
          obtain ⟨bs, rfl⟩ := head?_eq_some_iff.mp hb
          obtain ⟨hargs, h⟩ := guard_ok.mp h
          split at h
          · rename_i last hlast
            obtain ⟨l, hl, rfl⟩ := Option.map_eq_some_iff.mp hlast
            obtain ⟨hname, hlen⟩ := unless_ok.mp h
            exact ⟨m, n, axes, shapes, b, getD_eq_pair hgiven, ⟨hm, hn⟩, hmn, haxes, hfit,
              ⟨bs, rs, hregions⟩, hargs, l, hl, hname, hlen⟩
          · cases h
  · cases h

theorem Checked.inputCount {k : Nat}
    (h : Checked p i m n axes shapes b) (hk : inputCount p i = .ok k) : m ≤ (p.op i).operands.length ∧
      m.toNat = k := by
  simp only [Reduction.inputCount, Reduction.segments, h.segments, except_bind_ok] at hk
  obtain ⟨_, hpair, hk⟩ := hk
  obtain rfl := Except.ok.inj hpair
  split at hk
  · rename_i hle
    exact ⟨hle.2, except_pure_ok.mp hk⟩
  · cases hk

theorem Checked.checkReduce (h : Checked p i m n axes shapes b) : checkReduce p i = .ok () := by
  obtain ⟨bs, rs, hregions⟩ := h.body
  obtain ⟨k, hk, hname, hlen⟩ := h.ending
  have htypes : checkTypes ((p.op i).operands.filterMap p.slotType?) (p.resultTypes i) m.toNat axes = .ok () :=
    checkTypes_ok.mpr ⟨shapes, h.types⟩
  simp only [Reduction.checkReduce, h.segments, Option.getD_some, h.dimensions, hregions, head?_cons, h.args, hk,
    Option.map_some, hname, hlen, if_true]
  rw [if_pos ⟨h.positive.1, h.positive.2, h.total⟩]
  exact except_bind_ok.mpr ⟨_, rfl, except_bind_ok.mpr ⟨(), by rw [htypes]; rfl, by simp; rfl⟩⟩

end Reduction

end Offload
