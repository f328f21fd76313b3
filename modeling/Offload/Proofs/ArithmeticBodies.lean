import Offload.Proofs.DefinedValues
import Offload.Proofs.Transfers

/-!
# Arithmetic bodies

A body of constants and arithmetic on its own values computes numbers: the first element of each value depends on
the first elements of the arguments only. A run of the body puts these numbers into new cells.
-/

namespace Offload.Execution

open Program List Arith

variable {k : Arith.Binary} {pre rest : List OpId} {α β : Type}

/-! ## Numbers -/

abbrev Numbers := List (ValueId × Float)

def numberOf (xs : Numbers) (o : Slot) : Float := (o.bind fun v => xs.lookup v).getD 0

def roundTo (t : Ty) (x : Float) : Float := t.element?.elim x fun e => e.round x

def applied (o : Op) (xs : List Float) : Float :=
  match Arith.Binary.ofName? o.name, xs with
  | some k, [x, y] => k.apply x y
  | _, _ => ((constantValues? o).getD []).headD 0

def numbersAfter (p : Program) (xs : Numbers) (j : OpId) : Numbers :=
  (p.op j).results.map (fun v =>
    (v, roundTo (p.typeOf v) (applied (p.op j) ((p.op j).operands.map (numberOf xs))))) ++ xs

def combine (p : Program) (b : BlockId) (xs : List Float) : List Float :=
  let last := (p.block b).ops.dropLast.foldl (numbersAfter p) ((p.block b).args.zip xs).reverse
  ((p.last? b).elim [] fun y => (p.op y).operands).map (numberOf last)

def HasElements (t : Ty) : Prop := ∃ shape, shapeOf t = .ok shape ∧ 0 < shape.size ∧ shape.size < capacity

/-- A body of constants and arithmetic on its own values, which have elements. -/
structure Arithmetic (p : Program) (b : BlockId) : Prop where
  kind : ∀ j ∈ (p.block b).ops.dropLast, (p.op j).name = constantName ∨
    ∃ k, Arith.Binary.ofName? (p.op j).name = some k
  own : ∀ j ∈ (p.block b).ops, ∀ o ∈ (p.op j).operands, o.bind p.homeOf = some b
  args : ∀ v ∈ (p.block b).args, HasElements (p.typeOf v)
  results : ∀ j ∈ (p.block b).ops, ∀ v ∈ (p.op j).results, HasElements (p.typeOf v)

/-! ## Values in storage -/

def Store.at? (s : Store) (c n : Nat) : Option Float := s.cells[c]?.bind (·[n]?)

def Full (s : Store) (r : Ref) : Prop := s.cells[r.cell]?.map Array.size = some r.shape.size.toNat

def Means (p : Program) (low : Nat) (s : Store) (x : ValueId × Datum) (y : ValueId × Float) : Prop :=
  x.1 = y.1 ∧ ∃ r, x.2 = .ref r ∧ shapeOf (p.typeOf y.1) = .ok r.shape ∧ low ≤ r.cell ∧ Full s r ∧
    s.at? r.cell 0 = some y.2

variable {p : Program} {low : Nat} {s t : Store} {r : Ref} {env l : Env} {xs : Numbers} {v : ValueId} {j : OpId}
  {run : RunBody} {b : BlockId} {shape : Shape}

theorem Frame.at? {K : Nat → Prop} {c : Nat} (h : Frame K s t) (hc : K c) (n : Nat) : t.at? c n = s.at? c n := by
  rw [Store.at?, h.same c hc, Store.at?]

theorem Full.exists (h : Full s r) : ∃ a, s.cells[r.cell]? = some a ∧ a.size = r.shape.size.toNat :=
  Option.map_eq_some_iff.mp h

theorem Full.lt (h : Full s r) : r.cell < s.cells.size := by
  obtain ⟨a, ha, -⟩ := h.exists
  exact (Array.getElem?_eq_some_iff.mp ha).1

theorem Full.frame (h : Full s r) (hf : Frame (· < s.cells.size) s t) : Full t r := by
  rw [Full, hf.same _ h.lt]
  exact h

theorem Means.frame {x : ValueId × Datum} {y : ValueId × Float} (h : Means p low s x y)
    (hf : Frame (· < s.cells.size) s t) : Means p low t x y := by
  obtain ⟨hxy, r, hr, hshape, hlow, hfull, hat⟩ := h
  exact ⟨hxy, r, hr, hshape, hlow, hfull.frame hf, (hf.at? hfull.lt 0).trans hat⟩

theorem lookup_means (h : Forall₂ (Means p low s) l xs) (hv : v ∈ xs.map Prod.fst) (env : Env) :
    ∃ r, (l ++ env).lookup v = some (.ref r) ∧ shapeOf (p.typeOf v) = .ok r.shape ∧
      low ≤ r.cell ∧ Full s r ∧ s.at? r.cell 0 = some (numberOf xs (some v)) := by
  induction h with
  | nil => cases hv
  | @cons x y l xs h _ ih =>
    obtain ⟨w, d⟩ := x
    obtain ⟨w', z⟩ := y
    obtain ⟨rfl, r, rfl, hr⟩ := h
    -- an entry hides those behind it, among the values and among the numbers
    by_cases heq : v = w
    · subst heq
      exact ⟨r, by simp, by simpa [numberOf] using hr⟩
    · obtain ⟨r, hlookup, hr⟩ := ih (by simpa [heq] using hv)
      refine ⟨r, ?_, ?_⟩
      · simpa [lookup_cons, beq_false_of_ne heq] using hlookup
      · simpa [numberOf, lookup_cons, beq_false_of_ne heq] using hr

theorem lookup_eq {o : Slot} {d : Datum} (h : o.bind (fun v => env.lookup v) = some d) :
    lookup p env o s = .ok d s := by
  obtain ⟨v, rfl, hv⟩ := Option.bind_eq_some_iff.mp h
  rw [lookup, hv]
  rfl

theorem lookupRef_eq (h : env.lookup v = some (.ref r)) : lookupRef p env (some v) s = .ok r s := by
  rw [lookupRef, bind_of_ok (lookup_eq (o := some v) h)]
  rfl

theorem roundTo_of_shapeOf {t : Ty} (h : shapeOf t = .ok shape) (x : Float) : roundTo t x = shape.element.round x := by
  have helement : t.element? = some shape.element := by
    cases t <;> simp_all [shapeOf, Ty.element?, Ty.shape?, Shape.scalar]
    all_goals grind
  rw [roundTo, helement]
  rfl

/-! ## Operations -/

theorem ofExcept_eq {x : Except Fault α} {a : α} (h : x = .ok a) : Exec.ofExcept x s = .ok a s := by
  rw [h]
  rfl

def Gives (s : Store) (v : ValueId) (env : Env) (shape : Shape) (x : Float) (y : Exec Env) : Prop :=
  ∃ data, y s = .ok ((v, .ref ⟨shape, s.cells.size⟩) :: env) ⟨s.cells.push data⟩ ∧
    data.size = shape.size.toNat ∧ data[0]? = some x

theorem Gives.means {x : Float} {y : Exec Env} (h : Gives s v env shape x y) (hv : shapeOf (p.typeOf v) = .ok shape)
    (hlow : low ≤ s.cells.size) : ∃ r t, y s = .ok ((v, .ref r) :: env) t ∧ Frame (· < s.cells.size) s t ∧
      Means p low t (v, .ref r) (v, x) := by
  obtain ⟨data, hrun, hsize, hx⟩ := h
  refine ⟨_, _, hrun, Frame.push (fun _ hc => hc) _, rfl, _, rfl, hv, hlow, ?_, ?_⟩
  · simp [Full, hsize]
  · simp [Store.at?, hx]

theorem mapM_of_forall₂ {α β ε : Type} {f : α → Except ε β} : ∀ {l : List α} {l' : List β},
    Forall₂ (fun a b => f a = .ok b) l l' → l.mapM f = .ok l'
  | [], [], _ => rfl
  | a :: l, b :: l', h => by
    obtain ⟨ha, hl⟩ := forall₂_cons.mp h
    rw [mapM_cons, ha, mapM_of_forall₂ hl]
    rfl

theorem applyBinary_eq {x y : Tensor} {x₀ y₀ : Float} (hsize : 0 < shape.size ∧ shape.size < capacity)
    (hx : x.data.size = shape.size.toNat) (hy : y.data.size = shape.size.toNat) (hx₀ : x.data[0]? = some x₀)
    (hy₀ : y.data[0]? = some y₀) : ∃ data, applyBinary k x y shape = .ok ⟨shape, data⟩ ∧
      data.size = shape.size.toNat ∧ data[0]? = some (shape.element.round (k.apply x₀ y₀)) := by
  have hget : ∀ (z : Tensor) (n : Nat), z.data.size = shape.size.toNat → n < shape.size.toNat →
      z.get n = .ok (z.data.getD n 0) := by
    intro z n hz hn
    simp [Tensor.get, hz, hn]
  have helements : (List.range shape.size.toNat).mapM (fun (n : Nat) => do
      return shape.element.round (k.apply (← x.get n) (← y.get n))) =
        Except.ok ((List.range shape.size.toNat).map fun n =>
        shape.element.round (k.apply (x.data.getD n 0) (y.data.getD n 0))) := by
    refine mapM_of_forall₂ (forall₂_map_right_iff.mpr (forall₂_same.mpr fun n hn => ?_))
    rw [mem_range] at hn
    rw [hget x n hx hn, hget y n hy hn]
    rfl
  have hlength : checkLength shape.size = .ok shape.size.toNat := if_pos ⟨hsize.1.le, hsize.2⟩
  refine ⟨_, except_bind_ok.mpr ⟨_, hlength, except_bind_ok.mpr ⟨_, helements, rfl⟩⟩, by simp, ?_⟩
  have hpos : 0 < shape.size.toNat := by omega
  simp [hpos, hx₀, hy₀]

theorem binary_types (hc : checkBinary p j = .ok ()) (hops : ∀ o ∈ (p.op j).operands, ∃ v, o = some v) :
    ∃ u w v, (p.op j).operands = [some u, some w] ∧ (p.op j).results = [v] ∧ p.typeOf u = p.typeOf v ∧
      p.typeOf w = p.typeOf v := by
  obtain ⟨vs, hvs⟩ := exists_map_some hops
  have htypes : (p.op j).operands.filterMap p.slotType? = vs.map p.typeOf := by
    rw [hvs, filterMap_map]
    exact congrFun filterMap_eq_map vs
  rw [checkBinary, htypes, resultTypes] at hc
  split at hc
  · rename_i x y t hx ht
    obtain ⟨u, vs, rfl, rfl, hrest⟩ := map_eq_cons_iff.mp hx
    obtain ⟨w, rfl, rfl⟩ := map_eq_singleton_iff.mp hrest
    obtain ⟨v, hv, rfl⟩ := map_eq_singleton_iff.mp ht
    have heq := Ty.eq_of_demand hc
    simp only [List.cons.injEq, and_true] at heq
    exact ⟨u, w, v, hvs, hv, heq.2, heq.1 ▸ heq.2⟩
  · cases hc

theorem runBinary_gives {u w : ValueId} (hm : Forall₂ (Means p low s) l xs)
    (hops : (p.op j).operands = [some u, some w]) (hres : (p.op j).results = [v]) (htu : p.typeOf u = p.typeOf v)
    (htw : p.typeOf w = p.typeOf v) (hu : u ∈ xs.map Prod.fst) (hw : w ∈ xs.map Prod.fst)
    (hshape : shapeOf (p.typeOf v) = .ok shape) (hsize : 0 < shape.size ∧ shape.size < capacity) :
    Gives s v (l ++ env) shape (shape.element.round (k.apply (numberOf xs (some u)) (numberOf xs (some w))))
      (runBinary p k (l ++ env) j) := by
  obtain ⟨a, hla, hsa, -, hfa, hx⟩ := lookup_means hm hu env
  obtain ⟨c, hlc, hsc, -, hfc, hy⟩ := lookup_means hm hw env
  obtain ⟨dx, hdx, hnx⟩ := hfa.exists
  obtain ⟨dy, hdy, hny⟩ := hfc.exists
  rw [htu, hshape] at hsa
  rw [htw, hshape] at hsc
  rw [← Except.ok.inj hsa] at hnx
  rw [← Except.ok.inj hsc] at hny
  rw [Store.at?, hdx] at hx
  rw [Store.at?, hdy] at hy
  have hresult : resultAt p j 0 s = .ok v s := by rw [resultAt, hres]; rfl
  have hfirst : operandAt p j 0 s = .ok (some u) s := by rw [operandAt, hops]; rfl
  have hsecond : operandAt p j 1 s = .ok (some w) s := by rw [operandAt, hops]; rfl
  obtain ⟨data, happly, hdata⟩ := applyBinary_eq (k := k) (x := ⟨a.shape, dx⟩)
    (y := ⟨c.shape, dy⟩) hsize hnx hny hx hy
  refine ⟨data, ?_, hdata⟩
  rw [runBinary, bind_of_ok hresult, bind_of_ok hfirst, bind_of_ok (lookupRef_eq hla),
    bind_of_ok (Held.load_of_some hdx),
    bind_of_ok hsecond, bind_of_ok (lookupRef_eq hlc), bind_of_ok (Held.load_of_some hdy)]
  simp only [hnx, hny, if_true]
  rw [bind_of_ok (ofExcept_eq hshape), bind_of_ok (ofExcept_eq happly)]
  rfl

theorem constant_values (hn : (p.op j).name = constantName) (hc : checkConstant p j = .ok ()) :
    ∃ v values shape, (p.op j).results = [v] ∧ constantValues? (p.op j) = some values ∧
      shapeOf (p.typeOf v) = .ok shape ∧ (values.length : Int) = shape.size := by
  unfold checkConstant at hc
  rw [resultTypes] at hc
  split at hc
  · rename_i t _ ht
    obtain ⟨v, hv, rfl⟩ := map_eq_singleton_iff.mp ht
    rw [constantValues?, if_pos hn]
    split at hc
    · split at hc <;> cases hc
    · rename_i shape values hattr
      rw [hattr]
      split at hc
      · cases hc
      · rename_i htype
        split at hc
        · cases hc
        · rename_i hcount
          exact ⟨v, values, shape, hv, rfl, by rw [← not_not.mp htype]; rfl, not_not.mp hcount⟩
    · rename_i hattr
      rw [hattr]
      split at hc
      · rename_i e he
        exact ⟨v, _, .scalar e, hv, rfl, by rw [he]; rfl, rfl⟩
      · cases hc
    · rename_i hattr
      rw [hattr]
      split at hc
      · rename_i e he
        exact ⟨v, _, .scalar e, hv, rfl, by rw [he]; rfl, rfl⟩
      · cases hc
    · cases hc
  · cases hc

theorem runConstant_gives {values : List Float} (hres : (p.op j).results = [v])
    (hvalues : constantValues? (p.op j) = some values)
    (hshape : shapeOf (p.typeOf v) = .ok shape) (hlen : (values.length : Int) = shape.size) (hpos : 0 < shape.size) :
    Gives s v env shape (shape.element.round (values.headD 0)) (runConstant p env j) := by
  have hresult : resultAt p j 0 s = .ok v s := by rw [resultAt, hres]; rfl
  have hmake : Tensor.make shape values.toArray = .ok ⟨shape, values.toArray.map shape.element.round⟩ := if_pos hlen
  refine ⟨values.toArray.map shape.element.round, ?_, ?_, ?_⟩
  · rw [runConstant, hvalues]
    dsimp only
    rw [bind_of_ok hresult, bind_of_ok (ofExcept_eq hshape), bind_of_ok (ofExcept_eq hmake)]
    rfl
  · simp [← hlen]
  · cases values with
    | nil => simp [← hlen] at hpos
    | cons x values => simp

theorem runOp_constant (hn : (p.op j).name = constantName) : runOp p run env j = runConstant p env j := by
  have hnone : Arith.Binary.ofName? constantName = none := by decide
  simp only [runOp, hn, hnone]
  rfl

theorem runOp_means (run : RunBody) (env : Env) (hm : Forall₂ (Means p low s) l xs) (hlow : low ≤ s.cells.size)
    (hkind : (p.op j).name = constantName ∨ ∃ k, Arith.Binary.ofName? (p.op j).name = some k)
    (hc : p.checkKind catalogue j = .ok ()) (hops : ∀ o ∈ (p.op j).operands, ∃ v, o = some v ∧
      v ∈ xs.map Prod.fst)
    (helements : ∀ v ∈ (p.op j).results, HasElements (p.typeOf v)) :
    ∃ l' t, runOp p run (l ++ env) j s = .ok (l' ++ env) t ∧ Frame (· < s.cells.size) s t ∧
      Forall₂ (Means p low t) l' (numbersAfter p xs j) := by
  suffices hgives : ∃ v shape x, (p.op j).results = [v] ∧ shapeOf (p.typeOf v) = .ok shape ∧
      x = applied (p.op j) ((p.op j).operands.map (numberOf xs)) ∧
        Gives s v (l ++ env) shape (shape.element.round x) (runOp p run (l ++ env) j) by
    obtain ⟨v, shape, _, hres, hshape, rfl, hgives⟩ := hgives
    obtain ⟨r, t, hrun, hframe, hmeans⟩ := hgives.means hshape hlow
    refine ⟨(v, .ref r) :: l, t, hrun, hframe, ?_⟩
    rw [numbersAfter, hres, map_singleton, roundTo_of_shapeOf hshape]
    exact .cons hmeans (hm.imp fun _ _ h => h.frame hframe)
  rcases hkind with hn | ⟨k, hk⟩
  · rw [checkKind, hn] at hc
    obtain ⟨v, values, shape, hres, hvalues, hshape, hlen⟩ := constant_values hn (mapError_ok.mp hc)
    obtain ⟨shape', hshape', hpos, -⟩ := helements v (by simp [hres])
    obtain rfl := Except.ok.inj (hshape.symm.trans hshape')
    refine ⟨v, shape, _, hres, hshape, ?_, runOp_constant hn ▸ runConstant_gives hres hvalues hshape hlen hpos⟩
    have hnone : Arith.Binary.ofName? (p.op j).name = none := by rw [hn]; decide
    simp [applied, hnone, hvalues]
  · obtain ⟨u, w, v, huw, hres, hu, hw⟩ := binary_types (checkBinary_of_ofName? hc hk) fun o ho =>
      (hops o ho).imp fun _ => And.left
    obtain ⟨shape, hshape, hsize⟩ := helements v (by simp [hres])
    have hown : ∀ z, some z ∈ (p.op j).operands → z ∈ xs.map Prod.fst := by
      intro z hz
      obtain ⟨z', heq, hmem⟩ := hops _ hz
      exact Option.some.inj heq ▸ hmem
    refine ⟨v, shape, k.apply (numberOf xs (some u)) (numberOf xs (some w)), hres, hshape, by
      simp [applied, hk, huw], ?_⟩
    rw [runOp, hk]
    exact runBinary_gives hm huw hres hu hw (hown u (by simp [huw])) (hown w (by simp [huw])) hshape hsize

/-! ## Bodies -/

theorem own_operand (wf : p.WellFormed) {root : OpId} {r : Registry} (hb : (p.block b).ops = pre ++ j :: rest)
    (hval : p.HasValue v) (hhome : p.homeOf v = some b) (hvis : p.visible r root j v = .ok ()) :
    v ∈ (p.block b).args ∨ ∃ d ∈ pre, v ∈ (p.op d).results := by
  have hj : (p.op j).block = some b := (wf.listed j b).mpr (by simp [hb])
  cases hs : (p.value v).source with
  | argument c k =>
    obtain rfl : c = b := by simpa [homeOf, hs] using hhome
    exact .inl (mem_of_getElem? ((wf.argument c k v).mpr ⟨hval, hs⟩))
  | result d k =>
    refine .inr ⟨d, ?_, mem_of_getElem? ((wf.result d k v).mpr ⟨hval, hs⟩)⟩
    have hdef : p.definingOp? v = some d := by simp [definingOp?, hs]
    have hlist : d ∈ (p.block b).ops := (wf.listed d b).mp (by simpa [homeOf, hs] using hhome)
    have hn := wf.once b
    rw [visible, hhome, enclosing, enclosingFrom] at hvis
    simp only [visibleFrom, hj, if_true, hdef] at hvis
    split at hvis
    · cases hvis
    · rename_i hlt
      have hprec := (precedes_iff_idxOf hn hlist).mpr ⟨by simp [hb], Nat.lt_of_not_le hlt⟩
      rw [hb] at hn hprec
      exact hprec.mem_before hn

def Covers (p : Program) (b : BlockId) (pre : List OpId) (xs : Numbers) : Prop :=
  ∀ v, v ∈ (p.block b).args ∨ (∃ d ∈ pre, v ∈ (p.op d).results) → v ∈ xs.map Prod.fst

theorem Covers.step (h : Covers p b pre xs) : Covers p b (pre ++ [j]) (numbersAfter p xs j) := by
  intro v hv
  rw [numbersAfter, map_append, mem_append, map_map]
  rcases hv with hv | ⟨d, hd, hv⟩
  · exact .inr (h v (.inl hv))
  · rcases mem_append.mp hd with hd | hd
    · exact .inr (h v (.inr ⟨d, hd, hv⟩))
    · exact .inl (mem_map.mpr ⟨v, mem_singleton.mp hd ▸ hv, rfl⟩)

def Computes (p : Program) (low : Nat) (run : RunBody) (env : Env) (b : BlockId)
    (f : List Float → List Float) : Prop :=
  ∀ {l : Env} {ns : List Float} {s : Store}, ns.length = (p.block b).args.length →
    Forall₂ (Means p low s) l ((p.block b).args.zip ns).reverse → low ≤ s.cells.size →
    ∃ rs t, run (l ++ env) b s = .ok (rs.map .ref) t ∧ Frame (· < s.cells.size) s t ∧
      Forall₂ (fun r x => low ≤ r.cell ∧ t.at? r.cell 0 = some x) rs (f ns)

theorem mapM_still {f : α → Exec β} : ∀ {as : List α} {bs : List β},
    Forall₂ (fun a b => f a s = .ok b s) as bs → as.mapM f s = .ok bs s
  | [], _, h => by
    cases h
    rfl
  | a :: as, _, h => by
    obtain ⟨b, bs, hb, hbs, rfl⟩ := forall₂_cons_left_iff.mp h
    rw [mapM_cons, bind_of_ok hb, bind_of_ok (mapM_still hbs)]
    rfl

theorem not_terminator (hkind : (p.op j).name = constantName ∨
    ∃ k, Arith.Binary.ofName? (p.op j).name = some k) : catalogue.isTerminator (p.op j) = false := by
  refine isTerminator_eq_false ?_
  rcases hkind with hn | ⟨k, hk⟩
  · rw [hn]
    decide
  · have hn : (p.op j).name = k.name := by simpa [eq_comm] using find?_some hk
    rw [hn]
    cases k <;> decide

section
variable (wf : p.WellFormed) (ha : Arithmetic p b) {root : OpId}
  (hv : ∀ j ∈ (p.block b).ops, p.verifyOp catalogue root j = .ok ()) {y : OpId}
    (hy : (p.op y).name = Reduction.yieldName)
include wf ha hv

theorem operands_covered (hb : (p.block b).ops = pre ++ j :: rest) (hcov : Covers p b pre xs) :
    ∀ o ∈ (p.op j).operands, ∃ v, o = some v ∧ v ∈ xs.map Prod.fst := by
  intro o ho
  have hj : j ∈ (p.block b).ops := by simp [hb]
  obtain ⟨v, rfl, hvis⟩ := (verifyOp_ok.mp (hv j hj)).1 o ho
  exact ⟨v, rfl, hcov v (own_operand wf hb (wf.hasValue_operand ho) (ha.own j hj _ ho) hvis)⟩

include hy

variable (run env) in
theorem runOps_means : ∀ {pre ops : List OpId} {l : Env} {xs : Numbers} {s : Store}, (p.block b).ops =
    pre ++ (ops ++ [y]) → Covers p b pre xs → Forall₂ (Means p low s) l xs → low ≤ s.cells.size →
    ∃ rs t, runOps p catalogue run (l ++ env) (ops ++ [y]) s = .ok (rs.map .ref) t ∧
      Frame (· < s.cells.size) s t ∧ Forall₂ (fun r x => low ≤ r.cell ∧ t.at? r.cell 0 = some x) rs
        ((p.op y).operands.map (numberOf (ops.foldl (numbersAfter p) xs)))
  | pre, [], l, xs, s, hb, hcov, hm, hlow => by
    have hend : catalogue.isTerminator (p.op y) = true := by
      rw [Registry.isTerminator, Registry.traits, hy]
      decide
    have hread : ∀ o ∈ (p.op y).operands, ∃ r, lookup p (l ++ env) o s = .ok (.ref r) s ∧ low ≤ r.cell ∧
        s.at? r.cell 0 = some (numberOf xs o) := by
      intro o ho
      obtain ⟨v, rfl, hmem⟩ := operands_covered wf ha hv hb hcov o ho
      obtain ⟨r, hr, -, hlow, -, hat⟩ := lookup_means hm hmem env
      exact ⟨r, lookup_eq (o := some v) hr, hlow, hat⟩
    choose! ref hlookup hcell hat using hread
    refine ⟨(p.op y).operands.map ref, s, ?_, .refl _ s, ?_⟩
    · rw [nil_append, runOps, if_pos hend, map_map]
      exact mapM_still (forall₂_map_right_iff.mpr (forall₂_same.mpr hlookup))
    · rw [forall₂_map_left_iff, forall₂_map_right_iff]
      exact forall₂_same.mpr fun o ho => ⟨hcell o ho, hat o ho⟩
  | pre, j :: ops, l, xs, s, hb, hcov, hm, hlow => by
    have hj : j ∈ (p.block b).ops := by simp [hb]
    have hkind := ha.kind j (by rw [hb, ← append_assoc, dropLast_concat]; simp)
    obtain ⟨-, -, hc⟩ := verifyOp_ok.mp (hv j hj)
    obtain ⟨l', u, hrun, hframe, hm'⟩ := runOp_means run env hm hlow hkind hc (operands_covered wf ha hv hb hcov)
      (ha.results j hj)
    have hnext : (p.block b).ops = (pre ++ [j]) ++ (ops ++ [y]) := by simpa using hb
    obtain ⟨rs, t, hrest, hframe', hrs⟩ := runOps_means hnext hcov.step hm' (hlow.trans hframe.grows)
    have hctx : withContext p j (runOp p run (l ++ env) j) s = .ok (l' ++ env) u := by rw [withContext, hrun]
    refine ⟨rs, t, ?_, hframe.trans (hframe'.mono fun c hc => Nat.lt_of_lt_of_le hc hframe.grows), hrs⟩
    rw [cons_append, runOps, not_terminator hkind, if_neg Bool.false_ne_true, bind_of_ok hctx]
    exact hrest

theorem runBlock_computes (hlast : p.last? b = some y) (depth : Nat) :
    Computes p low (runBlock p catalogue (depth + 1)) env b (combine p b) := by
  intro l ns s hns hm hlow
  obtain ⟨ops, hops⟩ := getLast?_eq_some_iff.mp hlast
  have hcov : Covers p b [] ((p.block b).args.zip ns).reverse := by
    rintro v (hv | ⟨d, hd, -⟩)
    · rw [map_reverse, mem_reverse, map_fst_zip hns.ge]
      exact hv
    · cases hd
  obtain ⟨rs, t, hrun, hframe, hrs⟩ := runOps_means env (runBlock p catalogue depth) wf ha hv hy hops hcov hm hlow
  refine ⟨rs, t, ?_, hframe, ?_⟩
  · rw [runBlock, hops]
    exact hrun
  · rw [combine, hops, dropLast_concat, hlast]
    exact hrs

end

end Offload.Execution
