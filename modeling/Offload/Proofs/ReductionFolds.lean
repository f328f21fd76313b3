import Offload.Proofs.ArithmeticBodies
import Offload.Proofs.Choices

/-!
# Reductions are folds

A reduction goes through the places of its inputs in row-major order. Each element of the results is a left fold
over the places whose indices on the axes that stay are its own, however the places of different results
interleave.
-/

namespace Offload

open Shape Program Reduction List

variable {a acc : Ref} {dims indices : List Int} {m n : Nat} {vs : List ValueId} {x : Tensor}
  {xs : List Float} {α β γ : Type}

/-! ## The place of the accumulators -/

theorem tupleAt_inj (hpos : ∀ d ∈ dims, 0 < d) (hsmall : dims.prod < 9223372036854775808)
    (hm : (m : Int) < dims.prod) (hn : (n : Int) < dims.prod) (h : tupleAt dims m = tupleAt dims n) : m = n := by
  have hm := Transfer.mixedRadix_tupleAt hpos hsmall (by omega) hm
  rw [h, Transfer.mixedRadix_tupleAt hpos hsmall (by omega) hn] at hm
  omega

theorem forall₂_kept {R : Int → Int → Prop} (axes : List Int) (h : Forall₂ R dims indices)
    (axis : Nat) : Forall₂ R (keptFrom axes axis dims) (keptFrom axes axis indices) := by
  induction h generalizing axis with
  | nil => exact .nil
  | cons hR _ ih =>
    rw [keptFrom_cons, keptFrom_cons]
    split
    · exact ih _
    · exact .cons hR (ih _)

theorem exists_place (hpos : ∀ d ∈ dims, 0 < d) (axes : List Int) (hn : (n : Int) < dims.prod) :
    ∃ m : Nat, (m : Int) < (keptDims dims axes).prod ∧
      tupleAt (keptDims dims axes) m = Execution.keptIndices axes (tupleAt dims n) := by
  have h := tupleAt_sum (keptDims_pos hpos axes) (forall₂_kept axes (tupleAt_bounds hpos (by omega) hn) 0)
  obtain ⟨m, hm⟩ := Int.eq_ofNat_of_zero_le h.1
  rw [hm] at h
  exact ⟨m, h.2⟩

namespace Execution

variable {p : Program} {low : Nat} {s t u : Store} {env : Env} {run : RunBody} {r : Reduce}

/-! ## Copying elements -/

structure Writes (W : Nat → Nat → Prop) (s t : Store) : Prop where
  count : t.cells.size = s.cells.size
  sizes : ∀ c : Nat, t.cells[c]?.map Array.size = s.cells[c]?.map Array.size
  other : ∀ c : Nat, (∀ n, ¬ W c n) → t.cells[c]? = s.cells[c]?
  same : ∀ c n, ¬ W c n → t.at? c n = s.at? c n

theorem Writes.frame {W : Nat → Nat → Prop} {K : Nat → Prop} (h : Writes W s t)
    (hk : ∀ c, K c → ∀ n, ¬ W c n) : Frame K s t :=
  ⟨h.count.ge, fun c hc => h.other c (hk c hc)⟩

structure Move where
  source : Ref
  place : Nat
  target : Ref
  change : Float → Float

def moveAll (m : Nat) : List Move → Exec Unit
  | [] => return
  | x :: rest => do
    Exec.setElement x.target m (x.change (← Exec.element x.source x.place))
    moveAll m rest

theorem loadScalars_eq (n : Nat) : ∀ l : List (Ref × Ref), loadScalars n l =
    moveAll 0 (l.map fun x => ⟨x.1, n, x.2, id⟩)
  | [] => rfl
  | _ :: l => by rw [loadScalars, loadScalars_eq n l]; rfl

theorem storeAccumulators_eq (m : Nat) : ∀ {accs rs : List Ref}, accs.length = rs.length →
    storeAccumulators m accs (rs.map .ref) = moveAll m ((accs.zip rs).map fun x =>
      ⟨x.2, 0, x.1, x.1.shape.element.round⟩)
  | [], [], _ => rfl
  | _ :: _, _ :: _, h => by rw [map_cons, storeAccumulators, storeAccumulators_eq m (Nat.succ.inj h)]; rfl

theorem moveAll_append (m : Nat) (l' : List Move) : ∀ l : List Move, moveAll m (l ++ l') =
    do moveAll m l; moveAll m l'
  | [] => rfl
  | x :: l => by simp only [cons_append, moveAll, moveAll_append m l' l, bind_assoc]

theorem element_eq {x : Float} (h : s.at? a.cell n = some x) : Exec.element a n s = .ok x s := by
  obtain ⟨data, hdata, hx⟩ := Option.bind_eq_some_iff.mp h
  have hget : Tensor.get ⟨a.shape, data⟩ n = .ok x := by simp [Tensor.get, hx]
  rw [Exec.element, bind_of_ok (Held.load_of_some hdata)]
  exact ofExcept_eq hget

theorem setElement_writes (h : s.at? a.cell n ≠ none) (x : Float) : ∃ t, Exec.setElement a n x s = .ok () t ∧
    Writes (fun c m => c = a.cell ∧ m = n) s t ∧ t.at? a.cell n = some x := by
  obtain ⟨y, hy⟩ := Option.ne_none_iff_exists'.mp h
  have hdiscard : discard (Exec.element a n) s = .ok () s := discard_ok.mpr ⟨y, element_eq hy⟩
  refine ⟨⟨s.cells.modify a.cell (·.setIfInBounds n x)⟩, ?_,
    ⟨by simp, fun c => ?_, fun c hc => ?_, fun c m hcm => ?_⟩, ?_⟩
  · rw [Exec.setElement, bind_of_ok hdiscard]
    rfl
  · rw [Array.getElem?_modify]
    split
    · cases s.cells[c]? <;> simp
    · rfl
  · rw [Array.getElem?_modify, if_neg fun heq => hc n ⟨heq.symm, rfl⟩]
  · rw [Store.at?, Store.at?, Array.getElem?_modify]
    split
    · rename_i hc
      cases hs : s.cells[c]? with
      | none => rfl
      | some data => simp [Array.getElem?_setIfInBounds_ne fun hn => hcm ⟨hc.symm, hn.symm⟩]
    · rfl
  · obtain ⟨data, hdata, hn⟩ := Option.bind_eq_some_iff.mp hy
    simp [Store.at?, Array.getElem?_modify, hdata, (Array.getElem?_eq_some_iff.mp hn).1]

theorem moveAll_writes : ∀ {l : List Move} {xs : List Float} {s : Store},
    Forall₂ (fun x y => s.at? x.source.cell x.place = some y) l xs →
    (∀ x ∈ l, ∀ a ∈ l.map Move.target, x.source.cell ≠ a.cell) →
      (∀ a ∈ l.map Move.target, s.at? a.cell m ≠ none) →
    ((l.map Move.target).map Ref.cell).Nodup →
    ∃ t, moveAll m l s = .ok () t ∧ Writes (fun c n => c ∈ (l.map Move.target).map Ref.cell ∧ n = m) s t ∧
      Forall₂ (fun x y => t.at? x.target.cell m = some (x.change y)) l xs
  | [], _, s, h, _, _, _ => by
    cases h
    exact ⟨s, rfl, ⟨rfl, fun _ => rfl, fun _ _ => rfl, fun _ _ _ => rfl⟩, .nil⟩
  | x :: l, _, s, h, hsep, htarget, hn => by
    obtain ⟨y, ys, hy, hys, rfl⟩ := forall₂_cons_left_iff.mp h
    simp only [map_cons, nodup_cons, forall_mem_cons] at hn hsep htarget
    obtain ⟨u, hset, hw, hat⟩ := setElement_writes htarget.1 (x.change y)
    have hother : ∀ a ∈ l.map Move.target, a.cell ≠ x.target.cell := fun a ha heq =>
      hn.1 (heq ▸ mem_map_of_mem ha)
    have hold : Forall₂ (fun z y => u.at? z.source.cell z.place = some y) l ys :=
      forall₂_imp_of_mem hys fun z hz _ _ hzy => (hw.same _ _ fun h => (hsep.2 z hz).1 h.1).trans hzy
    obtain ⟨t, hrest, hw', hats⟩ := moveAll_writes hold (fun z hz => (hsep.2 z hz).2)
      (fun a ha => by rw [hw.same _ _ fun h => hother a ha h.1]; exact htarget.2 a ha) hn.2
    refine ⟨t, ?_, ⟨hw'.count.trans hw.count, fun c => (hw'.sizes c).trans (hw.sizes c), fun c hc => ?_,
      fun c n hcn => ?_⟩, .cons ?_ hats⟩
    · rw [moveAll, bind_of_ok (element_eq hy), bind_of_ok hset]
      exact hrest
    · rw [hw'.other c fun n h => hc n ⟨mem_cons_of_mem _ h.1, h.2⟩,
        hw.other c fun n h => hc n ⟨by simp [h.1], h.2⟩]
    · rw [hw'.same c n fun h => hcn ⟨mem_cons_of_mem _ h.1, h.2⟩,
        hw.same c n fun h => hcn ⟨by simp [h.1], h.2⟩]
    · rw [hw'.same _ _ fun h => hn.1 h.1, hat]

/-! ## One place after the other -/

theorem Full.at?_ne_none (h : Full s a) (hn : n < a.shape.size.toNat) : s.at? a.cell n ≠ none := by
  obtain ⟨data, hdata, hsize⟩ := h.exists
  simp [Store.at?, hdata, hsize, hn]

structure Laid (p : Program) (r : Reduce) (base low : Nat) : Prop where
  order : base ≤ low
  inputs : ∀ a ∈ r.inputs, a.cell < base
  accumulators : ∀ a ∈ r.accumulators, base ≤ a.cell ∧ a.cell < low
  scalars : ∀ a ∈ r.scalars, low ≤ a.cell ∧ 0 < a.shape.size
  apart : (r.accumulators.map Ref.cell).Nodup ∧ (r.scalars.map Ref.cell).Nodup
  args : Forall₂ (fun v a => shapeOf (p.typeOf v) = .ok a.shape) (p.block r.body).args r.scalars
  count : r.scalars.length = r.inputs.length + r.accumulators.length

/-- A reduction between two places. The accumulators have the elements `F m` at the place `m`. -/
structure Station (r : Reduce) (s₀ : Store) (low size : Nat) (F : Nat → List Float) (s : Store) : Prop where
  frame : Frame (· < s₀.cells.size) s₀ s
  behind : low ≤ s.cells.size
  full : ∀ a ∈ r.accumulators ++ r.scalars, Full s a
  elements : ∀ m < size, Forall₂ (fun a x => s.at? a.cell m = some x) r.accumulators (F m)

theorem forall₂_zip_fst {R : α → γ → Prop} {as : List α} {bs : List β} {xs : List γ}
    (hle : as.length ≤ bs.length) : Forall₂ (fun x y => R x.1 y) (as.zip bs) xs ↔ Forall₂ R as xs := by
  rw [← forall₂_map_left_iff, map_fst_zip hle]

theorem forall₂_zipWith {R : α → γ → Prop} {g : α → β → γ} {as : List α} {ys : List β}
    (h : Forall₂ (fun a y => R a (g a y)) as ys) : Forall₂ R as (List.zipWith g as ys) := by
  induction h with
  | nil => exact .nil
  | cons h _ ih => exact .cons h ih

theorem means_zip {as : List Ref}
    (hargs : Forall₂ (fun v a => shapeOf (p.typeOf v) = .ok a.shape) vs as)
    (hfull : ∀ a ∈ as, low ≤ a.cell ∧ Full s a)
    (hat : Forall₂ (fun a x => s.at? a.cell 0 = some x) as xs) :
    Forall₂ (Means p low s) (vs.zip (as.map Datum.ref)) (vs.zip xs) := by
  induction hargs generalizing xs with
  | nil => exact .nil
  | @cons v a vs as h _ ih =>
    obtain ⟨x, xs, hx, hxs, rfl⟩ := forall₂_cons_left_iff.mp hat
    rw [forall_mem_cons] at hfull
    exact .cons ⟨rfl, a, rfl, h, hfull.1.1, hfull.1.2, hx⟩ (ih hfull.2 hxs)

section
variable {s₀ : Store} {size : Nat} {F : Nat → List Float} {f : List Float → List Float}
    (hl : Laid p r s₀.cells.size low)
  (hrun : Computes p low run env r.body f) (hlen : ∀ ns, (f ns).length = r.accumulators.length)

def combined (r : Reduce) (f : List Float → List Float) (xs as : List Float) : List Float :=
  List.zipWith ElementType.round (r.accumulators.map fun a => a.shape.element) (f (xs ++ as))

include hl

theorem load_writes (h : Station r s₀ low size F s)
    (hin : Forall₂ (fun a x => s₀.at? a.cell n = some x) r.inputs xs) (hm : m < size) :
    ∃ t, (do loadScalars n (r.inputs.zip r.scalars); loadScalars m (r.accumulators.zip
      (r.scalars.drop r.inputs.length))) s =
      .ok () t ∧ Writes (fun c n => c ∈ r.scalars.map Ref.cell ∧ n = 0) s t ∧
        Forall₂ (fun a x => t.at? a.cell 0 = some x) r.scalars (xs ++ F m) := by
  have hcount := hl.count
  obtain ⟨bs, cs, hbc, hbs⟩ : ∃ bs cs, r.scalars = bs ++ cs ∧ bs.length = r.inputs.length :=
    ⟨_, _, (take_append_drop r.inputs.length r.scalars).symm, by rw [length_take]; omega⟩
  have hcs : cs.length = r.accumulators.length := by
    rw [hbc, length_append] at hcount
    omega
  have hzip : r.inputs.zip r.scalars = r.inputs.zip bs := by
    rw [hbc]
    simpa using @zip_append _ _ r.inputs [] bs cs hbs.symm
  have hdrop : r.scalars.drop r.inputs.length = cs := by rw [hbc, ← hbs, drop_left]
  rw [hzip, hdrop, loadScalars_eq, loadScalars_eq, ← moveAll_append]
  generalize hmoves : (r.inputs.zip bs).map (fun x => Move.mk x.1 n x.2 id) ++
    (r.accumulators.zip cs).map (fun x => Move.mk x.1 m x.2 id) = l
  have htargets : l.map Move.target = r.scalars := by
    rw [← hmoves, map_append, map_map, map_map, hbc]
    exact congrArg₂ _ (map_snd_zip hbs.le) (map_snd_zip hcs.le)
  have hsource : ∀ x ∈ l, x.source.cell < low ∧ x.change = id := by
    intro x hx
    rw [← hmoves, mem_append] at hx
    rcases hx with hx | hx
    · obtain ⟨y, hy, rfl⟩ := mem_map.mp hx
      exact ⟨Nat.lt_of_lt_of_le (hl.inputs _ (of_mem_zip hy).1) hl.order, rfl⟩
    · obtain ⟨y, hy, rfl⟩ := mem_map.mp hx
      exact ⟨(hl.accumulators _ (of_mem_zip hy).1).2, rfl⟩
  have hold : Forall₂ (fun x y => s.at? x.source.cell x.place = some y) l (xs ++ F m) := by
    rw [← hmoves]
    refine rel_append (forall₂_map_left_iff.mpr ?_) (forall₂_map_left_iff.mpr ?_)
    · exact (forall₂_zip_fst hbs.ge).mpr (forall₂_imp_of_mem hin fun a ha _ _ hx =>
        (h.frame.at? (hl.inputs a ha) n).trans hx)
    · exact (forall₂_zip_fst hcs.ge).mpr (h.elements m hm)
  have hspot : ∀ a ∈ r.scalars, s.at? a.cell 0 ≠ none := fun a ha =>
    (h.full a (mem_append_right _ ha)).at?_ne_none (by have := (hl.scalars a ha).2; omega)
  obtain ⟨t, hrun, hw, hat⟩ := moveAll_writes (m := 0) hold
    (by
      rw [htargets]
      intro x hx a ha heq
      have := (hsource x hx).1
      have := (hl.scalars a ha).1
      omega) (htargets ▸ hspot) (htargets ▸ hl.apart.2)
  rw [htargets] at hw
  refine ⟨t, hrun, hw, ?_⟩
  rw [← htargets, forall₂_map_left_iff]
  exact forall₂_imp_of_mem hat fun x hx y _ hy => by rwa [(hsource x hx).2] at hy

theorem store_writes {rs : List Ref} {ys : List Float} (hfull : ∀ a ∈ r.accumulators, s.at? a.cell m ≠ none)
    (hrs : Forall₂ (fun a x => low ≤ a.cell ∧ s.at? a.cell 0 = some x) rs ys)
    (hys : ys.length = r.accumulators.length) :
    ∃ t, storeAccumulators m r.accumulators (rs.map .ref) s = .ok () t ∧
      Writes (fun c n => c ∈ r.accumulators.map Ref.cell ∧ n = m) s t ∧
        Forall₂ (fun a x => t.at? a.cell m = some x) r.accumulators
          (List.zipWith ElementType.round (r.accumulators.map fun a => a.shape.element) ys) := by
  have hlen : r.accumulators.length = rs.length := hys.symm.trans hrs.length_eq.symm
  rw [storeAccumulators_eq m hlen]
  generalize hmoves : (r.accumulators.zip rs).map (fun x => Move.mk x.2 0 x.1 x.1.shape.element.round) = l
  have htargets : l.map Move.target = r.accumulators := by
    rw [← hmoves, map_map]
    exact map_fst_zip hlen.le
  have hold : Forall₂ (fun x y => low ≤ x.source.cell ∧ x.place = 0 ∧ s.at? x.source.cell 0 = some y) l ys := by
    rw [← map_snd_zip hlen.ge, forall₂_map_left_iff] at hrs
    rw [← hmoves, forall₂_map_left_iff]
    exact hrs.imp fun _ _ h => ⟨h.1, rfl, h.2⟩
  obtain ⟨t, hrun, hw, hat⟩ := moveAll_writes (m := m) (hold.imp fun x y hx => by rw [hx.2.1]; exact hx.2.2)
    (by
      rw [htargets]
      intro x hx a ha heq
      have := (hl.accumulators a ha).2
      obtain ⟨y, -, hy, -⟩ := forall₂_mem_right hold.flip hx
      omega) (htargets ▸ hfull) (htargets ▸ hl.apart.1)
  rw [htargets] at hw
  refine ⟨t, hrun, hw, ?_⟩
  rw [← hmoves, forall₂_map_left_iff] at hat
  rw [zipWith_map_left]
  exact forall₂_zipWith ((forall₂_zip_fst hlen.le).mp hat)

include hrun hlen

theorem step_station (h : Station r s₀ low size F s)
    (hin : Forall₂ (fun a x => s₀.at? a.cell n = some x) r.inputs xs) (hacc : r.accumulators.head? = some acc)
    (hplace : acc.shape.linearIndex (keptIndices r.axes indices) = .ok m) (hm : m < size) :
    ∃ t, r.step p run env n indices s = .ok () t ∧
      Station r s₀ low size (Function.update F m (combined r f xs (F m))) t := by
  have hargs := hl.args.length_eq
  have hcount := hl.count
  obtain ⟨s₁, hload, hw₁, hat⟩ := load_writes hl h hin hm
  have hbehind : low ≤ s₁.cells.size := hw₁.count ▸ h.behind
  have hfull₁ : ∀ a ∈ r.accumulators ++ r.scalars, Full s₁ a := fun a ha => (hw₁.sizes _).trans (h.full a ha)
  have hmeans := means_zip hl.args (fun a ha => ⟨(hl.scalars a ha).1, hfull₁ a (mem_append_right _ ha)⟩) hat
  obtain ⟨rs, s₂, hbody, hframe, hrs⟩ := hrun (by rw [← hat.length_eq, hargs])
    (forall₂_reverse_iff.mpr hmeans) hbehind
  have hfull₂ : ∀ a ∈ r.accumulators ++ r.scalars, Full s₂ a := fun a ha => (hfull₁ a ha).frame hframe
  -- the elements of the accumulators are as before until the last part of the step
  have hsame : ∀ a ∈ r.accumulators, ∀ k, s₂.at? a.cell k = s.at? a.cell k := by
    intro a ha k
    rw [hframe.at? (hfull₁ a (mem_append_left _ ha)).lt, hw₁.same]
    rintro ⟨hmem, -⟩
    obtain ⟨b, hb, heq⟩ := mem_map.mp hmem
    have := (hl.accumulators a ha).2
    have := (hl.scalars b hb).1
    omega
  obtain ⟨t, hstore, hw₂, hnew⟩ := store_writes hl (m := m) (fun a ha => by
    obtain ⟨x, -, hx⟩ := forall₂_mem_right (h.elements m hm).flip ha
    simp [hsame a ha, hx]) hrs (hlen _)
  refine ⟨t, ?_, ?_, hw₂.count ▸ hbehind.trans hframe.grows, fun a ha => (hw₂.sizes _).trans (hfull₂ a ha),
    fun k hk => ?_⟩
  · have hbind : r.bind p env = ((p.block r.body).args.zip (r.scalars.map Datum.ref)).reverse ++ env := by
      rw [Reduce.bind, take_of_length_le (by rw [length_zip, length_map]; omega)]
    have hindex : Fault.ofShape (acc.shape.linearIndex (keptIndices r.axes indices)) = .ok (m : Int) := by
      rw [hplace]; rfl
    rw [Reduce.step, hacc]
    dsimp only
    rw [bind_of_ok (ofExcept_eq hindex), if_neg (by omega), ← bind_assoc, bind_of_ok hload, hbind, bind_of_ok hbody]
    exact hstore
  · have horder := hl.order
    refine (h.frame.trans (hw₁.frame fun c hc n hn => ?_)).trans
      ((hframe.mono fun c hc => ?_).trans (hw₂.frame fun c hc n hn => ?_))
    · obtain ⟨b, hb, rfl⟩ := mem_map.mp hn.1
      have := (hl.scalars b hb).1
      omega
    · omega
    · obtain ⟨a, ha, rfl⟩ := mem_map.mp hn.1
      have := (hl.accumulators a ha).1
      omega
  · by_cases hkm : k = m
    · subst hkm
      rw [Function.update_self]
      exact hnew
    · rw [Function.update_of_ne hkm]
      exact forall₂_imp_of_mem (h.elements k hk) fun a ha _ _ hx => by
        rw [hw₂.same _ _ fun h => hkm h.2, hsame a ha, hx]

theorem steps_station {ins : Nat → List Float} {place : Nat → Nat} {count : Nat}
    (hin : ∀ n < count, Forall₂ (fun a x => s₀.at? a.cell n = some x) r.inputs (ins n))
    (hacc : r.accumulators.head? = some acc)
    (hplace : ∀ n < count, acc.shape.linearIndex (keptIndices r.axes (tupleAt dims n)) = .ok (place n) ∧
      place n < size) :
    ∀ {ns : List Nat} {F : Nat → List Float} {s : Store}, (∀ n ∈ ns, n < count) →
      Station r s₀ low size F s →
      ∃ t, r.steps p run env (ns.map fun n => (n, tupleAt dims n)) s = .ok () t ∧ Station r s₀ low size
        (fun m => (ns.filter fun n => place n = m).foldl (fun as n => combined r f (ins n) as) (F m)) t
  | [], F, s, _, h => ⟨s, rfl, h⟩
  | n :: ns, F, s, hns, h => by
    rw [forall_mem_cons] at hns
    obtain ⟨hindex, hm⟩ := hplace n hns.1
    obtain ⟨u, hstep, hu⟩ := step_station hl hrun hlen h (hin n hns.1) hacc hindex hm
    obtain ⟨t, hsteps, ht⟩ := steps_station hin hacc hplace hns.2 hu
    refine ⟨t, ?_, ?_⟩
    · rw [map_cons, Reduce.steps, bind_of_ok hstep]
      exact hsteps
    · convert ht using 2 with m
      -- a place belongs to one fold and leaves the others as they are
      by_cases heq : place n = m
      · subst heq
        rw [filter_cons_of_pos (by simp), foldl_cons, Function.update_self]
      · rw [filter_cons_of_neg (by simpa using heq), Function.update_of_ne (Ne.symm heq)]

end

/-! ## Tensors in new cells -/

def Stored (s : Store) (a : Ref) (x : Tensor) : Prop := a.shape = x.shape ∧ s.cells[a.cell]? = some x.data

theorem Stored.lt (h : Stored s a x) : a.cell < s.cells.size := (Array.getElem?_eq_some_iff.mp h.2).1

theorem Stored.at? (h : Stored s a x) (hn : n < x.data.size) :
    s.at? a.cell n = some (x.data.getD n 0) := by
  simp [Store.at?, h.2, hn]

theorem Stored.full (h : Stored s a x) (hx : x.data.size = x.shape.size.toNat) : Full s a := by
  rw [Full, h.2, h.1, Option.map_some, hx]

theorem Stored.frame (h : Stored s a x) (hf : Frame (· < s.cells.size) s t) : Stored t a x :=
  ⟨h.1, (hf.same _ h.lt).trans h.2⟩

def fresh : Nat → List Tensor → List Ref
  | _, [] => []
  | n, x :: xs => ⟨x.shape, n⟩ :: fresh (n + 1) xs

def Store.add (s : Store) (xs : List Tensor) : Store := ⟨s.cells ++ (xs.map Tensor.data).toArray⟩

theorem add_cons (s : Store) (x : Tensor) (xs : List Tensor) :
    s.add (x :: xs) = Store.add ⟨s.cells.push x.data⟩ xs := by
  exact congrArg Store.mk (Array.toList_inj.mp (by simp))

theorem frame_add (s : Store) (xs : List Tensor) : Frame (· < s.cells.size) s (s.add xs) :=
  ⟨by simp [Store.add], fun _ hc => Array.getElem?_append_left hc⟩

theorem cells_fresh : ∀ (n : Nat) (xs : List Tensor), (fresh n xs).map Ref.cell = List.range' n xs.length
  | _, [] => rfl
  | n, x :: xs => by rw [fresh, map_cons, cells_fresh, length_cons, range'_succ]

theorem shapes_fresh : ∀ (n : Nat) (xs : List Tensor), (fresh n xs).map Ref.shape = xs.map Tensor.shape
  | _, [] => rfl
  | n, x :: xs => by rw [fresh, map_cons, shapes_fresh, map_cons]

theorem mem_fresh {xs : List Tensor} (h : a ∈ fresh n xs) : n ≤ a.cell ∧ a.cell < n + xs.length := by
  have hcell : a.cell ∈ (fresh n xs).map Ref.cell := mem_map_of_mem h
  rwa [cells_fresh, mem_range'_1] at hcell

theorem stored_fresh : ∀ (s : Store) (xs : List Tensor), Forall₂ (Stored (s.add xs)) (fresh s.cells.size xs) xs
  | _, [] => .nil
  | s, x :: xs => by
    have hrest := stored_fresh ⟨s.cells.push x.data⟩ xs
    rw [Array.size_push] at hrest
    rw [add_cons]
    exact .cons (Stored.frame (s := ⟨s.cells.push x.data⟩) ⟨rfl, by simp⟩ (frame_add _ xs)) hrest

theorem mapM_alloc {f : α → Exec Ref} : ∀ {as : List α} {xs : List Tensor} {s : Store},
    Forall₂ (fun a x => ∀ t, Frame (· < s.cells.size) s t → f a t = Exec.alloc x t) as xs →
      as.mapM f s = .ok (fresh s.cells.size xs) (s.add xs)
  | [], _, s, h => by
    cases h
    rw [mapM_nil, Store.add, map_nil, Array.append_empty]
    rfl
  | a :: as, _, s, h => by
    obtain ⟨x, xs, hx, hxs, rfl⟩ := forall₂_cons_left_iff.mp h
    have hfirst : f a s = .ok ⟨x.shape, s.cells.size⟩ ⟨s.cells.push x.data⟩ := hx s (.refl _ s)
    have hframe : Frame (· < s.cells.size) s ⟨s.cells.push x.data⟩ := .push (fun _ hc => hc) _
    have hrest : as.mapM f ⟨s.cells.push x.data⟩ = .ok (fresh (s.cells.push x.data).size xs)
      (Store.add ⟨s.cells.push x.data⟩ xs) :=
      mapM_alloc (hxs.imp fun _ _ h t ht => h t (hframe.trans (ht.mono fun c hc => Nat.lt_of_lt_of_le hc hframe.grows)))
    rw [mapM_cons, bind_of_ok hfirst, bind_of_ok hrest, add_cons, fresh, Array.size_push]
    rfl

/-! ## Reductions on tensors -/

structure Whole (x : Tensor) : Prop where
  positive : ∀ d ∈ x.shape.dims, 0 < d
  small : x.shape.dims.prod < 9223372036854775808
  size : (x.data.size : Int) = x.shape.dims.prod

theorem Whole.size_eq (h : Whole x) : x.data.size = x.shape.size.toNat := by
  rw [Shape.size, Word.product_eq h.positive h.small, ← h.size, Int.toNat_natCast]

def Supplies (env : Env) (s : Store) (o : Slot) (x : Tensor) : Prop :=
  ∃ v a, o = some v ∧ env.lookup v = some (.ref a) ∧ Stored s a x ∧ Whole x

structure Combines (p : Program) (i : OpId) (b : BlockId) (inputs inits : List Tensor) : Prop where
  ins : Reduction.inputs p i = .ok ((p.op i).operands.take inputs.length)
  outs : Reduction.inits p i = .ok ((p.op i).operands.drop inputs.length)
  onTensors : onTensors p i = .ok true
  some_input : inputs ≠ []
  wide : ∀ x ∈ inputs, x.shape.dims = (inputs.headD default).shape.dims
  narrow : ∀ x ∈ inits, x.shape.dims = keptDims (inputs.headD default).shape.dims (dimensions p i)
  results : (p.op i).results.length = inits.length
  args : (p.block b).args.length = inputs.length + inits.length
  ending : ∃ y, p.last? b = some y ∧ (p.op y).name = yieldName ∧ (p.op y).operands.length = inits.length

variable {i root : OpId} {b : BlockId} {inputs inits : List Tensor}

theorem combines_of_check (hc : p.checkKind catalogue i = .ok ()) (hn : (p.op i).name = reduceName)
    (ho : operandsAt p i = .ok ⟨(inputs.map Tensor.shape).map .tensor, (inits.map Tensor.shape).map .tensor, true⟩)
    (hb : body? p i = .ok (some b)) : Combines p i b inputs inits := by
  obtain ⟨n, hcount, hconsumes⟩ := Distribution.consumes_of_operandsAt ho
  obtain ⟨m, k, axes, shapes, c, h⟩ := checked_of_checkReduce (Distribution.checkReduce_of_checkKind hc hn)
  obtain ⟨hle, rfl⟩ := h.inputCount hcount
  obtain ⟨bs, rs, hregions⟩ := h.body
  obtain rfl : c = b := by simpa [body?, hregions] using hb
  have hslots := hconsumes.operands
  have htypes : (p.op i).operands.filterMap p.slotType? = ((inputs ++ inits).map Tensor.shape).map .tensor := by
    rw [← map_append] at hslots
    have hmap : (p.op i).operands.filterMap p.slotType? = ((p.op i).operands.map p.slotType?).filterMap id := by
      rw [filterMap_map]
      rfl
    rw [hmap, hslots, filterMap_map]
    exact congrFun filterMap_eq_map _
  have hlen : (p.op i).operands.length = inputs.length + inits.length := by
    simpa using congrArg List.length hslots
  have hpos := h.positive
  have hm : m.toNat = inputs.length := by
    have := congrArg List.length hconsumes.inputs
    rw [length_map, length_take, length_map, length_map] at this
    omega
  have hsome : inputs ≠ [] := ne_nil_of_length_pos (by omega)
  have hshapes : shapes = (inputs ++ inits).map Tensor.shape := by
    refine map_some_inj ?_
    rw [← h.types.shaped, htypes, map_map]
    rfl
  have hhead : (shapes.headD default).dims = (inputs.headD default).shape.dims := by
    rw [hshapes]
    cases inputs with
    | nil => exact absurd rfl hsome
    | cons x inputs => rfl
  have hwide := h.types.inputs
  have hnarrow := h.types.inits
  rw [hhead, hshapes, hm, map_append] at hwide hnarrow
  rw [take_left' (length_map ..)] at hwide
  rw [drop_left' (length_map ..)] at hnarrow
  have hresults := congrArg List.length h.types.outputs
  rw [if_pos (by simp [htypes, Ty.isTensor]), htypes, hm, resultTypes] at hresults
  have hargs := h.args
  obtain ⟨y, hy, hyield, hylen⟩ := h.ending
  rw [htypes] at hargs hylen
  refine ⟨?_, ?_, ?_, hsome, ?_, ?_, ?_, ?_, y, hy, hyield, ?_⟩
  · rw [Reduction.inputs, hcount, ← hm]
    rfl
  · rw [Reduction.inits, hcount, ← hm]
    rfl
  · refine Distribution.onTensors_go fun o ho => ?_
    rw [hslots] at ho
    obtain ⟨x, -, rfl⟩ := mem_map.mp ho
    exact ⟨x, rfl⟩
  · exact fun x hx => hwide _ (mem_map_of_mem hx)
  · rw [dimensions, h.dimensions]
    exact fun x hx => hnarrow _ (mem_map_of_mem hx)
  · simpa using hresults
  · simpa using hargs
  · rw [hylen, hm]
    simp

def elementsAt (xs : List Tensor) (n : Nat) : List Float := xs.map fun x => x.data.getD n 0

/-- The places of the inputs whose indices on the axes that stay are those of the place `m` of the results. -/
def placesOf (dims axes : List Int) (m : Nat) : List Nat :=
  (List.range dims.prod.toNat).filter fun n => keptIndices axes (tupleAt dims n) = tupleAt (keptDims dims axes) m

/-- The elements of the inputs at some places, combined one after the other into elements of the results. -/
def foldAt (f : List Float → List Float) (inputs inits : List Tensor) (places : List Nat)
    (as : List Float) : List Float :=
  places.foldl (fun as n => List.zipWith ElementType.round (inits.map fun x => x.shape.element)
    (f (elementsAt inputs n ++ as))) as

theorem refs_of_supplies {os : List Slot} {xs : List Tensor} (h : Forall₂ (Supplies env s) os xs) :
    ∃ as, Forall₂ (fun o a => lookupRef p env o s = .ok a s) os as ∧
      Forall₂ (fun a x => Stored s a x ∧ Whole x) as xs := by
  induction h with
  | nil => exact ⟨[], .nil, .nil⟩
  | cons h _ ih =>
    obtain ⟨v, a, rfl, hv, ha⟩ := h
    obtain ⟨as, hos, has⟩ := ih
    exact ⟨a :: as, .cons (lookupRef_eq hv) hos, .cons ha has⟩

theorem elementsAt_of_stored {as : List Ref} {xs : List Tensor}
    (h : Forall₂ (fun a x => Stored s a x ∧ Whole x) as xs)
    (hn : ∀ x ∈ xs, (n : Int) < x.shape.dims.prod) : Forall₂ (fun a x => s.at? a.cell n =
      some x) as (elementsAt xs n) := by
  rw [elementsAt, forall₂_map_right_iff]
  refine forall₂_imp_of_mem h fun a _ x hx hax => hax.1.at? ?_
  have := hn x hx
  have := hax.2.size
  omega

section
variable (hcomb : Combines p i b inputs inits) (hs : Forall₂ (Supplies env s) (p.op i).operands (inputs ++ inits))
include hcomb hs

theorem accumulators_eq : (((p.op i).operands.drop inputs.length).mapM (fun o => do
    let a ← lookupRef p env o
    accumulatorOf (← Exec.ofExcept (onTensors p i)) a) : Exec (List Ref)) s =
      .ok (fresh s.cells.size inits) (s.add inits) := by
  refine mapM_alloc ((forall₂_drop_append _ _ _ hs).imp fun o x h t ht => ?_)
  obtain ⟨v, a, rfl, hv, ha, -⟩ := h
  rw [bind_of_ok (lookupRef_eq hv), bind_of_ok (ofExcept_eq hcomb.onTensors), accumulatorOf, if_pos rfl, Exec.clone,
    bind_of_ok (Held.load_of_some (ha.frame ht).2), ha.1]

end

def Scalars (p : Program) (vs : List ValueId) (zs : List Tensor) : Prop := ∃ z : ValueId → Tensor, zs = vs.map z ∧
  ∀ v ∈ vs, shapeOf (p.typeOf v) = .ok (z v).shape ∧ 0 < (z v).shape.size ∧
    (z v).data.size = (z v).shape.size.toNat

theorem scalars_eq (h : ∀ v ∈ vs, HasElements (p.typeOf v)) : ∃ zs, Scalars p vs zs ∧ ∀ s : Store,
    (vs.mapM (fun v => do
      let shape ← Exec.ofExcept (shapeOf (p.typeOf v))
      Exec.alloc (← Exec.ofExcept (Tensor.zeros shape))) : Exec (List Ref)) s =
        .ok (fresh s.cells.size zs) (s.add zs) := by
  choose! shape hshape hpos hfew using h
  refine ⟨_, ⟨fun v => ⟨shape v, Array.replicate (shape v).size.toNat 0⟩, rfl,
    fun v hv => ⟨hshape v hv, hpos v hv, by simp⟩⟩,
    fun s => mapM_alloc (forall₂_map_right_iff.mpr (forall₂_same.mpr fun v hv t _ => ?_))⟩
  have hzeros : Tensor.zeros (shape v) = .ok ⟨shape v, Array.replicate (shape v).size.toNat 0⟩ := by
    have hlength : checkLength (shape v).size = .ok (shape v).size.toNat := if_pos ⟨(hpos v hv).le, hfew v hv⟩
    rw [Tensor.zeros, hlength]
    rfl
  rw [bind_of_ok (ofExcept_eq (hshape v hv)), bind_of_ok (ofExcept_eq hzeros)]

def started (s : Store) (as : List Ref) (inits zs : List Tensor) (axes : List Int) (b : BlockId) : Reduce where
  inputs := as
  accumulators := fresh s.cells.size inits
  scalars := fresh (s.add inits).cells.size zs
  axes := axes
  body := b

section
variable {as : List Ref} {zs : List Tensor} {axes : List Int}
    (has : Forall₂ (fun a x => Stored s a x ∧ Whole x) as inputs)
  (hz : Scalars p (p.block b).args zs)
include hz

variable (s as inits axes) in
theorem scalars_started : Forall₂ (fun v a => shapeOf (p.typeOf v) = .ok a.shape ∧ 0 < a.shape.size ∧
    Full ((s.add inits).add zs) a) (p.block b).args (started s as inits zs axes b).scalars := by
  obtain ⟨z, rfl, hz⟩ := hz
  refine forall₂_imp_of_mem (forall₂_map_right_iff.mp (stored_fresh (s.add inits) _)).flip fun v hv a _ ha => ?_
  obtain ⟨hshape, hpos, hsize⟩ := hz v hv
  exact ⟨ha.1 ▸ hshape, ha.1 ▸ hpos, Stored.full ha hsize⟩

include has

theorem laid_started (hargs : (p.block b).args.length = inputs.length + inits.length) :
    Laid p (started s as inits zs axes b) s.cells.size (s.add inits).cells.size := by
  have hsize : (s.add inits).cells.size = s.cells.size + inits.length := by simp [Store.add]
  have hscalars := scalars_started s inits as axes hz
  refine ⟨by omega, fun a ha => ?_, fun a ha => ?_, fun a ha => ⟨?_, ?_⟩, ⟨?_, ?_⟩,
    hscalars.imp fun _ _ h => h.1, ?_⟩
  · obtain ⟨x, -, hx, -⟩ := forall₂_mem_right has.flip ha
    exact hx.lt
  · rw [hsize]
    exact mem_fresh ha
  · exact (mem_fresh ha).1
  · obtain ⟨v, -, hv⟩ := forall₂_mem_right hscalars ha
    exact hv.2.1
  · rw [started, cells_fresh]
    exact nodup_range'
  · rw [started, cells_fresh]
    exact nodup_range'
  · rw [← hscalars.length_eq, hargs, started, has.length_eq, (stored_fresh s inits).length_eq]

variable (s as axes) in
omit has in
theorem station_started {size : Nat} (hwhole : ∀ x ∈ inits, Whole x ∧ x.shape.dims.prod = size) :
    Station (started s as inits zs axes b) s (s.add inits).cells.size size (elementsAt inits)
      ((s.add inits).add zs) := by
  have hframe := frame_add (s.add inits) zs
  have haccs : Forall₂ (fun a x => Stored ((s.add inits).add zs) a x ∧ Whole x) (fresh s.cells.size inits) inits :=
    forall₂_imp_of_mem (stored_fresh s inits) fun a _ x hx h => ⟨h.frame hframe, (hwhole x hx).1⟩
  refine ⟨(frame_add s inits).trans (hframe.mono fun c hc => Nat.lt_of_lt_of_le hc (frame_add s inits).grows),
    hframe.grows,
    fun a ha => ?_, fun m hm => elementsAt_of_stored haccs fun x hx => by rw [(hwhole x hx).2]; exact_mod_cast hm⟩
  rcases mem_append.mp ha with ha | ha
  · obtain ⟨x, hx, hax⟩ := forall₂_mem_right haccs.flip ha
    exact hax.1.full hax.2.size_eq
  · obtain ⟨v, -, hv⟩ := forall₂_mem_right (scalars_started s inits as axes hz) ha
    exact hv.2.2

omit hz in
theorem whole_of_stored : ∀ x ∈ inputs, Whole x := fun x hx => by
  obtain ⟨a, -, ha⟩ := forall₂_mem_right has hx
  exact ha.2

theorem steps_started {f : List Float → List Float} (hcomb : Combines p i b inputs inits) (hsome : inits ≠ [])
    (hinits : ∀ x ∈ inits, Whole x) (hrun : Computes p (s.add inits).cells.size run env b f)
    (hf : ∀ ns, (f ns).length = inits.length) :
    ∃ t, (started s as inits zs (dimensions p i) b).steps p run env
        (inputs.headD default).shape.indices ((s.add inits).add zs) = .ok () t ∧
      Station (started s as inits zs (dimensions p i) b) s (s.add inits).cells.size
        (keptDims (inputs.headD default).shape.dims (dimensions p i)).prod.toNat
        (fun m => foldAt f inputs inits (placesOf (inputs.headD default).shape.dims (dimensions p i) m)
          (elementsAt inits m)) t := by
  have hhead : Whole (inputs.headD default) := whole_of_stored has _ (by
    cases inputs with
    | nil => exact absurd rfl hcomb.some_input
    | cons x inputs => exact mem_cons_self)
  generalize hdims : (inputs.headD default).shape.dims = dims
  generalize haxes : dimensions p i = axes
  have hwide := hcomb.wide
  have hnarrow := hcomb.narrow
  have hpos := hhead.positive
  have hsmall := hhead.small
  rw [Shape.indices_eq hhead.positive hhead.small]
  rw [hdims] at hwide hnarrow hpos hsmall ⊢
  rw [haxes] at hnarrow
  have hkept := prod_pos (keptDims_pos hpos axes)
  have hkeptsmall := Int.lt_of_le_of_lt (keptDims_le hpos axes) hsmall
  obtain ⟨x, rest, hinit⟩ := exists_cons_of_ne_nil hsome
  have hx := hnarrow x (by simp [hinit])
  -- `place n` is where the element at `n` goes: the results have its indices on the axes that stay
  choose! place hplace htuple using fun (n : Nat) (hn : (n : Int) < dims.prod) => exists_place hpos axes hn
  have hsize : ∀ x ∈ inits, Whole x ∧ x.shape.dims.prod = (keptDims dims axes).prod.toNat := fun x hx =>
    ⟨hinits x hx, by rw [hnarrow x hx, Int.toNat_of_nonneg hkept.le]⟩
  have helements : ∀ n < dims.prod.toNat, Forall₂ (fun a x => s.at? a.cell n = some x) as (elementsAt inputs n) :=
    fun n hn =>
    elementsAt_of_stored has fun x hx => by rw [hwide x hx]; omega
  have hindex : ∀ n < dims.prod.toNat, x.shape.linearIndex (keptIndices axes (tupleAt dims n)) = .ok (place n) ∧
      place n < (keptDims dims axes).prod.toNat := by
    intro n hn
    have hn : (n : Int) < dims.prod := by omega
    have hm := hplace n hn
    refine ⟨?_, by omega⟩
    rw [← htuple n hn, ← hx]
    exact linearIndex_tupleAt (hx ▸ keptDims_pos hpos axes) (hx ▸ hkeptsmall) (by omega) (hx ▸ hm)
  have hfirst : (fresh s.cells.size inits).head? = some ⟨x.shape, s.cells.size⟩ := by rw [hinit]; rfl
  obtain ⟨t, hsteps, ht⟩ := steps_station (laid_started has hz hcomb.args) hrun
    (fun ns => (hf ns).trans (stored_fresh s inits).length_eq.symm) helements hfirst hindex
    (fun n hn => mem_range.mp hn) (station_started s as axes hz hsize)
  refine ⟨t, hsteps, ht.frame, ht.behind, ht.full, fun m hm => ?_⟩
  have hplaces : placesOf dims axes m = (List.range dims.prod.toNat).filter fun n => place n = m := by
    refine filter_congr fun n hn => decide_eq_decide.mpr ?_
    have hn : (n : Int) < dims.prod := by
      rw [mem_range] at hn
      omega
    rw [← htuple n hn]
    exact ⟨tupleAt_inj (keptDims_pos hpos axes) hkeptsmall (hplace n hn) (by omega), fun h => by rw [h]⟩
  have hshapes : (started s as inits zs axes b).accumulators.map (fun a => a.shape.element) =
      inits.map fun x => x.shape.element := by
    have hfresh := congrArg (List.map Shape.element) (shapes_fresh s.cells.size inits)
    rwa [map_map, map_map] at hfresh
  have hfold := ht.elements m hm
  simp only [combined, hshapes, ← hplaces] at hfold
  exact hfold

end

theorem runOp_reduce (hn : (p.op i).name = reduceName) : runOp p run env i = runReduce p run env i := by
  have hnone : Arith.Binary.ofName? reduceName = none := by decide +kernel
  simp only [runOp, hn, hnone]
  rfl

/-- A reduction of tensors runs to results in new cells, whose elements are left folds over the elements of the inputs
with the same indices on the axes that stay, in row-major order and starting with those of the inits. -/
theorem runOp_folds (wf : p.WellFormed) (hv : p.verify catalogue root = .ok ()) (hi : i ∈ p.nested root)
    (hn : (p.op i).name = reduceName)
    (ho : operandsAt p i = .ok ⟨(inputs.map Tensor.shape).map .tensor, (inits.map Tensor.shape).map .tensor, true⟩)
    (hsome : inits ≠ []) (hb : body? p i = .ok (some b)) (ha : Arithmetic p b)
    (hs : Forall₂ (Supplies env s) (p.op i).operands (inputs ++ inits)) (depth : Nat) :
    ∃ accs t, runOp p (runBlock p catalogue (depth + 1)) env i s =
        .ok (((p.op i).results.zip (accs.map .ref)).reverse ++ env) t ∧
      (p.op i).results.length = accs.length ∧ accs.map Ref.shape = inits.map Tensor.shape ∧
      (∀ a ∈ accs, s.cells.size ≤ a.cell ∧ Full t a) ∧ Frame (· < s.cells.size) s t ∧
      ∀ m : Nat, (m : Int) < (keptDims (inputs.headD default).shape.dims (dimensions p i)).prod →
        Forall₂ (fun a x => t.at? a.cell m = some x) accs (foldAt (combine p b) inputs inits
          (placesOf (inputs.headD default).shape.dims (dimensions p i) m) (elementsAt inits m)) := by
  have hcomb := combines_of_check (verifyOp_ok.mp (verify_ok.mp hv i hi)).2.2 hn ho hb
  obtain ⟨as, hlookup, has⟩ := refs_of_supplies (p := p) (forall₂_take_append _ _ _ hs)
  obtain ⟨zs, hz, hscalars⟩ := scalars_eq ha.args
  obtain ⟨y, hlast, hyield, hylen⟩ := hcomb.ending
  have hverified : ∀ j ∈ (p.block b).ops, p.verifyOp catalogue root j = .ok () := by
    intro j hj
    obtain ⟨blocks, hblocks, hmem⟩ := body?_ok hb
    exact verify_ok.mp hv j (wf.mem_nested.mpr (.step (wf.mem_children.mp (mem_children hblocks hmem hj))
      (wf.mem_nested.mp hi)))
  have hrun : Computes p (s.add inits).cells.size (runBlock p catalogue (depth + 1)) env b (combine p b) :=
    runBlock_computes wf ha hverified hyield hlast depth
  have hinits : ∀ x ∈ inits, Whole x := fun x hx => by
    obtain ⟨o, -, v, a, -, -, -, h⟩ := forall₂_mem_right hs (mem_append_right _ hx)
    exact h
  obtain ⟨t, hsteps, ht⟩ := steps_started has hz hcomb hsome hinits hrun fun ns => by simp [combine, hlast, hylen]
  have hlen := (stored_fresh s inits).length_eq
  refine ⟨fresh s.cells.size inits, t, ?_, hcomb.results.trans hlen.symm, shapes_fresh _ _,
    fun a ha => ⟨(mem_fresh ha).1, ht.full a (mem_append_left _ ha)⟩, ht.frame, fun m hm =>
      ht.elements m (by omega)⟩
  cases inputs with
  | nil => exact absurd rfl hcomb.some_input
  | cons x inputs =>
    obtain ⟨a, as, hax, -, rfl⟩ := forall₂_cons_right_iff.mp has
    have hfew : ¬ (fresh s.cells.size inits).length < (p.op i).results.length := by
      rw [hlen, hcomb.results]
      exact Nat.lt_irrefl _
    rw [headD_cons, ← hax.1.1, started] at hsteps
    -- the accumulators are allocated first and the scalars of the body behind them
    rw [runOp_reduce hn, runReduce, bind_of_ok (ofExcept_eq hcomb.ins), bind_of_ok (mapM_still hlookup),
      bind_of_ok (ofExcept_eq hcomb.outs), bind_of_ok (accumulators_eq hcomb hs)]
    simp only [head?_cons]
    rw [bind_of_ok (ofExcept_eq hb)]
    simp only
    rw [bind_of_ok (hscalars _), bind_of_ok hsteps, bind_of_ok (ofExcept_eq hcomb.onTensors), if_pos rfl, if_neg hfew]
    rfl

/-- The sums of the columns of a matrix. -/
def columnSums : Program :=
  let p := Distribution.reducer .float64 [2, 2] [0]
  { ops := (p.ops.set! 3 { name := "linalg.yield", operands := [some 5], block := some 2 }).push
      { name := "arith.addf", operands := [some 3, some 4], results := [5], block := some 2 }
    blocks := p.blocks.set! 2 { owner := 2, args := [3, 4], ops := [5, 3] }
    values := p.values.extract 0 3 ++ #[
      ⟨.scalar .float64, .argument 2 0, [⟨5, 0⟩]⟩,
      ⟨.scalar .float64, .argument 2 1, [⟨5, 1⟩]⟩,
      ⟨.scalar .float64, .result 5 0, [⟨3, 0⟩]⟩] }

theorem runOp_folds_columns : ∃ a t,
    runOp columnSums (runBlock columnSums catalogue 1) [(1, .ref ⟨⟨.float64, [2]⟩, 1⟩),
      (0, .ref ⟨⟨.float64, [2, 2]⟩, 0⟩)] 2
        ⟨#[#[1, 2, 3, 4], #[10, 20]]⟩ =
      .ok [(2, .ref a), (1, .ref ⟨⟨.float64, [2]⟩, 1⟩), (0, .ref ⟨⟨.float64, [2, 2]⟩, 0⟩)] t ∧
      t.at? a.cell 0 = some (3 + (1 + 10)) ∧ t.at? a.cell 1 = some (4 + (2 + 20)) := by
  have helements : HasElements (.scalar .float64) := ⟨.scalar .float64, rfl, by decide, by decide⟩
  have harith : Arithmetic columnSums 2 := by
    refine ⟨fun j hj => ?_, by decide +kernel, fun v hv => ?_, fun j hj v hv => ?_⟩
    · obtain rfl : j = 5 := mem_singleton.mp hj
      exact .inr ⟨.addf, rfl⟩
    · have htype : columnSums.typeOf v = .scalar .float64 := by
        revert v
        decide
      exact htype ▸ helements
    · have htype : columnSums.typeOf v = .scalar .float64 := by
        revert v
        revert j
        decide
      exact htype ▸ helements
  have hmatrix : Whole ⟨⟨.float64, [2, 2]⟩, #[1, 2, 3, 4]⟩ := ⟨by decide, by decide, rfl⟩
  have hrow : Whole ⟨⟨.float64, [2]⟩, #[10, 20]⟩ := ⟨by decide, by decide, rfl⟩
  have hs : Forall₂ (Supplies [(1, .ref ⟨⟨.float64, [2]⟩, 1⟩), (0, .ref ⟨⟨.float64, [2, 2]⟩, 0⟩)]
      ⟨#[#[1, 2, 3, 4], #[10, 20]]⟩) (columnSums.op 2).operands
        ([⟨⟨.float64, [2, 2]⟩, #[1, 2, 3, 4]⟩] ++ [⟨⟨.float64, [2]⟩, #[10, 20]⟩]) :=
    .cons ⟨0, _, rfl, rfl, ⟨rfl, rfl⟩, hmatrix⟩ (.cons ⟨1, _, rfl, rfl, ⟨rfl, rfl⟩, hrow⟩ .nil)
  obtain ⟨accs, t, hrun, hlen, -, -, -, hfold⟩ := @runOp_folds columnSums _ _ 2 0 2 _ _
    (.of_check (by decide)) (by decide) (by decide) rfl rfl (cons_ne_nil _ _) rfl harith
    hs 0
  obtain ⟨a, rfl⟩ := length_eq_one_iff.mp hlen.symm
  refine ⟨a, t, hrun, ?_, ?_⟩
  · exact (forall₂_cons.mp (hfold 0 (by decide))).1
  · exact (forall₂_cons.mp (hfold 1 (by decide))).1

/-- The body takes an index for the element of the results, and ignores it. -/
def shapeless : Program :=
  let p := Distribution.reducer .float32 [2] [0]
  { p with values := p.values.modify 4 fun v => { v with type := .index } }

/-- The verifier does not look at the types of what a body takes, and an index has no elements. -/
theorem runOp_shapeless : shapeless.WellFormed ∧ shapeless.verify catalogue 0 = .ok () ∧
    2 ∈ shapeless.nested 0 ∧ (shapeless.op 2).name = reduceName ∧ operandsAt shapeless 2 =
      .ok ⟨[.tensor ⟨.float32, [2]⟩], [.tensor ⟨.float32, []⟩], true⟩ ∧
    ∃ t, runOp shapeless (runBlock shapeless catalogue 1) [(1, .ref ⟨⟨.float32, []⟩, 1⟩),
      (0, .ref ⟨⟨.float32, [2]⟩, 0⟩)] 2
      ⟨#[#[1, 2], #[3]]⟩ = .error (.fault (.noShape .index)) t :=
  ⟨.of_check (by decide), by decide, by decide, rfl, rfl, _, rfl⟩

end Execution

end Offload
