import Mathlib.Data.List.Forall2
import Offload.Proofs.AffineValues

/-!
# The text of affine expressions

A sum is written without parentheses, so a text does not tell how its summands were put together. Two expressions
with the same text have the same summands up to regrouping, and since addition of words is associative they have
the same values.
-/

namespace Offload

open List

variable {e' : Expr} {n : Nat} {x : Char}

namespace Word

theorem wrap_eq_wrap {x y : Int} : wrap x = wrap y ↔ (18446744073709551616 : Int) ∣ x - y := by
  obtain ⟨hx, hx'⟩ := represents_wrap x
  obtain ⟨hy, hy'⟩ := represents_wrap y
  simp only [InRange] at hx hy
  omega

theorem wrap_add_congr {x y s t : Int} (hx : wrap x = wrap s) (hy : wrap y = wrap t) : wrap (x + y) = wrap (s + t) := by
  rw [wrap_eq_wrap] at *
  omega

theorem wrap_wrap (x : Int) : wrap (wrap x) = wrap x := wrap_of_inRange (represents_wrap x).1

end Word

namespace Affine.Expr

variable {a b c d e t u : Expr} {r r' s s' : List Char}

/-! ## Values -/

def value (dims : List Int) (e : Expr) : Option Int := (e.eval dims).toOption

section
variable (dims : List Int)

theorem value_add (a b : Expr) : value dims (.add a b) =
    (value dims a).bind fun x => (value dims b).map fun y => Word.wrap (x + y) := by
  simp only [value, eval]
  cases a.eval dims <;> cases b.eval dims <;> rfl

theorem value_mul (a b : Expr) : value dims (.mul a b) =
    (value dims a).bind fun x => (value dims b).map fun y => Word.wrap (x * y) := by
  simp only [value, eval]
  cases a.eval dims <;> cases b.eval dims <;> rfl

theorem value_floorDiv (a : Expr) (n : Int) : value dims (.floorDiv a n) =
    (value dims a).map fun x => Word.floorDiv x n := by
  simp only [value, eval]
  cases a.eval dims <;> rfl

theorem value_mod (a : Expr) (n : Int) : value dims (.mod a n) =
    (value dims a).map fun x => Word.sub x (Word.mul (Word.floorDiv x n) n) := by
  simp only [value, eval]
  cases a.eval dims <;> rfl

end

def Alike (e e' : Expr) : Prop := ∀ dims, value dims e = value dims e'

theorem Alike.mul (h : Alike a c) (h' : Alike b d) : Alike (.mul a b) (.mul c d) := fun dims => by
  rw [value_mul, value_mul, h, h']

theorem Alike.floorDiv (h : Alike a c) (n : Int) : Alike (.floorDiv a n) (.floorDiv c n) := fun dims => by
  rw [value_floorDiv, value_floorDiv, h]

theorem Alike.mod (h : Alike a c) (n : Int) : Alike (.mod a n) (.mod c n) := fun dims => by
  rw [value_mod, value_mod, h]

/-! ## Summands -/

def isSum : Expr → Bool
  | add _ _ => true
  | _ => false

/-- What stands between the plus signs outside of all parentheses. -/
def summands : Expr → List Expr
  | add a b => a.summands ++ b.summands
  | e => [e]

theorem summands_of_term (h : e.isSum = false) : e.summands = [e] := by
  cases e <;> first | rfl | cases h

theorem isSum_of_mem_summands (h : t ∈ e.summands) : t.isSum = false := by
  induction e with
  | add a b iha ihb => exact (mem_append.mp h).elim iha ihb
  | _ =>
    cases mem_singleton.mp h
    rfl

theorem length_summands_pos (e : Expr) : 0 < e.summands.length := by
  induction e with
  | add a b iha ihb => simp [summands, iha]
  | _ => simp [summands]

theorem isSum_eq (e : Expr) : e.isSum = decide (1 < e.summands.length) := by
  cases e with
  | add a b =>
    have ha := length_summands_pos a
    have hb := length_summands_pos b
    rw [summands, length_append, isSum, decide_eq_true (by omega)]
  | _ => rfl

def total (dims : List Int) : List Expr → Option Int
  | [] => some 0
  | t :: ts => (value dims t).bind fun x => (total dims ts).map fun y => x + y

theorem total_append (dims : List Int) (us : List Expr) : ∀ ts : List Expr, total dims (ts ++ us) =
    (total dims ts).bind fun x => (total dims us).map fun y => x + y
  | [] => by simp [total]
  | t :: ts => by
    rw [cons_append, total, total, total_append dims us ts]
    cases value dims t <;> cases total dims ts <;> cases total dims us <;> simp [Int.add_assoc]

theorem total_congr {dims : List Int} {ts us : List Expr} (h : Forall₂ Alike ts us) :
    total dims ts = total dims us := by
  induction h with
  | nil => rfl
  | cons h _ ih => rw [total, total, h, ih]

/-- A sum wraps after every addition, which comes to wrapping once. -/
theorem wrap_value (dims : List Int) (e : Expr) :
    (value dims e).map Word.wrap = (total dims e.summands).map Word.wrap := by
  induction e with
  | add a b iha ihb =>
    rw [value_add, summands, total_append]
    cases ha : value dims a <;> cases hta : total dims a.summands <;> simp_all
    cases hb : value dims b <;> cases htb : total dims b.summands <;> simp_all [Word.wrap_wrap]
    exact Word.wrap_add_congr iha ihb
  | _ => simp [summands, total]

theorem value_of_isSum (dims : List Int) (h : e.isSum = true) :
    value dims e = (total dims e.summands).map Word.wrap := by
  cases e with
  | add a b =>
    rw [← wrap_value, value_add]
    cases value dims a <;> cases value dims b <;> simp [Word.wrap_wrap]
  | _ => cases h

theorem alike_of_summands (h : Forall₂ Alike e.summands e'.summands) : Alike e e' := by
  have hsum : e'.isSum = e.isSum := by rw [isSum_eq, isSum_eq, h.length_eq]
  cases he : e.isSum
  · rw [summands_of_term he, summands_of_term (hsum.trans he)] at h
    exact (forall₂_cons.mp h).1
  · intro dims
    rw [value_of_isSum dims he, value_of_isSum dims (hsum.trans he), total_congr h]

/-! ## Texts and what follows them -/

def text (e : Expr) : List Char := e.render.toList

def operand (e : Expr) : List Char := (if e.isAtom then e.render else "(" ++ e.render ++ ")").toList

def numeral (n : Int) : List Char := (toString n).toList

def parts : Expr → Expr × List Char
  | mul a b => (a, [' ', '*', ' '] ++ b.operand)
  | floorDiv a n => (a, " floordiv ".toList ++ numeral n)
  | mod a n => (a, " mod ".toList ++ numeral n)
  | e => (e, [])

theorem text_add (a b : Expr) : (add a b).text = a.text ++ [' ', '+', ' '] ++ b.text := by
  simp [text, render]

theorem operand_atom (h : e.isAtom = true) : e.operand = e.text := by
  rw [operand, if_pos h, text]

theorem operand_group (h : e.isAtom = false) : e.operand = '(' :: (e.text ++ [')']) := by
  simp [operand, h, text]

theorem text_term (h : t.isSum = false) : t.text = t.parts.1.operand ++ t.parts.2 := by
  cases t with
  | dim | const => exact (append_nil _).symm
  | add => cases h
  | mul | floorDiv | mod =>
    rw [text, render, String.toList_append, String.toList_append, append_assoc]
    rfl

def sumText (ts : List Expr) : List Char := ts.flatMap fun t => [' ', '+', ' '] ++ t.text

theorem sumText_summands (e : Expr) : sumText e.summands = [' ', '+', ' '] ++ e.text := by
  induction e with
  | add a b iha ihb =>
    rw [summands, sumText, flatMap_append, ← sumText, ← sumText, iha, ihb, text_add]
    simp
  | _ => simp [summands, sumText]

def Ends (r : List Char) : Prop := ∀ x ∈ r.head?, x = ')'

/-- A text ends here, a parenthesis is closed, or another summand comes. -/
def Follows (r : List Char) : Prop := Ends r ∨ ∃ s, r = ' ' :: '+' :: s

def Breaks (r : List Char) : Prop := ∀ x ∈ r.head?, x = ' ' ∨ x = ')'

theorem Follows.breaks (h : Follows r) : Breaks r := by
  rcases h with h | ⟨s, rfl⟩
  · exact fun x hx => .inr (h x hx)
  · simp [Breaks]

theorem Follows.eq_plus (h : Follows r) (hr : r = ' ' :: x :: s) : x = '+' := by
  subst hr
  rcases h with h | ⟨s', h⟩
  · exact absurd (h ' ' rfl) (by decide)
  · exact (List.cons.inj (List.cons.inj h).2).1

/-! ## Words of a text -/

def Plain (s : List Char) : Prop := ∀ x ∈ s, x ≠ ' ' ∧ x ≠ ')' ∧ x ≠ '('

theorem plain_inj : ∀ {s s' r r' : List Char}, Plain s → Plain s' → Breaks r → Breaks r' →
    s ++ r = s' ++ r' → s = s' ∧ r = r'
  | [], [], _, _, _, _, _, _, h => ⟨rfl, h⟩
  | [], x :: s', r, r', _, hs', hr, _, h => by
    have hx := hr x (by rw [show r = x :: (s' ++ r') from h]; rfl)
    have := hs' x mem_cons_self
    tauto
  | x :: s, [], r, r', hs, _, _, hr', h => by
    have hx := hr' x (by rw [show r' = x :: (s ++ r) from h.symm]; rfl)
    have := hs x mem_cons_self
    tauto
  | x :: s, y :: s', r, r', hs, hs', hr, hr', h => by
    rw [cons_append, cons_append, List.cons.injEq] at h
    obtain ⟨rfl, h⟩ := h
    obtain ⟨rfl, hr⟩ := plain_inj (fun z hz => hs z (mem_cons_of_mem _ hz))
      (fun z hz => hs' z (mem_cons_of_mem _ hz)) hr hr' h
    exact ⟨rfl, hr⟩

theorem plain_ne_open (hs : Plain s) (hr : Breaks r) : s ++ r ≠ '(' :: s' := by
  intro h
  cases s with
  | nil => exact absurd (hr '(' (by rw [show r = '(' :: s' from h]; rfl)) (by decide)
  | cons x s =>
    rw [cons_append, List.cons.injEq] at h
    exact (hs x mem_cons_self).2.2 h.1

theorem numeral_ofNat (n : Nat) : numeral n = Nat.toDigits 10 n := by
  rw [numeral, show toString (n : Int) = n.repr from rfl, Nat.repr_eq_ofList_toDigits, String.toList_ofList]

theorem numeral_negSucc (n : Nat) : numeral (.negSucc n) = '-' :: Nat.toDigits 10 (n + 1) := by
  rw [← numeral_ofNat, numeral, show toString (Int.negSucc n) = "-" ++ toString (n + 1) from rfl,
    String.toList_append]
  rfl

theorem isDigit_of_mem (h : x ∈ Nat.toDigits 10 n) : x.isDigit = true :=
  Nat.isDigit_of_mem_toDigits (by decide) (by decide) h

theorem mem_numeral : ∀ {n : Int}, x ∈ numeral n → x = '-' ∨ x.isDigit = true
  | .ofNat n, h => .inr (isDigit_of_mem (numeral_ofNat n ▸ h))
  | .negSucc n, h => (mem_cons.mp (numeral_negSucc n ▸ h)).imp id isDigit_of_mem

theorem plain_numeral (n : Int) : Plain (numeral n) := by
  intro x hx
  rcases mem_numeral hx with rfl | hd
  · decide
  · refine ⟨?_, ?_, ?_⟩ <;> (rintro rfl; revert hd; decide)

theorem toDigits_inj {m n : Nat} (h : Nat.toDigits 10 m = Nat.toDigits 10 n) : m = n := by
  rw [← Nat.ofDigitChars_ten_toDigits (n := m), h, Nat.ofDigitChars_ten_toDigits]

theorem numeral_inj {m n : Int} (h : numeral m = numeral n) : m = n := by
  have hsign (m n : Nat) : Nat.toDigits 10 m ≠ '-' :: Nat.toDigits 10 (n + 1) := by
    intro h
    exact absurd (isDigit_of_mem (n := m) (h ▸ mem_cons_self)) (by decide)
  cases m with
  | ofNat m =>
    cases n with
    | ofNat n => rw [toDigits_inj ((numeral_ofNat m).symm.trans (h.trans (numeral_ofNat n)))]
    | negSucc n => exact absurd ((numeral_ofNat m).symm.trans (h.trans (numeral_negSucc n))) (hsign m n)
  | negSucc m =>
    cases n with
    | ofNat n => exact absurd ((numeral_ofNat n).symm.trans (h.symm.trans (numeral_negSucc m))) (hsign n m)
    | negSucc n =>
      rw [numeral_negSucc, numeral_negSucc, List.cons.injEq] at h
      rw [Nat.succ.inj (toDigits_inj h.2)]

theorem numeral_append_inj {m n : Int} (hr : Follows r) (hr' : Follows r') (h : numeral m ++ r = numeral n ++ r') :
    m = n ∧ r = r' :=
  (plain_inj (plain_numeral m) (plain_numeral n) hr.breaks hr'.breaks h).imp numeral_inj id

theorem text_dim (i : Nat) : (dim i).text = 'd' :: numeral i := by
  rw [text, render, String.toList_append]
  rfl

theorem plain_atom (h : e.isAtom = true) : Plain e.text := by
  cases e with
  | dim i =>
    rw [text_dim]
    exact forall_mem_cons.mpr ⟨by decide, plain_numeral i⟩
  | const n => exact plain_numeral n
  | _ => cases h

theorem atom_inj (ha : a.isAtom = true) (hb : b.isAtom = true) (h : a.text = b.text) : a = b := by
  have hd (i : Nat) (n : Int) : (dim i).text ≠ (const n).text := by
    intro h
    have : 'd' ∈ numeral n := by
      rw [show numeral n = (const n).text from rfl, ← h, text_dim]
      exact mem_cons_self
    exact absurd (mem_numeral this) (by decide)
  cases a <;> cases b <;> cases ha <;> cases hb
  · rw [text_dim, text_dim, List.cons.injEq] at h
    rw [Int.ofNat.inj (numeral_inj h.2)]
  · exact absurd h (hd _ _)
  · exact absurd h.symm (hd _ _)
  · rw [numeral_inj h]

/-! ## Reading a text from the left -/

def Bracketed (a : Expr) : Prop := ∀ b r r', Breaks r → Breaks r' → a.operand ++ r = b.operand ++ r' →
  Alike a b ∧ r = r'

/-- Where a summand ends can be told from its text and what follows. -/
def Delimited (t : Expr) : Prop := ∀ u r r', u.isSum = false → Follows r → Follows r' →
  t.text ++ r = u.text ++ r' → Alike t u ∧ r = r'

theorem follows_sumText (ts : List Expr) (h : Ends r) : Follows (sumText ts ++ r) := by
  cases ts with
  | nil => exact .inl h
  | cons t ts => exact .inr ⟨_, rfl⟩

theorem sumText_inj (hl : Ends r) (hr : Ends r') : ∀ {ts us : List Expr}, (∀ t ∈ ts, Delimited t) →
    (∀ u ∈ us, u.isSum = false) → sumText ts ++ r = sumText us ++ r' → Forall₂ Alike ts us ∧ r = r'
  | [], [], _, _, h => ⟨.nil, h⟩
  | [], u :: us, _, _, h => absurd (hl ' ' (by rw [show r = _ from h]; rfl)) (by decide)
  | t :: ts, [], _, _, h => absurd (hr ' ' (by rw [show r' = _ from h.symm]; rfl)) (by decide)
  | t :: ts, u :: us, ht, hu, h => by
    rw [forall_mem_cons] at ht hu
    have h : t.text ++ (sumText ts ++ r) = u.text ++ (sumText us ++ r') := by simpa [sumText] using h
    obtain ⟨htu, h⟩ := ht.1 u _ _ hu.1 (follows_sumText ts hl) (follows_sumText us hr) h
    obtain ⟨hall, hrest⟩ := sumText_inj hl hr ht.2 hu.2 h
    exact ⟨.cons htu hall, hrest⟩

theorem text_inj (ha : ∀ t ∈ a.summands, Delimited t) (hr : Ends r) (hr' : Ends r')
    (h : a.text ++ r = b.text ++ r') : Alike a b ∧ r = r' := by
  have h : sumText a.summands ++ r = sumText b.summands ++ r' := by
    rw [sumText_summands, sumText_summands, append_assoc, h, append_assoc]
  obtain ⟨hall, hrest⟩ := sumText_inj hr hr' ha (fun u => isSum_of_mem_summands) h
  exact ⟨alike_of_summands hall, hrest⟩

theorem bracketed (ha : a.isAtom = false → ∀ t ∈ a.summands, Delimited t) : Bracketed a := by
  intro b r r' hr hr' h
  cases hatom : a.isAtom <;> cases hatom' : b.isAtom
  · rw [operand_group hatom, operand_group hatom', cons_append, cons_append, append_assoc,
      append_assoc, List.cons.injEq] at h
    obtain ⟨hab, hrest⟩ := text_inj (ha hatom) (by simp [Ends]) (by simp [Ends]) h.2
    exact ⟨hab, append_cancel_left hrest⟩
  · rw [operand_group hatom, operand_atom hatom'] at h
    exact absurd h.symm (plain_ne_open (plain_atom hatom') hr')
  · rw [operand_atom hatom, operand_group hatom'] at h
    exact absurd h (plain_ne_open (plain_atom hatom) hr)
  · rw [operand_atom hatom, operand_atom hatom'] at h
    obtain ⟨htext, hrest⟩ := plain_inj (plain_atom hatom) (plain_atom hatom') hr hr' h
    exact ⟨fun dims => by rw [atom_inj hatom hatom' htext], hrest⟩

theorem breaks_parts (t : Expr) (h : Follows r) : Breaks (t.parts.2 ++ r) := by
  cases t with
  | dim | const | add => exact h.breaks
  | mul | floorDiv | mod => simp [parts, Breaks]

theorem delimited_of_parts (ht : t.isSum = false) (hb : Bracketed t.parts.1)
    (hrest : ∀ u r r', u.isSum = false → Follows r → Follows r' → Alike t.parts.1 u.parts.1 →
      t.parts.2 ++ r = u.parts.2 ++ r' → Alike t u ∧ r = r') : Delimited t := by
  intro u r r' hu hr hr' h
  rw [text_term ht, text_term hu, append_assoc, append_assoc] at h
  obtain ⟨halike, h⟩ := hb _ _ _ (breaks_parts t hr) (breaks_parts u hr') h
  exact hrest u r r' hu hr hr' halike h

theorem delimited (e : Expr) : ∀ t ∈ e.summands, Delimited t := by
  induction e with
  | add a b iha ihb => exact forall_mem_append.mpr ⟨iha, ihb⟩
  | dim | const =>
    refine forall_mem_singleton.mpr (delimited_of_parts rfl (bracketed nofun) fun u r r' hu hr hr' hhead h => ?_)
    cases u with
    | dim | const => exact ⟨hhead, h⟩
    | add => cases hu
    | mul | floorDiv | mod =>
      simp [parts] at h
      exact absurd (hr.eq_plus h) (by decide)
  | mul a b iha ihb =>
    refine forall_mem_singleton.mpr (delimited_of_parts rfl (bracketed fun _ => iha) fun u r r' hu hr hr' hhead h => ?_)
    cases u with
    | dim | const =>
      simp [parts] at h
      exact absurd (hr'.eq_plus h.symm) (by decide)
    | add => cases hu
    | mul c d =>
      obtain ⟨hbd, hrest⟩ := bracketed (fun _ => ihb) d r r' hr.breaks hr'.breaks (by simpa [parts] using h)
      exact ⟨hhead.mul hbd, hrest⟩
    | floorDiv | mod => simp [parts] at h
  | floorDiv a n iha =>
    refine forall_mem_singleton.mpr (delimited_of_parts rfl (bracketed fun _ => iha) fun u r r' hu hr hr' hhead h => ?_)
    cases u with
    | dim | const =>
      simp [parts] at h
      exact absurd (hr'.eq_plus h.symm) (by decide)
    | add => cases hu
    | floorDiv c m =>
      obtain ⟨rfl, hrest⟩ := numeral_append_inj hr hr' (by simpa [parts] using h)
      exact ⟨hhead.floorDiv n, hrest⟩
    | mul | mod => simp [parts] at h
  | mod a n iha =>
    refine forall_mem_singleton.mpr (delimited_of_parts rfl (bracketed fun _ => iha) fun u r r' hu hr hr' hhead h => ?_)
    cases u with
    | dim | const =>
      simp [parts] at h
      exact absurd (hr'.eq_plus h.symm) (by decide)
    | add => cases hu
    | mod c m =>
      obtain ⟨rfl, hrest⟩ := numeral_append_inj hr hr' (by simpa [parts] using h)
      exact ⟨hhead.mod n, hrest⟩
    | mul | floorDiv => simp [parts] at h

/-- Expressions with the same text have the same values, or no value for the same dimensions. -/
theorem eval_of_render_eq (h : e.render = e'.render) (dims : List Int) :
    (e.eval dims).toOption = (e'.eval dims).toOption := by
  have hnil : Ends [] := by simp [Ends]
  exact (text_inj (delimited e) hnil hnil (by rw [text, h, text])).1 dims

/-- Differently grouped sums inside and outside of parentheses, which wrap at different places. -/
theorem eval_of_render_eq_regrouped : ∃ e e' : Expr, e ≠ e' ∧ e.render = e'.render ∧
    (e.eval [9223372036854775807]).toOption = (e'.eval [9223372036854775807]).toOption := by
  let sum (a b c : Expr) := (add a b).add c
  let sum' (a b c : Expr) := add a (b.add c)
  let d : Expr := dim 0
  exact ⟨mul (sum d d (const (-3))) (const 2), mul (sum' d d (const (-3))) (const 2), by decide, by rfl,
    eval_of_render_eq (by rfl) _⟩

end Affine.Expr

end Offload
