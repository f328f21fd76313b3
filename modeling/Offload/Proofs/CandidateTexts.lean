import Offload.Proofs.AffineText
import Offload.Proofs.Choices

/-!
# Candidates as text

Candidates that are written, with or without blanks around shapes and extents, are read as they were. What is read
from any text can be written and read again.
-/

namespace Offload

open List

open Affine.Expr (numeral)

variable {cs : List (List Int)} {n : Int} {parts : List (List Char)}

namespace Text

variable {s t : List Char} {c : Char}

/-! ## Numerals -/

theorem le_ofDigitChars : ∀ (cs : List Char) (n : Nat), n ≤ Nat.ofDigitChars 10 cs n
  | [], n => Nat.le_refl n
  | c :: cs, n => by
    have h := le_ofDigitChars cs (10 * n + (c.toNat - '0'.toNat))
    rw [Nat.ofDigitChars_cons]
    omega

/-- The value grows with every digit, so no digit is refused if the last value fits. -/
theorem scanDigits_eq : ∀ {cs : List Char} {n : Nat}, (∀ c ∈ cs, c.isDigit = true) →
    Nat.ofDigitChars 10 cs n < 18446744073709551616 → scanDigits cs n = .ok (Nat.ofDigitChars 10 cs n)
  | [], n, _, _ => rfl
  | c :: cs, n, hd, h => by
    obtain ⟨hc, hd⟩ := forall_mem_cons.mp hd
    rw [Nat.ofDigitChars_cons, Nat.mul_comm] at h ⊢
    have hle := le_ofDigitChars cs (n * 10 + (c.toNat - '0'.toNat))
    rw [scanDigits, if_pos hc]
    dsimp only
    rw [if_pos (by omega), scanDigits_eq hd h]

theorem parseInt_cons (hc : c.isDigit = true) (s : List Char) : parseInt (c :: s) =
    (scanDigits (c :: s) 0).bind fun n => if n < 9223372036854775808 then .ok (n : Int) else .error .outOfRange := by
  unfold parseInt
  split
  rename_i hsign
  split at hsign
  · simp_all
  · simp_all
  · cases hsign
    rfl

theorem parseInt_numeral (h0 : 0 < n) (h : Word.InRange n) : parseInt (numeral n) = .ok n := by
  obtain ⟨m, rfl⟩ := Int.eq_ofNat_of_zero_le h0.le
  have hm : m < 9223372036854775808 := by exact_mod_cast h.2
  obtain ⟨c, cs, hcs⟩ := exists_cons_of_ne_nil (Nat.toDigits_ne_nil (n := m) (b := 10))
  have hd : ∀ x ∈ c :: cs, x.isDigit = true := fun x hx => Affine.Expr.isDigit_of_mem (hcs ▸ hx)
  have hvalue : Nat.ofDigitChars 10 (c :: cs) 0 = m := hcs ▸ Nat.ofDigitChars_ten_toDigits
  rw [Affine.Expr.numeral_ofNat, hcs, parseInt_cons (hd c mem_cons_self), scanDigits_eq hd (by omega), hvalue]
  exact if_pos hm

theorem not_mem_numeral (h : c ≠ '-' ∧ c.isDigit = false) : c ∉ numeral n := fun hm => by
  rcases Affine.Expr.mem_numeral hm with rfl | hd
  · exact h.1 rfl
  · simp [h.2] at hd

theorem not_blank_of_mem_numeral (h : c ∈ numeral n) : isBlank c = false := by
  rcases Affine.Expr.mem_numeral h with rfl | hd
  · decide
  · obtain ⟨h0, h9⟩ : 48 ≤ c.toNat ∧ c.toNat ≤ 57 := Char.isDigit_iff_toNat.mp hd
    simp [isBlank, blankRanges]
    omega

theorem trim_numeral (n : Int) : trim (numeral n) = numeral n :=
  trim_eq_self ⟨fun _ hc => not_blank_of_mem_numeral (mem_of_mem_head? hc),
    fun _ hc => not_blank_of_mem_numeral (mem_of_mem_getLast? hc)⟩

/-! ## Blanks and separators -/

def Padded (s t : List Char) : Prop := ∃ l r, Blanks l ∧ Blanks r ∧ t = l ++ s ++ r

theorem Padded.refl (s : List Char) : Padded s s := ⟨[], [], blanks_nil, blanks_nil, by simp⟩

theorem Padded.trim_eq (h : Padded s t) : trim t = trim s := by
  obtain ⟨l, r, hl, hr, rfl⟩ := h
  exact trim_pad hl hr s

theorem Padded.not_mem (h : Padded s t) (hc : isBlank c = false) (hs : c ∉ s) : c ∉ t := by
  obtain ⟨l, r, hl, hr, rfl⟩ := h
  simp [hs, hl.not_mem hc, hr.not_mem hc]

/-- Blanks at the ends of a text are at the ends of its first and its last part. -/
theorem Padded.map_trim_split {sep : Char} (hsep : isBlank sep = false) {s t : List Char} (h : Padded s t) :
    (split sep t).map trim = (split sep s).map trim := by
  obtain ⟨l, r, hl, hr, rfl⟩ := h
  by_cases hs : sep ∈ s
  · obtain ⟨a, b, rfl, ha⟩ := eq_append_cons_of_mem hs
    have hb : Padded b (b ++ r) := ⟨[], r, blanks_nil, hr, rfl⟩
    rw [show l ++ (a ++ sep :: b) ++ r = (l ++ a) ++ sep :: (b ++ r) by simp,
      split_append sep _ (by simp [ha, hl.not_mem hsep]), split_append sep b ha, map_cons, map_cons,
      trim_append_left hl, hb.map_trim_split hsep]
  · rw [split_of_not_mem sep hs, split_of_not_mem sep (Padded.not_mem ⟨l, r, hl, hr, rfl⟩ hsep hs), map_singleton,
      trim_pad hl hr, map_singleton]
termination_by s.length

end Text

namespace Distribution

open Text

/-! ## Written candidates -/

/-- The texts of a shape: its extents with an `x` between them, and blanks around each and around all of them. -/
def ShapeText (extents : List Int) (text : List Char) : Prop :=
  ∃ parts, Forall₂ (fun e => Padded (toString e).toList) extents parts ∧ Padded (['x'].intercalate parts) text

def CandidatesText (cs : List (List Int)) (text : String) : Prop :=
  ∃ parts, Forall₂ ShapeText cs parts ∧ text.toList = [','].intercalate parts

variable {extents : List Int} {text : List Char}

theorem map_eq_map_iff {α β γ : Type} {f : α → γ} {g : β → γ} {l : List α} {l' : List β} :
    l.map f = l'.map g ↔ Forall₂ (fun a b => f a = g b) l l' := by
  rw [← forall₂_eq_eq_eq, forall₂_map_left_iff, forall₂_map_right_iff]

theorem not_mem_extent {c : Char} (h : Forall₂ (fun e : Int => Padded (toString e).toList) extents parts)
    (hc : isBlank c = false ∧ c ≠ '-' ∧ c.isDigit = false) : ∀ part ∈ parts, c ∉ part :=
      fun part hpart => by
  obtain ⟨e, -, he⟩ := forall₂_mem_right h hpart
  exact he.not_mem hc.1 (not_mem_numeral hc.2)

theorem ShapeText.not_mem (h : ShapeText extents text) : ',' ∉ text := by
  obtain ⟨parts, hparts, htext⟩ := h
  exact htext.not_mem (by decide) (not_mem_intercalate (by decide) (not_mem_extent hparts (by decide)))

theorem ShapeText.parseExtents_eq (h : ShapeText extents text) (hp : Proper extents) :
    parseExtents (trim text) = some extents := by
  obtain ⟨parts, hparts, htext⟩ := h
  have hne : parts ≠ [] := fun hnil => hp.nonempty (forall₂_nil_right_iff.mp (hnil ▸ hparts))
  have hfree : ∀ part ∈ parts, 'x' ∉ part := not_mem_extent hparts (by decide)
  have hnumerals : (split 'x' (trim text)).map trim = extents.map numeral := by
    rw [← Padded.map_trim_split (by decide) (exists_trim text), htext.map_trim_split (by decide),
      split_intercalate _ hne hfree, map_eq_map_iff]
    exact hparts.flip.imp fun part e he => (Padded.trim_eq he).trans (trim_numeral e)
  rw [parseExtents, mapM_eq_some_iff, map_eq_map_iff]
  refine forall₂_imp_of_mem (map_eq_map_iff.mp hnumerals) fun part _ e he hpart => ?_
  rw [hpart, parseInt_numeral (hp.positive e he) (hp.inRange e he)]
  exact if_pos (hp.positive e he)

theorem parseParts_eq (h : Forall₂ ShapeText cs parts)
    (hp : ∀ extents ∈ cs, Proper extents) : parseParts parts = .ok cs := by
  induction h with
  | nil => rfl
  | @cons extents text cs parts htext _ ih =>
    obtain ⟨hextents, hp⟩ := forall_mem_cons.mp hp
    have hread := htext.parseExtents_eq hextents
    have hne : (trim text).isEmpty = false := by
      rw [isEmpty_eq_false_iff]
      intro hnil
      rw [hnil] at hread
      cases hread
    simp only [parseParts, hne, hread, ih hp]
    rfl

theorem candidatesText_render (cs : List (List Int)) : CandidatesText cs (renderCandidates cs) := by
  refine ⟨cs.map fun extents => (renderDims extents).toList, ?_, ?_⟩
  · rw [forall₂_map_right_iff, forall₂_same]
    refine fun extents _ => ⟨extents.map numeral, ?_, ?_⟩
    · rw [forall₂_map_right_iff, forall₂_same]
      exact fun e _ => .refl _
    · rw [renderDims, String.toList_intercalate, map_map]
      exact .refl _
  · rw [renderCandidates, String.toList_intercalate, map_map]
    rfl

theorem CandidatesText.parseCandidates_eq {text : String} (h : CandidatesText cs text)
    (hne : cs ≠ []) (hp : ∀ extents ∈ cs, Proper extents) : parseCandidates text = .ok cs := by
  obtain ⟨parts, hparts, htext⟩ := h
  have hsplit : split ',' text.toList = parts := split_eq_iff.mpr
    ⟨fun hnil => hne (forall₂_nil_right_iff.mp (hnil ▸ hparts)), fun part hpart => by
      obtain ⟨extents, -, hshape⟩ := forall₂_mem_right hparts hpart
      exact hshape.not_mem, htext⟩
  obtain ⟨extents, cs, rfl⟩ := exists_cons_of_ne_nil hne
  rw [parseCandidates, hsplit, parseParts_eq hparts hp]
  rfl

/-- Every list of candidates is read from each text that is written for it, and every list that is read from some
text is read again from the text that is written for it without blanks. -/
theorem parseCandidates_roundTrip :
    (∀ cs, cs ≠ [] → (∀ extents ∈ cs, Proper extents) → CandidatesText cs (renderCandidates cs) ∧
      ∀ text, CandidatesText cs text → parseCandidates text = .ok cs) ∧
    ∀ text cs, parseCandidates text = .ok cs → cs ≠ [] ∧ (∀ extents ∈ cs, Proper extents) ∧
      parseCandidates (renderCandidates cs) = .ok cs := by
  refine ⟨fun cs hne hp => ⟨candidatesText_render cs, fun text h => h.parseCandidates_eq hne hp⟩,
    fun text cs h => ?_⟩
  obtain ⟨hne, hp⟩ := parseCandidates_ok h
  exact ⟨hne, hp, (candidatesText_render cs).parseCandidates_eq hne hp⟩

/-- Blanks and the largest extent in a text that is written; a sign, a zero and empty parts in one that is read. -/
theorem parseCandidates_roundTrip_spaced :
    CandidatesText [[4, 9223372036854775807], [8]] "\t 4\t x9223372036854775807,8\t " ∧
    parseCandidates "\t 4\t x9223372036854775807,8\t " = .ok [[4, 9223372036854775807], [8]] ∧
    parseCandidates ", +4x016 ,," = .ok [[4, 16]] ∧ parseCandidates (renderCandidates [[4, 16]]) = .ok [[4, 16]] := by
  have hp : ∀ extents ∈ [[4, 9223372036854775807], [8]], Proper extents := by
    simp only [forall_mem_cons]
    exact ⟨⟨by decide, by decide, by simp [Word.InRange]⟩,
      ⟨by decide, by decide, by simp [Word.InRange]⟩, nofun⟩
  have hb : Blanks ['\t', ' '] := by simp [isBlank, blankRanges]
  have htext : CandidatesText [[4, 9223372036854775807], [8]] "\t 4\t x9223372036854775807,8\t " :=
    ⟨["\t 4\t x9223372036854775807".toList, "8\t ".toList],
      .cons ⟨["\t 4\t ".toList, "9223372036854775807".toList],
          .cons ⟨['\t', ' '], ['\t', ' '], hb, hb, rfl⟩ (.cons (.refl _) .nil), .refl _⟩
        (.cons ⟨["8".toList], .cons (.refl _) .nil, [], ['\t', ' '], blanks_nil, hb, rfl⟩ .nil), rfl⟩
  have hread : parseCandidates ", +4x016 ,," = .ok [[4, 16]] := by decide
  exact ⟨htext, (parseCandidates_roundTrip.1 _ (by simp) hp).2 _ htext, hread,
    (parseCandidates_roundTrip.2 _ _ hread).2.2⟩

end Distribution

end Offload
