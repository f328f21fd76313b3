import Mathlib.Data.List.DropRight
import Offload.Pass.Pipeline
import Offload.Proofs.Writing

/-!
# The grammar of pipelines

The texts that the reader of pipelines accepts, told without reference to how they are read: a pipeline is blank,
or items between commas; an item is a name, with or without options in braces.
-/

namespace Offload.Text

open List

variable {sep : Char}
variable {s t l r a b : List Char} {c : Char}

/-! ## Blanks at the ends -/

def Blanks (s : List Char) : Prop := ∀ c ∈ s, isBlank c = true

@[simp] theorem blanks_nil : Blanks [] := nofun

@[simp] theorem blanks_cons : Blanks (c :: s) ↔ isBlank c = true ∧ Blanks s := forall_mem_cons

@[simp] theorem blanks_append : Blanks (s ++ t) ↔ Blanks s ∧ Blanks t := forall_mem_append

@[simp] theorem isBlank_comma : isBlank ',' = false := by decide

@[simp] theorem isBlank_equals : isBlank '=' = false := by decide

@[simp] theorem isBlank_brace : isBlank '\x7b' = false ∧ isBlank '\x7d' = false := by decide

theorem Blanks.not_mem (h : Blanks s) (hc : isBlank c = false) : c ∉ s := fun hm => by simp [h c hm] at hc

structure Trimmed (s : List Char) : Prop where
  first : ∀ c ∈ s.head?, isBlank c = false
  last : ∀ c ∈ s.getLast?, isBlank c = false

theorem trim_eq_self (h : Trimmed s) : trim s = s := by
  have hfirst : s.dropWhile isBlank = s := by
    cases s with
    | nil => rfl
    | cons c s => rw [dropWhile_cons, h.first c rfl, if_neg Bool.false_ne_true]
  have hlast : s.rdropWhile isBlank = s :=
    rdropWhile_eq_self_iff.mpr fun hne => Bool.not_eq_true _ ▸ h.last _ (getLast?_eq_some_getLast hne)
  rw [trim, hfirst]
  exact hlast

theorem trimmed_trim (s : List Char) : Trimmed (trim s) := by
  have hsub : trim s <+: s.dropWhile isBlank := rdropWhile_prefix isBlank _
  refine ⟨fun c hc => ?_, fun c hc => ?_⟩
  · obtain ⟨r, hr⟩ := hsub
    have hhead : (s.dropWhile isBlank).head? = some c := by
      rw [← hr, head?_append, Option.mem_def.mp hc]
      rfl
    have hnot := head?_dropWhile_not isBlank s
    rwa [hhead] at hnot
  · obtain ⟨hne, rfl⟩ := mem_getLast?_eq_getLast hc
    exact Bool.not_eq_true _ ▸ rdropWhile_last_not isBlank _ hne

theorem exists_trim (s : List Char) : ∃ l r, Blanks l ∧ Blanks r ∧ s = l ++ trim s ++ r := by
  refine ⟨s.takeWhile isBlank, (s.dropWhile isBlank).rtakeWhile isBlank, fun c hc => mem_takeWhile_imp hc,
    fun c hc => mem_rtakeWhile_imp hc, ?_⟩
  rw [append_assoc, show trim s = (s.dropWhile isBlank).rdropWhile isBlank from rfl,
    rdropWhile_append_rtakeWhile, takeWhile_append_dropWhile]

theorem trim_pad (hl : Blanks l) (hr : Blanks r) (s : List Char) : trim (l ++ s ++ r) = trim s := by
  have hsuffix : ∀ u : List Char, (u ++ r).rdropWhile isBlank = u.rdropWhile isBlank := fun u => by
    simp only [List.rdropWhile, reverse_append]
    rw [dropWhile_append_of_pos fun c hc => hr c (mem_reverse.mp hc)]
  show List.rdropWhile isBlank _ = List.rdropWhile isBlank _
  rw [append_assoc, dropWhile_append_of_pos hl, dropWhile_append]
  split
  · rename_i hs
    rw [List.isEmpty_iff] at hs
    rw [hs, dropWhile_eq_nil_iff.mpr hr]
  · exact hsuffix _

theorem trim_append_left (hl : Blanks l) (s : List Char) : trim (l ++ s) = trim s := by
  simpa using trim_pad hl blanks_nil s

theorem trim_append_right (hr : Blanks r) (s : List Char) : trim (s ++ r) = trim s := by
  simpa using trim_pad blanks_nil hr s

theorem trim_eq_nil_iff : trim s = [] ↔ Blanks s := by
  obtain ⟨l, r, hl, hr, hs⟩ := exists_trim s
  constructor
  · intro h
    rw [hs, h]
    simp [hl, hr]
  · intro h
    simpa [trim] using trim_append_left h []

theorem mem_of_mem_trim (h : c ∈ trim s) : c ∈ s :=
  (dropWhile_suffix isBlank).subset ((List.rdropWhile_prefix isBlank _).subset h)

theorem mem_trim_iff (hc : isBlank c = false) : c ∈ trim s ↔ c ∈ s := by
  obtain ⟨l, r, hl, hr, hs⟩ := exists_trim s
  rw [hs, trim_pad hl hr, trim_eq_self (trimmed_trim s)]
  simp [hl.not_mem hc, hr.not_mem hc]

theorem cut_pad (hl : Blanks l) (hr : Blanks r) (hc : isBlank c = false) (h : l ++ s ++ r = a ++ c :: b) :
    ∃ a' b', s = a' ++ c :: b' ∧ a = l ++ a' ∧ b = b' ++ r := by
  rcases append_eq_append_iff.mp h with ⟨x, -, hx⟩ | ⟨x, hx, hb⟩
  · exact absurd (hx ▸ by simp) (hr.not_mem hc)
  rcases x with _ | ⟨d, x⟩
  · exact absurd (nil_append r ▸ hb ▸ mem_cons_self) (hr.not_mem hc)
  obtain ⟨rfl, rfl⟩ := List.cons.inj hb
  rcases append_eq_append_iff.mp hx with ⟨y, rfl, hs⟩ | ⟨y, rfl, hs⟩
  · exact ⟨y, x, hs, rfl, rfl⟩
  rcases y with _ | ⟨d, y⟩
  · exact ⟨[], x, hs.symm, by simp, rfl⟩
  · obtain ⟨rfl, -⟩ := List.cons.inj hs
    exact absurd (by simp) (hl.not_mem hc)

/-! ## Separators -/

theorem not_mem_split (sep : Char) : ∀ (s : List Char), ∀ part ∈ split sep s, sep ∉ part
  | [] => by simp [split]
  | c :: cs => by
    have ih := not_mem_split sep cs
    rw [split]
    by_cases hc : c = sep
    · rw [if_pos hc]
      exact forall_mem_cons.mpr ⟨not_mem_nil, ih⟩
    · rw [if_neg hc]
      cases hs : split sep cs with
      | nil => simpa using fun h : sep = c => hc h.symm
      | cons part rest =>
        rw [hs] at ih
        refine forall_mem_cons.mpr ⟨fun h => ?_, fun x hx => ih x (mem_cons_of_mem _ hx)⟩
        rcases mem_cons.mp h with h | h
        · exact hc h.symm
        · exact ih part mem_cons_self h

theorem intercalate_split (sep : Char) : ∀ s : List Char, split sep s ≠ [] ∧ [sep].intercalate (split sep s) = s
  | [] => ⟨by simp [split], rfl⟩
  | c :: cs => by
    obtain ⟨hne, ih⟩ := intercalate_split sep cs
    obtain ⟨part, rest, hs⟩ := exists_cons_of_ne_nil hne
    rw [split]
    by_cases hc : c = sep
    · rw [if_pos hc, hs, intercalate_cons_cons, ← hs, ih, hc]
      exact ⟨by simp, rfl⟩
    · rw [if_neg hc, hs]
      rw [hs] at ih
      refine ⟨by simp, ?_⟩
      cases rest with
      | nil => rw [← ih, intercalate_singleton, intercalate_singleton]
      | cons next rest => rw [← ih, intercalate_cons_cons, intercalate_cons_cons, cons_append, cons_append]

theorem subset_intercalate : ∀ {parts : List (List Char)}, s ∈ parts → s ⊆ [sep].intercalate parts
  | [part], h => by simpa [List.intercalate] using mem_singleton.mp h ▸ List.Subset.refl s
  | part :: next :: rest, h => by
    rw [intercalate_cons_cons]
    rcases mem_cons.mp h with rfl | h
    · exact fun c hc => by simp [hc]
    · exact fun c hc => mem_append_right _ (subset_intercalate h hc)

theorem not_mem_intercalate (hc : c ≠ sep) : ∀ {parts : List (List Char)}, (∀ part ∈ parts, c ∉ part) →
    c ∉ [sep].intercalate parts
  | [], _ => by simp
  | [part], h => by simpa using h
  | part :: next :: rest, h => by
    obtain ⟨hpart, hrest⟩ := forall_mem_cons.mp h
    simpa [intercalate_cons_cons, hc, hpart] using not_mem_intercalate hc hrest

theorem split_append (sep : Char) (t : List Char) : ∀ {s : List Char}, sep ∉ s →
    split sep (s ++ sep :: t) = s :: split sep t
  | [], _ => by rw [nil_append, split, if_pos rfl]
  | c :: cs, h => by
    rw [mem_cons, not_or] at h
    rw [cons_append, split, if_neg (Ne.symm h.1), split_append sep t h.2]

theorem split_of_not_mem (sep : Char) : ∀ {s : List Char}, sep ∉ s → split sep s = [s]
  | [], _ => rfl
  | c :: cs, h => by
    rw [mem_cons, not_or] at h
    rw [split, if_neg (Ne.symm h.1), split_of_not_mem sep h.2]

theorem split_intercalate (sep : Char) : ∀ {parts : List (List Char)}, parts ≠ [] →
    (∀ part ∈ parts, sep ∉ part) → split sep ([sep].intercalate parts) = parts
  | [part], _, h => by
    rw [intercalate_singleton]
    exact split_of_not_mem sep (h part mem_cons_self)
  | part :: next :: rest, _, h => by
    rw [intercalate_cons_cons, append_assoc, singleton_append, split_append sep _ (h part mem_cons_self),
      split_intercalate sep (cons_ne_nil _ _) fun x hx => h x (mem_cons_of_mem _ hx)]

theorem split_eq_iff {parts : List (List Char)} : split sep s = parts ↔
    parts ≠ [] ∧ (∀ part ∈ parts, sep ∉ part) ∧ s = [sep].intercalate parts := by
  constructor
  · rintro rfl
    exact ⟨(intercalate_split sep s).1, not_mem_split sep s, (intercalate_split sep s).2.symm⟩
  · rintro ⟨hne, hfree, rfl⟩
    exact split_intercalate sep hne hfree

end Offload.Text

namespace Offload.Pass

open List

open Text (Trimmed trim split Blanks)

variable {a : List Char} {c : Char} {given : List (String × String)} {specs : List Spec}
variable {text rest part : List Char} {spec : Spec} {name : String}

/-! ## Maps of options -/

namespace OptionMap

variable {options : OptionMap}

def Sorted (options : OptionMap) : Prop := (options.map Prod.fst).Pairwise (· < ·)

theorem Sorted.nodup (h : options.Sorted) : (options.map Prod.fst).Nodup :=
  List.Pairwise.imp (fun hlt => fun heq : _ = _ => String.lt_irrefl _ (heq ▸ hlt)) h

/-- The map of what was given one after the other: the last value for a key counts. -/
structure Records (options : OptionMap) (given : List (String × String)) : Prop where
  sorted : options.Sorted
  mem : ∀ o, o ∈ options ↔ given.reverse.lookup o.1 = some o.2

theorem sorted_put (key value : String) : ∀ {options : OptionMap}, options.Sorted →
    (OptionMap.put key value options).Sorted ∧
      ∀ k ∈ (OptionMap.put key value options).map Prod.fst, k = key ∨ k ∈ options.map Prod.fst
  | [], _ => by simp [put, Sorted]
  | (k, v) :: rest, h => by
    obtain ⟨hk, hrest⟩ := pairwise_cons.mp h
    obtain ⟨ihs, ihk⟩ := sorted_put key value hrest
    rw [put]
    by_cases hlt : key < k
    · rw [if_pos hlt]
      refine ⟨pairwise_cons.mpr ⟨fun x hx => ?_, h⟩, by simp⟩
      rcases mem_cons.mp hx with rfl | hx
      · exact hlt
      · exact String.lt_trans hlt (hk x hx)
    · rw [if_neg hlt]
      by_cases heq : key = k
      · subst heq
        rw [if_pos rfl]
        exact ⟨h, by simp⟩
      · rw [if_neg heq]
        refine ⟨pairwise_cons.mpr ⟨fun x hx => ?_, ihs⟩, fun x hx => ?_⟩
        · rcases ihk x hx with rfl | hx
          · grind
          · exact hk x hx
        · rcases mem_cons.mp hx with rfl | hx
          · simp
          · exact (ihk x hx).imp_right fun h => mem_cons_of_mem _ h

theorem mem_put (key value : String) {o : String × String} : ∀ {options : OptionMap}, options.Sorted →
    (o ∈ OptionMap.put key value options ↔ o = (key, value) ∨ (o.1 ≠ key ∧ o ∈ options))
  | [], _ => by simp [put]
  | (k, v) :: rest, h => by
    obtain ⟨hk, hrest⟩ := pairwise_cons.mp h
    have hne : ∀ {x : String}, (∀ k ∈ rest.map Prod.fst, x < k) → o ∈ rest → o.1 ≠ x := fun hx ho he =>
      String.lt_irrefl _ (he ▸ hx _ (mem_map_of_mem ho))
    rw [put]
    split
    · rename_i hlt
      have := hne fun x hx => String.lt_trans hlt (hk x hx)
      grind
    · split
      · have := hne hk
        grind
      · have := mem_put key value (o := o) hrest
        grind

theorem records_putAll : ∀ (given : List (String × String)) {options : OptionMap}, options.Sorted →
    (given.foldl (fun m o => OptionMap.put o.1 o.2 m) options).Sorted ∧ ∀ o,
      o ∈ given.foldl (fun m o => OptionMap.put o.1 o.2 m) options ↔ given.reverse.lookup o.1 = some o.2 ∨
        (given.reverse.lookup o.1 = none ∧ o ∈ options)
  | [], _, h => ⟨h, by simp⟩
  | (key, value) :: given, options, h => by
    obtain ⟨hs, hm⟩ := records_putAll given (sorted_put key value h).1
    refine ⟨hs, fun o => ?_⟩
    rw [foldl_cons, hm o, mem_put _ _ h, reverse_cons, lookup_append, lookup_cons, lookup_nil]
    by_cases ho : o.1 = key
    · cases given.reverse.lookup o.1 <;> simp [ho, Prod.ext_iff, eq_comm]
    · cases given.reverse.lookup o.1 <;> simp [ho, Prod.ext_iff, beq_eq_false_iff_ne.mpr ho]

theorem records_iff : options.Records given ↔
    options = given.foldl (fun m o => OptionMap.put o.1 o.2 m) [] := by
  obtain ⟨hs, hm⟩ := records_putAll given (show Sorted [] from List.Pairwise.nil)
  simp only [not_mem_nil, and_false, or_false] at hm
  constructor
  · intro h
    have hperm := (perm_ext_iff_of_nodup (List.Nodup.of_map _ h.sorted.nodup)
      (List.Nodup.of_map _ hs.nodup)).mpr fun o => (h.mem o).trans (hm o).symm
    refine hperm.eq_of_pairwise (fun a b _ _ hab hba => ?_) (pairwise_map.mp h.sorted) (pairwise_map.mp hs)
    exact absurd (String.lt_trans hab hba) (String.lt_irrefl _)
  · rintro rfl
    exact ⟨hs, hm⟩

end OptionMap

/-! ## The grammar -/

/-- A part of the text in braces, and the options that it gives: none if it is blank. -/
inductive OptionPart : List Char → List (String × String) → Prop
  | blank {part : List Char} : Blanks part → OptionPart part []
  | option {key value : List Char} : '=' ∉ key → ¬ Blanks key → '\x7b' ∉ value →
      OptionPart (key ++ '=' :: value) [(String.ofList (trim key), String.ofList (trim value))]

def OptionsText (text : List Char) (options : OptionMap) : Prop :=
  ∃ parts given, parts ≠ [] ∧ (∀ part ∈ parts, ';' ∉ part) ∧ text = [';'].intercalate parts ∧
    Forall₂ OptionPart parts given ∧ options.Records given.flatten

/-- An item of a pipeline, with blanks around it. -/
inductive Item : List Char → Spec → Prop
  | bare {text : List Char} : ¬ Blanks text → ',' ∉ text → '\x7b' ∉ text →
    Item text ⟨String.ofList (trim text), none⟩
  | braced {head inner tail : List Char} {options : OptionMap} : ¬ Blanks head → ',' ∉ head → '\x7b' ∉ head →
      '\x7d' ∉ inner → OptionsText inner options → Blanks tail →
      Item (head ++ '\x7b' :: (inner ++ '\x7d' :: tail)) ⟨String.ofList (trim head), some options⟩

/-- A pipeline: blank, or items between commas. -/
inductive Pipeline : List Char → List Spec → Prop
  | blank {text : List Char} : Blanks text → Pipeline text []
  | items {items : List (List Char)} {specs : List Spec} : items ≠ [] → Forall₂ Item items specs →
      Pipeline ([','].intercalate items) specs

theorem Pipeline.forall {P : Spec → Prop} (h : Pipeline text specs)
    (hP : ∀ {item spec}, Item item spec → P spec) : ∀ spec ∈ specs, P spec := by
  cases h with
  | blank => exact nofun
  | items _ h =>
    intro spec hs
    obtain ⟨_, -, hi⟩ := forall₂_mem_right h hs
    exact hP hi

/-! ## Reading options -/

theorem span_iff {p : Char → Bool} {a b : List Char} :
    text.takeWhile p = a ∧ text.dropWhile p = c :: b ↔ text = a ++ c :: b ∧ (∀ d ∈ a, p d = true) ∧
      p c = false := by
  constructor
  · rintro ⟨rfl, hd⟩
    refine ⟨by rw [← hd, takeWhile_append_dropWhile], fun d hd => mem_takeWhile_imp hd, ?_⟩
    have hnot := head?_dropWhile_not p text
    rwa [hd] at hnot
  · rintro ⟨rfl, ha, hc⟩
    rw [takeWhile_append_of_pos ha, dropWhile_append_of_pos ha]
    simp [hc]

theorem parseOption_ok {o : String × String} (hfree : '\x7d' ∉ part) : parseOption part = .ok o ↔
    ∃ key value, part = key ++ '=' :: value ∧ '=' ∉ key ∧ ¬ Blanks key ∧ '\x7b' ∉ value ∧
      o = (String.ofList (trim key), String.ofList (trim value)) := by
  constructor
  · intro h
    simp only [parseOption] at h
    split at h
    · cases h
    rename_i c value hd
    obtain ⟨hpart, hkey, hc⟩ := span_iff.mp ⟨rfl, hd⟩
    obtain rfl : c = '=' := by simpa using hc
    split at h
    · cases h
    rename_i hne
    split at h
    · cases h
    rename_i hvalue
    refine ⟨_, value, hpart, fun hm => by simpa using hkey _ hm, fun hb => hne ?_, fun hm => hvalue ?_,
      (Except.ok.inj h).symm⟩
    · rw [Text.trim_eq_nil_iff.mpr hb]
      rfl
    · exact any_eq_true.mpr ⟨_, hm, by simp⟩
  · rintro ⟨key, value, rfl, hkey, hne, hvalue, rfl⟩
    obtain ⟨ht, hd⟩ := span_iff (p := (· ≠ '=')) (c := '=') (b := value).mpr ⟨rfl, fun d (hd : d ∈ key) => by
      simpa using fun he : d = '=' => hkey (he ▸ hd), by simp⟩
    have hany : (value.any fun c => c = '\x7b' || c = '\x7d') = false := by
      rw [any_eq_false]
      intro c hc
      simpa using ⟨fun he : c = _ => hvalue (he ▸ hc), fun he : c = _ => hfree (by simp [he ▸ hc])⟩
    have hempty : (trim key).isEmpty = false := by simpa [Text.trim_eq_nil_iff] using hne
    rw [← Text.trim_eq_nil_iff] at hne
    simp only [parseOption, ht, hd, hempty, hany, Bool.false_eq_true, if_false]

theorem optionPart_iff (hfree : '\x7d' ∉ part) : OptionPart part given ↔
    (Blanks part ∧ given = []) ∨ (¬ Blanks part ∧ ∃ o, parseOption (trim part) = .ok o ∧ given = [o]) := by
  have hfree' : '\x7d' ∉ trim part := fun hm => hfree ((Text.mem_trim_iff (by decide)).mp hm)
  obtain ⟨l, r, hl, hr, hs⟩ := Text.exists_trim part
  constructor
  · rintro (hb | @⟨key, value, hkey, hne, hvalue⟩)
    · exact .inl ⟨hb, rfl⟩
    · obtain ⟨a, b, hab, rfl, rfl⟩ := Text.cut_pad hl hr (by decide) hs.symm
      rw [Text.trim_append_left hl, Text.trim_append_right hr]
      refine .inr ⟨by simp, _, (parseOption_ok hfree').mpr ⟨a, b, hab, ?_, ?_, ?_, rfl⟩, rfl⟩
      · exact fun hm => hkey (by simp [hm])
      · simpa [hl] using hne
      · exact fun hm => hvalue (by simp [hm])
  · rintro (⟨hb, rfl⟩ | ⟨-, o, ho, rfl⟩)
    · exact .blank hb
    · obtain ⟨key, value, hkv, hkey, hne, hvalue, rfl⟩ := (parseOption_ok hfree').mp ho
      have hpart : part = (l ++ key) ++ '=' :: (value ++ r) := by rw [hs, hkv]; simp
      rw [hpart, ← Text.trim_append_left hl, ← Text.trim_append_right hr value]
      refine .option ?_ (by simpa [hl] using hne) ?_
      · simp [hkey, hl.not_mem]
      · simp [hvalue, hr.not_mem]

theorem parseOptionParts_ok : ∀ {parts : List (List Char)} {options result : OptionMap},
    (∀ part ∈ parts, '\x7d' ∉ part) →
    (parseOptionParts options parts = .ok result ↔ ∃ given, Forall₂ OptionPart parts given ∧
      result = given.flatten.foldl (fun m o => OptionMap.put o.1 o.2 m) options)
  | [], options, result, _ => by simp [parseOptionParts, eq_comm (a := options)]
  | part :: parts, options, result, hfree => by
    obtain ⟨hpart, hparts⟩ := forall_mem_cons.mp hfree
    have hempty : (trim part).isEmpty = true ↔ Blanks part := by rw [List.isEmpty_iff, Text.trim_eq_nil_iff]
    simp only [forall₂_cons_left_iff, optionPart_iff hpart, parseOptionParts]
    by_cases hb : Blanks part
    · rw [if_pos (hempty.mpr hb)]
      simp [hb, parseOptionParts_ok hparts]
    · rw [if_neg (hempty.not.mpr hb)]
      cases ho : parseOption (trim part) with
      | error e => simp [hb]
      | ok o => simp [hb, parseOptionParts_ok hparts]

theorem parseOptions_ok {options : OptionMap} (hfree : '\x7d' ∉ text) :
    parseOptions text = .ok options ↔ OptionsText text options := by
  have hparts : ∀ part ∈ split ';' text, '\x7d' ∉ part := fun part hpart hm =>
    hfree ((Text.intercalate_split ';' text).2 ▸ Text.subset_intercalate hpart hm)
  rw [parseOptions, parseOptionParts_ok hparts]
  constructor
  · rintro ⟨given, hgiven, ho⟩
    obtain ⟨hne, hsep, htext⟩ := Text.split_eq_iff.mp (Eq.refl (split ';' text))
    exact ⟨_, given, hne, hsep, htext, hgiven, OptionMap.records_iff.mpr ho⟩
  · rintro ⟨parts, given, hne, hsep, htext, hgiven, ho⟩
    rw [Text.split_eq_iff.mpr ⟨hne, hsep, htext⟩]
    exact ⟨given, hgiven, OptionMap.records_iff.mp ho⟩

/-! ## Reading items -/

namespace Item

theorem not_blanks (h : Item text spec) : ¬ Blanks text := by
  cases h with
  | bare hne => exact hne
  | braced => simp

theorem pad_iff {l r : List Char} (hl : Blanks l) (hr : Blanks r) : Item (l ++ text ++ r) spec ↔ Item text spec := by
  constructor
  · generalize hs : l ++ text ++ r = s
    rintro (⟨hne, hcomma, hbrace⟩ | @⟨head, inner, tail, options, hne, hcomma, hbrace, hinner, ho, htail⟩)
    · subst hs
      rw [Text.trim_pad hl hr]
      simp only [Text.blanks_append, mem_append] at hne hcomma hbrace
      exact .bare (by tauto) (by tauto) (by tauto)
    · obtain ⟨a, b, rfl, rfl, hb⟩ := Text.cut_pad hl hr (by simp) hs
      obtain ⟨inner, tail', rfl, rfl, rfl⟩ := Text.cut_pad Text.blanks_nil hr (by simp) hb.symm
      rw [Text.trim_append_left hl]
      simp only [Text.blanks_append, mem_append] at hne hcomma hbrace htail
      exact .braced (by tauto) (by tauto) (by tauto) hinner ho htail.1
  · rintro (⟨hne, hcomma, hbrace⟩ | @⟨head, inner, tail, options, hne, hcomma, hbrace, hinner, ho, htail⟩)
    · rw [← Text.trim_pad hl hr]
      exact .bare (by simp [hne]) (by simp [hcomma, hl.not_mem, hr.not_mem]) (by simp [hbrace, hl.not_mem, hr.not_mem])
    · have htext : l ++ (head ++ '\x7b' :: (inner ++ '\x7d' :: tail)) ++ r =
          (l ++ head) ++ '\x7b' :: (inner ++ '\x7d' :: (tail ++ r)) := by simp
      rw [htext, ← Text.trim_append_left hl]
      exact .braced (by simp [hne]) (by simp [hcomma, hl.not_mem]) (by simp [hbrace, hl.not_mem]) hinner ho
        (by simp [htail, hr])

end Item

def Reads (text : List Char) (spec : Spec) (rest : List Char) : Prop :=
  (Item text spec ∧ rest = []) ∨
    ∃ item after, text = item ++ ',' :: after ∧ Item item spec ∧ rest = trim after ∧ ¬ Blanks after

theorem reads_trim_iff : Reads (trim text) spec rest ↔ Reads text spec rest := by
  obtain ⟨l, r, hl, hr, hs⟩ := Text.exists_trim text
  refine or_congr (and_congr_left' ?_) ⟨?_, ?_⟩
  · rw [← Item.pad_iff hl hr, ← hs]
  · rintro ⟨item, after, ht, hi, rfl, hb⟩
    refine ⟨l ++ item, after ++ r, by rw [hs, ht]; simp, ?_, (Text.trim_append_right hr _).symm, by simp [hb]⟩
    simpa using (Item.pad_iff hl Text.blanks_nil).mpr hi
  · rintro ⟨item, after, ht, hi, rfl, hb⟩
    obtain ⟨a, b, hab, rfl, rfl⟩ := Text.cut_pad hl hr (by simp) (hs.symm.trans ht)
    refine ⟨a, b, hab, ?_, Text.trim_append_right hr _, by simpa [hr] using hb⟩
    exact (Item.pad_iff hl Text.blanks_nil).mp (by simpa using hi)

theorem parseBraces_ok {options : Option OptionMap} : parseBraces name ('\x7b' :: text) = .ok (options, rest) ↔
    ∃ inner after os, text = inner ++ '\x7d' :: after ∧ '\x7d' ∉ inner ∧ OptionsText inner os ∧
      options = some os ∧ rest = trim after := by
  constructor
  · intro h
    rw [parseBraces] at h
    split at h
    · cases h
    rename_i c after hd
    obtain ⟨htext, hinner, hc⟩ := span_iff.mp ⟨rfl, hd⟩
    obtain rfl : c = '\x7d' := by simpa using hc
    have hfree : '\x7d' ∉ text.takeWhile (· ≠ '\x7d') := fun hm => by simpa using hinner _ hm
    split at h
    · cases h
    rename_i os ho
    cases h
    exact ⟨_, after, os, htext, hfree, (parseOptions_ok hfree).mp ho, rfl, rfl⟩
  · rintro ⟨inner, after, os, rfl, hinner, ho, rfl, rfl⟩
    obtain ⟨ht, hd⟩ := span_iff (p := (· ≠ '\x7d')) (c := '\x7d')
      (b := after).mpr ⟨rfl, fun d (hd : d ∈ inner) => by
      simpa using fun he : d = '\x7d' => hinner (he ▸ hd), by simp⟩
    rw [parseBraces]
    simp only [ht, hd, (parseOptions_ok hinner).mpr ho]

theorem trim_eq_cons_iff {u : List Char} (hc : Text.isBlank c = false) :
    (∃ b, trim text = c :: b ∧ trim b = u) ↔ ∃ l b, Blanks l ∧ text = l ++ c :: b ∧ trim b = u := by
  obtain ⟨l, r, hl, hr, hs⟩ := Text.exists_trim text
  constructor
  · rintro ⟨b, hb, rfl⟩
    exact ⟨l, b ++ r, hl, by rw [hs, hb]; simp, Text.trim_append_right hr b⟩
  · rintro ⟨l', b, hl', ht, rfl⟩
    obtain ⟨x, y, hxy, rfl, rfl⟩ := Text.cut_pad hl hr hc (hs.symm.trans ht)
    refine ⟨y, ?_, (Text.trim_append_right hr y).symm⟩
    -- a trimmed text does not start with blanks
    cases x with
    | nil => exact hxy
    | cons d x =>
      have hd := (Text.trimmed_trim text).first d (by rw [hxy]; rfl)
      simp [hd] at hl'

def inName (c : Char) : Bool := !(decide (c = ',') || decide (c = '\x7b'))

theorem parseSpec_eq_ok_iff : parseSpec text = .ok (spec, rest) ↔ ¬ Blanks (text.takeWhile inName) ∧
    ∃ options after, parseBraces (String.ofList (trim (text.takeWhile inName))) (text.dropWhile inName) =
      .ok (options, after) ∧ spec = ⟨String.ofList (trim (text.takeWhile inName)), options⟩ ∧
      ((after = [] ∧ rest = []) ∨ ∃ r, after = ',' :: r ∧ rest = trim r ∧ ¬ Blanks r) := by
  have hempty : (String.ofList (trim (text.takeWhile inName))).isEmpty = true ↔ Blanks (text.takeWhile inName) := by
    rw [← Text.trim_eq_nil_iff]
    simp
  by_cases hb : Blanks (text.takeWhile inName)
  · simp only [hb, not_true_eq_false, false_and, iff_false]
    exact fun h => nomatch (if_pos (hempty.mpr hb)).symm.trans h
  · simp only [hb, not_false_eq_true, true_and]
    have hspec : parseSpec text = parseBraces (String.ofList (trim (text.takeWhile inName)))
      (text.dropWhile inName) >>= _ :=
      if_neg (hempty.not.mpr hb)
    rw [hspec, except_bind_ok, Prod.exists]
    refine exists_congr fun options => exists_congr fun after => and_congr_right fun _ => ?_
    constructor
    · intro h
      dsimp only at h
      split at h
      · cases h
        exact ⟨rfl, .inl ⟨rfl, rfl⟩⟩
      · split at h
        · cases h
        · rename_i r _ _ hne
          cases h
          exact ⟨rfl, .inr ⟨r, rfl, rfl, fun hb => hne (Text.trim_eq_nil_iff.mpr hb)⟩⟩
      · cases h
    · rintro ⟨rfl, ⟨rfl, rfl⟩ | ⟨r, rfl, rfl, hne⟩⟩
      · rfl
      · rw [← Text.trim_eq_nil_iff] at hne
        cases hr : trim r with
        | nil => exact absurd hr hne
        | cons d u =>
          simp only [hr]
          rfl

theorem forall_inName : (∀ d ∈ a, inName d = true) ↔ ',' ∉ a ∧ '\x7b' ∉ a := by
  simp only [inName, Bool.not_eq_true', Bool.or_eq_false_iff, decide_eq_false_iff_not]
  exact ⟨fun h => ⟨fun hm => (h _ hm).1 rfl, fun hm => (h _ hm).2 rfl⟩,
    fun h d hd => ⟨fun he => h.1 (he ▸ hd), fun he => h.2 (he ▸ hd)⟩⟩

theorem reads_of_parseSpec (h : parseSpec text = .ok (spec, rest)) : Reads text spec rest := by
  obtain ⟨hb, options, after, hbraces, rfl, hafter⟩ := parseSpec_eq_ok_iff.mp h
  cases hd : text.dropWhile inName with
  | nil =>
    have htext : text.takeWhile inName = text := by
      simpa [hd] using takeWhile_append_dropWhile (p := inName) (l := text)
    rw [hd] at hbraces
    obtain ⟨rfl, rfl⟩ : none = options ∧ [] = after := by simpa [parseBraces] using hbraces
    rw [htext] at hb ⊢
    obtain ⟨-, rfl⟩ | ⟨r, hr, -⟩ := hafter
    · obtain ⟨hcomma, hbrace⟩ := forall_inName.mp fun d (hd : d ∈ text) => mem_takeWhile_imp (htext.symm ▸ hd)
      exact .inl ⟨.bare hb hcomma hbrace, rfl⟩
    · cases hr
  | cons c b =>
    generalize hname' : text.takeWhile inName = a at *
    obtain ⟨rfl, ha, hc⟩ := span_iff.mp ⟨hname', hd⟩
    obtain ⟨hcomma, hbrace⟩ := forall_inName.mp ha
    rw [hd] at hbraces
    by_cases hcb : c = '\x7b'
    · subst hcb
      obtain ⟨inner, tail, os, rfl, hinner, ho, rfl, rfl⟩ := parseBraces_ok.mp hbraces
      rw [Text.trim_eq_nil_iff] at hafter
      obtain ⟨htail, rfl⟩ | ⟨r, hr, rfl, hne⟩ := hafter
      · exact .inl ⟨.braced hb hcomma hbrace hinner ho htail, rfl⟩
      · obtain ⟨l, after, hl, rfl, hu⟩ := (trim_eq_cons_iff (by decide)).mp ⟨r, hr, rfl⟩
        refine .inr ⟨_, after, by simp, .braced hb hcomma hbrace hinner ho hl, hu.symm, ?_⟩
        rwa [← Text.trim_eq_nil_iff, hu, Text.trim_eq_nil_iff]
    · obtain rfl : c = ',' := by simpa [inName, hcb] using hc
      obtain ⟨rfl, rfl⟩ : none = options ∧ ',' :: b = after := by simpa [parseBraces] using hbraces
      obtain ⟨hn, -⟩ | ⟨r, hr, rfl, hne⟩ := hafter
      · cases hn
      · obtain ⟨-, rfl⟩ := List.cons.inj hr
        exact .inr ⟨_, b, rfl, .bare hb hcomma hbrace, rfl, hne⟩

theorem parseSpec_of_reads (h : Reads text spec rest) : parseSpec text = .ok (spec, rest) := by
  rw [parseSpec_eq_ok_iff]
  have hspan : ∀ {a b : List Char} {c : Char}, ',' ∉ a → '\x7b' ∉ a → inName c = false →
      (a ++ c :: b).takeWhile inName = a ∧ (a ++ c :: b).dropWhile inName = c :: b := fun h₁ h₂ hc =>
    span_iff.mpr ⟨rfl, forall_inName.mpr ⟨h₁, h₂⟩, hc⟩
  obtain ⟨hi, rfl⟩ | ⟨item, after, rfl, hi, rfl, hne⟩ := h
  · cases hi with
    | bare hb hcomma hbrace =>
      have ht := takeWhile_eq_self_iff.mpr (forall_inName.mpr ⟨hcomma, hbrace⟩)
      have hd := dropWhile_eq_nil_iff.mpr (forall_inName.mpr ⟨hcomma, hbrace⟩)
      rw [ht, hd]
      exact ⟨hb, none, [], rfl, rfl, .inl ⟨rfl, rfl⟩⟩
    | braced hb hcomma hbrace hinner ho htail =>
      obtain ⟨ht, hd⟩ := hspan hcomma hbrace (c := '\x7b') (by decide)
      rw [ht, hd]
      refine ⟨hb, _, _, parseBraces_ok.mpr ⟨_, _, _, rfl, hinner, ho, rfl, rfl⟩, rfl, .inl ⟨?_, rfl⟩⟩
      exact Text.trim_eq_nil_iff.mpr htail
  · cases hi with
    | bare hb hcomma hbrace =>
      obtain ⟨ht, hd⟩ := hspan hcomma hbrace (c := ',') (by decide)
      rw [ht, hd]
      exact ⟨hb, none, _, rfl, rfl, .inr ⟨after, rfl, rfl, hne⟩⟩
    | @braced head inner tail options hb hcomma hbrace hinner ho htail =>
      obtain ⟨u, hu, htrim⟩ := (trim_eq_cons_iff (by decide)).mpr ⟨tail, after, htail,
        Eq.refl (tail ++ ',' :: after), rfl⟩
      have htext : head ++ '\x7b' :: (inner ++ '\x7d' :: tail) ++ ',' :: after =
          head ++ '\x7b' :: (inner ++ '\x7d' :: (tail ++ ',' :: after)) := by simp
      obtain ⟨ht, hd⟩ := hspan hcomma hbrace (c := '\x7b') (by decide)
      rw [htext, ht, hd]
      refine ⟨hb, _, _, parseBraces_ok.mpr ⟨_, _, _, rfl, hinner, ho, rfl, rfl⟩, rfl,
        .inr ⟨u, hu, htrim.symm, ?_⟩⟩
      rwa [← Text.trim_eq_nil_iff, htrim, Text.trim_eq_nil_iff]

theorem parseSpec_ok : parseSpec text = .ok (spec, rest) ↔ Reads text spec rest :=
  ⟨reads_of_parseSpec, parseSpec_of_reads⟩

/-! ## Reading pipelines -/

theorem pipeline_iff_of_not_blanks (hb : ¬ Blanks text) : Pipeline text specs ↔
    (∃ spec, Item text spec ∧ specs = [spec]) ∨
      ∃ item after spec others, text = item ++ ',' :: after ∧ Item item spec ∧ ¬ Blanks after ∧
        Pipeline after others ∧ specs = spec :: others := by
  constructor
  · rintro (h | @⟨items, specs, hne, h⟩)
    · exact absurd h hb
    · cases h with
      | nil => exact absurd rfl hne
      | @cons item spec items others hi h =>
        cases items with
        | nil =>
          cases h
          exact .inl ⟨spec, by simpa [List.intercalate] using hi, rfl⟩
        | cons next items =>
          obtain ⟨s, rest, hnext, -, -⟩ := forall₂_cons_left_iff.mp h
          refine .inr ⟨item, [','].intercalate (next :: items), spec, others, by simp, hi, fun hblank => ?_,
            .items (by simp) h, rfl⟩
          exact hnext.not_blanks fun c hc => hblank c (Text.subset_intercalate mem_cons_self hc)
  · rintro (⟨spec, hi, rfl⟩ | ⟨item, after, spec, others, rfl, hi, hne, h, rfl⟩)
    · simpa [List.intercalate] using Pipeline.items (by simp) (.cons hi .nil)
    · obtain hblank | @⟨items, _, hitems, h⟩ := h
      · exact absurd hblank hne
      · obtain ⟨next, items, rfl⟩ := exists_cons_of_ne_nil hitems
        simpa using Pipeline.items (by simp) (.cons hi h)

theorem length_trim_le (text : List Char) : (trim text).length ≤ text.length := by
  obtain ⟨l, r, -, -, hs⟩ := Text.exists_trim text
  have := congrArg List.length hs
  simp only [length_append] at this
  omega

theorem Reads.length_lt (h : Reads text spec rest) : rest.length < text.length := by
  obtain ⟨hi, rfl⟩ | ⟨item, after, rfl, -, rfl, -⟩ := h
  · exact length_pos_iff.mpr fun hn => hi.not_blanks (hn ▸ nofun)
  · have := length_trim_le after
    simp only [length_append, length_cons]
    omega

theorem parseSpecs_ok : ∀ (fuel : Nat) {text : List Char} {specs : List Spec}, (trim text).length ≤ fuel →
    (parseSpecs fuel (trim text) = .ok specs ↔ Pipeline text specs)
  | fuel, text, specs, hfuel => by
    by_cases hb : Blanks text
    · rw [Text.trim_eq_nil_iff.mpr hb, show parseSpecs fuel [] = .ok [] by cases fuel <;> rfl, Except.ok.injEq]
      constructor
      · rintro rfl
        exact .blank hb
      · rintro (_ | @⟨items, _, hne, h⟩)
        · rfl
        · obtain ⟨item, items, rfl⟩ := exists_cons_of_ne_nil hne
          obtain ⟨spec, _, hi, -, -⟩ := forall₂_cons_left_iff.mp h
          exact absurd (fun c hc => hb c (Text.subset_intercalate mem_cons_self hc)) hi.not_blanks
    rw [← Text.trim_eq_nil_iff] at hb
    obtain ⟨fuel, rfl⟩ : ∃ k, fuel = k + 1 := ⟨fuel - 1, by have := length_pos_iff.mpr hb; omega⟩
    -- behind the first item there is less text, so the fuel is enough for it
    have hrest : ∀ {spec after others}, Reads (trim text) spec (trim after) →
        (parseSpecs fuel (trim after) = .ok others ↔ Pipeline after others) := fun h =>
      parseSpecs_ok fuel (by have := h.length_lt; omega)
    rw [parseSpecs.eq_3 _ _ hb, except_bind_ok, Prod.exists]
    simp only [except_bind_ok, except_pure_ok, parseSpec_ok]
    rw [pipeline_iff_of_not_blanks (Text.trim_eq_nil_iff.not.mp hb)]
    constructor
    · rintro ⟨spec, rest, hr, others, ho, rfl⟩
      obtain ⟨hi, rfl⟩ | ⟨item, after, ht, hi, rfl, hne⟩ := reads_trim_iff.mp hr
      · obtain rfl : others = [] := by cases fuel <;> simpa [parseSpecs, eq_comm] using ho
        exact .inl ⟨spec, hi, rfl⟩
      · exact .inr ⟨item, after, spec, others, ht, hi, hne, (hrest hr).mp ho, rfl⟩
    · rintro (⟨spec, hi, rfl⟩ | ⟨item, after, spec, others, ht, hi, hne, ho, rfl⟩)
      · exact ⟨spec, [], reads_trim_iff.mpr (.inl ⟨hi, rfl⟩), [], by cases fuel <;> rfl, rfl⟩
      · have hr := reads_trim_iff.mpr (.inr ⟨item, after, ht, hi, rfl, hne⟩)
        exact ⟨spec, _, hr, others, (hrest hr).mpr ho, rfl⟩

theorem parsePipeline_ok {text : String} :
    parsePipeline text = .ok specs ↔ Pipeline text.toList specs :=
  parseSpecs_ok _ (Nat.le_refl _)

/-- Reading gives the items of a text in order if the text is a pipeline, and an error if it is none. -/
theorem parsePipeline_iff (text : String) :
    (∀ specs, parsePipeline text = .ok specs ↔ Pipeline text.toList specs) ∧
      ((∃ e, parsePipeline text = .error e) ↔ ∀ specs, ¬ Pipeline text.toList specs) := by
  refine ⟨fun specs => parsePipeline_ok, ?_⟩
  simp only [← parsePipeline_ok]
  cases parsePipeline text <;> simp

end Offload.Pass
