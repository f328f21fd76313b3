import Offload.Proofs.ElementOptions

/-!
# Pipelines as text

A pipeline that was read can be written and read again, and nothing but empty braces is lost: no name, key or
value that was read has a delimiter where it would be taken for one, nor blanks at its ends.
-/

namespace Offload.Pass

open List Text

open Text (Trimmed trim split)

variable {o : String × String} {text : List Char}
variable {s : Spec} {name : String} {options : OptionMap} {rest : List Char}

/-! ## What can be written and read -/

/-- What a pass of a pipeline says: a name and a map of options, where no options are an empty map. -/
def Spec.content (s : Spec) : String × OptionMap := (s.name, s.options.getD [])

structure PlainOption (o : String × String) : Prop where
  key : o.1 ≠ "" ∧ Trimmed o.1.toList
  keyFree : '=' ∉ o.1.toList ∧ ';' ∉ o.1.toList ∧ '\x7d' ∉ o.1.toList
  value : Trimmed o.2.toList
  valueFree : ';' ∉ o.2.toList ∧ '\x7b' ∉ o.2.toList ∧ '\x7d' ∉ o.2.toList

structure Spec.Plain (s : Spec) : Prop extends s.Parsed where
  trimmed : Trimmed s.name.toList
  free : ',' ∉ s.name.toList ∧ '\x7b' ∉ s.name.toList
  options : ∀ o ∈ s.options.getD [], PlainOption o

/-! ## Reading gives plain passes -/

theorem OptionPart.plain {part : List Char} {given : List (String × String)} (h : OptionPart part given)
    (hpart : ';' ∉ part ∧ '\x7d' ∉ part) : ∀ o ∈ given, PlainOption o := by
  cases h with
  | blank => exact nofun
  | @option key value hkey hne hvalue =>
    have hmem : ∀ {c : Char} {s : List Char}, c ∉ s → c ∉ trim s := fun hc hm => hc (mem_of_mem_trim hm)
    simp only [mem_append, mem_cons, not_or] at hpart
    simp only [mem_singleton, forall_eq]
    refine ⟨⟨by simpa [trim_eq_nil_iff] using hne, ?_⟩, ?_, ?_, ?_⟩ <;> simp only [String.toList_ofList]
    · exact trimmed_trim _
    · exact ⟨hmem hkey, hmem hpart.1.1, hmem hpart.2.1⟩
    · exact trimmed_trim _
    · exact ⟨hmem hpart.1.2.2, hmem hvalue, hmem hpart.2.2.2⟩

theorem OptionsText.plain (h : OptionsText text options) (hfree : '\x7d' ∉ text) :
    ∀ o ∈ options, PlainOption o := by
  obtain ⟨parts, given, -, hsep, rfl, hgiven, ho⟩ := h
  intro o hmem
  obtain ⟨os, hos, ho⟩ := mem_flatten.mp (mem_reverse.mp (mem_of_lookup ((ho.mem o).mp hmem)))
  obtain ⟨part, hpart, h⟩ := forall₂_mem_right hgiven hos
  exact h.plain ⟨hsep part hpart, fun hm => hfree (subset_intercalate hpart hm)⟩ o ho

theorem Item.plain (h : Item text s) : s.Plain := by
  refine { h.parsed with trimmed := ?_, free := ?_, options := ?_ }
  all_goals cases h
  all_goals simp only [String.toList_ofList]
  · exact trimmed_trim _
  · exact trimmed_trim _
  · exact ⟨fun hm => absurd (mem_of_mem_trim hm) ‹_›, fun hm => absurd (mem_of_mem_trim hm) ‹_›⟩
  · exact ⟨fun hm => absurd (mem_of_mem_trim hm) ‹_›, fun hm => absurd (mem_of_mem_trim hm) ‹_›⟩
  · exact nofun
  · exact OptionsText.plain ‹_› ‹_›

/-! ## Writing options -/

def optionText (o : String × String) : List Char := o.1.toList ++ '=' :: o.2.toList

def innerText (options : OptionMap) : List Char := [';'].intercalate (options.map optionText)

def bracesText (options : OptionMap) : List Char :=
  if options = [] then [] else '\x7b' :: (innerText options ++ ['\x7d'])

theorem PlainOption.optionPart (h : PlainOption o) : OptionPart (optionText o) [o] := by
  have hne : ¬ Text.Blanks o.1.toList := by
    rw [← trim_eq_nil_iff, trim_eq_self h.key.2]
    simpa using h.key.1
  simpa [optionText, trim_eq_self h.key.2, trim_eq_self h.value] using
    OptionPart.option h.keyFree.1 hne h.valueFree.2.1

theorem OptionMap.Sorted.records (h : options.Sorted) : options.Records options := by
  refine ⟨h, fun o => ?_⟩
  rw [lookup_eq_some_iff]
  constructor
  · intro ho
    obtain ⟨l₁, l₂, hl⟩ := append_of_mem (mem_reverse.mpr ho)
    refine ⟨l₁, l₂, hl, fun x hx => ?_⟩
    have hn := nodup_reverse.mpr h.nodup
    rw [← map_reverse, hl, map_append, map_cons, nodup_middle, nodup_cons] at hn
    simpa using fun he : o.1 = x.1 => hn.1 (mem_append_left _ (he ▸ mem_map_of_mem hx))
  · rintro ⟨l₁, l₂, hl, -⟩
    exact mem_reverse.mp (hl ▸ by simp)

theorem not_mem_optionText {c : Char} (hc : c ≠ '=') (hkey : c ∉ o.1.toList)
    (hvalue : c ∉ o.2.toList) : c ∉ optionText o := by
  simp [optionText, hc, hkey, hvalue]

theorem optionsText_innerText (hne : options ≠ []) (h : ∀ o ∈ options, PlainOption o) (hs : options.Sorted) :
    OptionsText (innerText options) options := by
  refine ⟨options.map optionText, options.map ([·]), by simpa using hne, fun part hpart => ?_, rfl, ?_, ?_⟩
  · obtain ⟨o, ho, rfl⟩ := mem_map.mp hpart
    exact not_mem_optionText (by decide) (h o ho).keyFree.2.1 (h o ho).valueFree.1
  · rw [forall₂_map_left_iff, forall₂_map_right_iff, forall₂_same]
    exact fun o ho => (h o ho).optionPart
  · rw [← flatMap_def, flatMap_singleton']
    exact hs.records

/-! ## Writing pipelines -/

theorem toList_render (s : Spec) : s.render.toList = s.name.toList ++ bracesText (s.options.getD []) := by
  rw [Spec.render.eq_def, bracesText]
  split
  · rename_i he
    rw [if_pos he, append_nil]
  · rename_i hne
    rw [if_neg hne]
    have hoptions : (s.options.getD []).map (String.toList ∘ fun o => o.1 ++ "=" ++ o.2) =
        (s.options.getD []).map optionText := map_congr_left fun o _ => by simp [optionText]
    simp only [String.toList_append, String.toList_intercalate, map_map, append_assoc, hoptions]
    rfl

theorem toList_renderPipeline (specs : List Spec) :
    (renderPipeline specs).toList = [','].intercalate (specs.map fun s => s.render.toList) := by
  rw [renderPipeline, String.toList_intercalate, map_map]
  rfl

theorem Spec.Plain.item (h : s.Plain) : ∃ found, Item s.render.toList found ∧ found.content = s.content := by
  have hne : ¬ Text.Blanks s.name.toList := by
    rw [← trim_eq_nil_iff, trim_eq_self h.trimmed]
    simpa using h.name
  have hname : String.ofList (trim s.name.toList) = s.name := by rw [trim_eq_self h.trimmed, String.ofList_toList]
  rw [toList_render, bracesText]
  split
  · rename_i hnil
    rw [append_nil]
    refine ⟨_, .bare hne h.free.1 h.free.2, ?_⟩
    rw [hname, Spec.content, Spec.content, hnil]
    rfl
  · rename_i hsome
    have hfree : '\x7d' ∉ innerText (s.options.getD []) := not_mem_intercalate (by decide) <|
      forall_mem_map.mpr fun o ho =>
        not_mem_optionText (by decide) (h.options o ho).keyFree.2.2 (h.options o ho).valueFree.2.2
    refine ⟨_, .braced hne h.free.1 h.free.2 hfree (optionsText_innerText hsome h.options h.sorted) blanks_nil,
      ?_⟩
    rw [hname]
    rfl

theorem items_render : ∀ {specs : List Spec}, (∀ s ∈ specs, s.Plain) → ∃ found,
    Forall₂ Item (specs.map fun s => s.render.toList) found ∧ found.map Spec.content = specs.map Spec.content
  | [], _ => ⟨[], .nil, rfl⟩
  | s :: specs, h => by
    obtain ⟨hs, hrest⟩ := forall_mem_cons.mp h
    obtain ⟨found, hitem, hcontent⟩ := hs.item
    obtain ⟨others, hitems, hcontents⟩ := items_render hrest
    exact ⟨found :: others, .cons hitem hitems, by rw [map_cons, map_cons, hcontent, hcontents]⟩

/-- Passes that were read, and all plain passes, are read again from the text that is written for them. -/
theorem parse_renderPipeline :
    (∀ text specs, parsePipeline text = .ok specs → ∃ found,
      parsePipeline (renderPipeline specs) = .ok found ∧ found.map Spec.content = specs.map Spec.content) ∧
    ∀ specs : List Spec, (∀ s ∈ specs, s.Plain) → ∃ found,
      parsePipeline (renderPipeline specs) = .ok found ∧ found.map Spec.content = specs.map Spec.content := by
  have hplain : ∀ specs : List Spec, (∀ s ∈ specs, s.Plain) → ∃ found,
      parsePipeline (renderPipeline specs) = .ok found ∧ found.map Spec.content = specs.map Spec.content := by
    intro specs h
    obtain ⟨found, hitems, hcontent⟩ := items_render h
    refine ⟨found, parsePipeline_ok.mpr (toList_renderPipeline specs ▸ ?_), hcontent⟩
    cases specs with
    | nil =>
      cases hitems
      exact .blank blanks_nil
    | cons s specs => exact .items (by simp) hitems
  exact ⟨fun text specs h => hplain specs ((parsePipeline_ok.mp h).forall fun h => h.plain), hplain⟩

/-- Delimiters where they are not taken for such, blanks, an empty value and empty braces. -/
theorem parse_renderPipeline_stray :
    parsePipeline " a\x7db\x7b \x7bk,x = p=q,r ;y= \x7d , c\x7b\x7d" =
      .ok [⟨"a\x7db", some [("y", ""), ("\x7bk,x", "p=q,r")]⟩, ⟨"c", some []⟩] ∧
    (∃ found, parsePipeline (renderPipeline [⟨"a\x7db", some [("y", ""), ("\x7bk,x", "p=q,r")]⟩,
      ⟨"c", some []⟩]) = .ok found ∧
      found.map Spec.content = [("a\x7db", [("y", ""), ("\x7bk,x", "p=q,r")]), ("c", [])]) ∧
    (Spec.Plain ⟨"a", some [("k", "x=y")]⟩ ∧ ∃ found,
      parsePipeline (renderPipeline [⟨"a", some [("k", "x=y")]⟩]) = .ok found ∧
      found.map Spec.content = [("a", [("k", "x=y")])]) := by
  have hread : parsePipeline " a\x7db\x7b \x7bk,x = p=q,r ;y= \x7d , c\x7b\x7d" =
      .ok [⟨"a\x7db", some [("y", ""), ("\x7bk,x", "p=q,r")]⟩, ⟨"c", some []⟩] := by decide +kernel
  have hplain : Spec.Plain ⟨"a", some [("k", "x=y")]⟩ := by
    have ha : isBlank 'a' = false := by decide
    have hk : isBlank 'k' = false := by decide
    have hx : isBlank 'x' = false := by decide
    have hy : isBlank 'y' = false := by decide
    refine ⟨⟨by decide, pairwise_singleton _ _⟩, ⟨by simp [ha], by simp [ha]⟩, by simp, ?_⟩
    simp only [Option.getD_some, mem_singleton, forall_eq]
    exact ⟨⟨by decide, by simp [hk], by simp [hk]⟩, by simp, ⟨by simp [hx], by simp [hy]⟩, by simp⟩
  exact ⟨hread, parse_renderPipeline.1 _ _ hread, hplain, parse_renderPipeline.2 _ (by simpa using hplain)⟩

end Offload.Pass
