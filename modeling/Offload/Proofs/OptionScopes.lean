import Mathlib.Data.List.Basic
import Offload.Pass.Options

/-!
# Lookup of options in scopes

A search goes from a scope to the scope around it until it finds the key or has looked at the outermost scope. With
a separator of one character it ends whatever the scope looks like.
-/

namespace Offload.Pass.Params

open List

variable {child parent : String}
variable {p : Params} {c : Char} {scope key : String} {r r' : Option OptionValue}

theorem lookup_set (p : Params) (scope key : String) (value : OptionValue) (k : String × String) :
    (p.set scope key value).entries.lookup k = if k = (scope, key) then some value else p.entries.lookup k := by
  show (set.put scope key value p.entries).lookup k = _
  induction p.entries with
  | nil => by_cases hk : k = (scope, key) <;> simp [set.put, hk]
  | cons e rest ih =>
    obtain ⟨k', v⟩ := e
    rw [set.put]
    split <;> simp only [lookup_cons, ih] <;> grind

@[simp] theorem separator_set (p : Params) (scope key : String) (value : OptionValue) :
    (p.set scope key value).separator = p.separator := rfl

/-! ## Histories -/

/-- What is there after values were set for scopes and keys, one after the other. -/
def afterSets (separator : String) (history : List ((String × String) × OptionValue)) : Params :=
  history.foldl (fun p (k, value) => p.set k.1 k.2 value) { separator }

theorem lookup_foldl_set (k : String × String) : ∀ (history : List ((String × String) × OptionValue)) (p : Params),
    (history.foldl (fun p (k, value) => p.set k.1 k.2 value) p).entries.lookup k =
      (history.reverse.lookup k).or (p.entries.lookup k)
  | [], p => by simp
  | (k', value) :: history, p => by
    rw [foldl_cons, lookup_foldl_set k history, lookup_set, reverse_cons, lookup_append, Option.or_assoc]
    by_cases hk : k = k'
    · simp [hk]
    · simp [hk, lookup_cons, beq_eq_false_iff_ne.mpr hk]

theorem lookup_afterSets (separator : String) (history : List ((String × String) × OptionValue))
    (k : String × String) : (afterSets separator history).entries.lookup k = history.reverse.lookup k := by
  simp [afterSets, lookup_foldl_set]

theorem separator_foldl_set : ∀ (history : List ((String × String) × OptionValue)) (p : Params),
    (history.foldl (fun p (k, value) => p.set k.1 k.2 value) p).separator = p.separator
  | [], _ => rfl
  | _ :: history, _ => by rw [foldl_cons, separator_foldl_set history, separator_set]

/-! ## Scopes around scopes -/

theorem beforeLast_of_not_mem : ∀ {cs : List Char}, c ∉ cs → beforeLast [c] cs = none
  | [], _ => rfl
  | d :: cs, h => by
    rw [beforeLast, beforeLast_of_not_mem fun hc => h (mem_cons_of_mem _ hc)]
    have : c ≠ d := fun hcd => h (hcd ▸ mem_cons_self ..)
    simp [this]

theorem beforeLast_append {cs : List Char} (h : c ∉ cs) : ∀ front : List Char,
    beforeLast [c] (front ++ c :: cs) = some front
  | [] => by simp [beforeLast, beforeLast_of_not_mem h]
  | d :: front => by rw [cons_append, beforeLast, beforeLast_append h front]

theorem length_beforeLast : ∀ {cs front : List Char}, beforeLast [c] cs = some front → front.length < cs.length
  | d :: cs, front, h => by
    rw [beforeLast] at h
    cases hrest : beforeLast [c] cs with
    | none =>
      simp only [hrest] at h
      split at h
      · cases h
        simp
      · cases h
    | some rest =>
      have := length_beforeLast hrest
      simp only [hrest] at h
      cases h
      simpa using this

section
variable (hc : p.separator.toList = [c])
include hc

theorem outer_cases (scope : String) : p.outer scope = p.separator ∨ (p.outer scope).length < scope.length := by
  rw [outer, hc]
  split
  · exact .inl rfl
  · exact .inl rfl
  · rename_i front _ hfront
    rw [← String.length_toList, ← String.length_toList, String.toList_ofList]
    exact .inr (length_beforeLast hfront)

theorem outer_join (hparent : parent ≠ "") (hchild : c ∉ child.toList) :
    p.outer (p.join parent child) = parent := by
  have hfront : parent.toList ≠ [] := fun h => hparent (String.toList_eq_nil_iff.mp h)
  rw [join, outer, hc]
  by_cases hroot : parent = p.separator
  · rw [if_pos hroot, String.toList_append, hc, show [c] ++ child.toList = [] ++ c :: child.toList from rfl,
      beforeLast_append hchild, hroot]
  · rw [if_neg hroot, String.toList_append, String.toList_append, hc, append_assoc, singleton_append,
      beforeLast_append hchild]
    simp

theorem join_inner (hparent : parent ≠ "") (hchild : child ≠ "") :
    ¬ (p.join parent child = p.separator ∨ p.join parent child = "") := by
  rw [join]
  split
  · simp [← String.toList_inj, hc, hchild]
  · simp [← String.toList_inj, hc, append_eq_cons_iff, hparent, hchild]

end

/-! ## The search -/

/-- A search for a key that starts in a scope ends with a result. -/
inductive Searches (p : Params) (key : String) : String → Option OptionValue → Prop
  | found {scope : String} {value : OptionValue} : p.entries.lookup (scope, key) = some value →
      Searches p key scope (some value)
  | missing {scope : String} : p.entries.lookup (scope, key) = none → scope = p.separator ∨ scope = "" →
      Searches p key scope none
  | outwards {scope : String} {r : Option OptionValue} : p.entries.lookup (scope, key) = none →
      ¬ (scope = p.separator ∨ scope = "") → Searches p key (p.outer scope) r → Searches p key scope r

theorem Searches.unique (h : Searches p key scope r) (h' : Searches p key scope r') : r = r' := by
  induction h with
  | found hv => cases h' <;> simp_all
  | missing hv hs => cases h' <;> simp_all
  | outwards hv hs _ ih =>
    cases h' with
    | found hv' => simp_all
    | missing _ hs' => exact absurd hs' hs
    | outwards _ _ h' => exact ih h'

section
variable (hc : p.separator.toList = [c])
include hc

-- The outermost scope needs one step, and any other no more than its length and one.
theorem getFrom_searches (key : String) : ∀ (fuel : Nat) (scope : String),
    scope = p.separator ∧ 0 < fuel ∨ scope.length < fuel → Searches p key scope (p.getFrom key fuel scope)
  | 0, scope, h => by omega
  | fuel + 1, scope, h => by
    rw [getFrom]
    split
    · rename_i hv
      exact .found hv
    · rename_i hv
      split
      · rename_i hs
        exact .missing hv hs
      · rename_i hs
        have hlen : scope.length ≠ 0 := fun h0 => hs (.inr (String.length_eq_zero_iff.mp h0))
        refine .outwards hv hs (getFrom_searches key fuel _ ?_)
        rcases outer_cases hc scope with ho | ho <;> grind

theorem get?_searches (scope key : String) : Searches p key scope (p.get? scope key) :=
  getFrom_searches hc key _ scope (.inr (by omega))

theorem get?_separator (key : String) : p.get? p.separator key = p.entries.lookup (p.separator, key) := by
  refine (get?_searches hc _ key).unique ?_
  cases hv : p.entries.lookup (p.separator, key) with
  | none => exact .missing hv (.inl rfl)
  | some value => exact .found hv

theorem get?_join (hparent : parent ≠ "") (hne : child ≠ "") (hchild : c ∉ child.toList)
    (key : String) : p.get? (p.join parent child) key =
      (p.entries.lookup (p.join parent child, key)).or (p.get? parent key) := by
  refine (get?_searches hc _ key).unique ?_
  cases hv : p.entries.lookup (p.join parent child, key) with
  | none =>
    refine .outwards hv (join_inner hc hparent hne) ?_
    rw [outer_join hc hparent hchild]
    exact get?_searches hc parent key
  | some value => exact .found hv

end

/-- After any values were set, a scope inside another one has the last value set for it, and otherwise what the other
one has; the outermost scope has what was set for it; and every search ends. -/
theorem nearest_scope (c : Char) (history : List ((String × String) × OptionValue)) :
    let p := afterSets (String.singleton c) history
    (∀ parent child key, parent ≠ "" → child ≠ "" → c ∉ child.toList → p.get? (p.join parent child) key =
      (history.reverse.lookup (p.join parent child, key)).or (p.get? parent key)) ∧
    (∀ key, p.get? p.separator key = history.reverse.lookup (p.separator, key)) ∧
    ∀ scope key, Searches p key scope (p.get? scope key) := by
  intro p
  have hc : p.separator.toList = [c] := (congrArg String.toList (separator_foldl_set history _)).trans
    (String.toList_singleton c)
  have hlookup : ∀ k, p.entries.lookup k = history.reverse.lookup k := lookup_afterSets _ history
  refine ⟨fun parent child key hparent hne hchild => ?_, fun key => ?_, get?_searches hc⟩
  · rw [get?_join hc hparent hne hchild, hlookup]
  · rw [get?_separator hc, hlookup]

/-- A scope two levels down takes one key from the scope around it and another from the outermost one. -/
theorem nearest_scope_inherited : ∃ history, (afterSets "/" history).get? "/a/b" "w" = some (.str "2x32") ∧
    (afterSets "/" history).get? "/a/b" "v" = some (.str "on") := by
  let history := [(("/", "w"), .str "4x16"), (("/", "v"), .str "on"), (("/a", "w"), OptionValue.str "2x32")]
  obtain ⟨hjoin, hroot, -⟩ := nearest_scope '/' history
  have hinner (key : String) : (afterSets "/" history).get? "/a/b" key =
      (history.reverse.lookup ("/a/b", key)).or ((afterSets "/" history).get? "/a" key) :=
    hjoin "/a" "b" key (by decide) (by decide) (by decide)
  have houter (key : String) : (afterSets "/" history).get? "/a" key =
      (history.reverse.lookup ("/a", key)).or ((afterSets "/" history).get? "/" key) :=
    hjoin "/" "a" key (by decide) (by decide) (by decide)
  refine ⟨history, ?_, ?_⟩ <;> rw [hinner, houter]
  · rfl
  · exact hroot "v"

end Offload.Pass.Params
