import Offload.Pass.Manager
import Offload.Proofs.OptionScopes
import Offload.Proofs.PipelineGrammar

/-!
# The options of the elements of pipelines

A manager keeps the options of an element in a scope named for its pass, so they stay there for later
elements of the same name. What an element reads is told by the events before it: its own options come
first, then the last value given to an element of its name, then the last global value.
-/

namespace Offload.Pass

open List

variable {after before : List Event} {m : Manager} {name : String} {options : Options}
  {requests : List Request} {spec : Spec}

/-! ## Values in scopes -/

theorem Params.lookup_setAll (scope : String) (k : String × String) : ∀ (options : OptionMap) (p : Params),
    (options.map Prod.fst).Nodup →
      (options.foldl (fun p (key, v) => p.set scope key (.str v)) p).entries.lookup k =
        if k.1 = scope then ((options.lookup k.2).map .str).or (p.entries.lookup k) else p.entries.lookup k
  | [], p, _ => by simp
  | (key, v) :: rest, p, hn => by
    obtain ⟨hkey, hn⟩ := nodup_cons.mp hn
    rw [foldl_cons, lookup_setAll scope k rest _ hn, lookup_set]
    obtain ⟨s, k⟩ := k
    have hfresh : rest.lookup key = none :=
      lookup_eq_none_iff.mpr fun x hx => by
        have hx' : x.1 ∈ rest.map Prod.fst := mem_map_of_mem hx
        simpa using fun h : key = x.1 => hkey (h ▸ hx')
    by_cases hs : s = scope
    · by_cases hk : k = key
      · subst hs hk
        simp [hfresh]
      · simp [hs, hk, lookup_cons, beq_eq_false_iff_ne.mpr hk]
    · simp [hs]

@[simp] theorem Params.separator_setAll (scope : String) : ∀ (options : OptionMap) (p : Params),
    (options.foldl (fun p (key, v) => p.set scope key (.str v)) p).separator = p.separator
  | [], _ => rfl
  | _ :: rest, _ => by rw [foldl_cons, separator_setAll scope rest, separator_set]

theorem Params.get?_child (p : Params) (hp : p.separator = Options.rootScope) (hne : name ≠ "")
    (hn : '/' ∉ name.toList) (key : String) : p.get? (Options.rootScope ++ name) key =
      (p.entries.lookup (Options.rootScope ++ name, key)).or (p.entries.lookup (Options.rootScope, key)) := by
  have hc : p.separator.toList = ['/'] := by rw [hp]; rfl
  have hjoin : p.join p.separator name = Options.rootScope ++ name := by rw [join, if_pos rfl, hp]
  rw [← hjoin, get?_join hc (by rw [hp]; decide) hne hn, get?_separator hc, hp]

def Options.value? (o : Options) (key : String) : Option OptionValue := o.params.get? o.scope key

theorem Options.string_eq (o : Options) (key default : String) {value : Option String}
    (h : o.value? key = value.map .str) : o.string key default = value.getD default := by
  rw [value?] at h
  rw [string, Params.getString, h]
  cases value <;> rfl

theorem Options.lookups_eq {o o' : Options} (hs : o'.scope = o.scope) (hv : o'.value? = o.value?) :
    o'.string = o.string ∧ o'.int = o.int ∧ o'.bool = o.bool := by
  have hget : ∀ key, o'.params.get? o'.scope key = o.params.get? o.scope key := congrFun hv
  refine ⟨?_, ?_, ?_⟩ <;> funext key default
  · rw [string, string, Params.getString, Params.getString, hget]
  · rw [int, int, Params.getInt, Params.getInt, hget, hs]
  · rw [bool, bool, Params.getBool, Params.getBool, hget, hs]

/-! ## Parsed elements -/

def Spec.own? (spec : Spec) (key : String) : Option String := (spec.options.getD []).lookup key

structure Spec.Parsed (spec : Spec) : Prop where
  name : spec.name ≠ ""
  sorted : (spec.options.getD []).Sorted

theorem Item.parsed {text : List Char} (h : Item text spec) : spec.Parsed := by
  cases h with
  | bare hne => exact ⟨by simpa [Text.trim_eq_nil_iff] using hne, List.Pairwise.nil⟩
  | braced hne _ _ _ ho =>
    obtain ⟨_, _, _, _, _, _, ho⟩ := ho
    exact ⟨by simpa [Text.trim_eq_nil_iff] using hne, ho.sorted⟩

/-! ## Events -/

/-- What is asked of a manager while it is set up. -/
inductive Request where
  | setGlobal (key value : String)
  | addPipeline (text : String)

/-- What changes the options of a manager. An element comes with the options that it is configured with. -/
inductive Event where
  | global (key value : String)
  | element (spec : Spec) (options : Options)

def Event.global? (key : String) : Event → Option String
  | global k value => if k = key then some value else none
  | element _ _ => none

def Event.option? (name key : String) : Event → Option String
  | global _ _ => none
  | element spec _ => if spec.name = name then spec.own? key else none

def latest (f : Event → Option String) (events : List Event) : Option String := events.reverse.findSome? f

@[simp] theorem latest_nil (f : Event → Option String) : latest f [] = none := rfl

@[simp] theorem latest_append (f : Event → Option String) (es : List Event) (e : Event) :
    latest f (es ++ [e]) = (f e).or (latest f es) := by
  rw [latest, reverse_append, reverse_singleton, singleton_append, findSome?_cons]
  cases f e <;> rfl

namespace Manager

/-- The options that an element is configured with: its own are put into the scope of its name first. -/
def optionsFor (m : Manager) (spec : Spec) : Options :=
  let scope := m.params.join Options.rootScope spec.name
  { params := (spec.options.getD []).foldl (fun p (k, v) => p.set scope k (.str v)) m.params, scope }

theorem addSpec_eq (m : Manager) (spec : Spec) : m.addSpec spec =
    match Pass.create spec.name (m.optionsFor spec) with
    | .error e => ({ m with params := (m.optionsFor spec).params }, some e)
    | .ok pass => ({ m with params := (m.optionsFor spec).params, passes := m.passes ++ [pass] }, none) := rfl

theorem params_addSpec (m : Manager) (spec : Spec) : (m.addSpec spec).1.params = (m.optionsFor spec).params := by
  rw [addSpec_eq]
  cases Pass.create spec.name (m.optionsFor spec) <;> rfl

/-- The elements of a list that are configured: those up to the first that cannot be created. -/
def configured (m : Manager) : List Spec → List Event
  | [] => []
  | spec :: rest =>
    .element spec (m.optionsFor spec) ::
      match m.addSpec spec with
      | (m, none) => m.configured rest
      | (_, some _) => []

def respond (m : Manager) : Request → Manager
  | .setGlobal key value => m.setGlobal key value
  | .addPipeline text => (m.addPipeline text).1

def eventsOf (m : Manager) : Request → List Event
  | .setGlobal key value => [.global key value]
  | .addPipeline text =>
    match parsePipeline text with
    | .error _ => []
    | .ok specs => m.configured specs

/-- Everything that happens to the options while a manager is set up. -/
def events (m : Manager) : List Request → List Event
  | [] => []
  | request :: rest => m.eventsOf request ++ (m.respond request).events rest

/-- The options of a manager are those of the events: global ones in the outermost scope, and those of the
elements with a name in the scope of that name. -/
structure Recorded (es : List Event) (m : Manager) : Prop where
  separator : m.params.separator = Options.rootScope
  global : ∀ key, m.params.entries.lookup (Options.rootScope, key) = (latest (Event.global? key) es).map .str
  option : ∀ name key, name ≠ "" → m.params.entries.lookup (Options.rootScope ++ name, key) =
    (latest (Event.option? name key) es).map .str

namespace Recorded

variable {es : List Event} {m : Manager} {spec : Spec}

theorem child_ne_root (h : name ≠ "") : Options.rootScope ++ name ≠ Options.rootScope := by
  intro he
  have := congrArg String.toList he
  rw [String.toList_append] at this
  exact h (String.toList_eq_nil_iff.mp (by simpa using this))

theorem child_inj {a b : String} (h : Options.rootScope ++ a = Options.rootScope ++ b) : a = b := by
  have := congrArg String.toList h
  rw [String.toList_append, String.toList_append] at this
  exact String.toList_inj.mp (append_cancel_left this)

theorem setGlobal (h : Recorded es m) (key value : String) :
    Recorded (es ++ [.global key value]) (m.setGlobal key value) := by
  refine ⟨h.separator, fun k => ?_, fun name k hn => ?_⟩
  · rw [latest_append, Manager.setGlobal, Params.lookup_set, h.global]
    by_cases hk : k = key
    · simp [Event.global?, hk]
    · simp [Event.global?, hk, Ne.symm hk]
  · rw [latest_append, Manager.setGlobal, Params.lookup_set, h.option name k hn,
      if_neg fun he => child_ne_root hn (congrArg Prod.fst he)]
    rfl

theorem scope_eq (h : Recorded es m) : (m.optionsFor spec).scope = Options.rootScope ++ spec.name := by
  rw [optionsFor, Params.join, h.separator, if_pos rfl]

theorem lookup_optionsFor (h : Recorded es m) (hs : spec.Parsed) (k : String × String) :
    (m.optionsFor spec).params.entries.lookup k =
      if k.1 = Options.rootScope ++ spec.name then
        ((spec.own? k.2).map .str).or (m.params.entries.lookup k)
      else m.params.entries.lookup k := by
  rw [← h.scope_eq]
  exact Params.lookup_setAll _ k _ _ hs.sorted.nodup

theorem addSpec (h : Recorded es m) (hs : spec.Parsed) (options : Options) :
    Recorded (es ++ [.element spec options]) (m.addSpec spec).1 := by
  refine ⟨?_, fun k => ?_, fun name k hn => ?_⟩
  · rw [params_addSpec, optionsFor, Params.separator_setAll, h.separator]
  · rw [params_addSpec, h.lookup_optionsFor hs, if_neg (Ne.symm (child_ne_root hs.name)), h.global, latest_append]
    rfl
  · rw [params_addSpec, h.lookup_optionsFor hs, h.option name k hn, latest_append, Event.option?]
    by_cases he : spec.name = name
    · subst he
      rw [if_pos rfl, if_pos rfl, Option.map_or]
    · rw [if_neg fun hc => he (child_inj hc).symm, if_neg he]
      rfl

theorem value?_optionsFor (h : Recorded es m) (hs : spec.Parsed) (hn : '/' ∉ spec.name.toList) (key : String) :
    (m.optionsFor spec).value? key =
      ((spec.own? key).or
        ((latest (Event.option? spec.name key) es).or (latest (Event.global? key) es))).map .str := by
  have hsep : (m.optionsFor spec).params.separator = Options.rootScope := by
    rw [optionsFor, Params.separator_setAll, h.separator]
  rw [Options.value?, h.scope_eq, Params.get?_child _ hsep hs.name hn, h.lookup_optionsFor hs,
    h.lookup_optionsFor hs, if_pos rfl, if_neg (Ne.symm (child_ne_root hs.name)), h.option _ _ hs.name, h.global]
  simp only [Option.map_or, Option.or_assoc]

end Recorded

/-- Every element among the later events was configured by a manager that holds the options of all events
before it. -/
def Explained (earlier later : List Event) : Prop :=
  ∀ before spec options after, later = before ++ .element spec options :: after →
    ∃ m, Recorded (earlier ++ before) m ∧ options = optionsFor m spec ∧ spec.Parsed

namespace Explained

variable {es l l' : List Event}

theorem nil (es : List Event) : Explained es [] := by
  intro before spec options after h
  simp at h

theorem append (h : Explained es l) (h' : Explained (es ++ l) l') : Explained es (l ++ l') := by
  intro before spec options after he
  rcases append_eq_append_iff.mp he with ⟨rest, rfl, hl'⟩ | ⟨rest, rfl, hl⟩
  · obtain ⟨m, hm, ho, hs⟩ := h' rest spec options after hl'
    exact ⟨m, by rwa [append_assoc] at hm, ho, hs⟩
  · cases rest with
    | nil =>
      obtain ⟨m, hm, ho, hs⟩ := h' [] spec options after (by simpa using hl.symm)
      exact ⟨m, by simpa using hm, ho, hs⟩
    | cons e rest =>
      rw [cons_append, List.cons.injEq] at hl
      exact h before spec options rest (by rw [hl.1])

theorem global (es : List Event) (key value : String) : Explained es [.global key value] := by
  intro before spec options after h
  rcases before with _ | ⟨e, before⟩
  · simp at h
  · simp at h

theorem element (h : Recorded es m) (hs : spec.Parsed) :
    Explained es [.element spec (m.optionsFor spec)] := by
  intro before spec' options after he
  rcases before with _ | ⟨e, before⟩
  · simp only [nil_append, List.cons.injEq, Event.element.injEq] at he
    obtain ⟨⟨rfl, rfl⟩, _⟩ := he
    exact ⟨m, by simpa using h, rfl, hs⟩
  · simp at he

end Explained

namespace Recorded

theorem configured : ∀ {specs : List Spec} {es : List Event} {m : Manager}, Recorded es m →
    (∀ spec ∈ specs, spec.Parsed) →
      Recorded (es ++ m.configured specs) (m.addSpecs specs).1 ∧ Explained es (m.configured specs)
  | [], es, m, h, _ => by simpa [Manager.configured, addSpecs] using ⟨h, Explained.nil es⟩
  | spec :: rest, es, m, h, hs => by
    have hspec := hs spec (mem_cons_self ..)
    have hfirst := Explained.element h hspec
    have hnext := h.addSpec hspec (m.optionsFor spec)
    rw [Manager.configured, addSpecs]
    cases hadd : m.addSpec spec with
    | mk m' e =>
      rw [hadd] at hnext
      cases e with
      | some e => exact ⟨hnext, hfirst⟩
      | none =>
        obtain ⟨hrest, hex⟩ := configured hnext fun x hx => hs x (mem_cons_of_mem _ hx)
        exact ⟨by simpa using hrest, hfirst.append hex⟩

theorem respond {es : List Event} (h : Recorded es m) (request : Request) :
    Recorded (es ++ m.eventsOf request) (m.respond request) ∧ Explained es (m.eventsOf request) := by
  cases request with
  | setGlobal key value => exact ⟨h.setGlobal key value, .global es key value⟩
  | addPipeline text =>
    rw [Manager.respond, eventsOf, addPipeline]
    cases hp : parsePipeline text with
    | error e => exact ⟨by simpa using h, .nil es⟩
    | ok specs => exact h.configured ((parsePipeline_ok.mp hp).forall fun h => h.parsed)

theorem explained : ∀ {requests : List Request} {es : List Event} {m : Manager}, Recorded es m →
    Explained es (m.events requests)
  | [], es, _, _ => .nil es
  | request :: _, _, _, h =>
    have ⟨hnext, hex⟩ := h.respond request
    hex.append (explained hnext)

end Recorded

def IsNew (m : Manager) : Prop := m.params.separator = Options.rootScope ∧ m.params.entries = []

theorem IsNew.recorded (h : m.IsNew) : Recorded [] m :=
  ⟨h.1, fun _ => by rw [h.2]; rfl, fun _ _ _ => by rw [h.2]; rfl⟩

theorem not_separator_mem_of_registered : ∀ name ∈ registered, '/' ∉ name.toList := by decide

theorem scope_of_events (hm : m.IsNew) (he : m.events requests = before ++ .element spec options :: after) :
    options.scope = Options.rootScope ++ spec.name := by
  obtain ⟨m', hm', rfl, _⟩ := hm.recorded.explained before spec options after he
  exact hm'.scope_eq

theorem value?_of_events (hm : m.IsNew) (hr : spec.name ∈ registered)
    (he : m.events requests = before ++ .element spec options :: after) (key : String) :
    options.value? key =
      ((spec.own? key).or
        ((latest (Event.option? spec.name key) before).or (latest (Event.global? key) before))).map .str := by
  obtain ⟨m', hm', rfl, hs⟩ := hm.recorded.explained before spec options after he
  exact hm'.value?_optionsFor hs (not_separator_mem_of_registered _ hr) key

/-- However a manager is set up, a configured element reads its own option, or else the value last given to
an element of its name before it, or else the global value. So the options of other elements matter exactly
if an earlier element with its name was given an option that it is not given itself, with a value other than
the global one; and elements with other names never matter. -/
theorem reads_own_or_global_iff (m : Manager) (requests : List Request) (before after : List Event) (spec : Spec)
    (options : Options) (hm : m.IsNew) (hr : spec.name ∈ registered)
    (he : m.events requests = before ++ .element spec options :: after) :
    (∀ key default, options.string key default = ((spec.own? key).or
      ((latest (Event.option? spec.name key) before).or (latest (Event.global? key) before))).getD default) ∧
    (∀ key, options.value? key = ((spec.own? key).or (latest (Event.global? key) before)).map .str ↔
      (spec.own? key).isSome ∨ latest (Event.option? spec.name key) before = none ∨
        latest (Event.option? spec.name key) before = latest (Event.global? key) before) ∧
    ∀ requests' before' after' options',
      m.events requests' = before' ++ .element spec options' :: after' →
      (∀ key, latest (Event.option? spec.name key) before' = latest (Event.option? spec.name key) before) →
      (∀ key, latest (Event.global? key) before' = latest (Event.global? key) before) →
        options'.string = options.string ∧ options'.int = options.int ∧ options'.bool = options.bool := by
  have hvalue := value?_of_events hm hr he
  refine ⟨fun key default => options.string_eq key default (hvalue key), fun key => ?_,
    fun requests' before' after' options' he' hoption hglobal => ?_⟩
  · have hinj : Function.Injective (Option.map OptionValue.str) :=
      Option.map_injective fun _ _ h => OptionValue.str.inj h
    rw [hvalue, hinj.eq_iff]
    cases spec.own? key <;> cases latest (Event.option? spec.name key) before <;> simp
  · refine Options.lookups_eq ((scope_of_events hm he').trans (scope_of_events hm he).symm) ?_
    funext key
    rw [value?_of_events hm hr he' key, hvalue, hoption, hglobal]

/-- The second of two elements of one name reads the option of the first, though neither it nor the manager
has one; and changing the option of the first changes what the second reads. -/
theorem later_reads_earlier : ∃ o₁ o₂ o₃ o₄,
    (default : Manager).events [.addPipeline "convert-tiled-cinm-to-cnm\x7bworkgroup=3\x7d,convert-tiled-cinm-to-cnm"] =
      [.element ⟨"convert-tiled-cinm-to-cnm", some [("workgroup", "3")]⟩ o₁,
        .element ⟨"convert-tiled-cinm-to-cnm", none⟩ o₂] ∧
    (default : Manager).events [.addPipeline "convert-tiled-cinm-to-cnm\x7bworkgroup=2\x7d,convert-tiled-cinm-to-cnm"] =
      [.element ⟨"convert-tiled-cinm-to-cnm", some [("workgroup", "2")]⟩ o₃,
        .element ⟨"convert-tiled-cinm-to-cnm", none⟩ o₄] ∧
    o₂.string "workgroup" "4x16" = "3" ∧ o₄.string "workgroup" "4x16" = "2" :=
  ⟨_, _, _, _, rfl, rfl, rfl, rfl⟩

/-- A global option, and an element after one of its name that was given a workgroup. -/
theorem reads_own_or_global_iff_repeated : ∃ o₁ o₂,
    (default : Manager).events [.setGlobal "max-iterations" "5",
        .addPipeline "convert-tiled-cinm-to-cnm\x7bworkgroup=3\x7d,convert-tiled-cinm-to-cnm"] =
      [.global "max-iterations" "5", .element ⟨"convert-tiled-cinm-to-cnm", some [("workgroup", "3")]⟩ o₁,
        .element ⟨"convert-tiled-cinm-to-cnm", none⟩ o₂] ∧
    o₂.string "workgroup" "4x16" = "3" ∧ o₂.string "max-iterations" "" = "5" := by
  refine ⟨_, _, rfl, ?_⟩
  have h := reads_own_or_global_iff default [.setGlobal "max-iterations" "5",
    .addPipeline "convert-tiled-cinm-to-cnm\x7bworkgroup=3\x7d,convert-tiled-cinm-to-cnm"]
    [.global "max-iterations" "5", .element ⟨"convert-tiled-cinm-to-cnm", some [("workgroup", "3")]⟩ _] []
    ⟨"convert-tiled-cinm-to-cnm", none⟩ _ ⟨rfl, rfl⟩ (by decide) rfl
  exact ⟨h.1 "workgroup" "4x16", h.1 "max-iterations" ""⟩

end Manager

end Offload.Pass
