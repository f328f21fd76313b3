import Offload.Text.Blank
import Offload.Text.Quoted
import Offload.Text.Split

/-!
# Pipelines

A pipeline is a list of passes separated by commas. Options stand in braces behind a name, separated by
semicolons, as in `first{width=4;limit=64MiB},second`. Blanks around names, keys and values do not count.
-/

namespace Offload.Pass

abbrev OptionMap := List (String × String)

def OptionMap.put (key value : String) : OptionMap → OptionMap
  | [] => [(key, value)]
  | (k, v) :: rest =>
    if key < k then (key, value) :: (k, v) :: rest
    else if key = k then (key, value) :: rest
    else (k, v) :: OptionMap.put key value rest

structure Spec where
  name : String
  options : Option OptionMap := none
  deriving DecidableEq, Repr

def Spec.render (s : Spec) : String :=
  match s.options.getD [] with
  | [] => s.name
  | options => s.name ++ "\x7b" ++ ";".intercalate (options.map fun (k, v) => k ++ "=" ++ v) ++ "\x7d"

def renderPipeline (specs : List Spec) : String := ",".intercalate (specs.map Spec.render)

inductive OptionError where
  | form (part : String)
  | value (key value : String)
  deriving DecidableEq, Repr

inductive PipelineError where
  | emptyName
  | unclosed (name : String)
  | option (name : String) (cause : OptionError)
  | junk (name rest : String)
  | trailingComma
  deriving DecidableEq, Repr

def OptionError.message : OptionError → String
  | form part => "invalid option " ++ Text.quote part ++ ", it must be formatted as key=value"
  | value key v => "invalid value for option " ++ Text.quote key ++ ": " ++ Text.quote v

def PipelineError.message (pipeline : String) : PipelineError → String
  | emptyName => "pipeline " ++ Text.quote pipeline ++ ": empty pass name"
  | unclosed name =>
    "pipeline " ++ Text.quote pipeline ++ ": missing \"\x7d\" for the options of pass " ++ Text.quote name
  | option name cause =>
    "pipeline " ++ Text.quote pipeline ++ ", pass " ++ Text.quote name ++ ": " ++ cause.message
  | junk name rest =>
    "pipeline " ++ Text.quote pipeline ++ ": expected \",\" after pass " ++ Text.quote name ++ ", got " ++
      Text.quote rest
  | trailingComma => "pipeline " ++ Text.quote pipeline ++ ": trailing \",\""

def parseOption (part : List Char) : Except OptionError (String × String) :=
  let key := Text.trim (part.takeWhile (· ≠ '='))
  match part.dropWhile (· ≠ '=') with
  | [] => .error (.form (String.ofList part))
  | _ :: value =>
    if key.isEmpty then .error (.form (String.ofList part))
    else if value.any fun c => c = '\x7b' || c = '\x7d' then
      .error (.value (String.ofList key) (String.ofList value))
    else .ok (String.ofList key, String.ofList (Text.trim value))

def parseOptionParts (options : OptionMap) : List (List Char) → Except OptionError OptionMap
  | [] => .ok options
  | part :: rest =>
    let part := Text.trim part
    if part.isEmpty then parseOptionParts options rest
    else
      match parseOption part with
      | .error e => .error e
      | .ok (key, value) => parseOptionParts (options.put key value) rest

def parseOptions (text : List Char) : Except OptionError OptionMap :=
  parseOptionParts [] (Text.split ';' text)

def parseBraces (name : String) : List Char → Except PipelineError (Option OptionMap × List Char)
  | '\x7b' :: rest =>
    let inside := rest.takeWhile (· ≠ '\x7d')
    match rest.dropWhile (· ≠ '\x7d') with
    | [] => .error (.unclosed name)
    | _ :: after =>
      match parseOptions inside with
      | .error e => .error (.option name e)
      | .ok options => .ok (some options, Text.trim after)
  | rest => .ok (none, rest)

/-- The first pass of a text that is not blank, and what comes after the comma behind it. -/
def parseSpec (text : List Char) : Except PipelineError (Spec × List Char) := do
  let stop : Char → Bool := fun c => c = ',' || c = '\x7b'
  let name := String.ofList (Text.trim (text.takeWhile (!stop ·)))
  if name.isEmpty then throw .emptyName
  let (options, rest) ← parseBraces name (text.dropWhile (!stop ·))
  match rest with
  | [] => return (⟨name, options⟩, [])
  | ',' :: rest =>
    match Text.trim rest with
    | [] => throw .trailingComma
    | rest => return (⟨name, options⟩, rest)
  | rest => throw (.junk name (String.ofList rest))

/-- The passes of a text. Every pass takes at least one character, so `fuel` is never used up when it
starts as the length of the text. -/
def parseSpecs : Nat → List Char → Except PipelineError (List Spec)
  | _, [] => .ok []
  | 0, _ => .ok []
  | fuel + 1, text => do
    let (spec, rest) ← parseSpec text
    return spec :: (← parseSpecs fuel rest)

def parsePipeline (pipeline : String) : Except PipelineError (List Spec) :=
  let text := Text.trim pipeline.toList
  parseSpecs text.length text

end Offload.Pass
