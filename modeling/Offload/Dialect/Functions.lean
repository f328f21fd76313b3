import Offload.IR.Builder
import Offload.IR.Registry

/-!
# Modules and functions

A module has one block, which lists its functions. A function has a name, a signature and a body whose
entry block takes the inputs; it ends by returning values of the result types.
-/

namespace Offload.Functions

def moduleName : String := "builtin.module"
def funcName : String := "func.func"
def returnName : String := "func.return"
def symbolAttr : String := "sym_name"
def signatureAttr : String := "function_type"

inductive Flaw where
  | moduleBody
  | noSymbol
  | noSignature (symbol : String)
  | noBody (symbol : String)
  | arguments (symbol : String) (signature : Ty)
  | outsideFunction
  | returned (symbol : String) (signature : Ty)
  deriving DecidableEq, Repr

def Flaw.message : Flaw → String
  | moduleBody => "module must have exactly one region with one block"
  | noSymbol => "function has no \"sym_name\" attribute"
  | noSignature f => "function " ++ Text.quote f ++ " has no \"function_type\" attribute"
  | noBody f => "function " ++ Text.quote f ++ " has no body"
  | arguments f t =>
    "function " ++ Text.quote f ++ " entry block arguments don't match its signature " ++ t.render
  | outsideFunction => "must be nested directly in a function"
  | returned f t => "returned types don't match the results of function " ++ Text.quote f ++ ": " ++ t.render

def symbol (o : Op) : String := ((o.attr? symbolAttr).bind Attr.str?).getD ""

def signature? (o : Op) : Option (List Ty × List Ty) := (o.attr? signatureAttr).bind Attr.signature?

section Checks

variable (p : Program) (i : OpId)

def checkModule : Except Flaw Unit :=
  match (p.op i).regions with
  | [[_]] => .ok ()
  | _ => .error .moduleBody

/-- The body is looked up in the first region, which has to be there. -/
def checkFunc : Except (Option Flaw) Unit :=
  let o := p.op i
  if symbol o = "" then .error (some .noSymbol)
  else
    match signature? o with
    | none => .error (some (.noSignature (symbol o)))
    | some (inputs, results) =>
      match o.regions with
      | [] => .error none
      | [] :: _ => .error (some (.noBody (symbol o)))
      | (entry :: _) :: _ =>
        Ty.demand (p.argTypes entry) inputs (.arguments (symbol o) (.function inputs results))

def checkReturn : Except (Option Flaw) Unit :=
  match (p.parent? i).map p.op with
  | some f =>
    if f.name = funcName then
      match signature? f with
      | some (inputs, results) =>
        Ty.demand ((p.op i).operands.filterMap p.slotType?) results (.returned (symbol f) (.function inputs results))
      | none => .ok ()
    else .error (some .outsideFunction)
  | none => .error (some .outsideFunction)

end Checks

def registry : Registry :=
  [{ name := moduleName, traits := { isolated := true }
     check := fun p i => (checkModule p i).mapError (.violation ·.message) },
   { name := funcName, traits := { isolated := true }
     check := fun p i => (checkFunc p i).mapError (.of Flaw.message) },
   { name := returnName, traits := { terminator := true }
     check := fun p i => (checkReturn p i).mapError (.of Flaw.message) }]

/-! ## Building -/

def newModule : Edit OpId := do
  let m ← Edit.newOp { name := moduleName, regions := 1 }
  discard (Edit.newBlock m 0 [])
  return m

def addFunc (module : OpId) (name : String) (inputs results : List Ty) : Edit (OpId × BlockId) := do
  match (← get).entryBlock? module 0 with
  | none => throw .crash
  | some body =>
    let f ← Edit.newOp {
      name := funcName
      loc := name
      attrs := [(symbolAttr, .str name), (signatureAttr, .type (.function inputs results))]
      regions := 1 }
    Edit.append body f
    let entry ← Edit.newBlock f 0 (inputs.map some)
    return (f, entry)

def ret (values : List Slot) : Build OpId := Build.create { name := returnName, operands := values }

/-! ## Looking up -/

def funcs? (p : Program) (module : OpId) : Option (List OpId) :=
  (p.entryBlock? module 0).map fun b => (p.block b).ops.filter fun i => (p.op i).name = funcName

def lookup? (p : Program) (module : OpId) (name : String) : Option (Option OpId) :=
  (funcs? p module).map fun fs => fs.find? fun i => symbol (p.op i) = name

end Offload.Functions
