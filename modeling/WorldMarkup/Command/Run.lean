import WorldMarkup.Command.Arguments
import WorldMarkup.Form.Rework
import WorldMarkup.Json.Form
import WorldMarkup.Json.Reader
import WorldMarkup.Json.Writer
import WorldMarkup.Layout.Print
import WorldMarkup.Markup.Parse
import WorldMarkup.World.Naming
import WorldMarkup.World.Walk

/-!
Carrying out a command: from the contents of files to what is written to the two outputs.
-/

set_option autoImplicit false
set_option relaxedAutoImplicit false

namespace WorldMarkup.Command

open Layout (Page)

/-- What a run leaves behind. -/
structure Outcome where
  code : Nat := 0
  stdout : String := ""
  stderr : String := ""

abbrev Files : Type := String → Option String

def configName : String := "wml.config.json"

/-- Settings: the page, and whether nodes without a name are given one. -/
structure Config where
  page : Page := {}
  assignIds : Bool := false

def pageOfJson? (v : Json) : Option Page := do
  let ms ← v.fields? ["width", "indent"]
  let page : Page := {}
  let width ← Json.orElse ms "width" page.width Json.nat?
  let indent ← Json.orElse ms "indent" page.indent Json.string?
  pure { width, indent }

def Config.ofJson? (v : Json) : Option Config := do
  let ms ← v.fields? ["print", "assignIds"]
  let page ← Json.orElse ms "print" {} pageOfJson?
  let assignIds ← Json.orElse ms "assignIds" false Json.bool?
  pure { page, assignIds }

def nestingLimit : Nat := 127

def loadConfig (files : Files) : Except String Config :=
  match files configName with
  | none => .ok {}
  | some text =>
    match (Json.read? (some nestingLimit) text).bind Config.ofJson? with
    | some config => .ok config
    | none => .error (configName ++ " is not a settings file")

def PageOverride.apply (o : PageOverride) (page : Page) : Page :=
  { width := o.width.getD page.width, indent := o.indent.getD page.indent }

def readTree (files : Files) (path : String) : Except String (Forest Tag) :=
  match files path with
  | none => .error ("Cannot read " ++ path)
  | some text =>
    match (Json.read? (some nestingLimit) text).bind Forest.tagsOfJson? with
    | some t => .ok t
    | none => .error (path ++ " is not a JSON tree")

/-- Read the documents in order; if wanted, nodes are given names that start from the path. -/
def readInputs (files : Files) (assignIds : Bool) (paths : List String) :
    Except String (List (Forest Tag)) :=
  paths.mapM (fun path => do
    let t ← readTree files path
    pure (if assignIds then ((Naming.ofPath path).assignMissing t).1 else t))

def failed (before : Outcome) (message : String) : Outcome :=
  { before with code := 1, stderr := before.stderr ++ "\nError: " ++ message ++ "\n\n" }

def orFail {ε α : Type} (before : Outcome) (message : ε → String) (go : α → Outcome) :
    Except ε α → Outcome
  | .ok x => go x
  | .error e => failed before (message e)

def writeForm (config : Config) (format : OutputFormat) (page : PageOverride) (before : Outcome)
    (f : Form) : Outcome :=
  let done (text : String) : Outcome :=
    { before with
      stdout := text
      stderr := before.stderr ++ "✓ " ++ toString f.order.length ++ " component(s) in '" ++
        f.key ++ "'\n" }
  match format with
  | .json => done (f.toJson.pretty ++ "\n")
  | .text => orFail before Layout.PrintError.message done
      (Layout.print (page.apply config.page) f.schema)

def runStandardize (files : Files) (inputs : List String) (format : OutputFormat)
    (dependencies : Bool) (page : PageOverride) : Outcome :=
  orFail {} id (fun config =>
    orFail {} id (fun trees =>
      let before : Outcome :=
        { stderr := "Standardizing " ++ toString trees.length ++ " input(s)\n" }
      let form := do
        let f ← standardize trees
        if dependencies then f.assignDependencies Expression.identifiers else pure f
      orFail before FormError.message (writeForm config format page before) form)
    (readInputs files config.assignIds inputs)) (loadConfig files)

/-- Print a document; if wanted, only when the text reads back as the document. -/
def runPrint (files : Files) (input : String) (page : PageOverride) (verify : Bool) : Outcome :=
  orFail {} id (fun config =>
    orFail {} id (fun t =>
      orFail {} Layout.PrintError.message (fun text =>
        if verify then
          orFail {} Markup.ReadError.message (fun u =>
            if u = t then { stdout := text }
            else failed {} ("Printed text of " ++ input ++
              " does not read back to the same tree")) (Markup.parse text)
        else { stdout := text })
      (Layout.print (page.apply config.page) t))
    (readTree files input)) (loadConfig files)

def runRecords (files : Files) (inputs : List String) : Outcome :=
  orFail {} id (fun config =>
    orFail {} id (fun trees =>
      orFail {} FormError.message (fun f =>
        { stdout := (Json.array (f.records.map Record.toJson)).pretty ++ "\n"
          stderr := "✓ " ++ toString f.records.length ++ " record(s)\n" })
      (standardize trees))
    (readInputs files config.assignIds inputs)) (loadConfig files)

structure Census where
  entities : Nat := 0
  conditions : Nat := 0

/-- Counts entities other than computed values, and conditions. -/
def Census.observer : Observer Census where
  entity _ _ c := { c with entities := c.entities + 1 }
  statement _ c := { c with conditions := c.conditions + 1 }

def checkTree (files : Files) (path : String) : Except String Census := do
  let t ← readTree files path
  match Forest.documentFault? t with
  | some e => throw e.message
  | none => pure (Census.observer.walk {} t)

def checkAll (files : Files) : List String → Nat × Outcome
  | [] => (0, {})
  | path :: rest =>
    let (failures, later) := checkAll files rest
    match checkTree files path with
    | .ok c =>
      (failures, { later with
        stdout := "  ✓ " ++ path ++ " (" ++ toString c.entities ++ " entities, " ++
          toString c.conditions ++ " conditions)\n" ++ later.stdout })
    | .error message =>
      (failures + 1, { later with
        stderr := "  ✗ " ++ path ++ " - " ++ message ++ "\n" ++ later.stderr })

def runCheck (files : Files) (inputs : List String) : Outcome :=
  let (failures, out) := checkAll files inputs
  let out := { out with stdout := out.stdout ++ "\n" }
  let count := toString inputs.length
  if 0 < failures then
    failed out (toString failures ++ " of " ++ count ++ " file(s) failed validation")
  else { out with stdout := out.stdout ++ "✅ " ++ count ++ " file(s) valid\n" }

def Request.run (files : Files) : Request → Outcome
  | .standardize inputs format dependencies page =>
    runStandardize files inputs format dependencies page
  | .print input page verify => runPrint files input page verify
  | .records inputs => runRecords files inputs
  | .check inputs => runCheck files inputs

def Request.inputs : Request → List String
  | .standardize inputs .. => inputs
  | .print input .. => [input]
  | .records inputs => inputs
  | .check inputs => inputs

def usageText : String :=
  "Usage: wml [-v] <COMMAND>\n\n" ++
  "Commands:\n" ++
  "  standardize <INPUTS>... [-f json|text] [--dependencies] [-w WIDTH] [--indent INDENT]\n" ++
  "  print <INPUT> [-w WIDTH] [--indent INDENT] [--verify]\n" ++
  "  records <INPUTS>...\n" ++
  "  check <INPUTS>...\n"

def run (files : Files) (args : List String) : Outcome :=
  match parse {} args with
  | .ok request => request.run files
  | .error .usage => { code := 2, stderr := usageText }
  | .error .help => { stdout := usageText }
  | .error .version => { stdout := "wml 0.1.0\n" }

end WorldMarkup.Command
