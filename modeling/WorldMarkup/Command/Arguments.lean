/-!
The command line. Options may stand before and after the files; those of one letter may be run
together, and a value may follow its option directly, after an equals sign, or as the next
argument. Two dashes end the options.
-/

set_option autoImplicit false
set_option relaxedAutoImplicit false

namespace WorldMarkup.Command

/-- An option by its names. One that takes a value tells which values it accepts. -/
structure Switch where
  short : Option Char := none
  long : String
  accepts : Option (String → Bool) := none

namespace Switch

def takesValue (s : Switch) : Bool := s.accepts.isSome

/-- Whether the option may have the value; one that takes none stands with the empty text. -/
def admits (s : Switch) (value : String) : Bool := s.accepts.all (fun p => p value)

end Switch

/-- What a command takes: options, and files up to a number, if there is one. -/
structure Signature where
  switches : List Switch
  mostFiles : Option Nat := none

/-- Why a command line is not carried out. -/
inductive Stop
  | usage | help | version
  deriving DecidableEq

/-- The options and the other arguments, as far as read. -/
structure Given where
  options : List (String × String) := []
  files : List String := []

namespace Given

/-- The value of an option; the empty text for one that takes none. -/
def value? (g : Given) (long : String) : Option String :=
  (g.options.find? (fun x => x.1 == long)).map Prod.snd

def has (g : Given) (long : String) : Bool := (g.value? long).isSome

def add (g : Given) (s : Switch) (value : String) : Except Stop Given :=
  if s.long = "help" then .error .help
  else if s.long = "version" then .error .version
  else if g.has s.long || !s.admits value then .error .usage
  else .ok { g with options := g.options ++ [(s.long, value)] }

def addFile (most : Option Nat) (g : Given) (name : String) : Except Stop Given :=
  if name.isEmpty || most.any (fun n => n ≤ g.files.length) then .error .usage
  else .ok { g with files := g.files ++ [name] }

end Given

/-- Whether an argument is an option and not a value: it starts with a dash and is longer. -/
def isDashed (arg : String) : Bool :=
  match arg.toList with
  | '-' :: _ :: _ => true
  | _ => false

/-- What an argument with an option in full asks for: the next argument may be the value of an
option, and then of which. -/
def readLong (switches : List Switch) (g : Given) (body : List Char) :
    Except Stop (Given × Option Switch) :=
  let name := String.ofList (body.takeWhile (· != '='))
  match switches.find? (fun s => s.long == name), body.dropWhile (· != '=') with
  | some s, [] => if s.takesValue then .ok (g, some s) else (g.add s "").map (·, none)
  | some s, _ :: value =>
    if s.takesValue then (g.add s (String.ofList value)).map (·, none) else .error .usage
  | none, _ => .error .usage

/-- Options of one letter run together; the first that takes a value has the rest of the letters
as its value, or else the next argument. -/
def readLetters (switches : List Switch) (g : Given) :
    List Char → Except Stop (Given × Option Switch)
  | [] => .ok (g, none)
  | c :: rest =>
    match switches.find? (fun s => s.short == some c) with
    | none => .error .usage
    | some s =>
      if s.takesValue then
        match rest with
        | [] => .ok (g, some s)
        | '=' :: value => (g.add s (String.ofList value)).map (·, none)
        | value => (g.add s (String.ofList value)).map (·, none)
      else
        match g.add s "" with
        | .ok g => readLetters switches g rest
        | .error stop => .error stop

def readDashed (switches : List Switch) (g : Given) (arg : String) :
    Except Stop (Given × Option Switch) :=
  match arg.toList with
  | '-' :: '-' :: body => readLong switches g body
  | _ :: letters => readLetters switches g letters
  | [] => .error .usage

/-- Read arguments; `wanting` is the option whose value comes next. Each argument is judged as it
is read, so that the first one at fault or that asks for help decides. -/
def readFrom (sig : Signature) (g : Given) (wanting : Option Switch) :
    List String → Except Stop Given
  | [] => if wanting.isSome then .error .usage else .ok g
  | arg :: rest =>
    match wanting with
    | some s =>
      if isDashed arg then .error .usage
      else match g.add s arg with
        | .ok g => readFrom sig g none rest
        | .error stop => .error stop
    | none =>
      if arg == "--" then rest.foldlM (Given.addFile sig.mostFiles) g
      else if isDashed arg then
        match readDashed sig.switches g arg with
        | .ok (g, wanting) => readFrom sig g wanting rest
        | .error stop => .error stop
      else
        match g.addFile sig.mostFiles arg with
        | .ok g => readFrom sig g none rest
        | .error stop => .error stop

def natOf? (s : String) : Option Nat :=
  let ds := match s.toList with
    | '+' :: ds => ds
    | ds => ds
  if ds.isEmpty || !ds.all Char.isDigit then none
  else
    let n := ds.foldl (fun n c => n * 10 + (c.toNat - 48)) 0
    if n < UInt64.size then some n else none

/-- How a standard form is written. -/
inductive OutputFormat
  | json | text
  deriving DecidableEq

def OutputFormat.ofName? : String → Option OutputFormat
  | "json" => some .json
  | "text" => some .text
  | _ => none

structure PageOverride where
  width : Option Nat := none
  indent : Option String := none

inductive Request
  | standardize (inputs : List String) (format : OutputFormat) (dependencies : Bool)
    (page : PageOverride)
  | print (input : String) (page : PageOverride) (verify : Bool)
  | records (inputs : List String)
  | check (inputs : List String)

def verbose : Switch := { short := some 'v', long := "verbose" }

def help : Switch := { short := some 'h', long := "help" }

def version : Switch := { short := some 'V', long := "version" }

def width : Switch :=
  { short := some 'w', long := "width", accepts := some (fun v => (natOf? v).isSome) }

def indent : Switch := { long := "indent", accepts := some (fun _ => true) }

def format : Switch :=
  { short := some 'f', long := "format"
    accepts := some (fun v => (OutputFormat.ofName? v).isSome) }

def standardizeSignature : Signature :=
  { switches := [verbose, help, format, { long := "dependencies" }, width, indent] }

def printSignature : Signature :=
  { switches := [verbose, help, width, indent, { long := "verify" }], mostFiles := some 1 }

def plainSignature : Signature := { switches := [verbose, help] }

def someFiles (g : Given) : Except Stop (List String) :=
  if g.files.isEmpty then .error .usage else .ok g.files

def pageOf (g : Given) : PageOverride :=
  { width := (g.value? "width").bind natOf?, indent := g.value? "indent" }

def formatOf (g : Given) : OutputFormat :=
  ((g.value? "format").bind OutputFormat.ofName?).getD .json

def commandNames : List String := ["standardize", "print", "records", "check", "help"]

/-- Read the arguments of a command. Help is given on the whole or on one command. -/
def requestOf (name : String) (args : List String) : Except Stop Request :=
  match name with
  | "standardize" => do
    let g ← readFrom standardizeSignature {} none args
    pure (.standardize (← someFiles g) (formatOf g) (g.has "dependencies") (pageOf g))
  | "print" => do
    let g ← readFrom printSignature {} none args
    match g.files with
    | [input] => pure (.print input (pageOf g) (g.has "verify"))
    | _ => throw .usage
  | "records" => do pure (.records (← someFiles (← readFrom plainSignature {} none args)))
  | "check" => do pure (.check (← someFiles (← readFrom plainSignature {} none args)))
  | "help" =>
    match args with
    | [] => .error .help
    | [topic] => .error (if topic ∈ commandNames then .help else .usage)
    | _ => .error .usage
  | _ => .error .usage

/-- Read a command line: options that hold for every command, then the command. -/
def parse (g : Given) : List String → Except Stop Request
  | [] => .error .usage
  | arg :: rest =>
    if arg != "--" && isDashed arg then
      match readDashed [verbose, help, version] g arg with
      | .ok (g, _) => parse g rest
      | .error stop => .error stop
    else requestOf arg rest

end WorldMarkup.Command
