import WorldMarkup.Command.Run

/-!
The program: reads the files that its command line names, and writes what comes of them.
-/

set_option autoImplicit false
set_option relaxedAutoImplicit false

namespace WorldMarkup

def readFile? (path : String) : IO (Option String) := do
  try
    pure (some (← IO.FS.readFile path))
  catch _ => pure none

def readFiles (args : List String) : IO Command.Files := do
  let paths := match Command.parse {} args with
    | .ok request => Command.configName :: request.inputs
    | .error _ => []
  let contents ← paths.mapM (fun path => do pure (path, ← readFile? path))
  pure (fun path => (contents.find? (fun x => x.1 == path)).bind Prod.snd)

end WorldMarkup

open WorldMarkup in
def main (args : List String) : IO UInt32 := do
  let outcome := Command.run (← readFiles args) args
  IO.print outcome.stdout
  IO.eprint outcome.stderr
  pure outcome.code.toUInt32
