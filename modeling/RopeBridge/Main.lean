import RopeBridge.CommandLine

/-! The program: answers its command line. -/

open RopeBridge

/-- Why a file cannot be read, in the words of the system. -/
def reason : IO.Error → String
  | .noFileOrDirectory _ code _ => s!"No such file or directory (os error {code})"
  | error => error.toString

def main (args : List String) : IO Unit := do
  let (text, unread) ← match CommandLine.optionsPath? args with
    | some path =>
      try pure (some (← IO.FS.readFile path), "") catch error => pure (none, reason error)
    | none => pure (none, "")
  let output := CommandLine.run args (fun _ => text) { unread := fun _ => unread }
  IO.print output.out
  IO.eprint output.err
