import RopeBridge.Options.Reader
import RopeBridge.Rope.Render
import RopeBridge.Stats

/-! The command line: words that become leaves of a rope, put together from left to right and shown
as text, outline or tree. Flags may stand anywhere; of a flag given twice the last value counts. -/

namespace RopeBridge.CommandLine

structure Output where
  out : String := ""
  err : String := ""
deriving DecidableEq

structure Request where
  showStats : Bool
  options : Options
  encoding : Encoding
  times : Option Nat
  window : Option (Nat × Nat)
  words : List String

def help : String := "\n".intercalate [
  "rbrope CLI",
  "",
  "Usage:",
  "  rbrope dump <text> [<text> ...]",
  "  rbrope structure <text> [<text> ...]",
  "  rbrope debug <text> [<text> ...]",
  "",
  "Each <text> becomes a leaf; the leaves are concatenated left to right.",
  "",
  "Flags:",
  "  --encoding <name>        Encoding of the leaves (default: UTF-8)",
  "  --repeat <n>             Repeat the concatenation n times",
  "  --slice <offset>:<len>   Take a byte substring of the result",
  "  --options <file>         Load options from a JSON file",
  "  --stats                  Print bridge and scan counters afterwards",
  ""]

/-- Takes every occurrence of a flag and the word after it out of `words`, and keeps the last value.
Fails if the flag is the last word. -/
def takeValue? (flag : String) : List String → Option (Option String × List String)
  | [] => some (none, [])
  | [word] => if word = flag then none else some (none, [word])
  | word :: next :: rest =>
    if word = flag then
      (takeValue? flag rest).map fun (later, words) => (later.or (some next), words)
    else (takeValue? flag (next :: rest)).map fun (value, words) => (value, word :: words)

/-- The value of a flag and the words without it, or how to use the flag. -/
def takeFlag (flag usage : String) (words : List String) :
    Except String (Option String × List String) :=
  match takeValue? flag words with
  | some taken => .ok taken
  | none => .error s!"Usage: rbrope <command> {flag} {usage}\n"

def complaint (text : String) : String := "Error: " ++ text ++ "\n"

/-- A natural number below 2^64 in decimal, with or without a plus sign in front. -/
def count? (cs : List Char) : Option Nat :=
  let digits := match cs with
    | '+' :: rest => rest
    | cs => cs
  if digits = [] ∨ !digits.all Char.isDigit then none
  else
    let n := digits.foldl (fun n d => 10 * n + (d.toNat - 48)) 0
    if n < lengthLimit then some n else none

def window? (cs : List Char) : Option (Nat × Nat) := do
  match cs.dropWhile (· ≠ ':') with
  | [] => none
  | _ :: length => return (← count? (cs.takeWhile (· ≠ ':')), ← count? length)

/-- What the outside says of options that cannot be had. -/
structure Reasons where
  /-- Why the file at a path cannot be read. -/
  unread : String → String := fun _ => "No such file or directory (os error 2)"
  /-- What is wrong with a text that is not one of options. -/
  malformed : String → String := fun _ => ""

def loadOptions (files : String → Option String) (reasons : Reasons) (path : String) :
    Except String Options :=
  match files path with
  | none => .error (complaint s!"failed to read options file {path}: {reasons.unread path}")
  | some text =>
    match Options.ofJson? text with
    | some options => .ok options
    | none => .error (complaint s!"invalid options: {reasons.malformed text}")

/-- Reads an optional flag value, or complains about it. -/
def readFlag {α : Type} (value : Option String) (absent : α) (read? : String → Option α)
    (problem : String → String) : Except String α :=
  match value with
  | none => .ok absent
  | some text =>
    match read? text with
    | some a => .ok a
    | none => .error (complaint (problem text))

def readOptions (files : String → Option String) (reasons : Reasons) :
    Option String → Except String Options
  | none => .ok {}
  | some path => loadOptions files reasons path

def readEncoding (name : Option String) : Except String Encoding :=
  readFlag name .utf8 Encoding.ofName? fun name => s!"unknown encoding `{name}`."

def readTimes (times : Option String) : Except String (Option Nat) :=
  readFlag times none (fun text => (count? text.toList).map some)
    fun _ => "--repeat expects a non-negative integer."

def readWindow (window : Option String) : Except String (Option (Nat × Nat)) :=
  readFlag window none (fun text => (window? text.toList).map some)
    fun _ => "--slice expects <offset>:<len>."

/-- Reads the flags one after the other; the first that cannot be read is reported. -/
def readRequest (args : List String) (files : String → Option String) (reasons : Reasons := {}) :
    Except String Request := do
  let words := args.filter (· ≠ "--stats")
  let (path, words) ← takeFlag "--options" "<file>" words
  let options ← readOptions files reasons path
  let (name, words) ← takeFlag "--encoding" "<name>" words
  let encoding ← readEncoding name
  let (times, words) ← takeFlag "--repeat" "<n>" words
  let times ← readTimes times
  let (window, words) ← takeFlag "--slice" "<offset>:<len>" words
  let window ← readWindow window
  return ⟨args.contains "--stats", options, encoding, times, window, words⟩

/-- Puts the words together, then repeats and cuts the result as requested. -/
def assemble (r : Request) (texts : List String) : Build Rope := do
  let mut rope := Rope.empty r.encoding
  for text in texts do
    let leaf ← Rope.ofBytes r.encoding text.toUTF8.toList .unknown
    rope ← Rope.concatWithin r.options.flattenDepth rope leaf
  if let some times := r.times then rope ← rope.replicate times
  if let some (offset, length) := r.window then rope ← rope.substring offset length
  return rope

def rendering? (command : String) (rope : Rope) : Option (Query String) :=
  match command with
  | "dump" => some (return (← rope.escapes) ++ "\n")
  | "structure" => some (return (← rope.outline) ++ "\n")
  | "debug" => some (return rope.tree (← get) true)
  | _ => none

/-- What a command prints; the counters follow if they were asked for. -/
def perform (r : Request) (command : String) (texts : List String) : Output :=
  let (built, ledger) := (assemble r texts).run.run Ledger.initial
  match built with
  | .error fault => { err := complaint fault.message }
  | .ok rope =>
    match rendering? command rope with
    | none => { out := help, err := complaint s!"unknown command `{command}`" }
    | some render =>
      let (text, ledger) := render.run ledger
      let stats : BridgeStats := { scans := .ofLog ledger.log }
      { out := text ++ if r.showStats then "\n" ++ stats.report else "" }

/-- What a request comes to. -/
def answer (r : Request) : Output :=
  match r.words with
  | [] => { out := help }
  | command :: texts =>
    if command = "--help" ∨ command = "-h" then { out := help }
    else if texts = [] then { err := s!"Usage: rbrope {command} <text> [<text> ...]\n" }
    else perform r command texts

/-- What is printed for a request, or for the reason why there is none. -/
def outcome : Except String Request → Output
  | .error text => { err := text }
  | .ok request => answer request

/-- Answers the words after the name of the program. `files` gives the content of files. -/
def run (args : List String) (files : String → Option String) (reasons : Reasons := {}) : Output :=
  outcome (readRequest args files reasons)

/-- The file that a command line names, if it names one. -/
def optionsPath? (args : List String) : Option String := do
  (← takeValue? "--options" (args.filter (· ≠ "--stats"))).1

end RopeBridge.CommandLine
