import RopeBridge.Options.Basic

/-! Reading options from JSON text: an object whose members are fields of `Options`, each at most
once, or an array of values in the order of the fields. Fields that are not given have their
defaults. Nothing is converted: a switch is `true` or `false`, a number a plain natural number
within its bound, and anything else makes the text unreadable. -/

namespace RopeBridge.Options

inductive Field where
  | extensionLock | keepHandlesAlive | countAllocations | markingCache | flattenDepth | pollMillis
deriving DecidableEq

namespace Field

def all : List Field :=
  [extensionLock, keepHandlesAlive, countAllocations, markingCache, flattenDepth, pollMillis]

def name : Field → String
  | extensionLock => "cext_lock"
  | keepHandlesAlive => "keep_handles_alive"
  | countAllocations => "tonative_stats"
  | markingCache => "marking_cache"
  | flattenDepth => "flatten_depth_threshold"
  | pollMillis => "safepoint_poll_ms"

def ofName? (name : String) : Option Field := all.find? (·.name = name)

end Field

def isBlank (c : Char) : Bool := c = ' ' || c = '\t' || c = '\n' || c = '\r'

def skipBlank (cs : List Char) : List Char := cs.dropWhile isBlank

def expect? (c : Char) (cs : List Char) : Option (List Char) :=
  match skipBlank cs with
  | d :: rest => if d = c then some rest else none
  | [] => none

def hexQuad? (a b c d : Char) : Option Nat :=
  [a, b, c, d].foldlM (fun n h =>
    let code := h.toNat
    if h.isDigit then some (16 * n + (code - 48))
    else if 'a' ≤ h ∧ h ≤ 'f' then some (16 * n + (code - 87))
    else if 'A' ≤ h ∧ h ≤ 'F' then some (16 * n + (code - 55))
    else none) 0

def escape? : Char → Option Char
  | '"' => some '"'
  | '\\' => some '\\'
  | '/' => some '/'
  | 'b' => some (Char.ofNat 8)
  | 'f' => some (Char.ofNat 12)
  | 'n' => some '\n'
  | 'r' => some '\r'
  | 't' => some '\t'
  | _ => none

/-- The inside of a string up to its closing quote, and what follows. Escaped surrogates are not
read: no name of a field has a character beyond ASCII. -/
def stringTail? : List Char → Option (List Char × List Char)
  | '"' :: rest => some ([], rest)
  | '\\' :: 'u' :: a :: b :: c :: d :: rest => do
    let code ← hexQuad? a b c d
    let (text, after) ← stringTail? rest
    if 0xD800 ≤ code ∧ code < 0xE000 then none else some (Char.ofNat code :: text, after)
  | '\\' :: c :: rest => do
    let plain ← escape? c
    let (text, after) ← stringTail? rest
    some (plain :: text, after)
  | c :: rest => do
    if c.toNat < 0x20 ∨ c = '\\' then none
    let (text, after) ← stringTail? rest
    some (c :: text, after)
  | [] => none

/-- A natural number in decimal without sign, leading zero, fraction or exponent. -/
def natural? (cs : List Char) : Option (Nat × List Char) :=
  let digits := cs.takeWhile Char.isDigit
  let rest := cs.dropWhile Char.isDigit
  let fraction := match rest with
    | c :: _ => c = '.' || c = 'e' || c = 'E'
    | [] => false
  if digits = [] || (digits.head? = some '0' && digits ≠ ['0']) || fraction then none
  else some (digits.foldl (fun n d => 10 * n + (d.toNat - 48)) 0, rest)

def bounded? (limit : Nat) (cs : List Char) : Option (Nat × List Char) := do
  let (n, rest) ← natural? cs
  if n < limit then some (n, rest) else none

def switch? (cs : List Char) : Option (Bool × List Char) :=
  match cs with
  | 't' :: 'r' :: 'u' :: 'e' :: rest => some (true, rest)
  | 'f' :: 'a' :: 'l' :: 's' :: 'e' :: rest => some (false, rest)
  | _ => none

/-- The depths that can be asked for are below 2^32. -/
def depthLimit : Nat := 0x100000000

/-- Reads the value of a field into `o`. -/
def Field.read? (f : Field) (o : Options) (cs : List Char) : Option (Options × List Char) :=
  let cs := skipBlank cs
  match f with
  | extensionLock => (switch? cs).map fun (b, rest) => ({ o with extensionLock := b }, rest)
  | keepHandlesAlive => (switch? cs).map fun (b, rest) => ({ o with keepHandlesAlive := b }, rest)
  | countAllocations => (switch? cs).map fun (b, rest) => ({ o with countAllocations := b }, rest)
  | markingCache =>
    (bounded? lengthLimit cs).map fun (n, rest) => ({ o with markingCache := n }, rest)
  | flattenDepth =>
    (bounded? depthLimit cs).map fun (n, rest) => ({ o with flattenDepth := n }, rest)
  | pollMillis =>
    (bounded? lengthLimit cs).map fun (n, rest) => ({ o with pollMillis := n }, rest)

/-- The members of an object up to its closing brace, none but those of `free`. `budget` bounds the
members still to come; every one of them takes a field out of `free`. -/
def members? : (budget : Nat) → List Field → Options → List Char → Option (Options × List Char)
  | 0, _, _, _ => none
  | budget + 1, free, o, cs => do
    let (name, rest) ← stringTail? (← expect? '"' cs)
    let f ← Field.ofName? (String.ofList name)
    if f ∉ free then none
    let (o, rest) ← f.read? o (← expect? ':' rest)
    match skipBlank rest with
    | ',' :: rest => members? budget (free.erase f) o rest
    | '}' :: rest => some (o, rest)
    | _ => none

/-- The elements of an array up to its closing bracket, for the given fields in turn. -/
def elements? : List Field → Options → List Char → Option (Options × List Char)
  | [], _, _ => none
  | f :: fields, o, cs => do
    let (o, rest) ← f.read? o cs
    match skipBlank rest with
    | ',' :: rest => elements? fields o rest
    | ']' :: rest => some (o, rest)
    | _ => none

def ofJson? (text : String) : Option Options := do
  let (o, rest) ← match skipBlank text.toList with
    | '{' :: rest =>
      match skipBlank rest with
      | '}' :: rest => some ({}, rest)
      | rest => members? Field.all.length Field.all {} rest
    | '[' :: rest =>
      match skipBlank rest with
      | ']' :: rest => some ({}, rest)
      | rest => elements? Field.all {} rest
    | _ => none
  if skipBlank rest = [] then some o else none

end RopeBridge.Options
