import RopeBridge.Rope.Build
import RopeBridge.Handle.Word

/-! The steps of a session. Results are kept in registers; a step names those that it works on. -/

namespace RopeBridge.Session

abbrev Register := String

inductive ValueRef where
  | literal (v : Value)
  | register (name : Register)
deriving DecidableEq, Inhabited

inductive HandleRef where
  | raw (h : Handle)
  | register (name : Register)
deriving DecidableEq, Inhabited

/-- The parts of a rope: the sides of a concatenation, or what a window or a repetition is of. -/
inductive Part where
  | left | right | child
deriving DecidableEq, Inhabited

inductive RopeMaker where
  | ofBytes (bytes : List UInt8) (e : Encoding) (known : CodeRange)
  | utf8 (text : String)
  | ascii (text : String)
  | empty (e : Encoding)
  | singleByte (e : Encoding) (byte : UInt8)
  | copy (r : Register)
  | concat (a b : Register)
  | concatIn (a b : Register) (e : Encoding)
  | concatBounded (a b : Register) (e : Encoding) (maxDepth : Nat)
  | concatWithOptions (a b : Register)
  /-- Puts `b` behind `a`, or before it, a number of times. -/
  | concatMany (a b : Register) (times : Nat) (inFront : Bool)
  | substring (r : Register) (offset length : Nat)
  | substringChars (r : Register) (offset length : Nat)
  | replicate (r : Register) (times : Nat)
  | withEncoding (r : Register) (e : Encoding)
  | flatten (r : Register)
  | part (r : Register) (which : Part)

inductive RopeQuestion where
  | info | codeRange | characterLength | isAsciiOnly | isEmpty
  | getByte (index : Nat)
  | charOffset (index : Nat)
  | bytes | text | escapes | outline
  | tree (strings : Bool)
  | caption
  | equal (other : Register)
  | same (other : Register)
  | hashesAlike (other : Register)
  | compatible (other : Register)

inductive NativeStep where
  | zeros (byteLength capacity : Nat) (e : Encoding)
  | ofRope (r : Register)
  | info (n : Register)
  | bytes (n : Register)
  | getByte (n : Register) (index : Nat)
  | readRaw (n : Register) (index : Nat)
  | setByte (n : Register) (index : Nat) (byte : UInt8)
  | codeRange (n : Register)
  | characterLength (n : Register)
  | clear (n : Register)
  | setLength (n : Register) (byteLength : Nat) (characterLength : Option Nat)
      (codeRange : CodeRange)
  | resize (n : Register) (byteLength : Nat)
  | toRope (n : Register)
  | intoString (n : Register)
  | buffer (capacity : Nat)
  | overwrite (b : Register) (offset : Nat) (bytes : List UInt8)

inductive StringAct where
  | info | capacity
  | setLength (byteLength : Nat)
  | resize (byteLength : Nat)
  | clearCodeRange | toNative
  | read (index : Nat)
  | write (index : Nat) (byte : UInt8)
  | cLength | storage
  | getByte (index : Nat)
  | codeRange | characterLength | getRope
  | setRope (r : Register)

inductive ValueStep where
  | newString (r : Register)
  /-- A string of zeros in native memory. -/
  | newZeros (byteLength : Nat)
  | newData (typeName : String) (pointer : UInt64)
  | newArray (vs : List ValueRef)
  | literal (v : ValueRef)
  | intern (r : Register)
  | internText (text : String)
  | lookup (r : Register)
  | element (v : ValueRef) (index : Nat)
  | symbolHandle (text : String)
  | symbolCount
  | symbolName (v : ValueRef)
  | describe (v : ValueRef)
  | text (v : ValueRef)
  | kind (v : ValueRef)
  | equal (v w : ValueRef)
  | push (array item : ValueRef)
  | elements (v : ValueRef)
  | pointer (v : ValueRef)
  | setPointer (v : ValueRef) (h : HandleRef)
  | share (v : ValueRef)
  | marked (v : ValueRef)
  | setMarked (v : ValueRef) (vs : List ValueRef)

inductive HandleStep where
  | wrap (v : ValueRef)
  /-- Wraps new data objects whose pointers count up from `start`. -/
  | wrapData (count start : Nat) (into : Option ValueRef)
  /-- Wraps the floats that lie a quarter above the numbers from `start` on. -/
  | wrapFloats (count start : Nat) (into : Option ValueRef)
  | unwrap (h : HandleRef)
  | isObject (h : HandleRef)
  | wrapperAt (h : HandleRef)
  | wrapperFor (v : ValueRef)
  | wrapperState (w : Register)
  | pinFor (v : ValueRef)
  | retire | releaseUnreachable | threadsWithBlocks | tableStats | stats | report

inductive ScriptAct where
  | pointer
  | handle (h : HandleRef)
  | value (v : ValueRef)
  | previous
  | fail (reason : String)

inductive MarkingStep where
  | collect | runMarkers
  | addMarker (owner : ValueRef) (tag : String) (script : List ScriptAct)
  | queue (vs : List ValueRef)
  | keepObject (v : ValueRef)
  | state
  | start (previous : List ValueRef)
  | mark (m : Register) (h : HandleRef)
  | markValue (m : Register) (v : ValueRef)
  | finish (m : Register)

inductive ThreadStep where
  | push (block : ValueRef)
  /-- Pops the innermost frame pushed in the same body. -/
  | pop
  | stack
  | keepAlive (v : ValueRef)
  /-- Keeps a value in the frame and in the buffer of the marking service. -/
  | keepInBridge (v : ValueRef)
  | lock | unlock | lockState | releaseAll
  | reacquire (count : Nat)
  | post (tag : String) (failure : Option String) (releases : Bool)
  | poll | safepoints

inductive FinalizerStep where
  | owner
  | register (owner : Register) (tag : String) (next : Option String)
  | finalizeNow (tag : String)
  | drain | state

inductive RegisterStep where
  | drop (r : Register)
  | isAlive (name : Nat)
  | resetScans | scans

/-- A step with one entry in the log. -/
inductive Plain where
  | make (m : RopeMaker)
  | ask (r : Register) (q : RopeQuestion)
  | native (s : NativeStep)
  | string (v : ValueRef) (s : StringAct)
  | value (s : ValueStep)
  | handle (s : HandleStep)
  | marking (s : MarkingStep)
  | thread (s : ThreadStep)
  | finalizer (s : FinalizerStep)
  | register (s : RegisterStep)

/-- Ways to run further steps inside of a step. -/
inductive Nesting where
  | guard
  | call (block : ValueRef) (keep : Option ValueRef)
  | withoutLock (contend : Bool)
  | thread

inductive Step where
  | plain (into : Option Register) (p : Plain)
  /-- Ends the enclosing body with a failure. -/
  | raise (message : String)
  /-- Unwinds to the nearest guard. -/
  | panic (message : String)
  /-- With `propagate` a failure inside ends the enclosing body too. -/
  | nested (n : Nesting) (propagate : Bool) (body : List Step)

end RopeBridge.Session
