import RopeBridge.Bridge.Call
import RopeBridge.Bridge.Collect

/-! What a session reports: views of ropes, strings, values and tables, the answers of its steps and
the entries of its log. Objects are named by numbers in the order in which they are first seen. -/

namespace RopeBridge.Session

inductive Shape where
  | leaf | joined
  | excerpt (offset : Nat)
  | repeated (times : Nat)
deriving DecidableEq, Inhabited

/-- A rope as far as it has been looked into. -/
structure RopeView where
  encoding : Encoding
  byteLength : Nat
  depth : Nat
  codeRange : CodeRange
  characterLength : Option Nat
  flat : Bool
  shape : Shape
deriving DecidableEq, Inhabited

structure NativeView where
  encoding : Encoding
  byteLength : Nat
  capacity : Nat
  codeRange : CodeRange
deriving DecidableEq, Inhabited

inductive StringView where
  | managed (view : RopeView)
  | native (view : NativeView)
deriving DecidableEq, Inhabited

inductive ValueView where
  | immediate (v : Value)
  | object (name : Nat) (kind : Kind) (shared : Bool) (boxed : Option Number)
deriving DecidableEq, Inhabited

structure WrapperView where
  handle : Handle
  live : Bool
  released : Bool
  referent : Option ValueView
  pin : Option ValueView
deriving DecidableEq, Inhabited

structure LockView where
  locked : Bool
  mine : Bool
deriving DecidableEq, Inhabited

/-- The content of a string and what is known about it. -/
structure StorageView where
  byteLength : Nat
  encoding : Encoding
  codeRange : CodeRange
  characterLength : Nat
  native : Bool
  bytes : List UInt8
deriving DecidableEq, Inhabited

inductive Answer where
  | nothing
  | truth (b : Bool)
  | count (n : Nat)
  | text (s : String)
  | bytes (bs : List UInt8)
  | rope (view : RopeView)
  | native (view : NativeView)
  | resized (view : NativeView) (moved : Bool)
  | buffer (capacity : Nat) (bytes : List UInt8)
  | string (view : StringView)
  | capacity (n : Nat) (view : StringView)
  | moved (native : Bool) (view : StringView)
  | written (byte : UInt8) (view : StringView)
  | storage (view : StorageView)
  | value (view : ValueView)
  | values (views : List ValueView)
  | handle (h : Handle)
  /-- The first and the last of some handles, if there are any. -/
  | handles (ends : Option (Handle × Handle))
  | wrapper (view : WrapperView)
  | table (stats : HandleStats) (caption : String)
  | stats (s : BridgeStats)
  | scans (s : ScanCounts)
  | symbols (count : Nat)
  | collected (markers handles finalizers : Nat)
  | marking (pending : Bool) (markers runs : Nat) (caption : String)
  | marks (count : Nat)
  | finished (previous marks : List ValueView)
  | popped (popped : Bool) (depth : Nat)
  | stack (depth : Nat) (block : ValueView) (kept : List ValueView)
  | lock (view : LockView)
  | released (levels : Nat) (view : LockView)
  | safepoints (pending : Bool) (caption : String)
  | finalizers (pending total : Nat) (caption : String)
  | caught (message : String)
deriving Inhabited

inductive Entry where
  /-- A step has been done; with the passes over bytes it needed and the tags it reported. -/
  | done (result : Except Fault Answer) (scans : ScanCounts) (ran : List String)
  | enter (name : String)
  | exit (name : String) (result : Except Fault Answer) (ran : List String)
  /-- The state of the lock inside a call, and in a call into native code its depth. -/
  | inside (lock : LockView) (depth : Option Nat)
  | marked (tag : String) (owner previous marked : Nat)
  | markerFailed (tag reason : String) (marked : Nat)
deriving Inhabited

def ropeView (l : Ledger) (r : Rope) : RopeView where
  encoding := r.encoding
  byteLength := r.byteLength
  depth := r.depth
  codeRange := (l.entry r.id).codeRange
  characterLength := (l.entry r.id).characterLength
  flat := r.hasBytes l
  shape := match r with
    | .leaf .. => .leaf
    | .joined .. => .joined
    | .excerpt _ _ offset => .excerpt offset
    | .repeated _ _ times => .repeated times

def nativeView (t : NativeText) : NativeView where
  encoding := t.encoding
  byteLength := t.byteLength
  capacity := t.capacity
  codeRange := t.metadata.codeRange

def stringView (l : Ledger) : OwnedString → StringView
  | .managed rope => .managed (ropeView l rope)
  | .native text => .native (nativeView text)

def lockView (b : Bridge) (me : ThreadId) : LockView := ⟨b.lock.isLocked, b.lock.isHeldBy me⟩

end RopeBridge.Session
