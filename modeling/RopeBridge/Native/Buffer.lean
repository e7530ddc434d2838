import Std.Data.TreeMap
import RopeBridge.Fault
import RopeBridge.Finalization

/-! Memory in the hands of native code. A buffer has one byte more than its capacity, so that there
is room for a terminator behind a full one. Only the bytes that have been written are kept, the
others are zero, so a large buffer takes no room until it is filled. It is freed by a finalizer
that waits for its end. -/

namespace RopeBridge

structure Buffer where
  id : BufferId
  capacity : Nat
  /-- The bytes that have been written, by their place. -/
  written : Std.TreeMap Nat UInt8 := {}

namespace Buffer

/-- Every allocation is smaller than 2^62 bytes. -/
def allocationLimit : Nat := 0x4000000000000000

def byte (b : Buffer) (index : Nat) : UInt8 := b.written.getD index 0

/-- The byte at a place, if that is inside the buffer. -/
def byte? (b : Buffer) (index : Nat) : Option UInt8 :=
  if index ≤ b.capacity then some (b.byte index) else none

def front (b : Buffer) (count : Nat) : List UInt8 := (List.range count).map b.byte

def memory (b : Buffer) : List UInt8 := b.front (b.capacity + 1)

/-- A buffer of zeros and the finalizer that frees it. -/
def allocate (f : Finalization) (capacity : Nat) : Except Fault (Buffer × Finalization) :=
  if min f.memory allocationLimit ≤ capacity + 1 then .error (.allocationFailed capacity)
  else
    let (id, f) := f.register (.buffer f.nextId) .free
    .ok ({ id, capacity }, f)

def release (b : Buffer) (f : Finalization) : Finalization :=
  (f.finalizeNow (fun owner => owner != .buffer b.id) b.id).2

def set (b : Buffer) (index : Nat) (byte : UInt8) : Buffer :=
  if index ≤ b.capacity then { b with written := b.written.insert index byte } else b

/-- Writes bytes from `offset` on, as far as there is room. -/
def overwrite (b : Buffer) (offset : Nat) : List UInt8 → Buffer
  | [] => b
  | byte :: rest => (b.set offset byte).overwrite (offset + 1) rest

/-- Takes over the first `count` bytes of another buffer, which is no larger; all others become
zero. -/
def copyFront (b source : Buffer) (count : Nat) : Buffer :=
  { b with written := source.written.filter fun index _ => index < count }

/-- The place of the first zero among `count` bytes from `index` on, or the place behind them. -/
def zeroFrom (b : Buffer) : (count index : Nat) → Nat
  | 0, index => index
  | count + 1, index => if b.byte index = 0 then index else b.zeroFrom count (index + 1)

@[simp] theorem length_front (b : Buffer) (count : Nat) : (b.front count).length = count := by
  simp [front]

@[simp] theorem length_memory (b : Buffer) : b.memory.length = b.capacity + 1 := by simp [memory]

@[simp] theorem set_capacity (b : Buffer) (index : Nat) (byte : UInt8) :
    (b.set index byte).capacity = b.capacity := by
  unfold set
  split <;> rfl

@[simp] theorem overwrite_capacity (b : Buffer) (offset : Nat) (bytes : List UInt8) :
    (b.overwrite offset bytes).capacity = b.capacity := by
  induction bytes generalizing b offset with
  | nil => rfl
  | cons byte rest ih => simp [overwrite, ih]

/-- A write is read back at its place and changes no other. -/
theorem byte_set (b : Buffer) (index other : Nat) (byte : UInt8) :
    (b.set index byte).byte other =
      if index = other ∧ index ≤ b.capacity then byte else b.byte other := by
  unfold set Buffer.byte
  by_cases inside : index ≤ b.capacity
  · simp [inside, Std.TreeMap.getD_insert]
  · simp [inside]

/-- What has been written from `offset` on is read back, and nothing else has changed. -/
theorem byte_overwrite (b : Buffer) (offset other : Nat) (bytes : List UInt8) :
    (b.overwrite offset bytes).byte other =
      if offset ≤ other ∧ other < offset + bytes.length ∧ other ≤ b.capacity then
        bytes.getD (other - offset) 0
      else b.byte other := by
  induction bytes generalizing b offset with
  | nil => simp [overwrite]; omega
  | cons byte rest ih =>
    simp only [overwrite, ih, byte_set, set_capacity, List.length_cons]
    by_cases here : offset = other
    · subst here
      have : ¬ offset + 1 ≤ offset := by omega
      by_cases inside : offset ≤ b.capacity <;> simp [inside, this]
    · by_cases behind : offset < other
      · obtain ⟨k, rfl⟩ : ∃ k, other = offset + 1 + k := ⟨other - (offset + 1), by omega⟩
        have : offset + 1 + k - offset = k + 1 := by omega
        simp [this]
        grind
      · grind

theorem zeroFrom_eq (b : Buffer) (count index : Nat) :
    b.zeroFrom count index =
      index + ((List.range' index count).map b.byte).findIdx (· = 0) := by
  induction count generalizing index with
  | zero => simp [zeroFrom]
  | succ count ih =>
    by_cases zero : b.byte index = 0
    · simp [zeroFrom, zero, List.range'_succ, List.findIdx_cons]
    · simp [zeroFrom, zero, ih, List.range'_succ, List.findIdx_cons]
      omega

/-- The first zero at the front is found where a search of the bytes finds it. -/
theorem zeroFrom_zero (b : Buffer) (count : Nat) :
    b.zeroFrom count 0 = (b.front count).findIdx (· = 0) := by
  simp [zeroFrom_eq, front, List.range_eq_range']

end Buffer

end RopeBridge
