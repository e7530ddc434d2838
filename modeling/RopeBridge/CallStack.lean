import RopeBridge.Value

/-! The native calls a thread is in. Every call has a frame with its block and the values that it
keeps alive. Below the outermost call there is a frame without a block. -/

namespace RopeBridge

structure Frame where
  block : Value := .nil
  kept : List Value := []
deriving DecidableEq, Inhabited

structure CallStack where
  top : Frame := {}
  /-- The frames around it, from the inside out. -/
  below : List Frame := []
deriving DecidableEq, Inhabited

namespace CallStack

def depth (s : CallStack) : Nat := s.below.length

def block (s : CallStack) : Value := s.top.block

def kept (s : CallStack) : List Value := s.top.kept

def push (s : CallStack) (block : Value) : CallStack := ⟨{ block }, s.top :: s.below⟩

def pop (s : CallStack) : CallStack :=
  match s.below with
  | [] => s
  | frame :: below => ⟨frame, below⟩

/-- Keeps a value alive until the innermost call ends. -/
def keepAlive (s : CallStack) (v : Value) : CallStack :=
  { s with top := { s.top with kept := s.top.kept ++ [v] } }

def values (s : CallStack) : List Value :=
  (s.top :: s.below).flatMap fun frame => frame.block :: frame.kept

@[simp] theorem pop_push (s : CallStack) (block : Value) : (s.push block).pop = s := rfl

@[simp] theorem block_push (s : CallStack) (block : Value) : (s.push block).block = block := rfl

@[simp] theorem depth_push (s : CallStack) (block : Value) :
    (s.push block).depth = s.depth + 1 := rfl

@[simp] theorem pop_push_keepAlive (s : CallStack) (block v : Value) :
    ((s.push block).keepAlive v).pop = s := rfl

end CallStack

end RopeBridge
