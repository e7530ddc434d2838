import RopeBridge.Proofs.OwnedString.Primitives

/-! The calls that concern one string, as data, with what they answer. -/

namespace RopeBridge

theorem StringOp.run_answering {α β : Type} (w : Workspace) (op : StringOp α) (answer : α → β) :
    (op >>= fun a => pure (answer a)).run.run w =
      ((op.run.run w).1.map answer, (op.run.run w).2) := by
  rw [run_bind]
  rcases op.run.run w with ⟨_ | a, w'⟩ <;> rfl

namespace OwnedString

inductive Reply where
  | done
  | count (n : Nat)
  | byte (byte : UInt8)
  | codeRange (range : CodeRange)
  | bytes (bytes : List UInt8)
  | rope (rope : Rope)

inductive Call where
  | toNative | capacity
  | setLength (n : Nat)
  | resize (n : Nat)
  | clearCodeRange
  | read (index : Nat)
  | write (index : Nat) (byte : UInt8)
  | cLength
  | setRope (rope : Rope)
  | getRope
  | codeRange | characterLength | bytes
  | getByte (index : Nat)

namespace Call

def op : Call → StringOp Reply
  | toNative => do let _ ← StringOp.toNative; return .done
  | capacity => return .count (← StringOp.capacity)
  | setLength n => do StringOp.setLength n; return .done
  | resize n => do StringOp.resize n; return .done
  | clearCodeRange => do StringOp.clearCodeRange; return .done
  | read index => return .byte (← StringOp.read index)
  | write index byte => return .byte (← StringOp.write index byte)
  | cLength => return .count (← StringOp.cLength)
  | setRope rope => do StringOp.setRope rope; return .done
  | getRope => return .rope (← StringOp.getRope)
  | codeRange => return .codeRange (← StringOp.codeRange)
  | characterLength => return .count (← StringOp.characterLength)
  | bytes => return .bytes (← StringOp.bytes)
  | getByte index => return .byte (← StringOp.getByte index)

def run (call : Call) (w : Workspace) : Except Fault Reply × Workspace := call.op.run.run w

end Call

end OwnedString

end RopeBridge
