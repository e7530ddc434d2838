import RopeBridge.Heap.Basic
import RopeBridge.Rope.Equality

/-! Symbols: equal names stand for one object. The table keeps its symbols for good. -/

namespace RopeBridge

structure SymbolTable where
  /-- The names that have been interned and their symbols, in order. -/
  entries : List (Rope × ObjectId) := []
deriving Inhabited

namespace SymbolTable

def size (t : SymbolTable) : Nat := t.entries.length

/-- The symbol of a name. The name is hashed unless the table is empty. -/
def lookup (t : SymbolTable) (name : Rope) : Query (Option ObjectId) := do
  if t.entries.isEmpty then return none
  let _ ← name.hashCode
  return (← t.entries.findM? fun entry => entry.1.equal name).map (·.2)

/-- The symbol of a name, made with a flat copy of the name if there is none. -/
def intern (t : SymbolTable) (h : Heap) (name : Rope) : Query (ObjectId × SymbolTable × Heap) := do
  match ← t.lookup name with
  | some symbol => return (symbol, t, h)
  | none =>
    let _ ← name.hashCode
    let (symbol, h) := h.add (.symbol (← name.flatten))
    return (symbol, ⟨t.entries ++ [(name, symbol)]⟩, h)

end SymbolTable

end RopeBridge
