import RopeBridge.Heap.Basic
import RopeBridge.Rope.Render

/-! How values are shown to a reader. -/

namespace RopeBridge

namespace Object

/-- A string is shown in quotes as the text it spells, a symbol behind a colon, a box like its
number, other objects by their type. -/
def text (o : Object) : Query String := do
  match o.payload with
  | .string (.managed rope) => return "\"" ++ (← rope.text) ++ "\""
  | .string (.native t) => return "\"" ++ (← (← t.toRope).text) ++ "\""
  | .symbol name => return ":" ++ (← name.text)
  | .array elements => return s!"#<Array:{elements.size}>"
  | .data typeName _ => return s!"#<Data:{typeName}>"
  | .boxed n => return n.text

end Object

namespace Heap

def text (h : Heap) (v : Value) : Query String := do
  match h.object? v with
  | some o => o.text
  | none => return v.text fun _ => ""

end Heap

end RopeBridge
