import RopeBridge.Rope.Equality
import RopeBridge.Proofs.Rope.Reading

/-! What a ledger may say. The nodes that have been made are shared by many ropes, so the invariant
is about all of them together: a number belongs to one node, the parts of a node are nodes, and each
entry is right for the one node it belongs to. -/
namespace RopeBridge

namespace Rope

/-- The ropes that a node is made of. -/
def parts : Rope → List Rope
  | leaf .. => []
  | joined _ left right => [left, right]
  | excerpt _ child _ | repeated _ child _ => [child]

/-- What is true of a rope as soon as it is true of its parts is true of all ropes. -/
theorem byParts {P : Rope → Prop} (step : ∀ r, (∀ p ∈ r.parts, P p) → P r) (r : Rope) : P r := by
  induction r with
  | leaf => exact step _ (by simp [parts])
  | joined n left right ihl ihr => exact step _ (by simp [parts, ihl, ihr])
  | excerpt n child offset ih => exact step _ (by simp [parts, ih])
  | repeated n child times ih => exact step _ (by simp [parts, ih])

/-- The lengths and encodings written in the nodes agree with what the nodes denote, and lengths are
below the limit. -/
def Sound : Rope → Prop
  | leaf n bytes => n.byteLength = bytes.length ∧ n.byteLength < lengthLimit
  | joined n left right => left.Sound ∧ right.Sound ∧
      n.byteLength = left.byteLength + right.byteLength ∧ n.byteLength < lengthLimit
  | excerpt n child offset => child.Sound ∧ n.encoding = child.encoding ∧
      offset + n.byteLength ≤ child.byteLength
  | repeated n child times => child.Sound ∧ n.encoding = child.encoding ∧ 0 < child.byteLength ∧
      0 < times ∧ n.byteLength = child.byteLength * times ∧ n.byteLength < lengthLimit

theorem Sound.length_toBytes {r : Rope} (h : r.Sound) : r.toBytes.length = r.byteLength := by
  induction r with
  | leaf n bytes => exact h.1.symm
  | joined n left right ihl ihr =>
    obtain ⟨soundl, soundr, sum, _⟩ := h
    simp [byteLength, node, sum, ihl soundl, ihr soundr]
  | excerpt n child offset ih =>
    obtain ⟨sound, _, inside⟩ := h
    simp only [toBytes_excerpt, List.length_take, List.length_drop, ih sound]
    simp only [byteLength, node] at *
    omega
  | repeated n child times ih =>
    obtain ⟨sound, _, _, _, product, _⟩ := h
    simp [byteLength, node, product, ih sound, Nat.mul_comm]

theorem Sound.byteLength_lt {r : Rope} (h : r.Sound) : r.byteLength < lengthLimit := by
  induction r with
  | leaf n bytes => exact h.2
  | joined n left right => exact h.2.2.2
  | excerpt n child offset ih =>
    obtain ⟨sound, _, inside⟩ := h
    have below := ih sound
    show n.byteLength < lengthLimit
    omega
  | repeated n child times => exact h.2.2.2.2.2

theorem Sound.toBytes_eq_nil_iff {r : Rope} (h : r.Sound) :
    r.toBytes = [] ↔ r.byteLength = 0 := by
  rw [← List.length_eq_zero_iff, h.length_toBytes]

/-- The nodes that exist from the start. -/
def canonical : List Rope :=
  Encoding.all.map empty ++
    Encoding.all.flatMap fun e => (List.range 256).map fun b => singleByte e (UInt8.ofNat b)

theorem empty_mem_canonical (e : Encoding) : empty e ∈ canonical := by
  refine List.mem_append_left _ (List.mem_map_of_mem ?_)
  exact List.mem_of_getElem? (Encoding.all_getElem?_index e)

theorem singleByte_mem_canonical (e : Encoding) (b : UInt8) : singleByte e b ∈ canonical := by
  refine List.mem_append_right _ (List.mem_flatMap.2 ⟨e, ?_, List.mem_map.2 ⟨b.toNat, ?_, ?_⟩⟩)
  · exact List.mem_of_getElem? (Encoding.all_getElem?_index e)
  · exact List.mem_range.2 b.toNat_lt
  · simp

theorem mem_canonical {r : Rope} (h : r ∈ canonical) :
    (∃ e, r = empty e) ∨ ∃ e b, r = singleByte e b := by
  rcases List.mem_append.1 h with none | one
  · obtain ⟨e, _, rfl⟩ := List.mem_map.1 none
    exact .inl ⟨e, rfl⟩
  · obtain ⟨e, _, one⟩ := List.mem_flatMap.1 one
    obtain ⟨b, _, rfl⟩ := List.mem_map.1 one
    exact .inr ⟨e, _, rfl⟩

end Rope

/-- An entry is right for a node: its metadata by a reading, its bytes and its hash by content. -/
structure Entry.Fits (R : Reading) (r : Rope) (e : Entry) : Prop
    extends Metadata.Fits R r.encoding r.toBytes e.toMetadata where
  bytes : ∀ bytes, e.bytes = some bytes → bytes = r.toBytes
  hash : ∀ hash, e.hash = some hash → hash = contentHash r.encoding r.toBytes

/-- The nodes that have been made, taken together: parts are nodes as well, a number belongs to one
node, and the nodes of the start are among them. -/
structure Rope.Closed (nodes : List Rope) : Prop where
  parts : ∀ r ∈ nodes, ∀ p ∈ r.parts, p ∈ nodes
  unique : ∀ a ∈ nodes, ∀ b ∈ nodes, a.id = b.id → a = b
  sound : ∀ r ∈ nodes, r.Sound
  canonical : Rope.canonical ⊆ nodes

theorem Rope.Closed.add {nodes : List Rope} (h : Closed nodes) {r : Rope}
    (fresh : ∀ old ∈ nodes, old.id ≠ r.id) (parts : ∀ p ∈ r.parts, p ∈ nodes) (sound : r.Sound) :
    Closed (r :: nodes) := by
  constructor
  case parts =>
    intro other member p part
    rcases List.mem_cons.1 member with rfl | old
    · exact List.mem_cons_of_mem _ (parts p part)
    · exact List.mem_cons_of_mem _ (h.parts other old p part)
  case unique =>
    intro a ha b hb same
    rcases List.mem_cons.1 ha with rfl | olda <;> rcases List.mem_cons.1 hb with rfl | oldb
    · rfl
    · exact absurd same.symm (fresh b oldb)
    · exact absurd same (fresh a olda)
    · exact h.unique a olda b oldb same
  case sound =>
    intro other member
    rcases List.mem_cons.1 member with rfl | old
    · exact sound
    · exact h.sound other old
  case canonical => exact List.subset_cons_of_subset _ h.canonical

/-- A ledger is right for all nodes that have been made. -/
structure Ledger.Fits (R : Reading) (nodes : List Rope) (l : Ledger) : Prop
    extends Rope.Closed nodes where
  inside : ∀ r ∈ nodes, r.id < l.entries.size
  entry : ∀ r ∈ nodes, (l.entry r.id).Fits R r

namespace Entry.Fits

variable {R : Reading} {r : Rope} {e : Entry}

theorem publishCodeRange (h : e.Fits R r) {x : CodeRange}
    (right : R.range r.encoding r.toBytes x) :
    ({ e with toMetadata := e.toMetadata.publishCodeRange x } : Entry).Fits R r where
  toFits := h.toFits.publishCodeRange right
  bytes := h.bytes
  hash := h.hash

theorem publishCharacterLength (h : e.Fits R r) {n : Nat}
    (right : R.length r.encoding r.toBytes n) :
    ({ e with toMetadata := e.toMetadata.publishCharacterLength n } : Entry).Fits R r where
  toFits := h.toFits.publishCharacterLength right
  bytes := h.bytes
  hash := h.hash

theorem keepBytes (h : e.Fits R r) : ({ e with bytes := some r.toBytes } : Entry).Fits R r where
  toFits := h.toFits
  bytes _ found := (Option.some.inj found).symm
  hash := h.hash

theorem keepHash (h : e.Fits R r) :
    ({ e with hash := some (contentHash r.encoding r.toBytes) } : Entry).Fits R r where
  toFits := h.toFits
  bytes := h.bytes
  hash _ found := (Option.some.inj found).symm

/-- The entry of a new node is right if what was known about it is. -/
theorem ofNew (lawful : R.Lawful) {n : Nat} {x : CodeRange} {chars : Option Nat}
    (size : r.toBytes.length = n)
    (range : x.isKnown = true → R.range r.encoding r.toBytes x)
    (length : ∀ k, chars = some k → R.length r.encoding r.toBytes k) :
    ({ Metadata.ofNew r.encoding n x chars with } : Entry).Fits R r where
  toFits := by
    subst size
    exact Metadata.Fits.ofNew lawful range length
  bytes _ found := by cases found
  hash _ found := by cases found

end Entry.Fits

namespace Ledger.Fits

variable {R : Reading} {nodes : List Rope} {l : Ledger}

theorem note (h : l.Fits R nodes) (log : List (Work × NodeId)) :
    ({ l with log } : Ledger).Fits R nodes where
  parts := h.parts
  unique := h.unique
  inside := h.inside
  sound := h.sound
  canonical := h.canonical
  entry := h.entry

/-- A change to the entry of one node has to be right for that node only. -/
theorem update (h : l.Fits R nodes) {r : Rope} (known : r ∈ nodes) {f : Entry → Entry}
    (right : ∀ e : Entry, e.Fits R r → (f e).Fits R r) : (l.update r.id f).Fits R nodes where
  parts := h.parts
  unique := h.unique
  inside other member := by simpa [Ledger.update] using h.inside other member
  sound := h.sound
  canonical := h.canonical
  entry other member := by
    rw [entry_update l _ _ _ (h.inside r known)]
    split
    next same =>
      obtain rfl := h.unique r known other member same
      exact right _ (h.entry r known)
    next => exact h.entry other member

/-- A new node takes the next number. -/
theorem add (h : l.Fits R nodes) {r : Rope} {e : Entry} (number : r.id = l.entries.size)
    (parts : ∀ p ∈ r.parts, p ∈ nodes) (sound : r.Sound) (right : e.Fits R r) :
    (l.add e).2.Fits R (r :: nodes) := by
  have fresh : ∀ old ∈ nodes, old.id ≠ r.id := by
    intro old member same
    have bound := h.inside old member
    rw [same, number] at bound
    exact Nat.lt_irrefl _ bound
  refine ⟨h.toClosed.add fresh parts sound, ?_, ?_⟩
  · intro other member
    simp only [Ledger.add, Array.size_push]
    rcases List.mem_cons.1 member with rfl | old
    · exact Nat.lt_succ_of_le (Nat.le_of_eq number)
    · exact Nat.lt_succ_of_lt (h.inside other old)
  · intro other member
    rw [entry_add]
    rcases List.mem_cons.1 member with rfl | old
    · simpa [number] using right
    · rw [← number, if_neg (fresh other old)]
      exact h.entry other old

end Ledger.Fits

namespace Ledger

open Rope

/-- The place of a row's item in rows of equal length put one behind the other. -/
theorem getElem?_flatMap_rows {α β : Type} (rows : List α) (f : α → List β) (width : Nat)
    (even : ∀ a, (f a).length = width) (row column : Nat) (inside : column < width) :
    (rows.flatMap f)[width * row + column]? = (rows[row]?).bind fun a => (f a)[column]? := by
  induction rows generalizing row with
  | nil => simp
  | cons a rows ih =>
    cases row with
    | zero => simp [List.getElem?_append_left, even, inside]
    | succ row =>
      have place : width * (row + 1) + column = width + (width * row + column) := by
        rw [Nat.mul_succ]; omega
      rw [place, List.flatMap_cons, List.getElem?_append_right (by rw [even]; omega), even]
      simpa using ih row

theorem initial_entry_empty (e : Encoding) : initial.entry (emptyNode e).id = scanned e [] := by
  unfold entry initial emptyNode
  simp only [Array.getElem?_append]
  cases e <;> simp [Encoding.all, Encoding.index]

theorem initial_entry_singleByte (e : Encoding) (b : UInt8) :
    initial.entry (byteNode e b).id = scanned e [b] := by
  have place := getElem?_flatMap_rows Encoding.all
    (fun e => (List.range 256).map fun b => scanned e [UInt8.ofNat b]) 256 (by simp) e.index
    b.toNat b.toNat_lt
  have number : (byteNode e b).id =
      (Encoding.all.map fun e => scanned e []).length + (256 * e.index + b.toNat) := by
    rw [List.length_map, ← Nat.add_assoc]; rfl
  unfold entry initial
  rw [number, List.append_toArray, List.getElem?_toArray,
    List.getElem?_append_right (Nat.le_add_right ..), Nat.add_sub_cancel_left, place]
  simp [b.toNat_lt]

theorem initial_size : initial.entries.size = 5 + 256 * 5 := by
  simp [initial, Encoding.all]

theorem id_canonical_lt {r : Rope} (member : r ∈ canonical) : r.id < initial.entries.size := by
  rw [initial_size]
  rcases mem_canonical member with ⟨e, rfl⟩ | ⟨e, b, rfl⟩
  · have first : e.index < 5 := e.index_lt_length_all
    show e.index < _
    omega
  · have first : e.index < 5 := e.index_lt_length_all
    have low := b.toNat_lt
    show 5 + 256 * e.index + b.toNat < _
    omega

theorem canonical_distinct {a b : Rope} (ha : a ∈ canonical) (hb : b ∈ canonical)
    (same : a.id = b.id) : a = b := by
  have index_injective : ∀ e f : Encoding, e.index = f.index → e = f := by
    intro e f same
    cases e <;> cases f <;> cases same <;> rfl
  rcases mem_canonical ha with ⟨e, rfl⟩ | ⟨e, x, rfl⟩ <;>
    rcases mem_canonical hb with ⟨f, rfl⟩ | ⟨f, y, rfl⟩
  · rw [index_injective e f same]
  · have same : e.index = 5 + 256 * f.index + y.toNat := same
    have first : e.index < 5 := e.index_lt_length_all
    omega
  · have same : 5 + 256 * e.index + x.toNat = f.index := same
    have first : f.index < 5 := f.index_lt_length_all
    omega
  · have same : 5 + 256 * e.index + x.toNat = 5 + 256 * f.index + y.toNat := same
    have lowx := x.toNat_lt
    have lowy := y.toNat_lt
    rw [index_injective e f (by omega), UInt8.toNat_inj.1 (show x.toNat = y.toNat by omega)]

/-- The nodes of the start, with their entries scanned beforehand. -/
theorem initial_fits {R : Reading} (lawful : R.Lawful) : initial.Fits R canonical where
  parts r member := by
    rcases mem_canonical member with ⟨e, rfl⟩ | ⟨e, b, rfl⟩ <;> exact fun _ part => nomatch part
  unique a ha b hb same := canonical_distinct ha hb same
  inside r member := id_canonical_lt member
  sound r member := by
    rcases mem_canonical member with ⟨e, rfl⟩ | ⟨e, b, rfl⟩
    · exact ⟨rfl, show 0 < lengthLimit by decide⟩
    · exact ⟨rfl, show 1 < lengthLimit by decide⟩
  canonical := List.Subset.refl _
  entry r member := by
    rcases mem_canonical member with ⟨e, rfl⟩ | ⟨e, b, rfl⟩
    · have one : R.length e [] 0 := by simpa using lawful.length_scan e []
      rw [show (empty e).id = (emptyNode e).id from rfl, initial_entry_empty]
      exact Entry.Fits.ofNew lawful rfl (fun _ => lawful.range_scan e [])
        (by rintro _ ⟨⟩; exact one)
    · have one : R.length e [b] 1 := by
        have counted := lawful.length_scan e [b]
        have positive : 0 < (e.pieces [b]).length := by simp [e.pieces_of_ne_nil]
        have most := e.length_pieces_le [b]
        rw [Encoding.scan_characters] at counted
        rwa [show (e.pieces [b]).length = 1 from Nat.le_antisymm most positive] at counted
      rw [show (singleByte e b).id = (byteNode e b).id from rfl, initial_entry_singleByte]
      exact Entry.Fits.ofNew lawful rfl (fun _ => lawful.range_scan e [b])
        (by rintro _ ⟨⟩; exact one)

end Ledger

end RopeBridge
