import RopeBridge.Proofs.Rope.Shape

/-! Passes over bytes and what they leave in the ledger. A question works on the nodes of the rope
it is put to and on no others, what is known of a node stays as it is, and no node is flattened
twice. Reading bytes makes no other pass than that. -/
namespace RopeBridge

namespace Rope

/-- The nodes of the parts of a rope. -/
def Below (n r : Rope) : Prop := ∃ p ∈ r.parts, Within n p

theorem Below.within {n r : Rope} (h : Below n r) : Within n r := by
  obtain ⟨p, part, within⟩ := h
  exact .part part within

theorem Below.ofPart {n p r : Rope} (part : p ∈ r.parts) (h : Below n p) : Below n r :=
  ⟨p, part, h.within⟩

theorem sizeOf_lt_of_mem_parts {p r : Rope} (part : p ∈ r.parts) : sizeOf p < sizeOf r := by
  cases r with
  | leaf => simp [parts] at part
  | joined n left right =>
    have size := joined.sizeOf_spec n left right
    simp only [parts, List.mem_cons, List.not_mem_nil, or_false] at part
    rcases part with rfl | rfl
    · omega
    · omega
  | excerpt n child offset =>
    have size := excerpt.sizeOf_spec n child offset
    obtain rfl := List.mem_singleton.1 part
    omega
  | repeated n child times =>
    have size := repeated.sizeOf_spec n child times
    obtain rfl := List.mem_singleton.1 part
    omega

theorem Within.sizeOf_le {n r : Rope} (h : Within n r) : sizeOf n ≤ sizeOf r := by
  induction h with
  | self => exact Nat.le_refl _
  | part member _ ih => exact Nat.le_trans ih (Nat.le_of_lt (sizeOf_lt_of_mem_parts member))

/-- No rope has itself among its parts. -/
theorem Below.ne {n r : Rope} (h : Below n r) : n ≠ r := by
  rintro rfl
  obtain ⟨p, part, within⟩ := h
  exact Nat.not_le.2 (sizeOf_lt_of_mem_parts part) within.sizeOf_le

theorem Closed.within {nodes : List Rope} (closed : Closed nodes) {n r : Rope} (known : r ∈ nodes)
    (h : Within n r) : n ∈ nodes := by
  induction h with
  | self => exact known
  | part member _ ih => exact ih (closed.parts _ known _ member)

end Rope

open Rope (Within Below Closed)

/-- Whatever is known in an entry is known in the other one, and is the same there. -/
structure Entry.Grows (e e' : Entry) : Prop where
  codeRange : e.codeRange.isKnown = true → e'.codeRange = e.codeRange
  characterLength : ∀ n, e.characterLength = some n → e'.characterLength = some n
  bytes : ∀ bytes, e.bytes = some bytes → e'.bytes = some bytes
  hash : ∀ hash, e.hash = some hash → e'.hash = some hash

namespace Entry

variable {e e' e'' : Entry}

theorem Grows.refl (e : Entry) : e.Grows e := ⟨fun _ => rfl, fun _ => id, fun _ => id, fun _ => id⟩

theorem Grows.trans (h : e.Grows e') (h' : e'.Grows e'') : e.Grows e'' where
  codeRange known := by
    have same := h.codeRange known
    rw [← same] at known
    exact (h'.codeRange known).trans same
  characterLength n found := h'.characterLength n (h.characterLength n found)
  bytes b found := h'.bytes b (h.bytes b found)
  hash x found := h'.hash x (h.hash x found)

theorem grows_publishCodeRange (e : Entry) (x : CodeRange) :
    e.Grows { e with toMetadata := e.toMetadata.publishCodeRange x } where
  codeRange known := by simp [Metadata.publishCodeRange, known]
  characterLength n found := by simpa using found
  bytes _ := id
  hash _ := id

theorem grows_publishCharacterLength (e : Entry) (n : Nat) :
    e.Grows { e with toMetadata := e.toMetadata.publishCharacterLength n } where
  codeRange _ := by simp
  characterLength k found := by simp [Metadata.publishCharacterLength, found]
  bytes _ := id
  hash _ := id

theorem grows_keepBytes (none : e.bytes = none) (bytes : List UInt8) :
    e.Grows { e with bytes := some bytes } where
  codeRange _ := rfl
  characterLength _ := id
  bytes b found := by simp [none] at found
  hash _ := id

theorem grows_keepHash {hash : UInt64} (right : ∀ x, e.hash = some x → x = hash) :
    e.Grows { e with hash := some hash } where
  codeRange _ := rfl
  characterLength _ := id
  bytes _ := id
  hash x found := by rw [right x found]

end Entry

namespace Ledger

/-- How often a pass has been made over the bytes of a node. -/
def times (l : Ledger) (w : Work) (id : NodeId) : Nat := l.log.count (w, id)

/-- The passes over the bytes of a node that were made for its code range or its length. -/
def scans (l : Ledger) (id : NodeId) : Nat := l.times .codeRangeScan id + l.times .characterCount id

def noted (l : Ledger) (w : Work) (id : NodeId) : Ledger := { l with log := (w, id) :: l.log }

variable {l l' l'' : Ledger}

@[simp] theorem entry_noted (l : Ledger) (w : Work) (id other : NodeId) :
    (l.noted w id).entry other = l.entry other := rfl

@[simp] theorem times_noted (l : Ledger) (w v : Work) (id other : NodeId) :
    (l.noted w id).times v other =
      l.times v other + if w = v ∧ id = other then 1 else 0 := by
  simp [times, noted, List.count_cons]

@[simp] theorem times_update (l : Ledger) (id : NodeId) (f : Entry → Entry) (w : Work)
    (other : NodeId) : (l.update id f).times w other = l.times w other := rfl

theorem entry_update_of_ne (l : Ledger) {id other : NodeId} (f : Entry → Entry)
    (apart : other ≠ id) : (l.update id f).entry other = l.entry other := by
  simp [entry, update, Array.getElem?_modify, Ne.symm apart]

theorem entry_update_self (l : Ledger) {id : NodeId} (f : Entry → Entry)
    (inside : id < l.entries.size) : (l.update id f).entry id = f (l.entry id) := by
  simp [entry_update l id id f inside]

/-- Nothing has been done to a node. -/
structure SameAt (id : NodeId) (l l' : Ledger) : Prop where
  entry : l'.entry id = l.entry id
  times : ∀ w, l'.times w id = l.times w id

namespace SameAt

variable {id : NodeId}

theorem refl (l : Ledger) : SameAt id l l := ⟨rfl, fun _ => rfl⟩

theorem trans (h : SameAt id l l') (h' : SameAt id l' l'') : SameAt id l l'' :=
  ⟨h'.entry.trans h.entry, fun w => (h'.times w).trans (h.times w)⟩

theorem scans (h : SameAt id l l') : l'.scans id = l.scans id := by
  simp [Ledger.scans, h.times]

theorem noted (w : Work) {other : NodeId} (apart : id ≠ other) : SameAt id l (l.noted w other) :=
  ⟨rfl, by simp [Ne.symm apart]⟩

theorem update (f : Entry → Entry) {other : NodeId} (apart : id ≠ other) :
    SameAt id l (l.update other f) :=
  ⟨l.entry_update_of_ne f apart, fun _ => rfl⟩

end SameAt

/-- A node has been flattened at most once; its bytes are there if it has. Leaves have theirs. -/
def FlattenedOnce (l : Ledger) (n : Rope) : Prop :=
  l.times .flatten n.id = 0 ∨
    l.times .flatten n.id = 1 ∧ n.isLeaf = false ∧ (l.entry n.id).bytes.isSome = true

theorem FlattenedOnce.grow {n : Rope} (once : l.FlattenedOnce n)
    (grows : (l.entry n.id).Grows (l'.entry n.id))
    (same : l'.times .flatten n.id = l.times .flatten n.id) : l'.FlattenedOnce n := by
  unfold FlattenedOnce at once ⊢
  rw [same]
  refine once.imp_right fun ⟨one, composite, kept⟩ => ⟨one, composite, ?_⟩
  obtain ⟨bytes, kept⟩ := Option.isSome_iff_exists.1 kept
  simp [grows.bytes bytes kept]

theorem SameAt.flattenedOnce {n : Rope} (h : SameAt n.id l l') (once : l.FlattenedOnce n) :
    l'.FlattenedOnce n := by
  refine once.grow ?_ (h.times _)
  simpa [h.entry] using Entry.Grows.refl _

/-- The first pass over a node for its bytes, in the course of which nothing else happens to it. -/
theorem FlattenedOnce.flatten {n : Rope} (once : l.FlattenedOnce n) (composite : n.isLeaf = false)
    (none : (l.entry n.id).bytes = none) (own : SameAt n.id (l.noted .flatten n.id) l')
    (inside : n.id < l'.entries.size) (bytes : List UInt8) :
    (l'.update n.id fun e => { e with bytes := some bytes }).FlattenedOnce n := by
  have first : l.times .flatten n.id = 0 := by
    rcases once with never | ⟨_, _, some⟩
    · exact never
    · simp [none] at some
  refine .inr ⟨?_, composite, ?_⟩
  · simp [own.times, first]
  · simp [l'.entry_update_self _ inside]

/-- Work on those of the nodes that are in `T`. -/
structure Works (nodes : List Rope) (T : Rope → Prop) (l l' : Ledger) : Prop where
  grows : ∀ id, (l.entry id).Grows (l'.entry id)
  touches : ∀ id, SameAt id l l' ∨ ∃ n ∈ nodes, T n ∧ n.id = id
  flattened : ∀ n ∈ nodes, l.FlattenedOnce n → l'.FlattenedOnce n

namespace Works

variable {nodes : List Rope} {T : Rope → Prop} {r : Rope}

theorem refl (l : Ledger) : Works nodes T l l :=
  ⟨fun _ => .refl _, fun _ => .inl (.refl l), fun _ _ => id⟩

theorem trans (h : Works nodes T l l') (h' : Works nodes T l' l'') : Works nodes T l l'' where
  grows id := (h.grows id).trans (h'.grows id)
  touches id := by
    rcases h.touches id with same | touched
    · exact (h'.touches id).imp_left same.trans
    · exact .inr touched
  flattened n known once := h'.flattened n known (h.flattened n known once)

theorem mono (h : Works nodes T l l') {T' : Rope → Prop} (wider : ∀ n, T n → T' n) :
    Works nodes T' l l' where
  grows := h.grows
  touches id := (h.touches id).imp_right fun ⟨n, known, worked, number⟩ =>
    ⟨n, known, wider n worked, number⟩
  flattened := h.flattened

/-- Work on one node. -/
theorem own (closed : Closed nodes) (known : r ∈ nodes) (worked : T r)
    (apart : ∀ id, id ≠ r.id → SameAt id l l') (grows : (l.entry r.id).Grows (l'.entry r.id))
    (flattened : l.FlattenedOnce r → l'.FlattenedOnce r) : Works nodes T l l' where
  grows id := by
    by_cases number : id = r.id
    · simpa [number] using grows
    · simpa [(apart id number).entry] using Entry.Grows.refl _
  touches id := by
    by_cases number : id = r.id
    · exact .inr ⟨r, known, worked, number.symm⟩
    · exact .inl (apart id number)
  flattened n member once := by
    by_cases number : n.id = r.id
    · obtain rfl := closed.unique n member r known number
      exact flattened once
    · exact (apart n.id number).flattenedOnce once

/-- Nodes that are not worked on stay as they are. -/
theorem sameAt (h : Works nodes T l l') (closed : Closed nodes) (known : r ∈ nodes) (idle : ¬T r) :
    SameAt r.id l l' := by
  rcases h.touches r.id with same | ⟨n, member, worked, number⟩
  · exact same
  · rw [closed.unique n member r known number] at worked
    exact absurd worked idle

theorem sameAt_of_below (h : Works nodes (Below · r) l l') (closed : Closed nodes)
    (known : r ∈ nodes) : SameAt r.id l l' := h.sameAt closed known fun below => below.ne rfl

end Works

/-- Work that finds out about bytes alone. -/
structure Reads (nodes : List Rope) (T : Rope → Prop) (l l' : Ledger) : Prop
    extends Works nodes T l l' where
  metadata : ∀ id, (l'.entry id).toMetadata = (l.entry id).toMetadata
  scans : ∀ id, l'.scans id = l.scans id

namespace Reads

variable {nodes : List Rope} {T : Rope → Prop} {r : Rope}

theorem refl (l : Ledger) : Reads nodes T l l := ⟨.refl l, fun _ => rfl, fun _ => rfl⟩

theorem trans (h : Reads nodes T l l') (h' : Reads nodes T l' l'') : Reads nodes T l l'' where
  toWorks := h.toWorks.trans h'.toWorks
  metadata id := (h'.metadata id).trans (h.metadata id)
  scans id := (h'.scans id).trans (h.scans id)

theorem mono (h : Reads nodes T l l') {T' : Rope → Prop} (wider : ∀ n, T n → T' n) :
    Reads nodes T' l l' := ⟨h.toWorks.mono wider, h.metadata, h.scans⟩

/-- The flattening of a node, with what had to be read for it in the middle. -/
theorem flattening (closed : Closed nodes) (known : r ∈ nodes) (inside : r.id < l'.entries.size)
    (composite : r.isLeaf = false) (none : (l.entry r.id).bytes = none)
    (h : Reads nodes (Below · r) (l.noted .flatten r.id) l') (bytes : List UInt8) :
    Reads nodes (Within · r) l (l'.update r.id fun e => { e with bytes := some bytes }) := by
  have own := h.sameAt_of_below closed known
  have kept := l'.entry_update_self (fun e => { e with bytes := some bytes }) inside
  have entry : (l'.entry r.id) = l.entry r.id := own.entry
  have apart {id : NodeId} (number : id ≠ r.id) := SameAt.update (l := l')
    (fun e => { e with bytes := some bytes }) number
  constructor
  case toWorks =>
    constructor
    case grows =>
      intro id
      by_cases number : id = r.id
      · subst number
        rw [kept, entry]
        exact Entry.grows_keepBytes none bytes
      · rw [(apart number).entry]
        exact h.grows id
    case touches =>
      intro id
      by_cases number : id = r.id
      · exact .inr ⟨r, known, .self, number.symm⟩
      · rcases h.touches id with same | ⟨n, member, below, found⟩
        · exact .inl (((SameAt.noted _ number).trans same).trans (apart number))
        · exact .inr ⟨n, member, below.within, found⟩
    case flattened =>
      intro n member once
      by_cases number : n.id = r.id
      · obtain rfl := closed.unique n member r known number
        exact once.flatten composite none own inside bytes
      · have once := (SameAt.noted (l := l) .flatten number).flattenedOnce once
        exact (apart number).flattenedOnce (h.flattened n member once)
  case metadata =>
    intro id
    by_cases number : id = r.id
    · subst number
      simp [kept, entry]
    · rw [(apart number).entry]
      exact h.metadata id
  case scans =>
    intro id
    simpa [Ledger.scans] using h.scans id

end Reads

end Ledger

variable {R : Reading} {nodes : List Rope}

namespace Rope

open Query (Along)
open Ledger (Reads)

variable {r : Rope}

theorem flattened_reads (known : r ∈ nodes) {compute : Query (List UInt8)}
    (answers : compute.Answers R nodes (· = r.toBytes))
    (reads : compute.Along R nodes (Reads nodes (Below · r))) :
    (r.flattened compute).Along R nodes (Reads nodes (Within · r)) := by
  unfold flattened
  split
  next => exact .pure Reads.refl _
  next inner =>
    refine .entry fun l fits => ?_
    split
    next => exact .refl l
    next none =>
      have fits : (l.noted .flatten r.id).Fits R nodes := fits.note _
      obtain ⟨fits', _⟩ := answers _ fits
      have composite : r.isLeaf = false := by
        cases r with
        | leaf n bytes => exact (inner n bytes rfl).elim
        | _ => rfl
      exact Reads.flattening fits.toClosed known (fits'.inside r known) composite none
        (reads _ fits) _

/-- A walk that is over at once reads nothing. -/
theorem walk_along {rel : Ledger → Ledger → Prop} (refl : ∀ l, rel l l) {offset len : Nat}
    {tail : List UInt8} {walk : Query (List UInt8)} (walked : walk.Along R nodes rel) :
    Along R nodes rel (if len = 0 then pure tail else do
      match (← Query.entry r.id).bytes with
      | some bytes => pure (slice bytes offset len ++ tail)
      | _ => walk) := by
  split
  next => exact .pure refl _
  next =>
    refine .entry fun l fits => ?_
    split
    next => exact refl l
    next => exact walked l fits

theorem windowOnto_reads (known : r ∈ nodes) {offset len : Nat} (tail : List UInt8)
    (inside : offset + len ≤ r.byteLength) :
    (r.windowOnto offset len tail).Along R nodes (Reads nodes (Below · r)) := by
  refine .closed fun closed => ?_
  have sound := closed.sound r known
  induction r generalizing offset len tail with
  | leaf n bytes =>
    rw [windowOnto]
    exact walk_along Reads.refl (.pure Reads.refl _)
  | joined n left right ihl ihr =>
    have knownl := closed.parts _ known left (by simp [parts])
    have knownr := closed.parts _ known right (by simp [parts])
    have belowl (m : Rope) : m.Below left → m.Below (joined n left right) :=
      Below.ofPart (by simp [parts])
    have belowr (m : Rope) : m.Below right → m.Below (joined n left right) :=
      Below.ofPart (by simp [parts])
    obtain ⟨soundl, soundr, sum, _⟩ := sound
    have inside : offset + len ≤ left.byteLength + right.byteLength := sum ▸ inside
    have front : ∀ tail, Along R nodes (Reads nodes (Below · (joined n left right)))
        (if offset < left.byteLength then
          left.windowOnto offset (min (offset + len) left.byteLength - offset) tail
        else pure tail) := by
      intro tail
      split
      next before => exact (ihl knownl tail (by omega) soundl).mono (·.mono belowl)
      next => exact .pure Reads.refl _
    rw [windowOnto]
    refine walk_along Reads.refl ?_
    dsimp only
    split
    next past =>
      have inside : max offset left.byteLength - left.byteLength +
          (offset + len - max offset left.byteLength) ≤ right.byteLength := by omega
      exact .bind (windowOnto_answers knownr tail inside)
        ((ihr knownr tail inside soundr).mono (·.mono belowr)) (fun bytes _ => front bytes)
        Reads.trans
    next => exact front tail
  | excerpt n child base ih =>
    have knownc := closed.parts _ known child (by simp [parts])
    obtain ⟨soundc, _, bound⟩ := sound
    have inside : offset + len ≤ n.byteLength := inside
    rw [windowOnto]
    refine walk_along Reads.refl ((ih knownc tail (by omega) soundc).mono (·.mono ?_))
    exact fun m => Below.ofPart (by simp [parts])
  | repeated n child times ih =>
    have knownc := closed.parts _ known child (by simp [parts])
    have reads := flattened_reads knownc (whole_answers knownc)
      (ih knownc [] (by omega) sound.1)
    rw [windowOnto]
    refine walk_along Reads.refl ?_
    refine .bind (flattened_answers knownc (whole_answers knownc)) (reads.mono ?_)
      (fun bytes _ => .pure Reads.refl _) Reads.trans
    exact (·.mono fun m within => ⟨child, by simp [parts], within⟩)

theorem bytes_reads (known : r ∈ nodes) :
    r.bytes.Along R nodes (Reads nodes (Within · r)) :=
  flattened_reads known (whole_answers known) (windowOnto_reads known [] (by omega))

end Rope

end RopeBridge
