import RopeBridge.Proofs.Rope.Scanning

/-! The programs that compute with lengths and offsets, over arithmetic that stops where a result
does not fit into 64 bits, a difference is negative, a divisor is zero or bytes end too early. On
ledgers that are right for some nodes, whatever has been claimed of their bytes, none of them ever
stops, and each does what it does over numbers without bounds. -/
namespace RopeBridge

/-- A result does not fit. -/
structure Stopped

/-- A question that may stop. What has been found out before is kept. -/
abbrev Guarded := ExceptT Stopped Query

/-- The making of a rope, which may fail, and which may stop. -/
abbrev GuardedBuild := ExceptT Fault Guarded

namespace Guarded

def sum (a b : Nat) : Option Nat := if a + b < lengthLimit then some (a + b) else none

def difference (a b : Nat) : Option Nat := if b ≤ a then some (a - b) else none

def product (a b : Nat) : Option Nat := if a * b < lengthLimit then some (a * b) else none

def quotient (a b : Nat) : Option Nat := if 0 < b then some (a / b) else none

def remainder (a b : Nat) : Option Nat := if 0 < b then some (a % b) else none

/-- The `len` bytes from `offset` on, if there are as many. -/
def cut (bytes : List UInt8) (offset len : Nat) : Option (List UInt8) := do
  let stop ← sum offset len
  if stop ≤ bytes.length then some (Rope.slice bytes offset len) else none

/-- The bytes from `position` up to `stop` of `unit` repeated without end, copied from one end of a
unit to the next. -/
def copies (unit : List UInt8) (stop position : Nat) : Option (List UInt8) :=
  if position < stop then
    match remainder position unit.length with
    | none => none
    | some start =>
      let count := min (unit.length - start) (stop - position)
      if start < unit.length ∧ position + count < lengthLimit then do
        let copied ← cut unit start count
        return copied ++ (← copies unit stop (position + count))
      else none
  else some []
termination_by stop - position
decreasing_by omega

instance : MonadLift Option Guarded :=
  ⟨fun result => ExceptT.mk (pure (result.elim (.error ⟨⟩) .ok))⟩

end Guarded

namespace Rope

open Guarded (sum difference product quotient remainder cut copies)

def guardedFlattened (r : Rope) (compute : Guarded (List UInt8)) : Guarded (List UInt8) :=
  match r with
  | leaf _ bytes => return bytes
  | r => do
    match (← Query.entry r.id).bytes with
    | some bytes => return bytes
    | none =>
      Query.note .flatten r.id
      let bytes ← compute
      Query.update r.id fun e => { e with bytes := some bytes }
      return bytes

def guardedWindowOnto (r : Rope) (offset len : Nat) (tail : List UInt8) :
    Guarded (List UInt8) := do
  if len = 0 then return tail
  if let some bytes := (← Query.entry r.id).bytes then return (← cut bytes offset len) ++ tail
  match r with
  | leaf _ bytes => return (← cut bytes offset len) ++ tail
  | joined _ left right =>
    let split := left.byteLength
    let stop ← sum offset len
    let tail ← if split < stop then do
        let first ← difference (max offset split) split
        let count ← difference stop (max offset split)
        right.guardedWindowOnto first count tail
      else pure tail
    if offset < split then do
      let count ← difference (min stop split) offset
      left.guardedWindowOnto offset count tail
    else return tail
  | excerpt _ child base =>
    let start ← sum base offset
    child.guardedWindowOnto start len tail
  | repeated _ child _ =>
    let unit ← child.guardedFlattened (child.guardedWindowOnto 0 child.byteLength [])
    let stop ← sum offset len
    return (← copies unit stop offset) ++ tail

def guardedBytes (r : Rope) : Guarded (List UInt8) :=
  r.guardedFlattened (r.guardedWindowOnto 0 r.byteLength [])

def guardedByteAt (l : Ledger) (r : Rope) (index : Nat) : Option UInt8 :=
  match (l.entry r.id).bytes with
  | some bytes => bytes[index]?
  | none =>
    match r with
    | leaf _ bytes => bytes[index]?
    | joined _ left right =>
      if index < left.byteLength then guardedByteAt l left index
      else do
        let rest ← difference index left.byteLength
        guardedByteAt l right rest
    | excerpt _ child offset => do
      let place ← sum index offset
      guardedByteAt l child place
    | repeated _ child _ => do
      let place ← remainder index child.byteLength
      guardedByteAt l child place

def guardedGetByte (r : Rope) (index : Nat) : GuardedBuild UInt8 := do
  if r.byteLength ≤ index then throw (.outOfBounds index r.byteLength)
  let l ← (get : Query Ledger)
  let byte ← guardedByteAt l r index
  return byte

def guardedScanned (r : Rope) : Guarded CodeRange := do
  Query.note .codeRangeScan r.id
  let found := r.encoding.scan (← r.guardedBytes)
  Query.publishCharacterLength r.id found.characters
  return found.codeRange

def guardedInheritedRange (e : Encoding) (part : Rope) (range : Guarded CodeRange) :
    Guarded (Option CodeRange) := do
  if part.encoding = e then return some (← range)
  if e.asciiCompatible && part.encoding.asciiCompatible then
    return if (← range) = .sevenBit then some .sevenBit else none
  return none

def guardedAdopt (r : Rope) : Option CodeRange → Guarded CodeRange
  | some .sevenBit => return .sevenBit
  | some .valid => return .valid
  | _ => r.guardedScanned

def guardedRememberCodeRange (r : Rope) (compute : Guarded CodeRange) : Guarded CodeRange := do
  let known ← r.knownCodeRange
  if known.isKnown then return known
  let found ← compute
  Query.publishCodeRange r.id found

def guardedCodeRange (r : Rope) : Guarded CodeRange := r.guardedRememberCodeRange do
  match r with
  | leaf .. => r.guardedScanned
  | joined n left right =>
    let a ← guardedInheritedRange n.encoding left left.guardedCodeRange
    let b ← guardedInheritedRange n.encoding right right.guardedCodeRange
    r.guardedAdopt (match a, b with
      | some a, some b => some (a.common b)
      | _, _ => none)
  | excerpt _ child _ =>
    r.guardedAdopt (if (← child.guardedCodeRange) = .sevenBit then some .sevenBit else none)
  | repeated n child _ =>
    r.guardedAdopt (← guardedInheritedRange n.encoding child child.guardedCodeRange)

def guardedReusable (e : Encoding) (part : Rope) : Guarded Bool := do
  match ← guardedInheritedRange e part part.guardedCodeRange with
  | some .sevenBit | some .valid => return true
  | _ => return false

def guardedRememberCharacterLength (r : Rope) (compute : Guarded Nat) : Guarded Nat := do
  if let some n ← r.knownCharacterLength then return n
  let n ← compute
  match ← r.knownCharacterLength with
  | some known => return known
  | none =>
    Query.publishCharacterLength r.id n
    return n

def guardedCounted (r : Rope) (range : CodeRange) : Guarded Nat := do
  Query.note .characterCount r.id
  return r.encoding.countCharacters range (← r.guardedBytes) 0 r.byteLength

def guardedCharacterLength (r : Rope) : Guarded Nat := r.guardedRememberCharacterLength do
  if r.encoding.singleByte then return r.byteLength
  let range ← r.guardedCodeRange
  if let some n ← r.knownCharacterLength then return n
  match range with
  | .sevenBit => return r.byteLength
  | .valid =>
    match r with
    | joined n left right =>
      if ← guardedReusable n.encoding left then
        if ← guardedReusable n.encoding right then
          let front ← left.guardedCharacterLength
          let back ← right.guardedCharacterLength
          return ← sum front back
      r.guardedCounted range
    | repeated n child times =>
      if ← guardedReusable n.encoding child then
        let unit ← child.guardedCharacterLength
        return ← product unit times
      r.guardedCounted range
    | _ => r.guardedCounted range
  | _ => r.guardedCounted range

def guardedNarrow (r : Rope) (offset length : Nat) (rest : GuardedBuild Rope) :
    GuardedBuild Rope := do
  let stop := offset + length
  if lengthLimit ≤ stop then throw .lengthOverflow
  if r.byteLength < stop then throw (.outOfBounds stop r.byteLength)
  if length = 0 then return empty r.encoding
  if length = r.byteLength then return r
  if length = 1 ∧ r.encoding.asciiCompatible then
    return singleByte r.encoding (← r.guardedGetByte offset)
  rest

def guardedView (r : Rope) (offset length : Nat) : GuardedBuild Rope := do
  let known := if (← r.knownCodeRange) = .sevenBit then CodeRange.sevenBit else .unknown
  return .excerpt (← Query.newNode r.encoding length (r.depth + 1) known none) r offset

def guardedSubstring (r : Rope) (offset length : Nat) : GuardedBuild Rope :=
  r.guardedNarrow offset length <|
  match r with
  | leaf .. => r.guardedView offset length
  | excerpt _ child base => do
    let start ← sum base offset
    child.guardedSubstring start length
  | joined n left right =>
    let split := left.byteLength
    if offset + length ≤ split ∧ left.encoding = n.encoding then
      left.guardedSubstring offset length
    else if split ≤ offset ∧ right.encoding = n.encoding then do
      let start ← difference offset split
      right.guardedSubstring start length
    else r.guardedView offset length
  | repeated _ child _ => do
    let unit := child.byteLength
    let final ← difference (offset + length) 1
    let first ← quotient offset unit
    let last ← quotient final unit
    if first = last then
      let start ← remainder offset unit
      child.guardedSubstring start length
    else r.guardedView offset length

def guardedReplicate (r : Rope) (times : Nat) : GuardedBuild Rope := do
  let byteLength := r.byteLength * times
  if lengthLimit ≤ byteLength then throw .lengthOverflow
  if byteLength = 0 then return empty r.encoding
  if times = 1 then return r
  let known := (← r.knownCodeRange).dropBroken
  let length ← r.knownCharacterLength
  let characters ← if known.isKnown then
      match length with
      | some n => do
        let count ← product n times
        pure (some count)
      | none => pure none
    else pure none
  return .repeated (← Query.newNode r.encoding byteLength (r.depth + 1) known characters) r times

end Rope

variable {nodes : List Rope} {α β : Type}

/-- On a right ledger a guarded question does not stop, and does what the plain one does: it keeps
the ledger right, and its answer satisfies `P`. -/
def Guarded.Agrees (nodes : List Rope) (c : Guarded α) (q : Query α) (P : α → Prop) : Prop :=
  q.Answers .bounded nodes P ∧
    ∀ l : Ledger, l.Fits .bounded nodes → c.run.run l = (.ok (q.run l).1, (q.run l).2)

namespace Guarded

variable {c : Guarded α} {d : α → Guarded β} {q : Query α} {f : α → Query β} {P : α → Prop}
  {Q : β → Prop}

theorem Agrees.pure {a : α} (h : P a) : Agrees nodes (Pure.pure a) (Pure.pure a) P :=
  ⟨.pure h, fun _ _ => rfl⟩

theorem Agrees.lift (answers : q.Answers .bounded nodes P) : Agrees nodes (liftM q) q P :=
  ⟨answers, fun _ _ => rfl⟩

theorem Agrees.bind (first : Agrees nodes c q P)
    (rest : ∀ a, P a → Agrees nodes (d a) (f a) Q) : Agrees nodes (c >>= d) (q >>= f) Q := by
  constructor
  · exact first.1.bind fun a answer => (rest a answer).1
  · intro l fits
    obtain ⟨fits', answer⟩ := first.1 l fits
    have further := (rest _ answer).2 _ fits'
    rw [ExceptT.run_bind, StateT.run_bind, first.2 l fits]
    exact further

/-- A question that computes nothing. -/
theorem Agrees.ask (answers : q.Answers .bounded nodes P)
    (rest : ∀ a, P a → Agrees nodes (d a) (f a) Q) :
    Agrees nodes ((liftM q : Guarded α) >>= d) (q >>= f) Q :=
  (lift answers).bind rest

/-- A computation whose result fits. -/
theorem Agrees.fits {computed : Option α} {a : α} {q : Query β} (fits : computed = some a)
    (rest : Agrees nodes (d a) q Q) :
    Agrees nodes ((liftM computed : Guarded α) >>= d) q Q := by
  subst fits
  exact rest

theorem Agrees.closed (h : Rope.Closed nodes → Agrees nodes c q P) : Agrees nodes c q P :=
  ⟨.closed fun closed => (h closed).1, fun l fits => (h fits.toClosed).2 l fits⟩

/-- What is known of a plain question is known of the guarded one. -/
theorem Agrees.answering {P' : α → Prop} (h : Agrees nodes c q P')
    (answers : q.Answers .bounded nodes P) : Agrees nodes c q P :=
  ⟨answers, h.2⟩

variable {a b : Nat}

theorem sum_fits (small : a + b < lengthLimit) : sum a b = some (a + b) := if_pos small

theorem difference_fits (order : b ≤ a) : difference a b = some (a - b) := if_pos order

theorem product_fits (small : a * b < lengthLimit) : product a b = some (a * b) := if_pos small

theorem quotient_fits (positive : 0 < b) : quotient a b = some (a / b) := if_pos positive

theorem remainder_fits (positive : 0 < b) : remainder a b = some (a % b) := if_pos positive

theorem cut_fits {bytes : List UInt8} {offset len : Nat} (small : bytes.length < lengthLimit)
    (inside : offset + len ≤ bytes.length) :
    cut bytes offset len = some (Rope.slice bytes offset len) := by
  unfold cut
  rw [sum_fits (Nat.lt_of_le_of_lt inside small)]
  exact if_pos inside

/-- What is copied from one end of a unit to the next is a stretch of the repetition. -/
theorem copies_fits {unit : List UInt8} {times stop position : Nat} (nonempty : 0 < unit.length)
    (inside : stop ≤ unit.length * times) (small : stop < lengthLimit)
    (short : unit.length < lengthLimit) :
    copies unit stop position =
      some (Rope.slice (List.replicate times unit).flatten position (stop - position)) := by
  fun_induction copies unit stop position with
  | case1 position before none => simp [remainder, nonempty] at none
  | case2 position before start started count room ih =>
    rw [remainder_fits nonempty] at started
    cases started
    obtain ⟨row, _⟩ := room
    have reach : position % unit.length + count ≤ unit.length := by omega
    rw [cut_fits short reach, ih]
    show some _ = some _
    congr 1
    apply List.ext_getElem?
    intro i
    have taken : (Rope.slice unit (position % unit.length) count).length = count := by
      simp only [Rope.slice, List.length_take, List.length_drop]
      omega
    by_cases front : i < count
    · have column : (position + i) % unit.length = position % unit.length + i := by
        rw [← Nat.mod_add_mod, Nat.mod_eq_of_lt (by omega)]
      rw [List.getElem?_append_left (by rwa [taken]), getElem?_slice, getElem?_slice,
        if_pos front, if_pos (by omega), getElem?_flatten_replicate, if_pos (by omega), column]
    · rw [List.getElem?_append_right (by omega), taken, getElem?_slice, getElem?_slice]
      by_cases within : i < stop - position
      · rw [if_pos (by omega), if_pos within]
        congr 1
        omega
      · rw [if_neg (by omega), if_neg within]
  | case3 position before start started count crowded =>
    rw [remainder_fits nonempty] at started
    cases started
    have row := Nat.mod_lt position nonempty
    exact absurd ⟨row, by omega⟩ crowded
  | case4 position behind =>
    have nothing : stop - position = 0 := by omega
    simp [nothing, Rope.slice]

end Guarded

/-- On a ledger the guarded making of a rope does not stop, and does what the plain one does. -/
def GuardedBuild.AgreesAt (c : GuardedBuild α) (b : Build α) (l : Ledger) : Prop :=
  c.run.run.run l = (.ok (b.run.run l).1, (b.run.run l).2)

/-- The guarded making of a rope agrees with the plain one on right ledgers. -/
def GuardedBuild.Agrees (nodes : List Rope) (c : GuardedBuild α) (b : Build α) : Prop :=
  ∀ l : Ledger, l.Fits .bounded nodes → c.AgreesAt b l

namespace GuardedBuild

variable {c : GuardedBuild α} {d : α → GuardedBuild β} {b : Build α} {f : α → Build β}
  {q : Query α} {P : α → Prop}

theorem AgreesAt.bind {l : Ledger} (first : AgreesAt c b l)
    (rest : ∀ a l', b.run.run l = (.ok a, l') → AgreesAt (d a) (f a) l') :
    AgreesAt (c >>= d) (b >>= f) l := by
  unfold AgreesAt at first rest ⊢
  rw [ExceptT.run_bind, ExceptT.run_bind, StateT.run_bind, first, ExceptT.run_bind,
    StateT.run_bind]
  generalize StateT.run b.run l = made at rest ⊢
  obtain ⟨result, l'⟩ := made
  cases result with
  | ok a => exact rest a l' rfl
  | error fault => rfl

theorem Agrees.pure (a : α) : Agrees nodes (Pure.pure a) (Pure.pure a) := fun _ _ => rfl

theorem Agrees.fail {fault : Fault} :
    Agrees nodes ((MonadExcept.throw fault : GuardedBuild α) >>= d)
      ((MonadExcept.throw fault : Build α) >>= f) := fun _ _ => rfl

theorem Agrees.ask (answers : q.Answers .bounded nodes P)
    (rest : ∀ a, P a → Agrees nodes (d a) (f a)) :
    Agrees nodes ((liftM q : GuardedBuild α) >>= d) ((liftM q : Build α) >>= f) := by
  intro l fits
  obtain ⟨fits', answer⟩ := answers l fits
  exact rest _ answer _ fits'

/-- A guarded question in front of a guarded making. -/
theorem Agrees.question {c : Guarded α} (first : Guarded.Agrees nodes c q P)
    (rest : ∀ a, P a → Agrees nodes (d a) (f a)) :
    Agrees nodes ((liftM c : GuardedBuild α) >>= d) ((liftM q : Build α) >>= f) := by
  intro l fits
  obtain ⟨fits', answer⟩ := first.1 l fits
  have lifted : (liftM c : GuardedBuild α).AgreesAt (liftM q) l := by
    show (Except.ok <$> c : Guarded _).run.run l = _
    rw [ExceptT.run_map, StateT.run_map, first.2 l fits]
    rfl
  refine lifted.bind fun a l' asked => ?_
  cases asked
  exact rest _ answer _ fits'

theorem Agrees.map (first : Agrees nodes c b) (g : α → β) :
    Agrees nodes (do return g (← c)) (do return g (← b)) :=
  fun l fits => (first l fits).bind fun _ _ _ => rfl

theorem Agrees.fits {computed : Option α} {a : α} {b : Build β} (fits : computed = some a)
    (rest : Agrees nodes (d a) b) :
    Agrees nodes ((liftM computed : GuardedBuild α) >>= d) b := by
  subst fits
  exact rest

theorem Agrees.closed (h : Rope.Closed nodes → Agrees nodes c b) : Agrees nodes c b :=
  fun l fits => h fits.toClosed l fits

end GuardedBuild

namespace Rope

open Guarded (Agrees sum_fits difference_fits product_fits quotient_fits remainder_fits cut_fits
  copies_fits)

variable {r : Rope}

theorem guardedFlattened_agrees (known : r ∈ nodes) {guarded : Guarded (List UInt8)}
    {compute : Query (List UInt8)} (agrees : Agrees nodes guarded compute (· = r.toBytes)) :
    Agrees nodes (r.guardedFlattened guarded) (r.flattened compute) (· = r.toBytes) := by
  have asked : Agrees nodes (do
      match (← Query.entry r.id).bytes with
      | some bytes => return bytes
      | none =>
        Query.note .flatten r.id
        let bytes ← guarded
        Query.update r.id fun e => { e with bytes := some bytes }
        return bytes) (do
      match (← Query.entry r.id).bytes with
      | some bytes => return bytes
      | none =>
        Query.note .flatten r.id
        let bytes ← compute
        Query.update r.id fun e => { e with bytes := some bytes }
        return bytes) (· = r.toBytes) := by
    refine .ask (Query.answers_entry known) fun entry fits => ?_
    split
    next bytes kept => exact .pure (fits.bytes bytes kept)
    next =>
      refine .ask (Query.answers_note _ _) fun _ _ => .bind agrees fun bytes same => ?_
      subst same
      exact .ask (Query.answers_update known fun _ fits => fits.keepBytes) fun _ _ => .pure rfl
  cases r with
  | leaf n bytes => exact .pure rfl
  | joined n left right => exact asked
  | excerpt n child offset => exact asked
  | repeated n child times => exact asked

theorem guardedWalk_agrees (known : r ∈ nodes) {offset len : Nat} {tail : List UInt8}
    (inside : offset + len ≤ r.byteLength) {guarded : Guarded (List UInt8)}
    {walk : Query (List UInt8)} (agrees : Agrees nodes guarded walk fun _ => True) :
    Agrees nodes (if len = 0 then pure tail else do
        match (← Query.entry r.id).bytes with
        | some bytes => return (← Guarded.cut bytes offset len) ++ tail
        | _ => guarded)
      (if len = 0 then pure tail else do
        match (← Query.entry r.id).bytes with
        | some bytes => pure (slice bytes offset len ++ tail)
        | _ => walk) fun _ => True := by
  refine .closed fun closed => ?_
  have sound := closed.sound r known
  split
  next => exact .pure trivial
  next =>
    refine .ask (Query.answers_entry known) fun entry fits => ?_
    split
    next bytes kept =>
      have length := sound.length_toBytes
      rw [← fits.bytes bytes kept] at length
      have within : offset + len ≤ bytes.length := length ▸ inside
      exact .fits (cut_fits (length ▸ sound.byteLength_lt) within) (.pure trivial)
    next => exact agrees

theorem guardedWindowOnto_agrees (known : r ∈ nodes) {offset len : Nat} (tail : List UInt8)
    (inside : offset + len ≤ r.byteLength) :
    Agrees nodes (r.guardedWindowOnto offset len tail) (r.windowOnto offset len tail)
      fun _ => True := by
  refine .closed fun closed => ?_
  have sound := closed.sound r known
  induction r generalizing offset len tail with
  | leaf n bytes =>
    rw [guardedWindowOnto, windowOnto]
    obtain ⟨length, small⟩ := sound
    have within : offset + len ≤ bytes.length := length ▸ inside
    exact guardedWalk_agrees known inside (.fits (cut_fits (length ▸ small) within) (.pure trivial))
  | joined n left right ihl ihr =>
    have knownl := closed.parts _ known left (by simp [parts])
    have knownr := closed.parts _ known right (by simp [parts])
    obtain ⟨soundl, soundr, total, small⟩ := sound
    have within : offset + len ≤ left.byteLength + right.byteLength := total ▸ inside
    have front : ∀ tail, Agrees nodes
        (if offset < left.byteLength then do
          let count ← Guarded.difference (min (offset + len) left.byteLength) offset
          left.guardedWindowOnto offset count tail
        else return tail)
        (if offset < left.byteLength then
          left.windowOnto offset (min (offset + len) left.byteLength - offset) tail
        else return tail) fun _ => True := by
      intro tail
      split
      next before => exact .fits (difference_fits (by omega)) (ihl knownl tail (by omega) soundl)
      next => exact .pure trivial
    rw [guardedWindowOnto, windowOnto]
    refine guardedWalk_agrees known inside (.fits (sum_fits (by omega)) ?_)
    dsimp only
    split
    next past =>
      refine .fits (difference_fits (Nat.le_max_right ..)) ?_
      refine .fits (difference_fits (by omega)) ?_
      exact .bind (ihr knownr tail (by omega) soundr) fun back _ => front back
    next => exact front tail
  | excerpt n child base ih =>
    have knownc := closed.parts _ known child (by simp [parts])
    obtain ⟨soundc, _, bound⟩ := sound
    have small := soundc.byteLength_lt
    have within : offset + len ≤ n.byteLength := inside
    rw [guardedWindowOnto, windowOnto]
    refine guardedWalk_agrees known inside (.fits (sum_fits (by omega)) ?_)
    exact ih knownc tail (by omega) soundc
  | repeated n child times ih =>
    have knownc := closed.parts _ known child (by simp [parts])
    obtain ⟨soundc, _, positive, _, product, small⟩ := sound
    have within : offset + len ≤ child.byteLength * times := product ▸ inside
    have whole := (ih knownc [] (by omega) soundc).answering (whole_answers knownc)
    rw [guardedWindowOnto, windowOnto]
    refine guardedWalk_agrees known inside ?_
    refine .bind (guardedFlattened_agrees knownc whole) fun bytes same => ?_
    subst same
    have length := soundc.length_toBytes
    have short := soundc.byteLength_lt
    have few : offset + len < lengthLimit := by omega
    rw [← length] at positive within short
    refine .fits (sum_fits few) (.fits (copies_fits positive within few short) ?_)
    rw [cyclic_eq_slice positive within, Nat.add_sub_cancel_left]
    exact .pure trivial

/-- Reading all bytes of a rope never leaves 64 bits. -/
theorem guardedBytes_agrees (known : r ∈ nodes) :
    Agrees nodes r.guardedBytes r.bytes (· = r.toBytes) := by
  apply guardedFlattened_agrees known
  exact (guardedWindowOnto_agrees known [] (by omega)).answering (whole_answers known)

theorem getElem?_eq_getD {bytes : List UInt8} {index : Nat} (short : index < bytes.length) :
    bytes[index]? = some (bytes.getD index 0) := by
  rw [List.getD_eq_getElem?_getD, List.getElem?_eq_getElem short, Option.getD_some]

theorem guardedByteAt_eq {l : Ledger} (fits : l.Fits .bounded nodes) (known : r ∈ nodes)
    {index : Nat} (inside : index < r.byteLength) :
    guardedByteAt l r index = some (byteAt l r index) := by
  have sound := fits.sound r known
  fun_induction byteAt l r index with
  | case1 r index bytes kept =>
    have same := (fits.entry r known).bytes bytes kept
    rw [← sound.length_toBytes, ← same] at inside
    rw [guardedByteAt.eq_def, kept]
    exact getElem?_eq_getD inside
  | case2 index n bytes none =>
    rw [guardedByteAt, none]
    exact getElem?_eq_getD (sound.1 ▸ inside)
  | case3 index n left right before none ih =>
    have knownl := fits.parts _ known left (by simp [parts])
    rw [guardedByteAt, none]
    dsimp only
    rw [if_pos before]
    exact ih knownl before sound.1
  | case4 index n left right behind none ih =>
    have knownr := fits.parts _ known right (by simp [parts])
    obtain ⟨_, soundr, total, _⟩ := sound
    have within : index < left.byteLength + right.byteLength := total ▸ inside
    rw [guardedByteAt, none]
    dsimp only
    rw [if_neg behind, difference_fits (Nat.le_of_not_lt behind)]
    exact ih knownr (by omega) soundr
  | case5 index n child base none ih =>
    have knownc := fits.parts _ known child (by simp [parts])
    obtain ⟨soundc, _, bound⟩ := sound
    have small := soundc.byteLength_lt
    have within : index < n.byteLength := inside
    rw [guardedByteAt, none]
    dsimp only
    rw [sum_fits (by omega)]
    exact ih knownc (by omega) soundc
  | case6 index n child times none ih =>
    have knownc := fits.parts _ known child (by simp [parts])
    obtain ⟨soundc, _, positive, _⟩ := sound
    rw [guardedByteAt, none]
    dsimp only
    rw [remainder_fits positive]
    exact ih knownc (Nat.mod_lt _ positive) soundc

theorem guardedScanned_agrees (known : r ∈ nodes) :
    Agrees nodes r.guardedScanned r.scanned fun _ => True := by
  unfold guardedScanned scanned
  refine .ask (Query.answers_note _ _) fun _ _ => ?_
  refine .bind (guardedBytes_agrees known) fun bytes same => ?_
  subst same
  have count := Reading.bounded_lawful.length_scan r.encoding r.toBytes
  exact .ask (Query.answers_publishCharacterLength known count) fun _ _ => .pure trivial

theorem guardedInheritedRange_agrees (e : Encoding) {part : Rope} {guarded : Guarded CodeRange}
    {range : Query CodeRange} (agrees : Agrees nodes guarded range fun _ => True) :
    Agrees nodes (guardedInheritedRange e part guarded) (inheritedRange e part range)
      fun _ => True := by
  unfold guardedInheritedRange inheritedRange
  split
  next => exact .bind agrees fun _ _ => .pure trivial
  next =>
    split
    next => exact .bind agrees fun _ _ => .pure trivial
    next => exact .pure trivial

theorem guardedAdopt_agrees (known : r ∈ nodes) (found : Option CodeRange) :
    Agrees nodes (r.guardedAdopt found) (r.adopt found) (·.isKnown = true) := by
  have scanned : Agrees nodes r.guardedScanned r.scanned (·.isKnown = true) :=
    (guardedScanned_agrees known).answering (scanned_answers Reading.bounded_lawful known)
  cases found with
  | none => exact scanned
  | some x =>
    cases x with
    | sevenBit => exact .pure rfl
    | valid => exact .pure rfl
    | broken => exact scanned
    | unknown => exact scanned

theorem guardedRememberCodeRange_agrees (known : r ∈ nodes) {guarded : Guarded CodeRange}
    {compute : Query CodeRange} (agrees : Agrees nodes guarded compute (·.isKnown = true)) :
    Agrees nodes (r.guardedRememberCodeRange guarded) (r.rememberCodeRange compute)
      fun _ => True := by
  unfold guardedRememberCodeRange rememberCodeRange
  refine .ask (knownCodeRange_answers known) fun before _ => ?_
  split
  next => exact .pure trivial
  next =>
    refine .bind agrees fun found told => ?_
    have published := Query.answers_publishCodeRange (R := .bounded) known told
    exact .lift (published.mono fun _ _ => trivial)

/-- Finding out about the code range of a rope never leaves 64 bits. -/
theorem guardedCodeRange_agrees (known : r ∈ nodes) :
    Agrees nodes r.guardedCodeRange r.codeRange fun _ => True := by
  refine .closed fun closed => ?_
  induction r with
  | leaf n bytes =>
    rw [guardedCodeRange, codeRange]
    exact guardedRememberCodeRange_agrees known (guardedAdopt_agrees known none)
  | joined n left right ihl ihr =>
    have asl := ihl (closed.parts _ known left (by simp [parts]))
    have asr := ihr (closed.parts _ known right (by simp [parts]))
    rw [guardedCodeRange, codeRange]
    refine guardedRememberCodeRange_agrees known ?_
    refine .bind (guardedInheritedRange_agrees n.encoding asl) fun a _ => ?_
    refine .bind (guardedInheritedRange_agrees n.encoding asr) fun b _ => ?_
    exact guardedAdopt_agrees known _
  | excerpt n child offset ih =>
    have asc := ih (closed.parts _ known child (by simp [parts]))
    rw [guardedCodeRange, codeRange]
    refine guardedRememberCodeRange_agrees known (.bind asc fun x _ => ?_)
    exact guardedAdopt_agrees known _
  | repeated n child times ih =>
    have asc := ih (closed.parts _ known child (by simp [parts]))
    rw [guardedCodeRange, codeRange]
    refine guardedRememberCodeRange_agrees known ?_
    refine .bind (guardedInheritedRange_agrees n.encoding asc) fun found _ => ?_
    exact guardedAdopt_agrees known found

theorem guardedReusable_agrees (e : Encoding) {part : Rope} (known : part ∈ nodes) :
    Agrees nodes (guardedReusable e part) (reusable e part) fun _ => True := by
  unfold guardedReusable reusable
  refine .bind (guardedInheritedRange_agrees e (guardedCodeRange_agrees known)) fun found _ => ?_
  cases found with
  | none => exact .pure trivial
  | some x => cases x <;> exact .pure trivial

theorem guardedRememberCharacterLength_agrees (known : r ∈ nodes) {guarded : Guarded Nat}
    {compute : Query Nat} (agrees : Agrees nodes guarded compute (· ≤ r.byteLength)) :
    Agrees nodes (r.guardedRememberCharacterLength guarded) (r.rememberCharacterLength compute)
      fun _ => True := by
  refine .closed fun closed => ?_
  unfold guardedRememberCharacterLength rememberCharacterLength
  refine .ask (knownCharacterLength_answers known) fun before _ => ?_
  cases before with
  | some n => exact .pure trivial
  | none =>
    refine .bind agrees fun n few => .ask (knownCharacterLength_answers known) fun now _ => ?_
    cases now with
    | some other => exact .pure trivial
    | none =>
      rw [← (closed.sound r known).length_toBytes] at few
      exact .ask (Query.answers_publishCharacterLength known few) fun _ _ => .pure trivial

theorem guardedCounted_agrees (known : r ∈ nodes) {range : CodeRange} :
    Agrees nodes (r.guardedCounted range) (r.counted range) (· ≤ r.byteLength) := by
  refine .closed fun closed => ?_
  unfold guardedCounted counted
  refine .ask (Query.answers_note _ _) fun _ _ => ?_
  refine .bind (guardedBytes_agrees known) fun bytes same => .pure ?_
  rw [same, ← (closed.sound r known).length_toBytes]
  exact r.encoding.countCharacters_le range r.toBytes

/-- Adding up and multiplying counts of characters never leaves 64 bits, whatever is claimed. -/
theorem guardedCharacterLength_agrees (known : r ∈ nodes) :
    Agrees nodes r.guardedCharacterLength r.characterLength fun n => n ≤ r.byteLength := by
  refine .closed fun closed => ?_
  have bound : ∀ p ∈ nodes, p.characterLength.Answers .bounded nodes (· ≤ p.byteLength) := by
    intro p knownp
    rw [← (closed.sound p knownp).length_toBytes]
    exact characterLength_answers Reading.bounded_lawful knownp
  suffices agrees : Agrees nodes r.guardedCharacterLength r.characterLength fun _ => True from
    agrees.answering (bound r known)
  induction r using byParts with
  | step r ih =>
    have counts : ∀ p ∈ r.parts, Agrees nodes p.guardedCharacterLength p.characterLength
        (· ≤ p.byteLength) := by
      intro p part
      have knownp := closed.parts r known p part
      exact (ih p part knownp).answering (bound p knownp)
    have sound := closed.sound r known
    rw [guardedCharacterLength, characterLength]
    refine guardedRememberCharacterLength_agrees known ?_
    split
    next => exact .pure (Nat.le_refl _)
    next =>
      refine .bind (guardedCodeRange_agrees known) fun range _ => ?_
      have counted : Agrees nodes (r.guardedCounted range) (r.counted range) (· ≤ r.byteLength) :=
        guardedCounted_agrees known
      refine .ask (knownCharacterLength_answers known) fun before found => ?_
      cases before with
      | some n =>
        refine .pure ?_
        rw [← sound.length_toBytes]
        exact found n rfl
      | none =>
        cases range with
        | sevenBit => exact .pure (Nat.le_refl _)
        | broken => exact counted
        | unknown => exact counted
        | valid =>
          cases r with
          | leaf n bytes => exact counted
          | excerpt n child offset => exact counted
          | joined n left right =>
            have knownl := closed.parts _ known left (by simp [parts])
            have knownr := closed.parts _ known right (by simp [parts])
            obtain ⟨soundl, soundr, total, small⟩ := sound
            refine .bind (guardedReusable_agrees n.encoding knownl) fun reusel _ => ?_
            dsimp only
            split
            next =>
              refine .bind (guardedReusable_agrees n.encoding knownr) fun reuser _ => ?_
              split
              next =>
                refine .bind (counts left (by simp [parts])) fun a fewa => ?_
                refine .bind (counts right (by simp [parts])) fun b fewb => ?_
                have few : a + b ≤ n.byteLength := by omega
                have fits := Nat.lt_of_le_of_lt few small
                rw [Metadata.wrapLength_of_lt fits, sum_fits fits]
                exact .pure few
              next => exact counted
            next => exact counted
          | repeated n child times =>
            have knownc := closed.parts _ known child (by simp [parts])
            obtain ⟨soundc, _, _, _, total, small⟩ := sound
            refine .bind (guardedReusable_agrees n.encoding knownc) fun reuse _ => ?_
            split
            next =>
              refine .bind (counts child (by simp [parts])) fun a fewa => ?_
              have few : a * times ≤ n.byteLength := total ▸ Nat.mul_le_mul_right times fewa
              have fits := Nat.lt_of_le_of_lt few small
              rw [Metadata.wrapLength_of_lt fits, product_fits fits]
              exact .pure few
            next => exact counted

/-- The way down to a byte never leaves 64 bits. -/
theorem guardedGetByte_agrees (known : r ∈ nodes) (index : Nat) :
    GuardedBuild.Agrees nodes (r.guardedGetByte index) (r.getByte index) := by
  intro l fits
  unfold guardedGetByte getByte
  split
  next => rfl
  next before =>
    have inside := Nat.lt_of_not_le before
    show (liftM (guardedByteAt l r index) : GuardedBuild UInt8).run.run.run l = _
    rw [guardedByteAt_eq fits known inside]
    rfl

theorem guardedNarrow_agrees (known : r ∈ nodes) {offset length : Nat} {guarded : GuardedBuild Rope}
    {cut : Build Rope} (cuts : 0 < length → offset + length ≤ r.byteLength →
      GuardedBuild.Agrees nodes guarded cut) :
    GuardedBuild.Agrees nodes (r.guardedNarrow offset length guarded)
      (r.narrow offset length cut) := by
  unfold guardedNarrow narrow
  dsimp only
  split
  next => exact .fail
  next =>
    split
    next => exact .fail
    next inside =>
      split
      next => exact .pure _
      next several =>
        split
        next => exact .pure _
        next =>
          split
          next => exact (guardedGetByte_agrees known offset).map _
          next => exact cuts (Nat.pos_of_ne_zero several) (Nat.le_of_not_lt inside)

theorem guardedView_agrees (known : r ∈ nodes) (offset length : Nat) :
    GuardedBuild.Agrees nodes (r.guardedView offset length) (r.view offset length) :=
  .ask (knownCodeRange_answers known) fun _ _ _ _ => rfl

/-- Going down to the part that a window is cut from never leaves 64 bits. -/
theorem guardedSubstring_agrees (known : r ∈ nodes) (offset length : Nat) :
    GuardedBuild.Agrees nodes (r.guardedSubstring offset length) (r.substring offset length) := by
  refine .closed fun closed => ?_
  have sound := closed.sound r known
  induction r generalizing offset length with
  | leaf n bytes =>
    rw [guardedSubstring, substring]
    exact guardedNarrow_agrees known fun _ _ => guardedView_agrees known offset length
  | joined n left right ihl ihr =>
    have knownl := closed.parts _ known left (by simp [parts])
    have knownr := closed.parts _ known right (by simp [parts])
    rw [guardedSubstring, substring]
    refine guardedNarrow_agrees known fun _ _ => ?_
    dsimp only
    split
    next => exact ihl knownl offset length sound.1
    next =>
      split
      next behind =>
        exact .fits (difference_fits behind.1) (ihr knownr _ length sound.2.1)
      next => exact guardedView_agrees known offset length
  | excerpt n child base ih =>
    have knownc := closed.parts _ known child (by simp [parts])
    obtain ⟨soundc, _, bound⟩ := sound
    have small := soundc.byteLength_lt
    rw [guardedSubstring, substring]
    refine guardedNarrow_agrees known fun _ inside => ?_
    have within : offset + length ≤ n.byteLength := inside
    exact .fits (sum_fits (by omega)) (ih knownc _ length soundc)
  | repeated n child times ih =>
    have knownc := closed.parts _ known child (by simp [parts])
    obtain ⟨soundc, _, positive, _⟩ := sound
    rw [guardedSubstring, substring]
    refine guardedNarrow_agrees known fun some _ => ?_
    have last : 1 ≤ offset + length := by omega
    refine .fits (difference_fits last) ?_
    refine .fits (quotient_fits positive) (.fits (quotient_fits positive) ?_)
    dsimp only
    split
    next => exact .fits (remainder_fits positive) (ih knownc _ length soundc)
    next => exact guardedView_agrees known offset length

/-- The number of characters of a repetition never leaves 64 bits, whatever is known of its unit. -/
theorem guardedReplicate_agrees (known : r ∈ nodes) (times : Nat) :
    GuardedBuild.Agrees nodes (r.guardedReplicate times) (r.replicate times) := by
  refine .closed fun closed => ?_
  have length := (closed.sound r known).length_toBytes
  unfold guardedReplicate replicate
  dsimp only
  split
  next => exact .fail
  next short =>
    split
    next => exact .pure _
    next =>
      split
      next => exact .pure _
      next =>
        refine .ask (knownCodeRange_answers known) fun x _ => ?_
        refine .ask (knownCharacterLength_answers known) fun told right => ?_
        split
        next =>
          cases told with
          | none => exact fun _ _ => rfl
          | some n =>
            have few : n ≤ r.byteLength := length ▸ right n rfl
            have fits : n * times < lengthLimit :=
              Nat.lt_of_le_of_lt (Nat.mul_le_mul_right times few) (Nat.lt_of_not_le short)
            rw [Option.map_some, Metadata.wrapLength_of_lt fits]
            exact .fits (product_fits fits) fun _ _ => rfl
        next => exact fun _ _ => rfl

end Rope

end RopeBridge
