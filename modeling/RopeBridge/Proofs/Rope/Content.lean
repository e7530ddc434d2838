import RopeBridge.Proofs.Rope.Query

/-! The readers of a rope against what the rope denotes: the walk for a window, the flattening of a
node and the way down to one byte all give the bytes of `toBytes`, whatever the ledger has. -/
namespace RopeBridge

theorem getElem?_flatten_replicate (unit : List UInt8) (times i : Nat) :
    (List.replicate times unit).flatten[i]? =
      if i < unit.length * times then unit[i % unit.length]? else none := by
  induction times generalizing i with
  | zero => simp
  | succ times ih =>
    rw [List.replicate_succ, List.flatten_cons, Nat.mul_succ]
    by_cases first : i < unit.length
    · rw [List.getElem?_append_left first, Nat.mod_eq_of_lt first, if_pos (by omega)]
    · have first : unit.length ≤ i := Nat.le_of_not_lt first
      rw [List.getElem?_append_right first, ih, Nat.mod_eq_sub_mod first]
      by_cases inside : i < unit.length * times + unit.length
      · rw [if_pos inside, if_pos (by omega)]
      · rw [if_neg inside, if_neg (by omega)]

theorem getElem?_slice (bytes : List UInt8) (offset len i : Nat) :
    (Rope.slice bytes offset len)[i]? = if i < len then bytes[offset + i]? else none := by
  unfold Rope.slice
  rw [List.getElem?_take]
  split <;> simp

/-- The window of a repetition, found in enough copies of its unit from the start of one of them. -/
theorem cyclic_eq_slice {unit : List UInt8} (nonempty : 0 < unit.length) {offset len times : Nat}
    (inside : offset + len ≤ unit.length * times) :
    cyclic unit offset len = Rope.slice (List.replicate times unit).flatten offset len := by
  have start := Nat.mod_lt offset nonempty
  have copies := Nat.lt_mul_div_succ len nonempty
  apply List.ext_getElem?
  intro i
  show (Rope.slice _ (offset % unit.length) len)[i]? = _
  rw [getElem?_slice, getElem?_slice]
  split
  next short =>
    have reach : offset % unit.length + i < unit.length * (len / unit.length + 2) := by
      rw [Nat.mul_succ] at copies ⊢
      rw [Nat.mul_succ]
      omega
    rw [getElem?_flatten_replicate, getElem?_flatten_replicate,
      if_pos reach, if_pos (by omega), Nat.mod_add_mod]
  next => rfl

namespace Rope

theorem slice_whole (bytes : List UInt8) : slice bytes 0 bytes.length = bytes := by simp [slice]

theorem slice_slice (bytes : List UInt8) {base size offset len : Nat}
    (inside : offset + len ≤ size) :
    slice (slice bytes base size) offset len = slice bytes (base + offset) len := by
  apply List.ext_getElem?
  intro i
  simp only [getElem?_slice]
  split
  next short => rw [if_pos (by omega), Nat.add_assoc]
  next => rfl

/-- A window over a seam, put together from the parts that fall on either side. -/
theorem slice_append (a b : List UInt8) (offset len : Nat) :
    slice (a ++ b) offset len =
      slice a offset (min (offset + len) a.length - offset) ++
        slice b (max offset a.length - a.length) (offset + len - max offset a.length) := by
  unfold slice
  rw [List.drop_append, List.take_append]
  congr 1
  · rw [List.take_eq_take_iff, List.length_drop]
    omega
  · rw [List.length_drop]
    congr 1
    · omega
    · congr 1
      omega

theorem slice_append_left {a : List UInt8} (b : List UInt8) {offset len : Nat}
    (inside : offset + len ≤ a.length) : slice (a ++ b) offset len = slice a offset len := by
  rw [slice_append, Nat.min_eq_left inside, Nat.add_sub_cancel_left,
    show offset + len - max offset a.length = 0 by omega]
  simp [slice]

theorem slice_append_right {a : List UInt8} (b : List UInt8) {offset : Nat}
    (behind : a.length ≤ offset) (len : Nat) :
    slice (a ++ b) offset len = slice b (offset - a.length) len := by
  rw [slice_append, Nat.max_eq_left behind, Nat.add_sub_cancel_left,
    show min (offset + len) a.length - offset = 0 by omega]
  simp [slice]

/-- A window inside one unit of a repetition is a window of the unit. -/
theorem slice_copies {unit : List UInt8} {times offset len : Nat} (positive : 0 < len)
    (inside : offset + len ≤ unit.length * times)
    (one : offset / unit.length = (offset + len - 1) / unit.length) :
    offset % unit.length + len ≤ unit.length ∧
      slice (List.replicate times unit).flatten offset len =
        slice unit (offset % unit.length) len := by
  have nonempty : 0 < unit.length := by
    rcases Nat.eq_zero_or_pos unit.length with none | some
    · simp only [none, Nat.zero_mul] at inside
      omega
    · exact some
  have first := Nat.div_add_mod offset unit.length
  have last := Nat.div_add_mod (offset + len - 1) unit.length
  have low := Nat.mod_lt (offset + len - 1) nonempty
  rw [← one] at last
  have fits : offset % unit.length + len ≤ unit.length := by omega
  refine ⟨fits, List.ext_getElem? fun i => ?_⟩
  simp only [getElem?_slice]
  split
  next short =>
    rw [getElem?_flatten_replicate, if_pos (by omega), ← Nat.mod_add_mod,
      Nat.mod_eq_of_lt (by omega)]
  next => rfl

variable {R : Reading} {nodes : List Rope} {r : Rope}

/-- What computes the bytes of a node is asked at most once; its answer is what is kept. -/
theorem flattened_answers (known : r ∈ nodes) {compute : Query (List UInt8)}
    (computed : compute.Answers R nodes (· = r.toBytes)) :
    (r.flattened compute).Answers R nodes (· = r.toBytes) := by
  unfold flattened
  split
  next n bytes => exact .pure rfl
  next r _ =>
    refine (Query.answers_entry known).bind fun entry fits => ?_
    split
    next bytes kept => exact .pure (fits.bytes bytes kept)
    next =>
      refine (Query.answers_note _ _).bind fun _ _ => computed.bind fun bytes same => ?_
      subst same
      refine (Query.answers_update known fun _ fits => fits.keepBytes).bind fun _ _ => ?_
      exact .pure rfl

/-- A walk is over where nothing is asked for or where the bytes have been kept. -/
theorem walk_answers (known : r ∈ nodes) {offset len : Nat} {tail : List UInt8}
    {walk : Query (List UInt8)}
    (walked : walk.Answers R nodes (· = slice r.toBytes offset len ++ tail)) :
    Query.Answers R nodes (if len = 0 then pure tail else do
      match (← Query.entry r.id).bytes with
      | some bytes => pure (slice bytes offset len ++ tail)
      | _ => walk) (· = slice r.toBytes offset len ++ tail) := by
  split
  next none => exact .pure (by simp [none, slice])
  next =>
    refine (Query.answers_entry known).bind fun entry fits => ?_
    split
    next bytes kept => exact .pure (by rw [fits.bytes bytes kept])
    next => exact walked

theorem windowOnto_answers (known : r ∈ nodes) {offset len : Nat} (tail : List UInt8)
    (inside : offset + len ≤ r.byteLength) :
    (r.windowOnto offset len tail).Answers R nodes (· = slice r.toBytes offset len ++ tail) := by
  refine .closed fun closed => ?_
  have sound := closed.sound r known
  induction r generalizing offset len tail with
  | leaf n bytes =>
    rw [windowOnto]
    exact walk_answers known (.pure rfl)
  | joined n left right ihl ihr =>
    have knownl := closed.parts _ known left (by simp [parts])
    have knownr := closed.parts _ known right (by simp [parts])
    obtain ⟨soundl, soundr, sum, _⟩ := sound
    have inside : offset + len ≤ left.byteLength + right.byteLength := sum ▸ inside
    -- the part in front of the seam, whatever has been put behind it
    have front : ∀ tail, Query.Answers R nodes
        (if offset < left.byteLength then
          left.windowOnto offset (min (offset + len) left.byteLength - offset) tail
        else pure tail)
        (· = slice left.toBytes offset (min (offset + len) left.byteLength - offset) ++ tail) := by
      intro tail
      split
      next before => exact ihl knownl tail (by omega) soundl
      next behind =>
        have nothing : min (offset + len) left.byteLength - offset = 0 := by omega
        exact .pure (by simp [slice, nothing])
    rw [windowOnto]
    refine walk_answers known ?_
    rw [toBytes_joined, slice_append, soundl.length_toBytes, List.append_assoc]
    dsimp only
    split
    next past =>
      refine (ihr knownr tail (by omega) soundr).bind fun back same => ?_
      subst same
      exact front _
    next before =>
      have nothing : offset + len - max offset left.byteLength = 0 := by omega
      refine Query.Answers.bind (.pure rfl) fun back same => ?_
      subst same
      simpa [slice, nothing] using front tail
  | excerpt n child base ih =>
    have knownc := closed.parts _ known child (by simp [parts])
    obtain ⟨soundc, _, bound⟩ := sound
    have inside : offset + len ≤ n.byteLength := inside
    rw [windowOnto]
    refine walk_answers known ?_
    rw [show (excerpt n child base).toBytes = slice child.toBytes base n.byteLength from rfl,
      slice_slice _ inside]
    exact ih knownc tail (by omega) soundc
  | repeated n child times ih =>
    have knownc := closed.parts _ known child (by simp [parts])
    obtain ⟨soundc, _, positive, _, product, _⟩ := sound
    have inside : offset + len ≤ child.byteLength * times := product ▸ inside
    have whole : Query.Answers R nodes (child.windowOnto 0 child.byteLength [])
        (· = child.toBytes) := by
      refine (ih knownc [] (by omega) soundc).mono fun bytes same => ?_
      rw [same, ← soundc.length_toBytes, slice_whole, List.append_nil]
    rw [windowOnto]
    refine walk_answers known ?_
    refine (flattened_answers knownc whole).bind fun unit same => ?_
    subst same
    rw [← soundc.length_toBytes] at positive inside
    exact .pure (by rw [cyclic_eq_slice positive inside, toBytes_repeated])

/-- The walk for all bytes of a node, which are not kept yet. -/
theorem whole_answers (known : r ∈ nodes) :
    (r.windowOnto 0 r.byteLength []).Answers R nodes (· = r.toBytes) := by
  refine .closed fun closed => ?_
  refine (windowOnto_answers known [] (by omega)).mono fun bytes same => ?_
  rw [same, ← (closed.sound r known).length_toBytes, slice_whole, List.append_nil]

/-- All bytes of a rope are those it denotes. -/
theorem bytes_answers (known : r ∈ nodes) : r.bytes.Answers R nodes (· = r.toBytes) :=
  flattened_answers known (whole_answers known)

/-- The way down to a byte ends at that byte. -/
theorem byteAt_eq {l : Ledger} (fits : l.Fits R nodes) (known : r ∈ nodes) {index : Nat}
    (inside : index < r.byteLength) : r.toBytes[index]? = some (byteAt l r index) := by
  have sound := fits.sound r known
  fun_induction byteAt l r index with
  | case1 r index bytes kept =>
    have same := (fits.entry r known).bytes bytes kept
    rw [← sound.length_toBytes] at inside
    simp [same, List.getD_eq_getElem?_getD, inside]
  | case2 index n bytes =>
    rw [← sound.length_toBytes] at inside
    simp_all [List.getD_eq_getElem?_getD]
  | case3 index n left right before _ ih =>
    have knownl := fits.parts _ known left (by simp [parts])
    rw [toBytes_joined, List.getElem?_append_left (by rwa [sound.1.length_toBytes])]
    exact ih knownl before sound.1
  | case4 index n left right behind _ ih =>
    have knownr := fits.parts _ known right (by simp [parts])
    obtain ⟨soundl, soundr, sum, _⟩ := sound
    have inside : index < left.byteLength + right.byteLength := sum ▸ inside
    have behind : left.byteLength ≤ index := Nat.le_of_not_lt behind
    rw [toBytes_joined, List.getElem?_append_right (by rwa [soundl.length_toBytes]),
      soundl.length_toBytes]
    exact ih knownr (by omega) soundr
  | case5 index n child base _ ih =>
    have knownc := fits.parts _ known child (by simp [parts])
    obtain ⟨soundc, _, bound⟩ := sound
    have inside : index < n.byteLength := inside
    rw [show (excerpt n child base).toBytes = slice child.toBytes base n.byteLength from rfl,
      getElem?_slice, if_pos inside, Nat.add_comm]
    exact ih knownc (by omega) soundc
  | case6 index n child times _ ih =>
    have knownc := fits.parts _ known child (by simp [parts])
    obtain ⟨soundc, _, positive, _, product, _⟩ := sound
    have inside : index < child.byteLength * times := product ▸ inside
    have row := Nat.mod_lt index positive
    rw [toBytes_repeated, getElem?_flatten_replicate, soundc.length_toBytes, if_pos inside]
    exact ih knownc row soundc

theorem getByte_run (r : Rope) (index : Nat) (l : Ledger) :
    (r.getByte index).run.run l =
      (if r.byteLength ≤ index then .error (.outOfBounds index r.byteLength)
        else .ok (byteAt l r index), l) := by
  by_cases beyond : r.byteLength ≤ index
  · simp only [getByte, beyond, if_true]
    rfl
  · simp only [getByte, beyond, if_false]
    rfl

/-- What is answered for an index is the byte there, or that there is none. -/
theorem getByte_answers (known : r ∈ nodes) (index : Nat) :
    Query.Answers R nodes (r.getByte index).run (· =
      match r.toBytes[index]? with
      | some byte => .ok byte
      | none => .error (.outOfBounds index r.byteLength)) := by
  intro l fits
  rw [getByte_run]
  refine ⟨fits, ?_⟩
  dsimp only
  split
  next beyond =>
    rw [List.getElem?_eq_none (by rwa [(fits.sound r known).length_toBytes])]
  next inside => rw [byteAt_eq fits known (Nat.lt_of_not_le inside)]

theorem hashCode_answers (known : r ∈ nodes) :
    r.hashCode.Answers R nodes (· = contentHash r.encoding r.toBytes) := by
  unfold hashCode
  refine (Query.answers_entry known).bind fun entry fits => ?_
  split
  next hash kept => exact .pure (fits.hash hash kept)
  next =>
    refine (bytes_answers known).bind fun bytes same => ?_
    subst same
    refine (Query.answers_update known fun _ fits => fits.keepHash).bind fun _ _ => ?_
    exact .pure rfl

/-- Ropes are equal exactly when they have the same label and the same bytes. -/
theorem equal_answers {a b : Rope} (knowna : a ∈ nodes) (knownb : b ∈ nodes) :
    (a.equal b).Answers R nodes
      fun same => same = true ↔ a.encoding = b.encoding ∧ a.toBytes = b.toBytes := by
  refine .closed fun closed => ?_
  have compared : Query.Answers R nodes (do return (← a.bytes) == (← b.bytes))
      fun same => same = true ↔ a.toBytes = b.toBytes := by
    refine (bytes_answers knowna).bind fun x samex => (bytes_answers knownb).bind fun y samey => ?_
    subst samex samey
    exact .pure beq_iff_eq
  unfold equal
  split
  next one =>
    rw [closed.unique a knowna b knownb (by simpa [sameNode] using one)]
    exact .pure (by simp)
  next =>
    split
    next differ =>
      refine .pure (iff_of_false (by simp) fun ⟨encoding, bytes⟩ => ?_)
      rcases differ with length | other
      · rw [← (closed.sound a knowna).length_toBytes, bytes,
          (closed.sound b knownb).length_toBytes] at length
        exact length rfl
      · exact other encoding
    next alike =>
      have encoding : a.encoding = b.encoding :=
        Decidable.not_not.1 fun other => alike (.inr other)
      have compared := compared.mono fun _ same => same.trans (and_iff_right encoding).symm
      refine (Query.answers_entry knowna).bind fun ea fitsa => ?_
      refine (Query.answers_entry knownb).bind fun eb fitsb => ?_
      split
      next x y keptx kepty =>
        dsimp only
        split
        next apart =>
          refine .pure (iff_of_false (by simp) fun ⟨encoding, bytes⟩ => apart ?_)
          rw [fitsa.hash x keptx, fitsb.hash y kepty, encoding, bytes]
        next => exact compared
      next => exact compared

end Rope

end RopeBridge
