import RopeBridge.Proofs.Bridge.Wrapping
import RopeBridge.Proofs.Handle.Places

/-! Handles that resolve, and what becomes of them. Whatever happens to a bridge, a handle that
resolves to an object goes on doing so for as long as the object is alive. -/
namespace RopeBridge

namespace Handle

variable {h : Handle} {v : Value}

/-- A word read as a signed number. -/
theorem toInt_toInt64 (h : Handle) :
    h.word.toInt64.toInt = Int.bmod h.word.toNat 18446744073709551616 := by
  rw [← Int64.toInt_toBitVec, UInt64.toBitVec_toInt64, BitVec.toInt_eq_toNat_bmod]
  rfl

/-- An odd word is that of the integer it is read as. -/
theorem ofImmediate?_toInt (odd : h.isInt = true) : ofImmediate? (.int h.toInt) = some h := by
  have parity : h.word.toNat % 2 = 1 := by simpa [isInt] using odd
  have low := h.word.toInt64.le_toInt
  have high := h.word.toInt64.toInt_lt
  have bits := toInt_toInt64 h
  have half : h.toInt.toInt = h.word.toInt64.toInt / 2 := by
    rw [toInt, Int64.toInt_ofInt_of_le (by omega) (by omega)]
  have whole : 2 * h.toInt.toInt + 1 = h.word.toInt64.toInt := by
    rw [half, bits, Int.bmod]
    split <;> omega
  have fits : fitsWord h.toInt = true := by
    simp only [fitsWord, half, Bool.and_eq_true, decide_eq_true_eq]
    omega
  simp only [Value.int, ofImmediate?, fits, if_true, ofInt, whole, Int64.ofInt_toInt,
    UInt64.toUInt64_toInt64]

/-- An immediate word is that of the value it is read as. -/
theorem ofImmediate?_of_immediate? (read : h.immediate? = some v) : ofImmediate? v = some h := by
  unfold immediate? at read
  grind [ofImmediate?, ofImmediate?_toInt]

/-- The word of an integer is read as that integer. -/
theorem immediate?_ofInt {n : Int64} (fits : fitsWord n = true) :
    (ofInt n).immediate? = some (.int n) := by
  simp only [fitsWord, Bool.and_eq_true, decide_eq_true_eq] at fits
  have whole : (ofInt n).word.toInt64.toInt = 2 * n.toInt + 1 := by
    rw [ofInt, Int64.toInt64_toUInt64, Int64.toInt_ofInt_of_le (by omega) (by omega)]
  have bits := toInt_toInt64 (ofInt n)
  have parity : (ofInt n).word.toNat % 2 = 1 := by
    rw [whole, Int.bmod] at bits
    split at bits <;> omega
  have odd : (ofInt n).isInt = true := by simpa [isInt] using parity
  have differs : ∀ other : Handle, other.word.toNat % 2 = 0 → ofInt n ≠ other := by
    rintro other even same
    rw [← same] at even
    omega
  have half : (ofInt n).toInt = n := by
    rw [toInt, whole, show (2 * n.toInt + 1) / 2 = n.toInt by omega, Int64.ofInt_toInt]
  have no := differs ofFalse (by decide)
  have yes := differs ofTrue (by decide)
  have nil := differs ofNil (by decide)
  have undef := differs ofUndef (by decide)
  simp [immediate?, no, yes, nil, undef, odd, half]

/-- The word of a value is read as that value. -/
theorem immediate?_of_ofImmediate? (written : ofImmediate? v = some h) : h.immediate? = some v := by
  cases v with
  | number n =>
    cases n with
    | int n =>
      obtain ⟨fits, made⟩ := Option.ite_none_right_eq_some.1 written
      cases made
      exact immediate?_ofInt fits
    | float bits => exact nomatch written
  | object id => exact nomatch written
  | _ =>
    cases written
    decide

/-- The words of the region are no immediate ones. -/
theorem immediate?_of_block? {i : Nat} (found : h.block? = some i) : h.immediate? = none := by
  unfold block? at found
  split at found
  next inside =>
    obtain ⟨object, start⟩ := inside
    simp only [isObject, Bool.and_eq_true, decide_eq_true_eq] at object
    have even : h.isInt = false := by
      simp only [isInt, decide_eq_false_iff_not]
      omega
    have large : ∀ other : Handle, other.word.toNat < 8 → h ≠ other := by
      rintro other less rfl
      simp only [regionStart] at start
      omega
    have no := large ofFalse (by decide)
    have yes := large ofTrue (by decide)
    have nil := large ofNil (by decide)
    have undef := large ofUndef (by decide)
    simp [immediate?, no, yes, nil, undef, even]
  next => cases found

theorem isObject_of_block? {i : Nat} (found : h.block? = some i) : h.isObject = true := by
  unfold block? at found
  split at found
  next inside => exact inside.1
  next => cases found

end Handle

/-- The value that an object stands for. A box stands for its number. -/
def Heap.read (h : Heap) (id : ObjectId) : Value := (h.boxed? id).elim (.object id) .number

namespace Bridge

/-- A handle is that of a wrapper that resolves to an object. -/
def Resolves (b : Bridge) (h : Handle) (id : ObjectId) : Prop :=
  ∃ w, b.handles.wrapperAt? h = some w ∧ b.handles.pin? b.heap w = some id

/-- What may have become of a bridge, as far as values and their handles are concerned. -/
structure Onward (b b' : Bridge) : Prop where
  later : b.heap.Later b'.heap
  boxed : ∀ id, b.heap.isAlive id → b'.heap.isAlive id → b'.heap.boxed? id = b.heap.boxed? id
  blocks : b.handles.blocks.size ≤ b'.handles.blocks.size
  wrappers : b.handles.wrappers.size ≤ b'.handles.wrappers.size
  target : ∀ (w : WrapperId) (x : Wrapper), b.handles.wrappers[w]? = some x →
    ∃ x', b'.handles.wrappers[w]? = some x' ∧ x'.handle = x.handle ∧ x'.target = x.target
  /-- A wrapper whose object is alive resolves as before, is found as before and is where it was. -/
  pin : ∀ w id, b.handles.pin? b.heap w = some id → b'.heap.isAlive id →
    b'.handles.pin? b'.heap w = some id
  entry : ∀ w id, b.handles.pin? b.heap w = some id → b'.heap.isAlive id → ∀ k : Nat,
    b.handles.entries[k]? = some w → b'.handles.entries[k]? = some w
  place : ∀ w id, b.handles.pin? b.heap w = some id → b'.heap.isAlive id → ∀ h,
    b.handles.wrapperAt? h = some w → b'.handles.wrapperAt? h = some w
  /-- A wrapper that has not been made in between is where it was. -/
  found : ∀ h w, b'.handles.wrapperAt? h = some w →
    b.handles.wrappers.size ≤ w ∨ b.handles.wrapperAt? h = some w

variable {b b' b'' : Bridge} {h : Handle} {id : ObjectId} {v : Value} {log : List Value}

theorem isAlive_of_resolves (resolves : b.Resolves h id) : b.heap.isAlive id := by
  obtain ⟨_, _, pinned⟩ := resolves
  exact HandleTable.isAlive_of_pin? pinned

theorem Resolves.block? (resolves : b.Resolves h id) : ∃ i, h.block? = some i := by
  obtain ⟨w, at_, _⟩ := resolves
  obtain ⟨i, _, place, _⟩ := HandleTable.wrapperAt?_eq_some_iff.1 at_
  exact ⟨i, place⟩

theorem referent?_eq (w : WrapperId) :
    b.handles.referent? b.heap w = (b.handles.pin? b.heap w).map b.heap.read := by
  unfold HandleTable.referent?
  cases b.handles.pin? b.heap w with
  | none => rfl
  | some id =>
    simp only [Option.bind_eq_bind, Option.bind_some, Option.map_some, Heap.read, Heap.boxed?]
    cases (b.heap.get? id).bind Object.boxed? <;> rfl

/-- A handle that resolves to an object unwraps to the value that the object stands for. -/
theorem unwrap_of_resolves (resolves : b.Resolves h id) : b.unwrap h = .ok (b.heap.read id) := by
  obtain ⟨i, place⟩ := resolves.block?
  obtain ⟨w, at_, pinned⟩ := resolves
  unfold unwrap
  rw [Handle.immediate?_of_block? place, at_, Option.bind_some, referent?_eq, pinned]
  rfl

/-- What unwraps is written in the handle, or stood for by an object. -/
theorem unwrap_eq_ok_iff : b.unwrap h = .ok v ↔
    h.immediate? = some v ∨ ∃ id, b.Resolves h id ∧ b.heap.read id = v := by
  constructor
  · intro unwraps
    unfold unwrap at unwraps
    cases immediate : h.immediate? with
    | some u =>
      rw [immediate] at unwraps
      cases unwraps
      exact .inl rfl
    | none =>
      rw [immediate] at unwraps
      cases found : (b.handles.wrapperAt? h).bind (b.handles.referent? b.heap) with
      | none => simp [found] at unwraps
      | some u =>
        simp only [found] at unwraps
        cases unwraps
        obtain ⟨w, at_, refers⟩ := Option.bind_eq_some_iff.1 found
        rw [referent?_eq] at refers
        obtain ⟨id, pinned, read⟩ := Option.map_eq_some_iff.1 refers
        exact .inr ⟨id, ⟨w, at_, pinned⟩, read⟩
  · rintro (immediate | ⟨id, resolves, rfl⟩)
    · unfold unwrap
      rw [immediate]
    · exact unwrap_of_resolves resolves

theorem unwrap_eq_error (wordless : h.immediate? = none) (unresolved : ∀ id, ¬ b.Resolves h id) :
    b.unwrap h = .error (.handleNotFound h.word) := by
  unfold unwrap
  rw [wordless]
  cases found : (b.handles.wrapperAt? h).bind (b.handles.referent? b.heap) with
  | none => rfl
  | some v =>
    have unwraps : b.unwrap h = .ok v := by
      unfold unwrap
      rw [wordless, found]
    rcases unwrap_eq_ok_iff.1 unwraps with immediate | ⟨id, resolves, _⟩
    · exact nomatch wordless.symm.trans immediate
    · exact absurd resolves (unresolved id)

theorem Onward.refl (b : Bridge) : b.Onward b where
  later := .refl _
  boxed := fun _ _ _ => rfl
  blocks := Nat.le_refl _
  wrappers := Nat.le_refl _
  target := fun _ x there => ⟨x, there, rfl, rfl⟩
  pin := fun _ _ pinned _ => pinned
  entry := fun _ _ _ _ _ there => there
  place := fun _ _ _ _ _ at_ => at_
  found := fun _ _ => .inr

/-- An object that is alive before and after has been alive in between. -/
theorem Onward.alive_between (first : b.Onward b') (second : b'.Onward b'')
    (before : b.heap.isAlive id) (after : b''.heap.isAlive id) : b'.heap.isAlive id :=
  second.later.dead id (Nat.lt_of_lt_of_le (Heap.lt_size_of_isAlive before) first.later.size) after

theorem Onward.trans (first : b.Onward b') (second : b'.Onward b'') : b.Onward b'' := by
  constructor
  case later => exact first.later.trans second.later
  case boxed =>
    intro id before after
    have between := first.alive_between second before after
    exact (second.boxed id between after).trans (first.boxed id before between)
  case blocks => exact Nat.le_trans first.blocks second.blocks
  case wrappers => exact Nat.le_trans first.wrappers second.wrappers
  case target =>
    intro w x there
    obtain ⟨x', there', handle, target⟩ := first.target w x there
    obtain ⟨x'', there'', handle', target'⟩ := second.target w x' there'
    exact ⟨x'', there'', handle'.trans handle, target'.trans target⟩
  case pin =>
    intro w id pinned after
    have between := first.alive_between second (HandleTable.isAlive_of_pin? pinned) after
    exact second.pin w id (first.pin w id pinned between) after
  case entry =>
    intro w id pinned after k there
    have between := first.alive_between second (HandleTable.isAlive_of_pin? pinned) after
    apply second.entry w id (first.pin w id pinned between) after
    exact first.entry w id pinned between k there
  case place =>
    intro w id pinned after h at_
    have between := first.alive_between second (HandleTable.isAlive_of_pin? pinned) after
    apply second.place w id (first.pin w id pinned between) after
    exact first.place w id pinned between h at_
  case found =>
    intro h w at_
    rcases second.found h w at_ with new | before
    · exact .inl (Nat.le_trans first.wrappers new)
    · exact first.found h w before

theorem Onward.resolves (onward : b.Onward b') (resolves : b.Resolves h id)
    (alive : b'.heap.isAlive id) : b'.Resolves h id := by
  obtain ⟨w, at_, pinned⟩ := resolves
  exact ⟨w, onward.place w id pinned alive h at_, onward.pin w id pinned alive⟩

/-- An object that is alive stands for the same value as ever. -/
theorem Onward.read (onward : b.Onward b') (before : b.heap.isAlive id)
    (after : b'.heap.isAlive id) : b'.heap.read id = b.heap.read id := by
  unfold Heap.read
  rw [onward.boxed id before after]

/-- A handle resolves no more when its object has died, unless its slot has been given out again. -/
theorem Onward.unresolved (onward : b.Onward b') (resolves : b.Resolves h id)
    (dead : b'.heap.isAlive id = false)
    (unused : ∀ w, b.handles.wrappers.size ≤ w → b'.handles.handle? w ≠ some h)
    (arranged : b'.handles.Arranged) (other : ObjectId) : ¬ b'.Resolves h other := by
  rintro ⟨u, at', pinned'⟩
  obtain ⟨w, at_, pinned⟩ := resolves
  rcases onward.found h u at' with new | before
  · exact unused u new (arranged.found at')
  · cases at_.symm.trans before
    obtain ⟨x, there, _, _, target⟩ := HandleTable.pin?_eq_some_iff.1 pinned
    obtain ⟨x', there', _, same⟩ := onward.target u x there
    obtain ⟨y, there'', _, alive, found⟩ := HandleTable.pin?_eq_some_iff.1 pinned'
    cases there'.symm.trans there''
    rw [← found, same, target, dead] at alive
    exact nomatch alive

/-- What an act does to the objects and their handles. -/
inductive Touches (b b' : Bridge) : Prop
  | edited : b.heap.Edited b'.heap → b'.handles = b.handles → b.Touches b'
  | marked {owner : ObjectId} {vs : List Value} : (∀ v ∈ vs, b.heap.Has v) →
    b'.heap = b.heap.setMarked owner vs → b'.handles = b.handles → b.Touches b'
  | entered {me : ThreadId} {v : Value} {object : ObjectId} {w : WrapperId}
    {told : Option (List ObjectId)} {t : HandleTable} : Handle.ofImmediate? v = none →
    b.handles.lookup b.heap v = none → b.heap.Has v → b.heap.Exposes v object b'.heap →
    b.handles.allocate me object = (w, told, t) → b'.handles = t.enter v w → b.Touches b'
  | retired {me : ThreadId} : b'.heap = b.heap → b'.handles = (b.handles.retireThread me).2 →
    b.Touches b'
  | released : b'.heap = b.heap → b'.handles = (b.handles.releaseUnreachable b.heap).2 →
    b.Touches b'

theorem Wraps.touches {me : ThreadId} (wraps : b.Wraps me v h b') (has : b.heap.Has v) :
    b.Touches b' := by
  cases wraps with
  | word _ => exact .edited (.refl _) rfl
  | found _ _ => exact .edited (.refl _) rfl
  | entered wordless missing exposes allocates =>
    exact .entered wordless missing has exposes allocates rfl

theorem Touches.alive (touches : b.Touches b') (alive : b.heap.isAlive id) :
    b'.heap.isAlive id := by
  cases touches with
  | edited heap _ => exact heap.alive id alive
  | marked _ heap _ => rwa [heap, Heap.setMarked, Heap.isAlive_update]
  | entered _ _ _ exposes _ _ => exact exposes.grown.alive id alive
  | retired heap _ => rwa [heap]
  | released heap _ => rwa [heap]

theorem Touches.whole (touches : b.Touches b') (whole : b.heap.Whole) : b'.heap.Whole := by
  cases touches with
  | edited heap _ => exact heap.whole whole
  | marked has heap _ =>
    rw [heap]
    exact Heap.setMarked_whole whole has
  | entered _ _ _ exposes _ _ => exact exposes.grown.whole whole
  | retired heap _ => rwa [heap]
  | released heap _ => rwa [heap]

/-- Without work on handles, only what dies resolves no more. -/
theorem onward_of_handles (handles : b'.handles = b.handles) (later : b.heap.Later b'.heap)
    (boxed : ∀ id, b.heap.isAlive id → b'.heap.isAlive id →
      b'.heap.boxed? id = b.heap.boxed? id) : b.Onward b' := by
  constructor
  case later => exact later
  case boxed => exact boxed
  case blocks => exact Nat.le_of_eq (by rw [handles])
  case wrappers => exact Nat.le_of_eq (by rw [handles])
  case target =>
    rw [handles]
    exact fun _ x there => ⟨x, there, rfl, rfl⟩
  case pin =>
    rw [handles]
    exact fun _ _ => HandleTable.pin?_of_alive
  case entry =>
    rw [handles]
    exact fun _ _ _ _ _ there => there
  case place =>
    rw [handles]
    exact fun _ _ _ _ _ at_ => at_
  case found =>
    rw [handles]
    exact fun _ _ => .inr

theorem onward_of_settle {roots : List ObjectId} (heap : b'.heap = b.heap.settle roots)
    (handles : b'.handles = b.handles) : b.Onward b' := by
  apply onward_of_handles handles
  · rw [heap]
    exact Heap.settle_later roots
  · intro id _ alive
    rw [heap] at alive ⊢
    exact Heap.boxed?_settle alive

/-- A new wrapper takes the place of none that resolves. -/
theorem onward_of_enter (missing : b.handles.lookup b.heap v = none) {object : ObjectId}
    (exposes : b.heap.Exposes v object b'.heap) {w : WrapperId} {told : Option (List ObjectId)}
    {t : HandleTable} (a : b.handles.Allocates object w t) (g : b.handles.Gives object w told t)
    (handles : b'.handles = t.enter v w) : b.Onward b' := by
  obtain ⟨handle, wrappers⟩ := a.wrappers
  constructor
  case later => exact exposes.grown.later
  case boxed => exact fun id alive _ => exposes.grown.boxed id (Heap.lt_size_of_isAlive alive)
  case blocks =>
    rw [handles]
    exact g.blocks
  case wrappers =>
    rw [handles]
    show b.handles.wrappers.size ≤ t.wrappers.size
    simp [wrappers]
  case target =>
    intro u x there
    have inside := (Array.getElem?_eq_some_iff.1 there).1
    refine ⟨x, ?_, rfl, rfl⟩
    rw [handles]
    show t.wrappers[u]? = some x
    rw [wrappers, Array.getElem?_push, if_neg (Nat.ne_of_lt inside), there]
  case pin =>
    intro u id pinned alive
    rw [handles]
    exact a.pin?_old pinned alive
  case entry =>
    intro u id pinned _ k there
    rw [handles, HandleTable.getElem?_enter, a.entries, if_neg, there]
    -- A value that is found is not entered again.
    rintro rfl
    have live := HandleTable.isLive_iff_pin?.2 ⟨id, pinned⟩
    exact nomatch missing.symm.trans (HandleTable.lookup_eq_some_iff.2 ⟨there, live⟩)
  case place =>
    intro u id _ _ h at_
    rw [handles]
    exact g.kept h u at_
  case found =>
    intro h u at_
    rw [handles] at at_
    rcases g.found h u at_ with new | before
    · exact .inl (Nat.le_of_eq (new.trans a.fresh).symm)
    · exact .inr before

theorem onward_of_retire (arranged : b.handles.Arranged) {me : ThreadId} (heap : b'.heap = b.heap)
    (handles : b'.handles = (b.handles.retireThread me).2) : b.Onward b' := by
  constructor
  case later =>
    rw [heap]
    exact .refl _
  case boxed =>
    rw [heap]
    exact fun _ _ _ => rfl
  case blocks => exact Nat.le_of_eq (by rw [handles, arranged.retireThread_blocks])
  case wrappers => exact Nat.le_of_eq (by rw [handles, HandleTable.retireThread_wrappers])
  case target =>
    rw [handles, HandleTable.retireThread_wrappers]
    exact fun _ x there => ⟨x, there, rfl, rfl⟩
  case pin =>
    rw [heap, handles]
    intro w id pinned _
    rwa [HandleTable.pin?_retireThread]
  case entry =>
    rw [handles, HandleTable.retireThread_entries]
    exact fun _ _ _ _ _ there => there
  case place =>
    intro w id _ _ h at_
    rwa [handles, arranged.wrapperAt?_retireThread]
  case found =>
    intro h w at_
    rw [handles, arranged.wrapperAt?_retireThread] at at_
    exact .inr at_

/-- What resolves is neither forgotten nor released nor given up. -/
theorem onward_of_release (arranged : b.handles.Arranged) (heap : b'.heap = b.heap)
    (handles : b'.handles = (b.handles.releaseUnreachable b.heap).2) : b.Onward b' := by
  constructor
  case later =>
    rw [heap]
    exact .refl _
  case boxed =>
    rw [heap]
    exact fun _ _ _ => rfl
  case blocks =>
    rw [handles]
    exact Nat.le_of_eq (HandleTable.size_foldl_clear _ _).symm
  case wrappers =>
    rw [handles]
    exact Nat.le_of_eq (HandleTable.size_foldl_modify _ _ _).symm
  case target =>
    intro w x there
    rw [handles, HandleTable.getElem?_wrappers_releaseUnreachable, there]
    refine ⟨_, rfl, ?_⟩
    split <;> exact ⟨rfl, rfl⟩
  case pin =>
    rw [heap, handles]
    intro w id pinned _
    rwa [HandleTable.pin?_releaseUnreachable]
  case entry =>
    intro w id pinned _ k there
    have kept : (b.handles.releaseUnreachable b.heap).2.entries[k]? =
      b.handles.entries[k]?.filter (b.handles.isLive b.heap) := Std.TreeMap.getElem?_filter'
    rw [handles, kept, there]
    exact Option.filter_eq_some_iff.2 ⟨rfl, HandleTable.isLive_iff_pin?.2 ⟨id, pinned⟩⟩
  case place =>
    intro w id pinned _ h at_
    rw [handles]
    exact arranged.wrapperAt?_release (HandleTable.isLive_iff_pin?.2 ⟨id, pinned⟩) at_
  case found =>
    intro h w at_
    rw [handles] at at_
    exact .inr (HandleTable.wrapperAt?_of_release at_)

theorem Touches.onward (touches : b.Touches b') (f : b.handles.Faithful b.heap log) :
    b.Onward b' := by
  cases touches with
  | edited heap handles =>
    exact onward_of_handles handles heap.later fun id _ _ => heap.boxed_eq id
  | @marked owner vs has heap handles =>
    apply onward_of_handles handles
    · rw [heap]
      exact Heap.setMarked_later owner fun v member => (has v member).knows
    · intro id _ _
      rw [heap, Heap.boxed?_setMarked]
  | @entered me v object w told t wordless missing has exposes allocates handles =>
    have a := f.arranged.allocate me object
    have g := f.arranged.allocate_gives me object
    rw [allocates] at a g
    exact onward_of_enter missing exposes a g handles
  | retired heap handles => exact onward_of_retire f.arranged heap handles
  | released heap handles => exact onward_of_release f.arranged heap handles

theorem Touches.faithful (touches : b.Touches b') (f : b.handles.Faithful b.heap log) :
    ∃ log', b'.handles.Faithful b'.heap log' := by
  have onward := touches.onward f
  cases touches with
  | edited heap handles =>
    rw [handles]
    exact ⟨log, f.edited heap⟩
  | marked has heap handles =>
    rw [handles]
    refine ⟨log, f.later onward.later fun id _ => ?_⟩
    rw [heap, Heap.boxed?_setMarked]
  | @entered me v object w told t wordless missing has exposes allocates handles =>
    have a := f.arranged.allocate me object
    rw [allocates] at a
    rw [handles]
    exact ⟨log ++ [v], f.enter wordless missing has exposes a⟩
  | @retired me heap handles =>
    rw [heap, handles]
    exact ⟨log, f.retire me⟩
  | released heap handles =>
    rw [heap, handles]
    exact ⟨log, f.release⟩

theorem faithful_of_settle {roots : List ObjectId} (heap : b'.heap = b.heap.settle roots)
    (handles : b'.handles = b.handles) (f : b.handles.Faithful b.heap log) :
    b'.handles.Faithful b'.heap log := by
  rw [heap, handles]
  exact f.later (Heap.settle_later roots) fun id alive => Heap.boxed?_settle alive

end Bridge

end RopeBridge
