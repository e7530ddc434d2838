import RopeBridge.Proofs.OwnedString.Buffers

/-! Everything that holds native buffers beside one service that frees them: buffers themselves,
texts and strings, made and used and dropped in any order, while allocations fail whenever the
system has too little memory left. -/

namespace RopeBridge

open Finalization (Turnover Halt Guards holds)

inductive Holder where
  | buffer (b : Buffer)
  | text (t : NativeText)
  | string (s : OwnedString)

def Holder.buffer? : Holder → Option BufferId
  | buffer b => some b.id
  | text t => some t.buffer.id
  | string s => s.buffer?

structure Holdings where
  holders : List Holder := []
  ledger : Ledger := .initial
  finalization : Finalization := {}

/-- A call that changes a text in native memory, or what is known about it. -/
inductive NativeText.Call where
  | setByte (index : Nat) (byte : UInt8)
  | clear | codeRange | characterLength
  | resize (n : Nat)
  | setByteLength (n : Nat) (characters : Option Nat) (range : CodeRange)

def NativeText.Call.run (t : NativeText) (f : Finalization) :
    Call → Except Fault (NativeText × Finalization)
  | setByte index byte => return (← t.setByte index byte, f)
  | clear => .ok (t.clear, f)
  | codeRange => .ok (t.codeRange.2, f)
  | characterLength => .ok (t.characterLength.2, f)
  | resize n => t.resize n f
  | setByteLength n characters range => t.setByteLength n characters range f

namespace Holdings

inductive Action where
  | allocate (capacity : Nat)
  | zeros (byteLength capacity : Nat) (e : Encoding)
  | ofRope (r : Rope)
  | newString (r : Rope)
  | zeroString (byteLength : Nat)
  /-- Puts bytes into a buffer. -/
  | overwrite (holder offset : Nat) (bytes : List UInt8)
  | text (holder : Nat) (call : NativeText.Call)
  | string (holder : Nat) (call : OwnedString.Call)
  /-- Makes a text the content of a new string. -/
  | intoString (holder : Nat)
  | drop (holder : Nat)
  | drain
  /-- Calls to ropes, which have nothing to do with buffers. -/
  | ropes (ledger : Ledger)
  /-- The system has more or less memory than before. -/
  | memory (limit : Nat)

/-- Takes in what has been made. -/
def takeIn (s : Holdings) : Except Fault (Holder × Finalization) → Except Fault Unit × Holdings
  | .ok (h, finalization) => (.ok (), { s with holders := s.holders ++ [h], finalization })
  | .error fault => (.error fault, s)

def put (s : Holdings) (i : Nat) (h : Holder) (finalization : Finalization) : Holdings :=
  { s with holders := s.holders.set i h, finalization }

def held (s : Holdings) : List BufferId := s.holders.filterMap Holder.buffer?

/-- The buffers given up by those who held them, and not freed yet. -/
def dropped (s : Holdings) : List BufferId := s.finalization.dropped s.held

def perform (s : Holdings) : Action → Except Fault Unit × Holdings
  | .allocate capacity =>
    s.takeIn <| (Buffer.allocate s.finalization capacity).map fun (b, f) => (.buffer b, f)
  | .zeros byteLength capacity e =>
    s.takeIn <| (NativeText.zeros s.finalization byteLength capacity e).map fun (t, f) => (.text t, f)
  | .ofRope r =>
    let (made, ledger) := (NativeText.ofRope s.finalization r).run s.ledger
    { s with ledger }.takeIn <| made.map fun (t, f) => (.text t, f)
  | .newString r => s.takeIn <| .ok (.string (.managed r), s.finalization)
  | .zeroString n =>
    s.takeIn <| (NativeText.zeros s.finalization n n .binary).map
      fun (t, f) => (.string (.native t), f)
  | .overwrite i offset bytes =>
    match s.holders[i]? with
    | some (.buffer b) => (.ok (), s.put i (.buffer (b.overwrite offset bytes)) s.finalization)
    | _ => (.ok (), s)
  | .text i call =>
    match s.holders[i]? with
    | some (.text t) =>
      match call.run t s.finalization with
      | .ok (t, f) => (.ok (), s.put i (.text t) f)
      | .error fault => (.error fault, s)
    | _ => (.ok (), s)
  | .string i call =>
    match s.holders[i]? with
    | some (.string string) =>
      let (answer, w) := call.run ⟨string, s.ledger, s.finalization⟩
      (answer.map fun _ => (), { s.put i (.string w.string) w.finalization with ledger := w.ledger })
    | _ => (.ok (), s)
  | .intoString i =>
    match s.holders[i]? with
    | some (.text t) => (.ok (), s.put i (.string (.native t)) s.finalization)
    | _ => (.ok (), s)
  | .drop i => (.ok (), { s with holders := s.holders.eraseIdx i })
  | .drain => (.ok (), { s with finalization := (s.finalization.drain (holds s.held)).2 })
  | .ropes ledger => (.ok (), { s with ledger })
  | .memory limit => (.ok (), { s with finalization := { s.finalization with memory := limit } })

def step (s : Holdings) (a : Action) : Holdings := (s.perform a).2

def run (s : Holdings) (actions : List Action) : Holdings := actions.foldl step s

/-- The buffer in the hands of one holder. -/
def hand (s : Holdings) (i : Nat) : Option BufferId := s.holders[i]?.bind Holder.buffer?

/-- The holder that an action works on. -/
def Action.holder? : Action → Option Nat
  | .overwrite i _ _ | .text i _ | .string i _ | .intoString i => some i
  | _ => none

/-! One holder at a time. -/

section

variable {s : Holdings} {i : Nat} {h h' : Holder}

theorem held_perm (present : s.holders[i]? = some h) :
    s.held.Perm (h.buffer?.toList ++ (s.holders.eraseIdx i).filterMap Holder.buffer?) := by
  obtain ⟨inside, rfl⟩ := List.getElem?_eq_some_iff.1 present
  have moved := (List.getElem_cons_eraseIdx_perm inside).symm.filterMap Holder.buffer?
  rw [List.filterMap_cons] at moved
  unfold held
  cases buffer : s.holders[i].buffer? with
  | none => simpa [buffer] using moved
  | some b => simpa [buffer] using moved

/-- The hands of the holders when one of them has been replaced. -/
theorem held_set (present : s.holders[i]? = some h) :
    ((s.holders.set i h').filterMap Holder.buffer?).Perm
      (h'.buffer?.toList ++ (s.holders.eraseIdx i).filterMap Holder.buffer?) := by
  have inside := (List.getElem?_eq_some_iff.1 present).1
  have moved := held_perm (s := { s with holders := s.holders.set i h' })
    (List.getElem?_set_self inside)
  rwa [List.eraseIdx_set_eq] at moved

theorem held_append (s : Holdings) (h : Holder) :
    (s.holders ++ [h]).filterMap Holder.buffer? = s.held ++ h.buffer?.toList := by
  rw [List.filterMap_append, held]
  cases buffer : h.buffer? <;> simp [buffer]

theorem hand_set (present : s.holders[i]? = some h)
    {s' : Holdings} (replaced : s'.holders = s.holders.set i h') : s'.hand i = h'.buffer? := by
  have inside := (List.getElem?_eq_some_iff.1 present).1
  simp [hand, replaced, inside]

theorem hand_eq (present : s.holders[i]? = some h) : s.hand i = h.buffer? := by simp [hand, present]

end

/-- Everything that an action can do. -/
inductive Deed (s : Holdings) (a : Action) (answer : Except Fault Unit) (s' : Holdings) : Prop where
  | nothing (holders : s'.holders = s.holders) (finalization : s'.finalization = s.finalization)
  | memory (limit : Nat) (holders : s'.holders = s.holders)
      (finalization : s'.finalization = { s.finalization with memory := limit })
      (passed : answer = .ok ())
  | adds (h : Holder) (holders : s'.holders = s.holders ++ [h])
      (taken : Halt none s.finalization h.buffer? s'.finalization) (passed : answer = .ok ())
  | works (i : Nat) (h h' : Holder) (works : a.holder? = some i)
      (present : s.holders[i]? = some h) (holders : s'.holders = s.holders.set i h')
      (turnover : Turnover h.buffer? s.finalization h'.buffer? s'.finalization)
      (halt : ∀ fault, answer = .error fault →
        Halt h.buffer? s.finalization h'.buffer? s'.finalization)
  | drops (i : Nat) (drop : a = .drop i) (holders : s'.holders = s.holders.eraseIdx i)
      (finalization : s'.finalization = s.finalization) (passed : answer = .ok ())
  | drains (drain : a = .drain) (holders : s'.holders = s.holders)
      (finalization : s'.finalization = (s.finalization.drain (holds s.held)).2)
      (passed : answer = .ok ())

theorem takeIn_deed {s : Holdings} {a : Action} {made : Except Fault (Holder × Finalization)}
    {ledger : Ledger} (takes : ∀ h f, made = .ok (h, f) → Halt none s.finalization h.buffer? f) :
    Deed s a ({ s with ledger }.takeIn made).1 ({ s with ledger }.takeIn made).2 := by
  cases made with
  | error fault => exact .nothing rfl rfl
  | ok result => exact .adds result.1 rfl (takes _ _ rfl) rfl

/-- A holder that has just taken the next buffer. -/
theorem takes_next {f f' : Finalization} {id : BufferId} (taken : id = f.nextId ∧ f' = f.enlist) :
    Halt none f (some id) f' := by
  obtain ⟨rfl, rfl⟩ := taken
  exact .take f

theorem Call.turnover {t t' : NativeText} {f f' : Finalization} {call : NativeText.Call}
    (ran : call.run t f = .ok (t', f')) :
    Turnover (some t.buffer.id) f (some t'.buffer.id) f' := by
  have change : t.Moves f t' f' ∨ t.Stays f t' f' := by
    cases call with
    | setByte index byte =>
      simp only [NativeText.Call.run] at ran
      cases written : t.setByte index byte with
      | error fault =>
        rw [written] at ran
        cases ran
      | ok t'' =>
        rw [written] at ran
        cases ran
        exact .inr ⟨NativeText.setByte_id written, rfl⟩
    | clear =>
      cases ran
      exact .inr ⟨rfl, rfl⟩
    | codeRange =>
      cases ran
      exact .inr ⟨by simp, rfl⟩
    | characterLength =>
      cases ran
      exact .inr ⟨by simp, rfl⟩
    | resize n => exact NativeText.moves_or_stays (NativeText.resize_moves ran)
    | setByteLength n characters range =>
      exact NativeText.moves_or_stays (NativeText.setByteLength_moves ran)
  exact NativeText.turnover_after (.keep _ _) change

theorem exists_of_map {α β : Type} {made : Except Fault α} {g : α → β} {b : β}
    (mapped : made.map g = .ok b) : ∃ a, made = .ok a ∧ g a = b := by
  cases made with
  | error fault => cases mapped
  | ok a => exact ⟨a, rfl, Except.ok.inj mapped⟩

/-- A holder that is only looked at, or shown in another way, keeps its buffer. -/
theorem Deed.same {s : Holdings} {a : Action} {i : Nat} {h h' : Holder}
    (works : a.holder? = some i) (present : s.holders[i]? = some h) (buffer : h'.buffer? = h.buffer?) :
    Deed s a (.ok ()) (s.put i h' s.finalization) :=
  .works i h h' works present rfl (buffer ▸ .keep _ _) fun _ failed => nomatch failed

theorem perform_deed (s : Holdings) (a : Action) : Deed s a (s.perform a).1 (s.step a) := by
  cases a with
  | allocate capacity =>
    refine takeIn_deed fun h f made => ?_
    obtain ⟨_, allocated, ⟨⟩⟩ := exists_of_map made
    exact takes_next (Buffer.allocate_enlist allocated)
  | zeros byteLength capacity e =>
    refine takeIn_deed fun h f made => ?_
    obtain ⟨_, zeros, ⟨⟩⟩ := exists_of_map made
    exact takes_next (NativeText.zeros_takes zeros)
  | ofRope r =>
    refine takeIn_deed fun h f made => ?_
    obtain ⟨_, copied, ⟨⟩⟩ := exists_of_map made
    exact takes_next (NativeText.ofRope_takes copied)
  | newString r =>
    refine takeIn_deed fun h f made => ?_
    cases made
    exact .keep _ _
  | zeroString n =>
    refine takeIn_deed fun h f made => ?_
    obtain ⟨_, zeros, ⟨⟩⟩ := exists_of_map made
    exact takes_next (NativeText.zeros_takes zeros)
  | overwrite i offset bytes =>
    simp only [step, perform]
    split
    next b present => exact .same rfl present (by simp [Holder.buffer?])
    next => exact .nothing rfl rfl
  | text i call =>
    simp only [step, perform]
    split
    next t present =>
      split
      next t' f' ran =>
        exact .works i _ _ rfl present rfl (Call.turnover ran) fun _ failed => nomatch failed
      next => exact .nothing rfl rfl
    next => exact .nothing rfl rfl
  | string i call =>
    simp only [step, perform]
    split
    next string present =>
      obtain ⟨turnover, halt⟩ := call.tends ⟨string, s.ledger, s.finalization⟩
      refine .works i _ _ rfl present rfl turnover fun fault failed => ?_
      cases answered : (call.run ⟨string, s.ledger, s.finalization⟩).1 with
      | error fault' => exact halt fault' answered
      | ok reply =>
        rw [answered] at failed
        cases failed
    next => exact .nothing rfl rfl
  | intoString i =>
    simp only [step, perform]
    split
    next t present => exact .same rfl present rfl
    next => exact .nothing rfl rfl
  | drop i => exact .drops i rfl rfl rfl rfl
  | drain => exact .drains rfl rfl rfl rfl
  | ropes ledger => exact .nothing rfl rfl
  | memory limit => exact .memory limit rfl rfl rfl

/-! What holds after every run, and what every action does. -/

/-- No buffer is in two hands, none is freed twice, and none while it is in use. -/
structure InOrder (s : Holdings) : Prop where
  apart : s.held.Nodup
  once : s.finalization.ran.Nodup
  unused : ∀ b ∈ s.held, b ∉ s.finalization.ran
  pending : s.finalization.pending = s.held.length + s.dropped.length

/-- A holder in native memory is asked for a length that its buffer has no room for. -/
inductive Outgrows (s : Holdings) (i : Nat) : Action → Prop where
  | text {t : NativeText} {n : Nat} (present : s.holders[i]? = some (.text t))
      (more : t.capacity < n) : Outgrows s i (.text i (.resize n))
  | textLength {t : NativeText} {n : Nat} (present : s.holders[i]? = some (.text t))
      (more : t.capacity < n) (characters : Option Nat) (range : CodeRange) :
      Outgrows s i (.text i (.setByteLength n characters range))
  | string {t : NativeText} {n : Nat} (present : s.holders[i]? = some (.string (.native t)))
      (more : t.capacity < n) (other : t.byteLength ≠ n) : Outgrows s i (.string i (.resize n))
  | stringLength {t : NativeText} {n : Nat}
      (present : s.holders[i]? = some (.string (.native t))) (more : t.capacity < n) :
      Outgrows s i (.string i (.setLength n))

structure Orderly (s : Holdings) (a : Action) : Prop where
  /-- A drain frees all that has been given up, and nothing else. -/
  drains : a = .drain → (s.step a).held = s.held ∧ (s.step a).dropped = [] ∧
    (s.step a).finalization.ran.Perm (s.finalization.ran ++ s.dropped)
  /-- A text that moves to another buffer leaves one behind, which is freed at once and alone. -/
  moves : ∀ i old new, a.holder? = some i → s.hand i = some old → (s.step a).hand i = some new →
    old ≠ new → (s.step a).finalization.ran = s.finalization.ran ++ [old]
  /-- A length that the buffer has no room for moves the text. -/
  outgrows : ∀ i, s.Outgrows i a → (s.perform a).1 = .ok () →
    (s.step a).hand i = some s.finalization.nextId
  /-- Nothing else frees a buffer. -/
  keeps : a ≠ .drain → (s.step a).finalization.ran = s.finalization.ran ∨
    ∃ i old new, a.holder? = some i ∧ (s.step a).hand i = some new ∧ new ≠ old ∧
      (s.step a).finalization.ran = s.finalization.ran ++ [old] ∧
      (s.hand i = some old ∨ s.hand i = none ∧ old = s.finalization.nextId)
  /-- An allocation that fails registers nothing. Another may have succeeded before it, to move a
  string to native memory, which then has the buffer. -/
  fails : ∀ fault, (s.perform a).1 = .error fault →
    (s.step a).finalization = s.finalization ∧ (∀ i, (s.step a).hand i = s.hand i) ∨
    ∃ i, a.holder? = some i ∧ s.hand i = none ∧
      (s.step a).hand i = some s.finalization.nextId ∧
      (s.step a).finalization = s.finalization.enlist
  /-- What is registered is held, or was by the way and has been freed. -/
  registers : ∀ b, s.finalization.nextId ≤ b → b < (s.step a).finalization.nextId →
    b ∈ (s.step a).held ∨ b ∈ (s.step a).finalization.ran

def Guarded (s : Holdings) : Prop := s.finalization.Guards s.held

theorem Guarded.inOrder {s : Holdings} (h : s.Guarded) : s.InOrder :=
  ⟨h.apart, (List.nodup_append.1 h.nodup).2.1, fun _ => h.unused, h.pending⟩

theorem Deed.guarded {s s' : Holdings} {a : Action} {answer : Except Fault Unit}
    (deed : Deed s a answer s') (h : s.Guarded) : s'.Guarded := by
  unfold Guarded held
  cases deed with
  | nothing holders finalization =>
    rw [holders, finalization]
    exact h
  | memory limit holders finalization =>
    rw [holders, finalization]
    exact ⟨h.apart, h.waits, h.frees, h.account⟩
  | adds x holders taken =>
    rw [holders, held_append]
    exact (taken.turnover.guards h).perm List.perm_append_comm
  | works i x x' works present holders turnover =>
    rw [holders]
    exact (turnover.guards (h.perm (held_perm present))).perm (held_set present).symm
  | drops i _ holders finalization =>
    rw [holders, finalization]
    cases present : s.holders[i]? with
    | none =>
      rw [List.eraseIdx_of_length_le (List.getElem?_eq_none_iff.1 present)]
      exact h
    | some x =>
      have dropped := h.perm (held_perm present)
      cases buffer : x.buffer? with
      | none => simpa [buffer] using dropped
      | some b =>
        rw [buffer] at dropped
        exact dropped.give_up
  | drains drain holders finalization =>
    rw [holders, finalization]
    exact h.drain

theorem start_guarded : Guarded {} := Finalization.start_guards _

theorem Guarded.step {s : Holdings} (h : s.Guarded) (a : Action) : (s.step a).Guarded :=
  (perform_deed s a).guarded h

theorem Guarded.run {s : Holdings} (h : s.Guarded) (actions : List Action) :
    (s.run actions).Guarded := by
  induction actions generalizing s with
  | nil => exact h
  | cons a rest ih => exact ih (h.step a)

theorem Guarded.drains {s : Holdings} (h : s.Guarded) :
    (s.step .drain).held = s.held ∧ (s.step .drain).dropped = [] ∧
      (s.step .drain).finalization.ran.Perm (s.finalization.ran ++ s.dropped) :=
  ⟨rfl, h.drain_dropped, h.drain_ran⟩

theorem Guarded.keeps {s : Holdings} (h : s.Guarded) {a : Action} (other : a ≠ .drain) :
    (s.step a).finalization.ran = s.finalization.ran ∨
    ∃ i old new, a.holder? = some i ∧ (s.step a).hand i = some new ∧ new ≠ old ∧
      (s.step a).finalization.ran = s.finalization.ran ++ [old] ∧
      (s.hand i = some old ∨ s.hand i = none ∧ old = s.finalization.nextId) := by
  cases perform_deed s a with
  | nothing holders finalization => exact .inl (by rw [finalization])
  | memory limit holders finalization => exact .inl (by rw [finalization])
  | adds x holders taken => exact .inl taken.ran
  | works i x x' works present holders turnover =>
    obtain same | ⟨old, new, has, other, freed, had⟩ := turnover.ran (h.perm (held_perm present))
    · exact .inl same
    · refine .inr ⟨i, old, new, works, ?_, other, freed, ?_⟩
      · rw [hand_set present holders, has]
      · rwa [hand_eq present]
  | drops i _ holders finalization => exact .inl (by rw [finalization])
  | drains drain => exact absurd drain other

theorem Guarded.moves {s : Holdings} (h : s.Guarded) {a : Action} {i : Nat} {old new : BufferId}
    (works : a.holder? = some i) (had : s.hand i = some old) (has : (s.step a).hand i = some new)
    (moved : old ≠ new) : (s.step a).finalization.ran = s.finalization.ran ++ [old] := by
  have unmoved (same : (s.step a).holders[i]? = s.holders[i]?) :
      (s.step a).finalization.ran = s.finalization.ran ++ [old] := by
    rw [hand, same] at has
    exact absurd (Option.some.inj (had.symm.trans has)) moved
  cases perform_deed s a with
  | nothing holders | memory limit holders | drains drain holders =>
    exact unmoved (by rw [holders])
  | adds x holders taken =>
    obtain ⟨y, present, _⟩ := Option.bind_eq_some_iff.1 had
    refine unmoved ?_
    rw [holders, List.getElem?_append_left (List.getElem?_eq_some_iff.1 present).1]
  | works j x x' works' present holders turnover =>
    obtain rfl : i = j := Option.some.inj (works.symm.trans works')
    rw [hand_eq present] at had
    rw [hand_set present holders] at has
    exact (turnover.moves (h.perm (held_perm present)) had has moved).2
  | drops j drop =>
    subst drop
    cases works

theorem fails {s : Holdings} {a : Action} {fault : Fault} (failed : (s.perform a).1 = .error fault) :
    (s.step a).finalization = s.finalization ∧ (∀ i, (s.step a).hand i = s.hand i) ∨
    ∃ i, a.holder? = some i ∧ s.hand i = none ∧
      (s.step a).hand i = some s.finalization.nextId ∧
      (s.step a).finalization = s.finalization.enlist := by
  cases perform_deed s a with
  | nothing holders finalization => exact .inl ⟨finalization, fun i => by rw [hand, holders, hand]⟩
  | works i x x' works present holders turnover halt =>
    have before := hand_eq present
    have after := hand_set present holders
    obtain ⟨kept, finalization⟩ | ⟨free, taken, finalization⟩ := (halt fault failed).keep_or_take
    · refine .inl ⟨finalization, fun j => ?_⟩
      by_cases here : i = j
      · rw [← here, after, before, kept]
      · simp [hand, holders, List.getElem?_set_ne here]
    · exact .inr ⟨i, works, before.trans free, after.trans taken, finalization⟩
  | memory limit holders finalization passed => simp [passed] at failed
  | adds x holders taken passed => simp [passed] at failed
  | drops i drop holders finalization passed => simp [passed] at failed
  | drains drain holders finalization passed => simp [passed] at failed

theorem Guarded.registers {s : Holdings} (h : s.Guarded) {a : Action} {b : BufferId}
    (new : s.finalization.nextId ≤ b) (known : b < (s.step a).finalization.nextId) :
    b ∈ (s.step a).held ∨ b ∈ (s.step a).finalization.ran := by
  have old (same : (s.step a).finalization.nextId = s.finalization.nextId) : False :=
    Nat.not_lt.2 new (same ▸ known)
  cases perform_deed s a with
  | nothing holders finalization | memory limit holders finalization
    | drops i drop holders finalization => exact (old (by rw [finalization])).elim
  | drains drain holders finalization =>
    exact (old (by rw [finalization, h.drain_eq])).elim
  | adds x holders taken =>
    refine (taken.turnover.registers h new known).imp_left fun has => ?_
    rw [held, holders, held_append, has]
    simp
  | works i x x' works present holders turnover =>
    refine (turnover.registers (h.perm (held_perm present)) new known).imp_left fun has => ?_
    rw [held, holders, (held_set present).mem_iff, has]
    simp

theorem text_outgrows {s : Holdings} {i : Nat} {t : NativeText} {call : NativeText.Call}
    (present : s.holders[i]? = some (.text t))
    (moves : ∀ t' f', call.run t s.finalization = .ok (t', f') → t.Moves s.finalization t' f')
    (passed : (s.perform (.text i call)).1 = .ok ()) :
    (s.step (.text i call)).hand i = some s.finalization.nextId := by
  revert passed
  simp only [step, perform, present]
  cases ran : call.run t s.finalization with
  | error fault => exact fun failed => nomatch failed
  | ok result =>
    intro _
    rw [hand_set present rfl]
    exact congrArg some (moves _ _ ran).id

theorem string_outgrows {s : Holdings} {i : Nat} {t : NativeText} {call : OwnedString.Call}
    (present : s.holders[i]? = some (.string (.native t)))
    {change : NativeText → Finalization → Except Fault (NativeText × Finalization)}
    (does : call.op = StringOp.adjust change >>= fun _ => pure .done)
    (moves : ∀ t' f', change t s.finalization = .ok (t', f') → t.Moves s.finalization t' f')
    (passed : (s.perform (.string i call)).1 = .ok ()) :
    (s.step (.string i call)).hand i = some s.finalization.nextId := by
  revert passed
  simp only [step, perform, present, OwnedString.Call.run, does, StringOp.run_answering]
  intro passed
  rw [hand_set present rfl]
  refine StringOp.adjust_moves (w := ⟨.native t, s.ledger, s.finalization⟩) rfl moves ?_
  cases answered : ((StringOp.adjust change).run.run ⟨.native t, s.ledger, s.finalization⟩).1 with
  | error fault =>
    rw [answered] at passed
    cases passed
  | ok _ => rfl

/-- A text of a length that its buffer has no room for is moved, or the call fails. -/
theorem Outgrows.moves {s : Holdings} {a : Action} {i : Nat} (outgrows : s.Outgrows i a)
    (passed : (s.perform a).1 = .ok ()) :
    (s.step a).hand i = some s.finalization.nextId := by
  cases outgrows with
  | text present more =>
    refine text_outgrows present (fun t' f' ran => ?_) passed
    simpa [more] using NativeText.resize_moves ran
  | textLength present more characters range =>
    refine text_outgrows present (fun t' f' ran => ?_) passed
    simpa [more] using NativeText.setByteLength_moves ran
  | string present more other =>
    refine string_outgrows present rfl (fun t' f' ran => ?_) passed
    rw [if_neg other] at ran
    simpa [more] using NativeText.resize_moves ran
  | stringLength present more =>
    refine string_outgrows present rfl (fun t' f' ran => ?_) passed
    split at ran <;> simpa [more] using NativeText.setByteLength_moves ran

/-- After any run on one service the buffers are in order, and so is whatever is done next. -/
theorem in_order (actions : List Action) :
    (run {} actions).InOrder ∧ ∀ a, (run {} actions).Orderly a := by
  have guarded := start_guarded.run actions
  refine ⟨guarded.inOrder, fun a => ?_⟩
  constructor
  case drains =>
    rintro rfl
    exact guarded.drains
  case moves => exact fun i old new => guarded.moves
  case outgrows => exact fun i outgrows => outgrows.moves
  case keeps => exact guarded.keeps
  case fails => exact fun fault => fails
  case registers => exact fun b => guarded.registers

/-- A text outgrows its first buffer, is dropped with its second, and an allocation fails. -/
example : (run {} [.zeros 1 1 .binary, .text 0 (.resize 4), .memory 3, .allocate 9, .drop 0,
    .drain]).finalization.ran = [0, 1] := rfl

end Holdings

end RopeBridge
