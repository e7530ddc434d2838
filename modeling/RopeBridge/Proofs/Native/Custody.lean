import Mathlib.Data.List.Perm.Basic
import RopeBridge.Native.Buffer

/-! The finalizers of native buffers. Every buffer that has ever been allocated is in one of three
places: in somebody's hands, given up with its finalizer still waiting, or freed. The account of
these places is kept by every registration, by every exchange of a buffer for another, and by every
drain. -/

namespace RopeBridge

namespace Finalization

variable {f : Finalization} {held : List BufferId} {b : BufferId}

/-- All waiting finalizers belong to buffers, and those that are held are among them. -/
structure Guards (f : Finalization) (held : List BufferId) : Prop where
  apart : held.Nodup
  waits : held ⊆ f.waiting.map (·.id)
  frees : ∀ x ∈ f.waiting, x.owner = .buffer x.id ∧ x.action = .free
  /-- Of all numbers given out each is waiting once or has run once. -/
  account : (f.waiting.map (·.id) ++ f.ran).Perm (List.range f.nextId)

/-- The buffers that have been given up and not been freed yet. -/
def dropped (f : Finalization) (held : List BufferId) : List BufferId :=
  (List.range f.nextId).filter fun b => b ∉ held ∧ b ∉ f.ran

theorem start_guards (memory : Nat) : Guards { memory } [] := by
  constructor <;> simp

namespace Guards

theorem nodup (h : f.Guards held) : (f.waiting.map (·.id) ++ f.ran).Nodup :=
  h.account.nodup_iff.2 List.nodup_range

theorem lt_of_mem (h : f.Guards held) (known : b ∈ held) : b < f.nextId :=
  List.mem_range.1 (h.account.subset (List.mem_append_left _ (h.waits known)))

theorem fresh (h : f.Guards held) : f.nextId ∉ held :=
  fun known => Nat.lt_irrefl _ (h.lt_of_mem known)

theorem perm {held' : List BufferId} (h : f.Guards held) (same : held.Perm held') :
    f.Guards held' :=
  ⟨same.nodup_iff.1 h.apart, List.Subset.trans same.symm.subset h.waits, h.frees, h.account⟩

theorem give_up (h : f.Guards (b :: held)) : f.Guards held :=
  ⟨h.apart.of_cons, List.Subset.trans (List.subset_cons_self _ _) h.waits, h.frees, h.account⟩

theorem unused (h : f.Guards held) (known : b ∈ held) : b ∉ f.ran :=
  fun freed => (List.nodup_append.1 h.nodup).2.2 b (h.waits known) b freed rfl

/-- What waits is what is held and what has been given up. -/
theorem waiting_perm (h : f.Guards held) :
    (f.waiting.map (·.id)).Perm (held ++ f.dropped held) := by
  have distinct := (List.nodup_append.1 h.nodup)
  rw [List.perm_ext_iff_of_nodup distinct.1]
  · intro b
    simp only [List.mem_append, dropped, List.mem_filter, ← h.account.mem_iff, decide_eq_true_eq]
    have := @h.waits b
    have := distinct.2.2 b
    grind
  · refine List.nodup_append.2 ⟨h.apart, List.nodup_range.filter _, ?_⟩
    rintro b known _ given rfl
    simp [dropped, known] at given

theorem pending (h : f.Guards held) :
    f.pending = held.length + (f.dropped held).length := by
  simpa [Finalization.pending] using h.waiting_perm.length_eq

end Guards

/-! Registration. -/

/-- The service after the allocation of one more buffer. -/
def enlist (f : Finalization) : Finalization := (f.register (.buffer f.nextId) .free).2

theorem Guards.enlist (h : f.Guards held) : f.enlist.Guards (f.nextId :: held) where
  apart := List.nodup_cons.2 ⟨h.fresh, h.apart⟩
  waits := by
    have := h.waits
    simp only [Finalization.enlist, register, List.map_append, List.map_cons, List.map_nil]
    grind
  frees := by
    intro x waiting
    simp only [Finalization.enlist, register, List.mem_append, List.mem_singleton] at waiting
    obtain waiting | rfl := waiting
    · exact h.frees x waiting
    · exact ⟨rfl, rfl⟩
  account := by
    simp only [Finalization.enlist, register, List.map_append, List.map_cons, List.map_nil,
      List.range_succ]
    calc f.waiting.map (·.id) ++ [f.nextId] ++ f.ran
      _ = f.waiting.map (·.id) ++ ([f.nextId] ++ f.ran) := List.append_assoc ..
      List.Perm _ (f.waiting.map (·.id) ++ (f.ran ++ [f.nextId])) :=
        List.perm_append_comm.append_left _
      _ = f.waiting.map (·.id) ++ f.ran ++ [f.nextId] := (List.append_assoc ..).symm
      List.Perm _ (List.range f.nextId ++ [f.nextId]) := h.account.append_right _

/-! Release. -/

/-- The service after the end of a buffer whose finalizer is asked for at once. -/
def discard (f : Finalization) (b : BufferId) : Finalization :=
  (f.finalizeNow (fun owner => owner != .buffer b) b).2

theorem Guards.discard_eq (h : f.Guards held) (waits : b ∈ f.waiting.map (·.id)) :
    f.discard b = { f with waiting := f.waiting.filter (·.id ≠ b), ran := f.ran ++ [b] } := by
  obtain ⟨x, waiting, rfl⟩ := List.mem_map.1 waits
  cases found : f.waiting.find? (·.id = x.id) with
  | none => exact absurd (List.find?_eq_none.1 found x waiting) (by simp)
  | some y =>
    have same : y.id = x.id := by simpa using List.find?_some found
    obtain ⟨owner, action⟩ := h.frees y (List.mem_of_find?_eq_some found)
    simp [discard, finalizeNow, found, same, owner, action, perform, FinalAction.registers]

/-- The numbers that wait, without one of them and with it in front. -/
theorem filter_id_perm (waits : b ∈ f.waiting.map (·.id)) (distinct : (f.waiting.map (·.id)).Nodup) :
    (f.waiting.map (·.id)).Perm (b :: (f.waiting.filter (·.id ≠ b)).map (·.id)) := by
  have erased : (f.waiting.filter (·.id ≠ b)).map (·.id) = (f.waiting.map (·.id)).erase b := by
    rw [distinct.erase_eq_filter, List.filter_map]
    congr 1
    exact List.filter_congr (by grind)
  rw [erased]
  exact List.perm_cons_erase waits

theorem Guards.discard (h : f.Guards held) (waits : b ∈ f.waiting.map (·.id)) (free : b ∉ held) :
    (f.discard b).Guards held := by
  have moved := filter_id_perm waits (List.nodup_append.1 h.nodup).1
  rw [h.discard_eq waits]
  refine ⟨h.apart, fun a known => ?_, fun x waiting => ?_, ?_⟩
  · obtain rfl | kept := List.mem_cons.1 (moved.subset (h.waits known))
    · exact absurd known free
    · exact kept
  · exact h.frees x (List.mem_filter.1 waiting).1
  · refine List.Perm.trans ?_ h.account
    calc (f.waiting.filter (·.id ≠ b)).map (·.id) ++ (f.ran ++ [b])
      List.Perm _ ((f.waiting.filter (·.id ≠ b)).map (·.id) ++ ([b] ++ f.ran)) :=
        List.perm_append_comm.append_left _
      List.Perm _ ([b] ++ (f.waiting.filter (·.id ≠ b)).map (·.id) ++ f.ran) := by
        rw [← List.append_assoc]
        exact List.perm_append_comm.append_right _
      List.Perm _ (f.waiting.map (·.id) ++ f.ran) := moved.symm.append_right _

/-! Draining. -/

/-- A buffer is alive as long as somebody holds it. -/
def holds (held : List BufferId) : Owner → Bool
  | .buffer b => b ∈ held
  | _ => false

theorem foldl_perform_free {xs : List Finalizer} (frees : ∀ x ∈ xs, x.action = .free) :
    xs.foldl perform f = { f with ran := f.ran ++ xs.map (·.id) } := by
  induction xs generalizing f with
  | nil => simp
  | cons x rest ih =>
    rw [List.forall_mem_cons] at frees
    simp [perform, frees.1, FinalAction.registers, ih frees.2]

/-- A drain frees what has been given up, and that alone. -/
theorem Guards.drain_eq (h : f.Guards held) :
    (f.drain (holds held)).2 = { f with
      waiting := f.waiting.filter (·.id ∈ held)
      ran := f.ran ++ (f.waiting.filter (·.id ∉ held)).map (·.id) } := by
  have alive (x) (waiting : x ∈ f.waiting) : holds held x.owner = decide (x.id ∈ held) := by
    simp [(h.frees x waiting).1, holds]
  have ready : f.waiting.filter (fun x => !holds held x.owner) = f.waiting.filter (·.id ∉ held) :=
    List.filter_congr fun x waiting => by simp [alive x waiting]
  have left : f.waiting.filter (fun x => holds held x.owner) = f.waiting.filter (·.id ∈ held) :=
    List.filter_congr alive
  rw [drain, ready, left, foldl_perform_free]
  intro x waiting
  exact (h.frees x (List.mem_filter.1 waiting).1).2

theorem Guards.drain (h : f.Guards held) : ((f.drain (holds held)).2).Guards held := by
  rw [h.drain_eq]
  refine ⟨h.apart, fun b known => ?_, fun x waiting => ?_, ?_⟩
  · obtain ⟨x, waiting, rfl⟩ := List.mem_map.1 (h.waits known)
    exact List.mem_map.2 ⟨x, List.mem_filter.2 ⟨waiting, by simpa using known⟩, rfl⟩
  · exact h.frees x (List.mem_filter.1 waiting).1
  · have parts := (List.filter_append_perm (fun x : Finalizer => decide (x.id ∈ held))
      f.waiting).map (·.id)
    rw [List.map_append] at parts
    refine List.Perm.trans ?_ h.account
    refine List.Perm.trans ?_ (parts.append_right _)
    rw [List.append_assoc]
    refine List.Perm.append_left _ (List.perm_append_comm.trans ?_)
    simp

/-- After a drain nothing is left of what had been given up. -/
theorem Guards.drain_ran (h : f.Guards held) :
    (f.drain (holds held)).2.ran.Perm (f.ran ++ f.dropped held) := by
  rw [h.drain_eq]
  refine List.Perm.append_left _ ?_
  have kept : held.filter (· ∉ held) = [] := List.filter_eq_nil_iff.2 (by simp)
  have given : (f.dropped held).filter (· ∉ held) = f.dropped held :=
    List.filter_eq_self.2 fun b given => by
      simp only [dropped, List.mem_filter, decide_eq_true_eq] at given
      simpa using given.2.1
  calc (f.waiting.filter (·.id ∉ held)).map (·.id)
    _ = (f.waiting.map (·.id)).filter (· ∉ held) := by rw [List.filter_map]; rfl
    List.Perm _ ((held ++ f.dropped held).filter (· ∉ held)) := h.waiting_perm.filter _
    _ = f.dropped held := by rw [List.filter_append, kept, given, List.nil_append]

theorem Guards.drain_dropped (h : f.Guards held) :
    (f.drain (holds held)).2.dropped held = [] := by
  refine List.filter_eq_nil_iff.2 fun b known => ?_
  have freed := h.drain_ran.mem_iff (a := b)
  have same : (f.drain (holds held)).2.nextId = f.nextId := by rw [h.drain_eq]
  rw [same] at known
  simp only [List.mem_append, dropped, List.mem_filter, known, true_and,
    decide_eq_true_eq] at freed
  simp only [freed, decide_eq_true_eq]
  tauto

/-! What becomes of one holder and its buffer. -/

/-- How the hands of one holder and the service change together. -/
inductive Turnover : Option BufferId → Finalization → Option BufferId → Finalization → Prop
  | keep (hand : Option BufferId) (f : Finalization) : Turnover hand f hand f
  /-- The buffer is given up; its finalizer will find it so. -/
  | abandon (hand : Option BufferId) (f : Finalization) : Turnover hand f none f
  | take (f : Finalization) : Turnover none f (some f.nextId) f.enlist
  /-- A new buffer takes the place of an old one, which is freed at once. -/
  | exchange (old : BufferId) (f : Finalization) :
      Turnover (some old) f (some f.nextId) (f.enlist.discard old)
  /-- A buffer that has just been taken turns out too small. -/
  | retake (f : Finalization) :
      Turnover none f (some f.enlist.nextId) (f.enlist.enlist.discard f.nextId)

section

variable {old : BufferId}

theorem Guards.exchange_eq (h : f.Guards (old :: held)) :
    f.enlist.discard old = { f.enlist with
      waiting := f.enlist.waiting.filter (·.id ≠ old), ran := f.ran ++ [old] } :=
  h.enlist.discard_eq (h.enlist.waits (List.mem_cons_of_mem _ List.mem_cons_self))

theorem Guards.exchange_ran (h : f.Guards (old :: held)) :
    (f.enlist.discard old).ran = f.ran ++ [old] := by rw [h.exchange_eq]

theorem Guards.exchange_nextId (h : f.Guards (old :: held)) :
    (f.enlist.discard old).nextId = f.nextId + 1 := by
  rw [h.exchange_eq]
  rfl

theorem Guards.exchange (h : f.Guards (old :: held)) :
    (f.enlist.discard old).Guards (f.nextId :: held) := by
  have swapped := h.enlist.perm (List.Perm.swap _ _ _)
  refine swapped.give_up.discard (swapped.waits List.mem_cons_self) ?_
  exact (List.nodup_cons.1 swapped.apart).1

end

namespace Turnover

variable {hand hand' : Option BufferId} {f' : Finalization}

theorem guards (turns : Turnover hand f hand' f') (h : f.Guards (hand.toList ++ held)) :
    f'.Guards (hand'.toList ++ held) := by
  cases turns with
  | keep => exact h
  | abandon =>
    cases hand with
    | none => exact h
    | some b => exact Guards.give_up h
  | take => exact h.enlist
  | exchange old => exact Guards.exchange h
  | retake => exact h.enlist.exchange

/-- What is freed by the way is the buffer that another has taken the place of. -/
theorem ran (turns : Turnover hand f hand' f') (h : f.Guards (hand.toList ++ held)) :
    f'.ran = f.ran ∨ ∃ old new, hand' = some new ∧ new ≠ old ∧ f'.ran = f.ran ++ [old] ∧
      (hand = some old ∨ hand = none ∧ old = f.nextId) := by
  cases turns with
  | keep | abandon | take => exact .inl rfl
  | exchange old =>
    have newer : f.nextId ≠ old := (Nat.ne_of_lt (h.lt_of_mem List.mem_cons_self)).symm
    exact .inr ⟨old, _, rfl, newer, Guards.exchange_ran h, .inl rfl⟩
  | retake =>
    exact .inr ⟨f.nextId, _, rfl, Nat.succ_ne_self _, h.enlist.exchange_ran, .inr ⟨rfl, rfl⟩⟩

theorem moves (turns : Turnover hand f hand' f') (h : f.Guards (hand.toList ++ held))
    {old new : BufferId} (had : hand = some old) (has : hand' = some new) (moved : old ≠ new) :
    new = f.nextId ∧ f'.ran = f.ran ++ [old] := by
  cases turns with
  | keep => exact absurd (Option.some.inj (had.symm.trans has)) moved
  | abandon => cases has
  | take | retake => cases had
  | exchange =>
    cases had
    cases has
    exact ⟨rfl, Guards.exchange_ran h⟩

/-- Whatever has been registered is in the holder's hands, or was and has been freed. -/
theorem registers (turns : Turnover hand f hand' f') (h : f.Guards (hand.toList ++ held))
    {b : BufferId} (new : f.nextId ≤ b) (known : b < f'.nextId) : hand' = some b ∨ b ∈ f'.ran := by
  cases turns with
  | keep | abandon => exact absurd known (Nat.not_lt.2 new)
  | take => exact .inl (congrArg some (Nat.eq_of_le_of_lt_succ new known).symm)
  | exchange =>
    rw [Guards.exchange_nextId h] at known
    exact .inl (congrArg some (Nat.eq_of_le_of_lt_succ new known).symm)
  | retake =>
    rw [h.enlist.exchange_nextId] at known
    obtain older | rfl := Nat.lt_succ_iff_lt_or_eq.1 known
    · have first : b = f.nextId := Nat.eq_of_le_of_lt_succ new older
      exact .inr (by simp [h.enlist.exchange_ran, first])
    · exact .inl rfl

end Turnover

/-- What an operation that fails may have done: the string has moved to native memory and stays
there. -/
inductive Halt : Option BufferId → Finalization → Option BufferId → Finalization → Prop
  | keep (hand : Option BufferId) (f : Finalization) : Halt hand f hand f
  | take (f : Finalization) : Halt none f (some f.nextId) f.enlist

theorem Halt.turnover {hand hand' : Option BufferId} {f' : Finalization}
    (halt : Halt hand f hand' f') : Turnover hand f hand' f' := by
  cases halt with
  | keep => exact .keep _ _
  | take => exact .take _

theorem Halt.ran {hand hand' : Option BufferId} {f' : Finalization}
    (halt : Halt hand f hand' f') : f'.ran = f.ran := by
  cases halt <;> rfl

theorem Halt.keep_or_take {hand hand' : Option BufferId} {f' : Finalization}
    (halt : Halt hand f hand' f') :
    hand' = hand ∧ f' = f ∨ hand = none ∧ hand' = some f.nextId ∧ f' = f.enlist := by
  cases halt with
  | keep => exact .inl ⟨rfl, rfl⟩
  | take => exact .inr ⟨rfl, rfl, rfl⟩

/-- A string that has a buffer by now may exchange it once more. -/
theorem Halt.exchange {hand : Option BufferId} {old : BufferId} {f' : Finalization}
    (halt : Halt hand f (some old) f') :
    Turnover hand f (some f'.nextId) (f'.enlist.discard old) := by
  cases halt with
  | keep => exact .exchange _ _
  | take => exact .retake _

end Finalization

end RopeBridge
