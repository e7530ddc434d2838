import RopeBridge.Proofs.Lock.Interleaving

/-! What a thread does to the lock while it waits, as a schedule of single steps: attempts that miss,
an unlock by the thread that an action asks to leave, at last an attempt that does not miss and,
for a retake, the store. So a wait is safe among all that other threads do, and a retake that comes to
its end has its levels. -/

namespace RopeBridge

open ExtensionLock (levelLimit)

namespace Contention

variable {c : Contention} {me : ThreadId}

/-- No thread is in the middle of a retake. -/
def Idle (c : Contention) : Prop := ∀ t, c.due t = none

theorem execute_append (c : Contention) (first second : Schedule) :
    c.execute (first ++ second) = (c.execute first).execute second := by
  induction first generalizing c with
  | nil => rfl
  | cons turn rest ih => exact ih _

theorem execute_retake (idle : c.Idle) {levels : Fin levelLimit} (positive : levels.val ≠ 0)
    {lock : ExtensionLock} (into : c.lock.tryAcquire me = .ok (some lock)) :
    (c.execute [(me, .retake levels), (me, .attempt)]).lock = { lock with count := levels } ∧
      (c.execute [(me, .retake levels), (me, .attempt)]).Idle := by
  simp only [execute, advance, take, idle me, positive, into, if_false, Option.map_some,
    Option.getD_some, Function.update_self, true_and]
  intro t
  by_cases last : t = me
  · simp [last]
  · simp [last, idle t]

end Contention

namespace LockWait

open Contention (execute_append execute_retake)

variable {w : LockWait} {me : ThreadId} {c : Contention} {lock : ExtensionLock}

/-- The lock comes to `lock` by a schedule that starts at `c` and leaves no store to be made. -/
def Leads (c : Contention) (lock : ExtensionLock) : Prop :=
  ∃ schedule, (c.execute schedule).lock = lock ∧ (c.execute schedule).Idle

theorem Leads.after {schedule : Contention.Schedule} (leads : Leads (c.execute schedule) lock) :
    Leads c lock := by
  obtain ⟨further, reached, idle⟩ := leads
  exact ⟨schedule ++ further, by rw [execute_append, reached], by rwa [execute_append]⟩

/-- The lock comes to `lock` when `me` gets it at last. -/
def LeadsInto (c : Contention) (me : ThreadId) (lock : ExtensionLock) : Prop :=
  ∃ free, Leads c free ∧ free.tryAcquire me = .ok (some lock)

theorem LeadsInto.after {schedule : Contention.Schedule}
    (leads : LeadsInto (c.execute schedule) me lock) : LeadsInto c me lock := by
  obtain ⟨free, leads, into⟩ := leads
  exact ⟨free, leads.after, into⟩

/-- What a wait comes to that a failure ends. A thread that stops does so before anything else. -/
def Tried (c : Contention) (me : ThreadId) (w : LockWait) : Acquisition × LockWait → Prop
  | (.taken, w') => LeadsInto c me w'.lock
  | (.interrupted _, w') => Leads c w'.lock ∧ w'.lock.owner ≠ some me
  | (.blocked, w') => Leads c w'.lock ∧ w'.lock.tryAcquire me = .ok none
  | (.stopped overflow, w') => w' = w ∧ w.lock.tryAcquire me = .error overflow

/-- What a wait comes to that goes on past failures. -/
def Insisted (c : Contention) (me : ThreadId) (w : LockWait) : Acquisition × LockWait → Prop
  | (.taken, w') => LeadsInto c me w'.lock
  | (.interrupted _, w') => LeadsInto c me w'.lock
  | (.blocked, w') => Leads c w'.lock ∧ w'.lock.tryAcquire me = .ok none
  | (.stopped overflow, w') => w' = w ∧ w.lock.tryAcquire me = .error overflow

/-- What a retake of at least one level comes to. It has the levels when it ends; else another thread
has the lock, or the caller has had as many levels as can be counted all the time. -/
def Retaken (w : LockWait) (me : ThreadId) (levels : Nat) : Acquisition × LockWait → Prop
  | (.taken, w') => w'.lock = ⟨some me, levels⟩
  | (.interrupted _, w') => w'.lock = ⟨some me, levels⟩
  | (.blocked, w') => ∃ other, w'.lock.owner = some other ∧ other ≠ me
  | (.stopped _, w') => w' = w ∧ w.lock.owner = some me ∧ levelLimit ≤ w.lock.count + 1

/-! Waits as schedules. -/

theorem poll_leads (idle : c.Idle) (same : c.lock = w.lock) : Leads c w.poll.2.lock := by
  simp only [poll]
  split
  · cases contends : w.contender with
    | none => exact ⟨[], same, idle⟩
    | some other =>
      refine ⟨[(other, .unlock)], ?_, fun t => ?_⟩
      · simp only [Contention.execute, Contention.advance, idle other, Option.elim_some,
          ExtensionLock.unlocked, ← same]
        split <;> next done => simp [done, Except.toOption]
      · simp only [Contention.execute, Contention.advance, idle other]
        split <;> exact idle t
  · exact ⟨[], same, idle⟩

theorem owner_poll (out : w.lock.owner ≠ some me) : w.poll.2.lock.owner ≠ some me := by
  have kept (leaver : Option ThreadId) :
      (leaver.elim w.lock w.lock.unlocked).owner ≠ some me := by
    cases leaver with
    | none => exact out
    | some other => exact ExtensionLock.owner_unlocked_ne out other
  exact kept _

theorem acquire_tried (me : ThreadId) (idle : c.Idle) (same : c.lock = w.lock) :
    Tried c me w (w.acquire me) := by
  have polled := poll_leads idle same
  unfold acquire
  cases now : w.lock.tryAcquire me with
  | error overflow => exact ⟨rfl, now⟩
  | ok got =>
    cases got with
    | some lock => exact ⟨w.lock, ⟨[], same, idle⟩, now⟩
    | none =>
      have out := owner_poll (ExtensionLock.owner_of_missed now)
      generalize w.poll = p at polled out
      obtain ⟨failure, w'⟩ := p
      cases failure with
      | some fault => exact ⟨polled, out⟩
      | none =>
        dsimp only
        cases later : w'.lock.tryAcquire me with
        | error overflow => exact absurd (ExtensionLock.tryAcquire_eq_error_iff.1 later).1 out
        | ok got =>
          cases got with
          | some lock => exact ⟨w'.lock, polled, later⟩
          | none => exact ⟨polled, later⟩

theorem insist_insisted (me : ThreadId) (first : Option Fault) (idle : c.Idle)
    (same : c.lock = w.lock) : Insisted c me w (w.insist me first) := by
  have tried := acquire_tried me idle same
  fun_induction insist w me first generalizing c with
  | case1 w first w' taken =>
    rw [taken] at tried
    cases first <;> exact tried
  | case2 w first w' blocked =>
    rw [blocked] at tried
    exact tried
  | case3 w first overflow w' stopped =>
    rw [stopped] at tried
    exact tried
  | case4 w first fault w' interrupted ih =>
    rw [interrupted] at tried
    obtain ⟨⟨schedule, same', idle'⟩, out⟩ := tried
    have further := ih idle' same' (acquire_tried me idle' same')
    generalize w'.insist me (first.or (some fault)) = result at further ⊢
    obtain ⟨outcome, w''⟩ := result
    cases outcome with
    | taken => exact LeadsInto.after further
    | interrupted => exact LeadsInto.after further
    | blocked => exact ⟨further.1.after, further.2⟩
    | stopped overflow =>
      -- the lock is not the thread's any more, so it does not stop
      exact absurd (ExtensionLock.tryAcquire_eq_error_iff.1 further.2).1 out

/-- A retake is a schedule too: attempts that miss, one that does not, and the store. -/
theorem reacquire_leads (me : ThreadId) (levels : Fin levelLimit) (idle : c.Idle)
    (same : c.lock = w.lock) : Leads c (w.reacquire me levels).2.lock := by
  have insisted := insist_insisted me none idle same
  unfold reacquire
  split
  next => exact ⟨[], same, idle⟩
  next positive =>
    have stored {lock : ExtensionLock} (into : LeadsInto c me lock) :
        Leads c { lock with count := levels } := by
      obtain ⟨_, ⟨schedule, rfl, free⟩, into⟩ := into
      exact Leads.after ⟨[(me, .retake levels), (me, .attempt)], execute_retake free positive into⟩
    generalize w.insist me none = result at insisted
    obtain ⟨outcome, w'⟩ := result
    cases outcome with
    | taken => exact stored insisted
    | interrupted => exact stored insisted
    | blocked => exact insisted.1
    | stopped =>
      obtain ⟨rfl, -⟩ := insisted
      exact ⟨[], same, idle⟩

theorem reacquire_retaken (w : LockWait) (me : ThreadId) {levels : Nat} (positive : 0 < levels) :
    w.Retaken me levels (w.reacquire me levels) := by
  have insisted := insist_insisted (c := { lock := w.lock }) (w := w) me none (fun _ => rfl) rfl
  unfold reacquire
  rw [if_neg (Nat.ne_of_gt positive)]
  have stored {lock : ExtensionLock} (into : LeadsInto { lock := w.lock } me lock) :
      ({ lock with count := levels } : ExtensionLock) = ⟨some me, levels⟩ := by
    obtain ⟨_, -, into⟩ := into
    simp [ExtensionLock.owner_of_taken into]
  generalize w.insist me none = result at insisted
  obtain ⟨outcome, w'⟩ := result
  cases outcome with
  | taken => exact stored insisted
  | interrupted => exact stored insisted
  | blocked => exact ExtensionLock.tryAcquire_eq_none_iff.1 insisted.2
  | stopped =>
    obtain ⟨same, stopped⟩ := insisted
    obtain ⟨mine, full, -⟩ := ExtensionLock.tryAcquire_eq_error_iff.1 stopped
    exact ⟨same, mine, full⟩

end LockWait

namespace Contention

/-- What the lock promises, whatever the order in which threads come to it. -/
structure Exclusive : Prop where
  safe : ∀ schedule, ∀ m ∈ moments {} schedule, m.Safe
  retaken : ∀ (w : LockWait) (me : ThreadId) (levels : Nat), 0 < levels →
    w.Retaken me levels (w.reacquire me levels)
  /-- What becomes of the lock during a retake is the work of single steps. -/
  single : ∀ schedule, (execute {} schedule).Idle → ∀ w : LockWait,
    w.lock = (execute {} schedule).lock → ∀ (me : ThreadId) (levels : Fin levelLimit),
      ∃ further, (execute {} (schedule ++ further)).lock = (w.reacquire me levels).2.lock

/-- Whatever the order of their steps, the threads are safe at the lock. -/
theorem exclusive : Exclusive := by
  constructor
  case safe => exact start_sound.safe
  case retaken => exact fun w me levels positive => w.reacquire_retaken me positive
  case single =>
    intro schedule idle w same me levels
    obtain ⟨further, reached, -⟩ := LockWait.reacquire_leads me levels idle same.symm
    exact ⟨further, by rw [execute_append, reached]⟩

/-- A thread that has all levels that can be counted stops at the next. -/
example : (execute {} [(0, .retake ⟨0xffffffffffffffff, by decide⟩), (0, .attempt),
    (0, .attempt)]).lock = ⟨some 0, 0xffffffffffffffff⟩ := rfl

end Contention

end RopeBridge
