import Mathlib.Data.List.Nodup
import Mathlib.Data.List.Perm.Basic
import RopeBridge.Finalization

/-! A service of finalizers over time. Whatever is asked of it and whenever owners end, every
registration is in one of two places: it waits, or it has run, and it has run once and after its
owner has ended. -/

namespace RopeBridge

namespace Finalization

/-- Finalizers in the order of their registration, the first of them under the given number. -/
def enrol (first : FinalizerId) (offers : List (Owner × FinalAction)) : List Finalizer :=
  offers.mapIdx fun i (owner, action) => ⟨first + i, owner, action⟩

/-- What finalizers register when they run one after the other. -/
def offspring (xs : List Finalizer) : List (Owner × FinalAction) :=
  xs.flatMap (·.action.registers)

end Finalization

open Finalization (enrol offspring)

/-- A service and what has happened to it. -/
structure Course where
  service : Finalization
  ended : List Owner := []
  /-- All registrations in order, those that actions have made included. -/
  offers : List (Owner × FinalAction) := []
  /-- The finalizers that calls have run, in order. -/
  performed : List Finalizer := []

namespace Course

def alive (c : Course) (owner : Owner) : Bool := owner ≠ .gone ∧ owner ∉ c.ended

/-- The course after a call that has run some finalizers. -/
def served (c : Course) (xs : List Finalizer) (service : Finalization) : Course :=
  { c with service, offers := c.offers ++ offspring xs, performed := c.performed ++ xs }

/-- A call and what it runs, or the end of an owner. A drain may take what it has found in any
order; an owner that ends while a call is under way counts as ended after the call. -/
inductive Step (c : Course) : List Finalizer → Course → Prop
  | register (owner : Owner) (action : FinalAction) :
    c.Step [] { c with
      service := (c.service.register owner action).2
      offers := c.offers ++ [(owner, action)] }
  | ends (owner : Owner) : c.Step [] { c with ended := owner :: c.ended }
  | finalizeNow (id : FinalizerId) :
    c.Step (c.service.finalizeNow c.alive id).1.toList
      (c.served (c.service.finalizeNow c.alive id).1.toList (c.service.finalizeNow c.alive id).2)
  | drain {xs : List Finalizer} : xs.Perm (c.service.drain c.alive).1 →
    c.Step xs (c.served xs (xs.foldl Finalization.perform
      { c.service with waiting := c.service.waiting.filter fun x => c.alive x.owner }))

inductive Reached : Course → Prop
  | start (memory : Nat) : Reached { service := { memory } }
  | next {c c' : Course} {xs : List Finalizer} : Reached c → c.Step xs c' → Reached c'

/-- A registration that has not run and the owner of which has ended. -/
structure Due (c : Course) (x : Finalizer) : Prop where
  registered : x ∈ enrol 0 c.offers
  fresh : x ∉ c.performed
  dead : ¬ c.alive x.owner

/-- The state of a service between two calls, and what the next call will do. -/
structure Orderly (c : Course) : Prop where
  /-- Every registration has run once or waits, under the number of its place. -/
  account : (c.performed ++ c.service.waiting).Perm (enrol 0 c.offers)
  apart : ((c.performed ++ c.service.waiting).map (·.id)).Nodup
  ran : c.service.ran = c.performed.map (·.id)
  dead : ∀ x ∈ c.performed, ¬ c.alive x.owner
  pending : c.service.pending + c.performed.length = c.offers.length
  finalized : c.service.finalized = c.performed.length
  number : ∀ owner action, (c.service.register owner action).1 = c.offers.length
  finalizeNow : ∀ id x, (c.service.finalizeNow c.alive id).1 = some x ↔ c.Due x ∧ x.id = id
  drain : ∀ x, x ∈ (c.service.drain c.alive).1 ↔ c.Due x
  once : (c.service.drain c.alive).1.Nodup
  /-- A call runs what it says, and nothing else. -/
  runs : ∀ xs c', c.Step xs c' → c'.service.ran = c.service.ran ++ xs.map (·.id)

end Course

namespace Finalization

variable {f f' : Finalization} {alive : Owner → Bool} {id : FinalizerId} {x : Finalizer}
  {xs : List Finalizer}

theorem enrol_append (first : FinalizerId) (offers more : List (Owner × FinalAction)) :
    enrol first (offers ++ more) = enrol first offers ++ enrol (first + offers.length) more := by
  simp [enrol, List.mapIdx_append, Nat.add_left_comm, Nat.add_comm]

theorem enrol_ids (offers : List (Owner × FinalAction)) :
    (enrol 0 offers).map (·.id) = List.range offers.length := by
  refine List.ext_getElem (by simp [enrol]) fun i _ _ => ?_
  simp [enrol]

theorem foldl_register (offers : List (Owner × FinalAction)) (f : Finalization) :
    offers.foldl (fun f (owner, action) => (f.register owner action).2) f =
      { f with
        waiting := f.waiting ++ enrol f.nextId offers
        nextId := f.nextId + offers.length } := by
  induction offers generalizing f with
  | nil => simp [enrol]
  | cons offer rest ih =>
    rw [List.foldl_cons, ih, ← List.singleton_append, enrol_append]
    simp [register, enrol, Nat.add_assoc, Nat.add_comm 1]

/-- Finalizers that run one after the other. -/
theorem foldl_perform (xs : List Finalizer) (f : Finalization) :
    xs.foldl perform f =
      { f with
        waiting := f.waiting ++ enrol f.nextId (offspring xs)
        nextId := f.nextId + (offspring xs).length
        ran := f.ran ++ xs.map (·.id) } := by
  induction xs generalizing f with
  | nil => simp [offspring, enrol]
  | cons x rest ih =>
    have more : offspring (x :: rest) = x.action.registers ++ offspring rest := rfl
    rw [List.foldl_cons, ih, perform, foldl_register, more, enrol_append]
    simp [Nat.add_assoc]

/-- Finalizers leave those that wait and run, and what has been registered follows the rest. -/
def Moves (f : Finalization) (xs : List Finalizer) (offers : List (Owner × FinalAction))
    (f' : Finalization) : Prop :=
  ∃ rest, f.waiting.Perm (xs ++ rest) ∧ f' = { f with
    waiting := rest ++ enrol f.nextId offers
    nextId := f.nextId + offers.length
    ran := f.ran ++ xs.map (·.id) }

theorem foldl_perform_moves {rest : List Finalizer} (taken : f.waiting.Perm (xs ++ rest)) :
    f.Moves xs (offspring xs) (xs.foldl perform { f with waiting := rest }) :=
  ⟨rest, taken, foldl_perform xs _⟩

theorem moves_nothing : f.Moves [] [] f := foldl_perform_moves (.refl _)

theorem register_moves (owner : Owner) (action : FinalAction) :
    f.Moves [] [(owner, action)] (f.register owner action).2 :=
  ⟨f.waiting, .refl _, by simp [register, enrol]⟩

/-- What a drain finds may run in any order. -/
theorem drain_moves (order : xs.Perm (f.drain alive).1) :
    f.Moves xs (offspring xs) (xs.foldl perform
      { f with waiting := f.waiting.filter fun x => alive x.owner }) := by
  refine foldl_perform_moves (List.Perm.trans ?_ (order.symm.append_right _))
  have apart := List.filter_append_perm (fun x : Finalizer => !alive x.owner) f.waiting
  simp only [Bool.not_not] at apart
  exact apart.symm

theorem finalizeNow_iff (distinct : (f.waiting.map (·.id)).Nodup) :
    (f.finalizeNow alive id).1 = some x ↔ x ∈ f.waiting ∧ x.id = id ∧ ¬ alive x.owner := by
  unfold finalizeNow
  cases found : f.waiting.find? (·.id = id) with
  | none =>
    have none := List.find?_eq_none.1 found
    simp only [decide_eq_true_eq] at none
    simp only [reduceCtorEq, false_iff]
    exact fun ⟨waiting, same, _⟩ => none x waiting same
  | some y =>
    have waiting := List.mem_of_find?_eq_some found
    have same : y.id = id := by simpa using List.find?_some found
    have only (other : x ∈ f.waiting ∧ x.id = id) : y = x :=
      List.inj_on_of_nodup_map distinct waiting other.1 (same.trans other.2.symm)
    by_cases alive : alive y.owner <;> simp [alive] <;> grind

theorem finalizeNow_snd : (f.finalizeNow alive id).2 =
    (f.finalizeNow alive id).1.elim f (perform { f with waiting := f.waiting.filter (·.id ≠ id) }) := by
  unfold finalizeNow
  cases f.waiting.find? (·.id = id) with
  | none => rfl
  | some x => by_cases alive : alive x.owner <;> simp [alive]

theorem finalizeNow_moves (distinct : (f.waiting.map (·.id)).Nodup) :
    f.Moves (f.finalizeNow alive id).1.toList (offspring (f.finalizeNow alive id).1.toList)
      (f.finalizeNow alive id).2 := by
  rw [finalizeNow_snd]
  cases called : (f.finalizeNow alive id).1 with
  | none => exact moves_nothing
  | some x =>
    obtain ⟨waiting, same, _⟩ := (finalizeNow_iff distinct).1 called
    have once := List.Nodup.of_map _ distinct
    suffices taken : f.waiting.Perm ([x] ++ f.waiting.filter (·.id ≠ id)) from
      foldl_perform_moves taken
    have apart : ([x] ++ f.waiting.filter (·.id ≠ id)).Nodup :=
      List.nodup_cons.2 ⟨by simp [same], once.filter _⟩
    refine (List.perm_ext_iff_of_nodup once apart).2 fun y => ?_
    have only (other : y ∈ f.waiting) := List.inj_on_of_nodup_map distinct waiting other
    simp only [List.mem_append, List.mem_singleton, List.mem_filter, decide_eq_true_eq]
    grind

end Finalization

namespace Course

variable {c c' : Course} {xs : List Finalizer}

theorem Step.performed (step : c.Step xs c') : c'.performed = c.performed ++ xs := by
  cases step with
  | register _ _ => exact (List.append_nil _).symm
  | ends _ => exact (List.append_nil _).symm
  | finalizeNow _ => rfl
  | drain _ => rfl

/-- Who has ended stays so. -/
theorem Step.dead (step : c.Step xs c') {owner : Owner} (dead : ¬ c.alive owner) :
    ¬ c'.alive owner := by
  simp only [alive, decide_eq_true_eq, not_and, not_not] at dead ⊢
  intro named
  cases step with
  | ends _ => exact List.mem_cons_of_mem _ (dead named)
  | _ => exact dead named

/-- What every step keeps. -/
structure Kept (c : Course) : Prop where
  account : (c.performed ++ c.service.waiting).Perm (enrol 0 c.offers)
  next : c.service.nextId = c.offers.length
  ran : c.service.ran = c.performed.map (·.id)
  dead : ∀ x ∈ c.performed, ¬ c.alive x.owner

namespace Kept

theorem ids (kept : c.Kept) :
    ((c.performed ++ c.service.waiting).map (·.id)).Perm (List.range c.offers.length) := by
  rw [← Finalization.enrol_ids]
  exact kept.account.map _

theorem apart (kept : c.Kept) : ((c.performed ++ c.service.waiting).map (·.id)).Nodup :=
  kept.ids.nodup_iff.2 List.nodup_range

theorem distinct (kept : c.Kept) : (c.service.waiting.map (·.id)).Nodup := by
  have apart := kept.apart
  rw [List.map_append] at apart
  exact apart.of_append_right

/-- What has not run waits. -/
theorem due_iff (kept : c.Kept) {x : Finalizer} :
    c.Due x ↔ x ∈ c.service.waiting ∧ ¬ c.alive x.owner := by
  have once := List.nodup_append.1 (List.Nodup.of_map _ kept.apart)
  have mem := kept.account.mem_iff (a := x)
  rw [List.mem_append] at mem
  constructor
  · rintro ⟨registered, fresh, dead⟩
    exact ⟨(mem.2 registered).resolve_left fresh, dead⟩
  · rintro ⟨waiting, dead⟩
    exact ⟨mem.1 (.inr waiting), fun ran => once.2.2 x ran x waiting rfl, dead⟩

theorem mem_drain (kept : c.Kept) {x : Finalizer} :
    x ∈ (c.service.drain c.alive).1 ↔ c.Due x := by
  rw [kept.due_iff]
  simp [Finalization.drain]

theorem finalizeNow_iff (kept : c.Kept) {id : FinalizerId} {x : Finalizer} :
    (c.service.finalizeNow c.alive id).1 = some x ↔ c.Due x ∧ x.id = id := by
  rw [Finalization.finalizeNow_iff kept.distinct, kept.due_iff]
  grind

/-- What a step runs is due, and the step leaves the rest where it is. -/
theorem moves (kept : c.Kept) (step : c.Step xs c') : (∀ x ∈ xs, c.Due x) ∧
    ∃ offers, c'.offers = c.offers ++ offers ∧ c.service.Moves xs offers c'.service := by
  cases step with
  | register owner action =>
    exact ⟨fun _ member => absurd member List.not_mem_nil, _, rfl,
      Finalization.register_moves owner action⟩
  | ends owner =>
    exact ⟨fun _ member => absurd member List.not_mem_nil, [], (List.append_nil _).symm,
      Finalization.moves_nothing⟩
  | finalizeNow id =>
    refine ⟨fun x member => ?_, _, rfl, Finalization.finalizeNow_moves kept.distinct⟩
    exact (kept.finalizeNow_iff.1 (Option.mem_toList.1 member)).1
  | drain order =>
    exact ⟨fun x member => kept.mem_drain.1 (order.subset member), _, rfl,
      Finalization.drain_moves order⟩

theorem step (kept : c.Kept) (step : c.Step xs c') : c'.Kept := by
  obtain ⟨due, offers, offered, rest, taken, served⟩ := kept.moves step
  have performed := step.performed
  refine ⟨?_, ?_, ?_, fun x member => step.dead ?_⟩
  · rw [performed, offered, served, Finalization.enrol_append, kept.next, Nat.zero_add]
    calc c.performed ++ xs ++ (rest ++ enrol c.offers.length offers)
      _ = c.performed ++ (xs ++ rest) ++ enrol c.offers.length offers := by simp
      List.Perm _ (c.performed ++ c.service.waiting ++ enrol c.offers.length offers) :=
        (taken.symm.append_left _).append_right _
      List.Perm _ (enrol 0 c.offers ++ enrol c.offers.length offers) :=
        kept.account.append_right _
  · rw [offered, served, List.length_append, kept.next]
  · rw [performed, served, List.map_append, kept.ran]
  · rw [performed] at member
    rcases List.mem_append.1 member with before | now
    · exact kept.dead x before
    · exact (due x now).dead

theorem orderly (kept : c.Kept) : c.Orderly := by
  have ids := kept.ids.length_eq
  refine ⟨kept.account, kept.apart, kept.ran, kept.dead, ?_, ?_, fun _ _ => kept.next,
    fun id x => kept.finalizeNow_iff, fun x => kept.mem_drain, ?_, fun xs c' step => ?_⟩
  · simp only [List.length_map, List.length_append, List.length_range] at ids
    unfold Finalization.pending
    omega
  · unfold Finalization.finalized
    rw [kept.ran, List.length_map]
  · exact (List.Nodup.of_map _ kept.distinct).filter _
  · obtain ⟨_, _, _, _, _, served⟩ := kept.moves step
    rw [served]

end Kept

theorem Reached.kept (reached : c.Reached) : c.Kept := by
  induction reached with
  | start memory => exact ⟨.refl _, rfl, rfl, fun _ member => absurd member List.not_mem_nil⟩
  | next _ step ih => exact ih.step step

/-- Whatever happens to a service, every finalizer runs once at most and after the end of its
owner, and none is forgotten. -/
theorem reached_orderly (reached : c.Reached) : c.Orderly := reached.kept.orderly

/-- Of two owners one ends. Its finalizer registers another when it runs, for which the next drain
is in time. -/
theorem drained_orderly : ∃ c : Course, c.Reached ∧ c.Orderly ∧ c.offers.length = 3 ∧
    c.service.ran = [1, 2] ∧ c.service.pending = 1 := by
  have reached : Reached _ := .next (.next (.next (.next (.next (.start 0)
    (.register (.token 0) .free))
    (.register (.token 1) (.report "first" [(.gone, .report "then" [])])))
    (.ends (.token 1))) (.drain (.refl _))) (.drain (.refl _))
  exact ⟨_, reached, reached_orderly reached, rfl, rfl, rfl⟩

end Course

end RopeBridge
