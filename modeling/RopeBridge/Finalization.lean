import RopeBridge.Value

/-! Actions that wait for the end of an owner. A finalizer runs once, when it is asked for and its
owner has ended; registering runs nothing. Who is still alive is for the caller to say. -/

namespace RopeBridge

abbrev FinalizerId := Nat

/-- A native buffer is known by the number of its finalizer. -/
abbrev BufferId := FinalizerId

inductive Owner where
  /-- A token in the hands of outside code. -/
  | token (id : Nat)
  | object (id : ObjectId)
  | buffer (id : BufferId)
  /-- An owner that has ended already. -/
  | gone
deriving DecidableEq, Inhabited

inductive FinalAction where
  /-- The memory of a native buffer is given back. -/
  | free
  /-- A tag is reported and further finalizers are registered. -/
  | report (tag : String) (next : List (Owner × FinalAction))
deriving Inhabited

structure Finalizer where
  id : FinalizerId
  owner : Owner
  action : FinalAction
deriving Inhabited

structure Finalization where
  /-- The finalizers that have not run, in order of registration. -/
  waiting : List Finalizer := []
  nextId : FinalizerId := 0
  /-- The finalizers that have run, in the order in which they did. -/
  ran : List FinalizerId := []
  /-- Allocations of so many bytes or more fail, for the memory that the system has left. -/
  memory : Nat := 0x4000000000000000
deriving Inhabited

namespace FinalAction

def tag? : FinalAction → Option String
  | free => none
  | report tag _ => some tag

def registers : FinalAction → List (Owner × FinalAction)
  | free => []
  | report _ next => next

end FinalAction

namespace Finalization

def pending (f : Finalization) : Nat := f.waiting.length

def finalized (f : Finalization) : Nat := f.ran.length

def register (f : Finalization) (owner : Owner) (action : FinalAction) :
    FinalizerId × Finalization :=
  (f.nextId, { f with waiting := f.waiting ++ [⟨f.nextId, owner, action⟩], nextId := f.nextId + 1 })

def perform (f : Finalization) (x : Finalizer) : Finalization :=
  x.action.registers.foldl (fun f (owner, action) => (f.register owner action).2)
    { f with ran := f.ran ++ [x.id] }

/-- Runs every finalizer whose owner has ended, and tells which. Those registered meanwhile wait for
the next time. -/
def drain (f : Finalization) (alive : Owner → Bool) : List Finalizer × Finalization :=
  let ready := f.waiting.filter fun x => !alive x.owner
  (ready, ready.foldl perform { f with waiting := f.waiting.filter fun x => alive x.owner })

def finalizeNow (f : Finalization) (alive : Owner → Bool) (id : FinalizerId) :
    Option Finalizer × Finalization :=
  match f.waiting.find? (·.id = id) with
  | none => (none, f)
  | some x =>
    if alive x.owner then (none, f)
    else (some x, perform { f with waiting := f.waiting.filter (·.id ≠ id) } x)

@[simp] theorem register_id (f : Finalization) (owner : Owner) (action : FinalAction) :
    (f.register owner action).1 = f.nextId := rfl

@[simp] theorem register_pending (f : Finalization) (owner : Owner) (action : FinalAction) :
    (f.register owner action).2.pending = f.pending + 1 := by simp [pending, register]

@[simp] theorem register_finalized (f : Finalization) (owner : Owner) (action : FinalAction) :
    (f.register owner action).2.finalized = f.finalized := rfl

end Finalization

end RopeBridge
