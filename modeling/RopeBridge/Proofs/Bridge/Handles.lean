import RopeBridge.Proofs.Bridge.Programs

/-! The handle table through all operations of a bridge, by any threads in any order. Resolving a
handle changes nothing, so it is no step. -/
namespace RopeBridge.Bridge

/-- The bridges that come about from a new one. -/
inductive Reachable (o : Options) : Bridge → Prop
  | start : Reachable o (ofOptions o)
  | wrap {b} (me : ThreadId) (v : Value) : Reachable o b → b.heap.Knows v →
    Reachable o ((wrap me v).run b).2
  | wrapperFor {b} (me : ThreadId) (v : Value) : Reachable o b → b.heap.Knows v →
    Reachable o ((wrapperFor me v).run b).2
  | retire {b} (me : ThreadId) : Reachable o b → Reachable o (b.retire me)
  | endThread {b} (me : ThreadId) : Reachable o b → Reachable o (b.endThread me)
  | runMarkers {b} (me : ThreadId) : Reachable o b → Reachable o ((runMarkers me).run b).2
  | releaseUnreachable {b} : Reachable o b → Reachable o (releaseUnreachable.run b).2
  | collect {b} (me : ThreadId) : Reachable o b → Reachable o ((collect me).run b).2
  | aside {b b'} : Reachable o b → b.Aside b' → Reachable o b'

variable {o : Options} {b : Bridge}

theorem newObject_aside (payload : Payload) (b : Bridge) :
    b.Aside ((newObject payload).run b).2 := .of_markers rfl (Heap.add_later payload) rfl

theorem Leads.extends {b' : Bridge} (leads : b.Leads b') (history : ∃ log, History o log b) :
    ∃ log, History o log b' := by
  obtain ⟨log, history⟩ := history
  exact leads.history o log history

/-- Every operation is a part of a history. -/
theorem Reachable.history (reachable : Reachable o b) : ∃ log, History o log b := by
  induction reachable with
  | start => exact ⟨[], .start⟩
  | wrap me v _ known ih => exact (wrap_goes me known).1.extends ih
  | wrapperFor me v _ known ih => exact (wrapperFor_leads me known).extends ih
  | @retire b me _ ih => exact (retire_leads me b).extends ih
  | @endThread b me _ ih => exact (endThread_leads me b).extends ih
  | runMarkers me _ ih =>
    obtain ⟨log, history⟩ := ih
    exact (runMarkers_goes me history.interned.2).1.extends ⟨log, history⟩
  | @releaseUnreachable b _ ih => exact (releaseUnreachable_leads b).extends ih
  | collect me _ ih =>
    obtain ⟨log, history⟩ := ih
    exact (collect_goes me history.interned.2).1.extends ⟨log, history⟩
  | aside _ beside ih => exact beside.leads.extends ih

/-- Whatever has happened, blocks, free numbers and current blocks are as they should be, a word is
found where it was made, and every wrapper that resolves is the one its value is found under. -/
theorem handles_sound (reachable : Reachable o b) :
    ∃ log, History o log b ∧ b.handles.Sound b.heap log := by
  obtain ⟨log, history⟩ := reachable.history
  exact ⟨log, history, history.interned.1.sound⟩

/-- An object is made and wrapped by one thread, which then ends, and collected by another. -/
theorem handles_sound_object :
    let made := ((newObject (.data "Point" 16)).run (ofOptions {})).2
    let wrapped := ((wrap 1 (.object 0)).run made).2
    ∃ log, History {} log ((collect 0).run (wrapped.endThread 1)).2 ∧
      ((collect 0).run (wrapped.endThread 1)).2.handles.Sound
        ((collect 0).run (wrapped.endThread 1)).2.heap log :=
  handles_sound (.collect 0 (.endThread 1 (.wrap 1 (.object 0)
    (.aside .start (newObject_aside (.data "Point" 16) _)) (Heap.knows_object.2 (by decide)))))

end RopeBridge.Bridge
