import RopeBridge.Proofs.Handle.Sweep
import RopeBridge.Proofs.System.Permanence

/-! The account of handles. What a release answers is what it takes away, so over a run the handles
given out are those that releases have answered for, those that are live, and those whose objects
have died since. -/
namespace RopeBridge

namespace Bridge

variable {b b' : Bridge} {log : List Value} {me : ThreadId} {v : Value} {h : Handle}
  {es : List Event}

theorem Touches.census (touches : b.Touches b') (f : b.handles.Faithful b.heap log)
    (census : b.handles.Census) : b'.handles.Census := by
  cases touches with
  | edited _ handles => rwa [handles]
  | marked _ _ handles => rwa [handles]
  | @entered me v object w told t _ _ _ _ allocates handles =>
    have entered := census.enter f.arranged me object v w
    rw [allocates] at entered
    rwa [handles]
  | @retired me _ handles =>
    rw [handles]
    exact census.retire f.arranged me
  | released _ handles =>
    rw [handles]
    exact census.release

/-- Handles are counted when they are given out, and none has been released. -/
structure Balanced (b b' : Bridge) : Prop where
  counts : b'.handles.countAllocations = b.handles.countAllocations
  balance : b.handles.countAllocations = true →
    b'.handles.allocations + b.handles.outstanding =
      b.handles.allocations + b'.handles.outstanding

theorem Balanced.of_handles (handles : b'.handles = b.handles) : b.Balanced b' where
  counts := by rw [handles]
  balance := fun _ => by rw [handles]

theorem Wraps.balanced (wraps : b.Wraps me v h b') (arranged : b.handles.Arranged) :
    b.Balanced b' := by
  cases wraps with
  | word _ => exact .of_handles rfl
  | found _ _ => exact .of_handles rfl
  | @entered object heap w told t _ _ _ allocates =>
    obtain ⟨allocations, counts⟩ := b.handles.allocate_counts me object
    have outstanding := HandleTable.outstanding_allocate arranged me object
    rw [allocates] at allocations counts outstanding
    refine ⟨counts, fun counted => ?_⟩
    rw [if_pos counted] at allocations
    dsimp only at allocations outstanding
    show t.allocations + b.handles.outstanding = b.handles.allocations + t.outstanding
    omega

theorem retire_balanced (me : ThreadId) (arranged : b.handles.Arranged) :
    b.Balanced (b.retire me) := by
  obtain ⟨allocations, counts⟩ := b.handles.retireThread_counts me
  have outstanding := HandleTable.outstanding_retireThread arranged me
  rw [← retire_handles] at allocations counts outstanding
  exact ⟨counts, fun _ => by rw [allocations, outstanding]⟩

/-- An act releases handles, or keeps the balance. -/
theorem Act.balanced (act : b.Act es b') (arranged : b.handles.Arranged) :
    b' = (releaseUnreachable.run b).2 ∨ b.Balanced b' := by
  cases act with
  | release => exact .inl rfl
  | beside beside => exact .inr (.of_handles beside.handles)
  | wrap me v _ => exact .inr ((wrap_wraps me v b).balanced arranged)
  | retire me => exact .inr (retire_balanced me arranged)
  | setMarked owner vs _ => exact .inr (.of_handles rfl)
  | addMarker m _ => exact .inr (.of_handles rfl)
  | enqueue vs _ => exact .inr (.of_handles rfl)
  | keepObject v _ => exact .inr (.of_handles rfl)
  | push me block _ => exact .inr (.of_handles rfl)
  | keepInFrame me v _ => exact .inr (.of_handles rfl)
  | pop me => exact .inr (.of_handles rfl)
  | clear me => exact .inr (.of_handles rfl)

/-- What a release answers and leaves. -/
structure Sweeps (b : Bridge) (n : Nat) (b' : Bridge) : Prop where
  /-- The answer is how many wrappers in blocks stood for objects that have died, and these are
  released and no others. -/
  counted : {w | b.handles.Unswept b.heap w}.encard = n
  released : ∀ w, b.handles.Unswept b.heap w →
    b'.handles.wrappers[w]? = b.handles.wrappers[w]?.map Wrapper.release
  unreleased : ∀ w, ¬ b.handles.Unswept b.heap w →
    b'.handles.wrappers[w]? = b.handles.wrappers[w]?
  /-- The entries that do not resolve are gone. -/
  entries : ∀ (k : Nat) (w : WrapperId), b'.handles.entries[k]? = some w ↔
    b.handles.entries[k]? = some w ∧ b.handles.isLive b.heap w
  /-- The blocks that can be given up are, each once, -/
  free : ∃ given : List Nat, given.Nodup ∧ (∀ i, i ∈ given ↔ b.handles.Vacant b.heap i) ∧
    b'.handles.freeBlocks = given ++ b.handles.freeBlocks
  blocks : ∀ i c, b'.handles.block? i = some c ↔
    b.handles.block? i = some c ∧ ¬ b.handles.Vacant b.heap i
  /-- and none of them is one that a thread fills. -/
  filling : ∀ i ∈ b.handles.filling, ¬ b.handles.Vacant b.heap i
  current : b'.handles.current = b.handles.current
  rest : b' = { b with handles := b'.handles }
  /-- The table tells as many values as handles. -/
  stats : (b'.handles.stats b'.heap).liveWrappers = (b'.handles.stats b'.heap).liveHandles
  /-- To release again answers zero and changes nothing: the entries are the same. -/
  again : ∃ entries : Std.TreeMap Nat WrapperId, entries.Equiv b'.handles.entries ∧
    releaseUnreachable.run b' = (0, { b' with handles.entries := entries })

theorem run_releaseUnreachable {n : Nat} {t : HandleTable}
    (sweep : b.handles.releaseUnreachable b.heap = (n, t)) :
    releaseUnreachable.run b = (n, { b with handles := t }) := by
  show ((b.handles.releaseUnreachable b.heap).1,
    { b with handles := (b.handles.releaseUnreachable b.heap).2 }) = _
  rw [sweep]

theorem sweeps (f : b.handles.Faithful b.heap log) (c : b.handles.Census) :
    b.Sweeps (releaseUnreachable.run b).1 (releaseUnreachable.run b).2 where
  counted := c.encard_unswept b.heap
  released := by
    intro w unswept
    refine HandleTable.getElem?_wrappers_releaseUnreachable w |>.trans ?_
    simp only [HandleTable.mem_dying_iff.2 unswept, if_true]
  unreleased := by
    intro w swept
    refine HandleTable.getElem?_wrappers_releaseUnreachable w |>.trans ?_
    simp only [mt HandleTable.mem_dying_iff.1 swept, if_false, Option.map_id']
  entries := fun _ _ => HandleTable.getElem?_entries_releaseUnreachable
  free := by
    refine ⟨(b.handles.vacated b.heap).reverse, ?_, fun i => ?_,
      HandleTable.freeBlocks_releaseUnreachable⟩
    · exact (List.reverse_perm _).nodup_iff.2 f.arranged.nodup_vacated
    · rw [List.mem_reverse, HandleTable.mem_vacated_iff f.arranged c]
  blocks := fun _ _ => HandleTable.block?_releaseUnreachable_iff f.arranged c
  filling := fun _ => f.arranged.not_vacant
  current := rfl
  rest := rfl
  stats := by
    apply f.release.toInterned.size_entries c.release
    intro k w there
    rw [HandleTable.isLive_releaseUnreachable]
    exact (HandleTable.getElem?_entries_releaseUnreachable.1 there).2
  again := by
    obtain ⟨entries, same, again⟩ :=
      HandleTable.releaseUnreachable_again f.arranged c b.heap
    exact ⟨entries, same, run_releaseUnreachable again⟩

end Bridge

namespace System

open Bridge

variable {s s' : System} {es : List Event} {o : Options} {ns : List Nat}

theorem Move.census (move : s.Move es s') (sound : s.Sound o) (census : s.bridge.handles.Census) :
    s'.bridge.handles.Census := by
  obtain ⟨log, faithful⟩ := sound.faithful
  rcases move.touches sound with touches | rfl
  · exact touches.census faithful census
  · exact census

theorem Reachable.census (reachable : Reachable o s) : s.bridge.handles.Census := by
  obtain ⟨es, run⟩ := reachable
  induction run with
  | refl => exact HandleTable.census_ofOptions _ _
  | step before move ih => exact move.census (before.sound (sound_ofOptions o)) ih

/-- The system after a release. -/
def released (s : System) : System := { s with bridge := (releaseUnreachable.run s.bridge).2 }

theorem Move.balanced (move : s.Move es s') (sound : s.Sound o) :
    s' = s.released ∨ s.bridge.Balanced s'.bridge := by
  cases move with
  | act act =>
    rcases act.balanced sound.arranged with rfl | balanced
    · exact .inl rfl
    · exact .inr balanced
  | settle => exact .inr (.of_handles rfl)
  | start _ _ => exact .inr (.of_handles rfl)
  | drop _ _ _ _ _ _ => exact .inr (.of_handles rfl)
  | enter _ => exact .inr (.of_handles rfl)
  | begin _ => exact .inr (.of_handles rfl)
  | mark _ _ => exact .inr (.of_handles rfl)
  | finish _ => exact .inr (.of_handles rfl)
  | fail _ => exact .inr (.of_handles rfl)
  | leave _ => exact .inr (.of_handles rfl)

/-- A run with the answers of its releases, in order. A move that leads where a release leads is
taken for one. -/
inductive Tally (o : Options) : List Nat → System → Prop
  | start : Tally o [] (ofOptions o)
  | release {ns : List Nat} {s : System} : Tally o ns s →
    Tally o (ns ++ [(releaseUnreachable.run s.bridge).1]) s.released
  | move {ns : List Nat} {s s' : System} {es : List Event} : Tally o ns s → s.Move es s' →
    s' ≠ s.released → Tally o ns s'

theorem Tally.reachable (tally : Tally o ns s) : Reachable o s := by
  induction tally with
  | start => exact ⟨_, .refl⟩
  | release _ ih => exact ih.run (.of_move (.act .release))
  | move _ move _ ih => exact ih.run (.of_move move)

theorem Reachable.tally (reachable : Reachable o s) : ∃ ns, Tally o ns s := by
  obtain ⟨es, run⟩ := reachable
  induction run with
  | refl => exact ⟨[], .start⟩
  | @step _ _ s s' before move ih =>
    obtain ⟨ns, tally⟩ := ih
    -- a move does not say which call made it, so releases are told by where they lead
    by_cases released : s' = s.released
    · exact ⟨_, released ▸ tally.release⟩
    · exact ⟨ns, tally.move move released⟩

theorem Tally.countAllocations (tally : Tally o ns s) :
    s.bridge.handles.countAllocations = o.countAllocations := by
  induction tally with
  | start => rfl
  | release _ ih => exact ih
  | move before move elsewhere ih =>
    exact ((move.balanced before.reachable.sound).resolve_left elsewhere).counts.trans ih

/-- Every handle given out has been answered for, or is outstanding. -/
theorem Tally.allocations (tally : Tally o ns s) (counted : o.countAllocations = true) :
    s.bridge.handles.allocations = ns.sum + s.bridge.handles.outstanding := by
  induction tally with
  | start => rfl
  | @release ns s before ih =>
    have taken := HandleTable.outstanding_releaseUnreachable
      before.reachable.sound.arranged before.reachable.census s.bridge.heap
    show s.bridge.handles.allocations = (ns ++ [_]).sum + _
    rw [List.sum_append, List.sum_singleton, ih, ← taken]
    show _ = ns.sum + (s.bridge.handles.releaseUnreachable s.bridge.heap).1 +
      (s.bridge.handles.releaseUnreachable s.bridge.heap).2.outstanding
    omega
  | move before move elsewhere ih =>
    have balanced := (move.balanced before.reachable.sound).resolve_left elsewhere
    have balance := balanced.balance (before.countAllocations.trans counted)
    omega

/-- A release is exact: it answers for the wrappers that it takes away, gives up the blocks that it
can, and has nothing to do a second time. Over any run with allocations counted, the handles given
out are those answered for, those live, and those dead and not yet swept. -/
theorem release_accounts (o : Options) :
    (∀ s, Reachable o s → ∀ n b', releaseUnreachable.run s.bridge = (n, b') →
      s.bridge.Sweeps n b') ∧
    (∀ s, Reachable o s → ∃ ns, Tally o ns s) ∧
    ∀ ns s, Tally o ns s → o.countAllocations = true →
      ∃ dead : Nat, {w | s.bridge.handles.Unswept s.bridge.heap w}.encard = dead ∧
        (s.bridge.handles.stats s.bridge.heap).allocations =
          ns.sum + (s.bridge.handles.stats s.bridge.heap).liveHandles + dead := by
  refine ⟨fun s reachable n b' run => ?_, fun s reachable => reachable.tally,
    fun ns s tally counted => ?_⟩
  · obtain ⟨log, faithful⟩ := reachable.sound.faithful
    have sweeps := s.bridge.sweeps faithful reachable.census
    rwa [run] at sweeps
  · refine ⟨_, tally.reachable.census.encard_unswept s.bridge.heap, ?_⟩
    show s.bridge.handles.allocations = _
    rw [tally.allocations counted, HandleTable.outstanding_eq _ s.bridge.heap]
    exact (Nat.add_assoc _ _ _).symm

/-- The box of a float dies once its thread has retired its block and a marker run has taken the
queue over. It is one handle given out, and one answered for. -/
theorem release_accounts_box : ∃ s, Tally { countAllocations := true } [] s ∧
    s.bridge.Sweeps 1 s.released.bridge ∧ Tally { countAllocations := true } [1] s.released ∧
      ∃ dead : Nat, {w | s.released.bridge.handles.Unswept s.released.bridge.heap w}.encard = dead ∧
        (s.released.bridge.handles.stats s.released.bridge.heap).allocations =
          [1].sum + (s.released.bridge.handles.stats s.released.bridge.heap).liveHandles +
            dead := by
  let o : Options := { countAllocations := true }
  obtain ⟨ran, before, heap, roots, dying⟩ : ∃ ran : System, Tally o [] ran ∧
      ran.bridge.heap = ⟨#[some { payload := .boxed (.float 0x401a000000000000) }]⟩ ∧
      ran.roots = [] ∧ ran.bridge.handles.dying ⟨#[none]⟩ = [0] := by
    let boxed : System := { bridge := ((wrap 0 (.float 0x401a000000000000)).run (.ofOptions o)).2 }
    let retired : System := { boxed with bridge := boxed.bridge.retire 0 }
    refine ⟨⟨(retired.bridge.takeQueue.enterRun 0 []).leaveRun 0 [], .idle⟩, ?_, rfl,
      by decide +kernel, by decide +kernel⟩
    have wrapped : Tally o [] boxed := by
      apply Tally.move .start
        (.act (.wrap 0 (.float 0x401a000000000000) fun _ object => nomatch object))
      exact fun same => absurd (congrArg (·.bridge.heap.objects.size) same) (by decide +kernel)
    have retires : Tally o [] retired := by
      apply wrapped.move (.act (.retire 0))
      exact fun same => absurd (congrArg (·.bridge.handles.current.length) same) (by decide +kernel)
    have starts : Tally o [] ⟨retired.bridge.takeQueue, .sorting 0⟩ :=
      retires.move (.start 0 rfl) fun same => nomatch congrArg (·.progress) same
    have enters : Tally o [] ⟨retired.bridge.takeQueue.enterRun 0 [], .marking 0 [] none⟩ :=
      starts.move (.enter rfl) fun same => nomatch congrArg (·.progress) same
    exact enters.move (.leave rfl) fun same => nomatch congrArg (·.progress) same
  have dies : ran.bridge.heap.settle ran.roots = ⟨#[none]⟩ := by
    rw [heap, roots, Heap.settle, Heap.settle]
    rfl
  let s : System := { ran with bridge.heap := ran.bridge.heap.settle ran.roots }
  have tally : Tally o [] s := by
    apply before.move .settle
    intro same
    have heaps : ran.bridge.heap.settle ran.roots = ran.bridge.heap :=
      congrArg (·.bridge.heap) same
    rw [dies, heap] at heaps
    cases heaps
  have answer : (releaseUnreachable.run s.bridge).1 = 1 := by
    show (ran.bridge.handles.dying (ran.bridge.heap.settle ran.roots)).length = 1
    rw [dies, dying]
    rfl
  have accounts := release_accounts o
  have sweeps := accounts.1 s tally.reachable 1 s.released.bridge (Prod.ext answer rfl)
  have released := tally.release
  rw [answer] at released
  exact ⟨s, tally, sweeps, released, accounts.2.2 _ _ released rfl⟩

end System

end RopeBridge
