import Std.Data.TreeMap.Lemmas
import RopeBridge.Proofs.Handle.Release
import RopeBridge.Proofs.Heap.Later

/-! Wrappers and the values they were made for. The history of a table is the list of these values;
wrapper number `w` was made for the value at position `w`. A wrapper that resolves is in the slots
and is the one its value is found under. -/
namespace RopeBridge.HandleTable

structure Interned (t : HandleTable) (heap : Heap) (log : List Value) : Prop where
  arranged : t.Arranged
  length : t.wrappers.size = log.length
  target : ∀ (w : WrapperId) (x : Wrapper), t.wrappers[w]? = some x →
    x.target < heap.objects.size
  same : ∀ (w : WrapperId) (x : Wrapper) (id : ObjectId), t.wrappers[w]? = some x →
    log[w]? = some (.object id) → x.target = id
  entry : ∀ (k : Nat) (w : WrapperId), t.entries[k]? = some w →
    ∃ v, log[w]? = some v ∧ v.rank = k
  held : ∀ w, t.isLive heap w → w ∈ t.slots ∧ ∃ v, log[w]? = some v ∧ t.entries[v.rank]? = some w

variable {t : HandleTable} {heap heap' : Heap} {log : List Value} {v : Value}

theorem isLive_iff {w : WrapperId} : t.isLive heap w ↔
    ∃ x, t.wrappers[w]? = some x ∧ x.released = false ∧ heap.isAlive x.target := by
  unfold isLive pin?
  cases t.wrappers[w]? with
  | none => simp
  | some x => cases x.released <;> cases heap.isAlive x.target <;> simp_all

theorem interned_ofOptions (keepAlive countAllocations : Bool) (heap : Heap) :
    (ofOptions keepAlive countAllocations).Interned heap [] := by
  constructor
  case arranged => exact arranged_ofOptions keepAlive countAllocations
  case length => rfl
  case target => exact fun w x there => nomatch there
  case same => exact fun w x id there => nomatch there
  case entry =>
    intro k w there
    simp [ofOptions] at there
  case held =>
    intro w live
    obtain ⟨x, there, _⟩ := isLive_iff.1 live
    exact nomatch there

/-- What does not resolve now will not resolve later. -/
theorem Interned.live_of_later (i : t.Interned heap log) (later : heap.Later heap')
    {w : WrapperId} (live : t.isLive heap' w) : t.isLive heap w := by
  obtain ⟨x, there, unreleased, alive⟩ := isLive_iff.1 live
  have before := later.dead x.target (i.target w x there) alive
  exact isLive_iff.2 ⟨x, there, unreleased, before⟩

theorem Interned.later (i : t.Interned heap log) (later : heap.Later heap') :
    t.Interned heap' log where
  arranged := i.arranged
  length := i.length
  target := fun w x there => Nat.lt_of_lt_of_le (i.target w x there) later.size
  same := i.same
  entry := i.entry
  held := fun w live => i.held w (i.live_of_later later live)

theorem Interned.lookup_of_later (i : t.Interned heap log) (later : heap.Later heap')
    (missing : t.lookup heap v = none) : t.lookup heap' v = none := by
  unfold lookup at missing ⊢
  rw [Option.filter_eq_none_iff] at missing ⊢
  intro w there live
  exact missing w there (i.live_of_later later live)

theorem Interned.retire (i : t.Interned heap log) (thread : ThreadId) :
    (t.retireThread thread).2.Interned heap log := by
  have wrappers : (t.retireThread thread).2.wrappers = t.wrappers := retireThread_wrappers
  have entries : (t.retireThread thread).2.entries = t.entries := retireThread_entries
  constructor
  case arranged => exact retireThread_arranged i.arranged
  case length => rw [wrappers]; exact i.length
  case target => rw [wrappers]; exact i.target
  case same => rw [wrappers]; exact i.same
  case entry => rw [entries]; exact i.entry
  case held =>
    intro w live
    have before : t.isLive heap w := by rwa [isLive_iff, wrappers, ← isLive_iff] at live
    rw [entries, mem_slots_retireThread i.arranged]
    exact i.held w before

theorem Interned.release (i : t.Interned heap log) :
    (t.releaseUnreachable heap).2.Interned heap log := by
  have kept : ∀ (w : WrapperId) (x : Wrapper), (t.releaseUnreachable heap).2.wrappers[w]? = some x →
      ∃ y, t.wrappers[w]? = some y ∧ x.target = y.target := by
    intro w x there
    rw [getElem?_wrappers_releaseUnreachable] at there
    obtain ⟨y, before, rfl⟩ := Option.map_eq_some_iff.1 there
    refine ⟨y, before, ?_⟩
    split <;> rfl
  have entries : ∀ k : Nat, (t.releaseUnreachable heap).2.entries[k]? =
      t.entries[k]?.filter (t.isLive heap) := fun k => Std.TreeMap.getElem?_filter'
  constructor
  case arranged => exact i.arranged.release heap
  case length =>
    rw [← i.length]
    exact size_foldl_modify Wrapper.release (t.dying heap) t.wrappers
  case target =>
    intro w x there
    obtain ⟨y, before, target⟩ := kept w x there
    rw [target]
    exact i.target w y before
  case same =>
    intro w x id there made
    obtain ⟨y, before, target⟩ := kept w x there
    rw [target]
    exact i.same w y id before made
  case entry =>
    intro k w there
    rw [entries] at there
    exact i.entry k w (Option.filter_eq_some_iff.1 there).1
  case held =>
    intro w live
    rw [isLive_releaseUnreachable] at live
    obtain ⟨slot, v, made, found⟩ := i.held w live
    refine ⟨(i.arranged.mem_slots_release live).2 slot, v, made, ?_⟩
    rw [entries, found]
    simp [live]

theorem getElem?_enter (v : Value) (w : WrapperId) (k : Nat) :
    (t.enter v w).entries[k]? = if v.rank = k then some w else t.entries[k]? := by
  show (t.entries.insert v.rank w)[k]? = _
  simp [Std.TreeMap.getElem?_insert]

/-- Later values do not change what a wrapper was made for. -/
theorem Interned.logged (i : t.Interned heap log) {u : WrapperId} {x : Wrapper}
    (there : t.wrappers[u]? = some x) : (log ++ [v])[u]? = log[u]? := by
  have inside := (Array.getElem?_eq_some_iff.1 there).1
  exact List.getElem?_append_left (i.length ▸ inside)

/-- A wrapper made for a value that is not found is the one the value is found under. -/
theorem Interned.enter (i : t.Interned heap log) {object : ObjectId} {w : WrapperId}
    {t' : HandleTable} (a : t.Allocates object w t') (missing : t.lookup heap v = none)
    (made : object < heap.objects.size) (itself : ∀ id, v = .object id → object = id) :
    (t'.enter v w).Interned heap (log ++ [v]) := by
  have fresh : w = log.length := a.fresh.trans i.length
  constructor
  case arranged => exact a.arranged.of_eq rfl rfl rfl rfl
  case length =>
    obtain ⟨handle, wrappers⟩ := a.wrappers
    show t'.wrappers.size = _
    simp [wrappers, i.length]
  case target =>
    intro u x there
    rcases a.wrapper_cases there with ⟨_, target⟩ | ⟨_, before⟩
    · rw [target]
      exact made
    · exact i.target u x before
  case same =>
    intro u x id there logged
    rcases a.wrapper_cases there with ⟨rfl, target⟩ | ⟨_, before⟩
    · simp only [fresh, List.getElem?_concat_length, Option.some.injEq] at logged
      rw [target]
      exact itself id logged
    · rw [i.logged before] at logged
      exact i.same u x id before logged
  case entry =>
    intro k u there
    rw [getElem?_enter, a.entries] at there
    split at there
    next here =>
      cases there
      exact ⟨v, by simp [fresh], here⟩
    next =>
      obtain ⟨v', logged, rank⟩ := i.entry k u there
      have inside := (List.getElem?_eq_some_iff.1 logged).1
      exact ⟨v', (List.getElem?_append_left inside).trans logged, rank⟩
  case held =>
    intro u live
    obtain ⟨x, there, unreleased, alive⟩ := isLive_iff.1 live
    rcases a.wrapper_cases there with ⟨rfl, _⟩ | ⟨other, before⟩
    · refine ⟨(a.slots u).2 (.inl rfl), v, by simp [fresh], ?_⟩
      rw [getElem?_enter, if_pos rfl]
    · have wasLive := isLive_iff.2 ⟨x, before, unreleased, alive⟩
      obtain ⟨slot, v', logged, found⟩ := i.held u wasLive
      refine ⟨(a.slots u).2 (.inr slot), v', (i.logged before).trans logged, ?_⟩
      rw [getElem?_enter, a.entries, if_neg, found]
      intro same
      rw [← same] at found
      unfold lookup at missing
      simp [found, wasLive] at missing

end RopeBridge.HandleTable
