import RopeBridge.Proofs.Handle.Census

/-! What a release takes away and what it leaves. The blocks given up are those that can be; after
it the entries are the live wrappers in blocks, and there is nothing left to release. -/
namespace RopeBridge.HandleTable

variable {t : HandleTable} {heap : Heap} {i : Nat} {w : WrapperId} {log : List Value}

/-- A block that can be given up: it is retired and no wrapper in it is live. Where handles are kept
alive there is none. -/
def Vacant (t : HandleTable) (heap : Heap) (i : Nat) : Prop :=
  t.keepAlive = false ∧
    ∃ b, t.block? i = some b ∧ b.retired = true ∧ ∀ w ∈ b.wrappers, t.isLive heap w = false

theorem mem_vacated_iff (h : t.Arranged) (c : t.Census) : i ∈ t.vacated heap ↔ t.Vacant heap i := by
  constructor
  · intro member
    have off : t.keepAlive = false := by
      cases keep : t.keepAlive with
      | false => rfl
      | true => simp [vacated, keep] at member
    obtain ⟨b, there, vacated⟩ := h.mem_vacated member
    simp only [isVacated, Bool.and_eq_true, Array.all_eq_true_iff_forall_mem,
      Bool.not_eq_true'] at vacated
    exact ⟨off, b, there, vacated.1.1, vacated.2⟩
  · rintro ⟨off, b, there, retired, dead⟩
    have vacated : t.isVacated heap b = true := by
      simp only [isVacated, Bool.and_eq_true, Array.all_eq_true_iff_forall_mem, Bool.not_eq_true']
      exact ⟨⟨retired, by simp [c.let_go off i b there retired]⟩, dead⟩
    simp only [HandleTable.vacated, off, Bool.false_eq_true, if_false, List.mem_map,
      List.mem_filterMap]
    have place := List.mem_of_getElem? (getElem?_of_block? there)
    exact ⟨b, ⟨some b, place, by simp [vacated]⟩, h.index i b there⟩

/-- A block that a thread fills is not retired. -/
theorem Arranged.not_vacant (h : t.Arranged) (filled : i ∈ t.filling) : ¬ t.Vacant heap i := by
  rintro ⟨_, b, there, retired, _⟩
  obtain ⟨b', there', filling⟩ := (h.current_iff i).1 filled
  cases there.symm.trans there'
  simp [filling] at retired

theorem freeBlocks_releaseUnreachable : (t.releaseUnreachable heap).2.freeBlocks =
    (t.vacated heap).reverse ++ t.freeBlocks := List.foldl_flip_cons_eq_append'

theorem getElem?_entries_releaseUnreachable {k : Nat} :
    (t.releaseUnreachable heap).2.entries[k]? = some w ↔
      t.entries[k]? = some w ∧ t.isLive heap w := by
  have filtered : (t.releaseUnreachable heap).2.entries[k]? =
      t.entries[k]?.filter (t.isLive heap) := Std.TreeMap.getElem?_filter'
  rw [filtered, Option.filter_eq_some_iff]

theorem block?_releaseUnreachable_iff (h : t.Arranged) (c : t.Census) {b : Block} :
    (t.releaseUnreachable heap).2.block? i = some b ↔
      t.block? i = some b ∧ ¬ t.Vacant heap i := by
  rw [block?_releaseUnreachable, ← mem_vacated_iff h c]
  split
  next vacant => simp [vacant]
  next vacant => simp [vacant]

/-- Once the vacant blocks have been given up there are none left. -/
theorem vacated_releaseUnreachable (h : t.Arranged) (c : t.Census) :
    (t.releaseUnreachable heap).2.vacated heap = [] := by
  refine List.eq_nil_iff_forall_not_mem.2 fun i member => ?_
  obtain ⟨off, b, there, retired, dead⟩ := (mem_vacated_iff (h.release heap) c.release).1 member
  obtain ⟨before, kept⟩ := (block?_releaseUnreachable_iff h c).1 there
  refine kept ⟨off, b, before, retired, fun w inside => ?_⟩
  rw [← isLive_releaseUnreachable]
  exact dead w inside

theorem releaseUnreachable_of_nothing (dying : t.dying heap = []) (vacated : t.vacated heap = []) :
    t.releaseUnreachable heap =
      (0, { t with entries := t.entries.filter fun _ w => t.isLive heap w }) := by
  unfold releaseUnreachable
  rw [dying, vacated]
  rfl

/-- A second release finds nothing, and the entries it keeps are all that there are. -/
theorem releaseUnreachable_again (h : t.Arranged) (c : t.Census) (heap : Heap) :
    ∃ entries, entries.Equiv (t.releaseUnreachable heap).2.entries ∧
      (t.releaseUnreachable heap).2.releaseUnreachable heap =
        (0, { (t.releaseUnreachable heap).2 with entries }) := by
  refine ⟨_, ?_, releaseUnreachable_of_nothing dying_releaseUnreachable
    (vacated_releaseUnreachable h c)⟩
  apply Std.TreeMap.filter_equiv_self_iff.2
  intro k inside
  rw [isLive_releaseUnreachable]
  exact (getElem?_entries_releaseUnreachable.1 (Std.TreeMap.getElem?_eq_some_getElem inside)).2

end RopeBridge.HandleTable
