import RopeBridge.Proofs.Handle.Allocation

/-! Releasing handles. Only wrappers whose objects have died change, and only retired blocks without
a live wrapper are given up. -/
namespace RopeBridge.HandleTable

variable {t : HandleTable} {heap : Heap}

theorem getElem?_foldl_modify {α : Type} (f : α → α) (twice : ∀ a, f (f a) = f a) (l : List Nat)
    (as : Array α) (i : Nat) :
    (l.foldl (fun as j => as.modify j f) as)[i]? =
      as[i]?.map fun a => if i ∈ l then f a else a := by
  induction l generalizing as with
  | nil => simp
  | cons j rest ih =>
    rw [List.foldl_cons, ih, Array.getElem?_modify]
    by_cases here : j = i
    · subst here
      cases as[j]? <;> simp [twice]
    · simp [here, Ne.symm here]

theorem size_foldl_modify {α : Type} (f : α → α) (l : List Nat) (as : Array α) :
    (l.foldl (fun as j => as.modify j f) as).size = as.size := by
  induction l generalizing as with
  | nil => rfl
  | cons j rest ih => simp [ih]

theorem getElem?_foldl_clear (l : List Nat) (blocks : Array (Option Block)) (i : Nat) :
    ((l.foldl (fun bs j => bs.setIfInBounds j none) blocks)[i]?).join =
      if i ∈ l then none else (blocks[i]?).join := by
  induction l generalizing blocks with
  | nil => simp
  | cons j rest ih =>
    rw [List.foldl_cons, ih, Array.getElem?_setIfInBounds]
    by_cases here : j = i
    · subst here
      by_cases inside : j < blocks.size <;> simp [inside]
    · simp [here, Ne.symm here]

theorem size_foldl_clear (l : List Nat) (blocks : Array (Option Block)) :
    (l.foldl (fun bs j => bs.setIfInBounds j none) blocks).size = blocks.size := by
  induction l generalizing blocks with
  | nil => rfl
  | cons j rest ih => simp [ih]

theorem block?_releaseUnreachable (i : Nat) : (t.releaseUnreachable heap).2.block? i =
    if i ∈ t.vacated heap then none else t.block? i :=
  getElem?_foldl_clear (t.vacated heap) t.blocks i

theorem getElem?_wrappers_releaseUnreachable (w : WrapperId) :
    (t.releaseUnreachable heap).2.wrappers[w]? =
      t.wrappers[w]?.map fun x => if w ∈ t.dying heap then x.release else x :=
  getElem?_foldl_modify Wrapper.release (fun _ => rfl) (t.dying heap) t.wrappers w

theorem handle?_releaseUnreachable (w : WrapperId) :
    (t.releaseUnreachable heap).2.handle? w = t.handle? w := by
  unfold handle?
  rw [getElem?_wrappers_releaseUnreachable]
  cases t.wrappers[w]? with
  | none => rfl
  | some x =>
    show some (if w ∈ t.dying heap then x.release else x).handle = _
    split <;> rfl

/-- Only wrappers that do not resolve any more are released. -/
theorem pin?_releaseUnreachable (w : WrapperId) :
    (t.releaseUnreachable heap).2.pin? heap w = t.pin? heap w := by
  unfold pin?
  rw [getElem?_wrappers_releaseUnreachable]
  cases there : t.wrappers[w]? with
  | none => rfl
  | some x =>
    by_cases dying : w ∈ t.dying heap
    · have dead := (List.mem_filter.1 dying).2
      simp only [isDying, there, Option.any_some, Bool.and_eq_true, Bool.not_eq_true'] at dead
      simp [dying, Wrapper.release, dead.2]
    · simp [dying]

theorem isLive_releaseUnreachable (w : WrapperId) :
    (t.releaseUnreachable heap).2.isLive heap w = t.isLive heap w := by
  unfold isLive
  rw [pin?_releaseUnreachable]

theorem Arranged.mem_vacated (h : t.Arranged) {i : Nat} (member : i ∈ t.vacated heap) :
    ∃ b, t.block? i = some b ∧ t.isVacated heap b = true := by
  unfold vacated at member
  split at member
  next => exact nomatch member
  next =>
    obtain ⟨b, inside, rfl⟩ := List.mem_map.1 member
    obtain ⟨place, among, kept⟩ := List.mem_filterMap.1 inside
    obtain ⟨rfl, vacated⟩ := Option.filter_eq_some_iff.1 kept
    obtain ⟨i, found⟩ := Array.mem_iff_getElem?.1 (Array.mem_toList_iff.1 among)
    have there : t.block? i = some b := by simp [block?, found]
    have number := h.index i b there
    exact ⟨b, number ▸ there, vacated⟩

theorem Arranged.nodup_vacated (h : t.Arranged) : (t.vacated heap).Nodup := by
  unfold vacated
  split
  next => exact List.nodup_nil
  next =>
    apply List.pairwise_map.2
    apply List.pairwise_filterMap.2
    rw [List.pairwise_iff_getElem]
    intro i j insidei insidej less b kept c kept' same
    have place := (Option.filter_eq_some_iff.1 kept).1
    have place' := (Option.filter_eq_some_iff.1 kept').1
    have numberi : b.index = i := by
      apply h.index
      have found : t.blocks[i]? = some (some b) := by
        rw [← Array.getElem?_toList, List.getElem?_eq_getElem insidei, place]
      simp [block?, found]
    have numberj : c.index = j := by
      apply h.index
      have found : t.blocks[j]? = some (some c) := by
        rw [← Array.getElem?_toList, List.getElem?_eq_getElem insidej, place']
      simp [block?, found]
    omega

theorem block?_of_releaseUnreachable {i : Nat} {b : Block}
    (there : (t.releaseUnreachable heap).2.block? i = some b) : t.block? i = some b := by
  rw [block?_releaseUnreachable] at there
  split at there
  next => exact nomatch there
  next => exact there

theorem Arranged.release (h : t.Arranged) (heap : Heap) :
    (t.releaseUnreachable heap).2.Arranged := by
  have free : (t.releaseUnreachable heap).2.freeBlocks =
      (t.vacated heap).reverse ++ t.freeBlocks := List.foldl_flip_cons_eq_append'
  have size : (t.releaseUnreachable heap).2.blocks.size = t.blocks.size :=
    size_foldl_clear (t.vacated heap) t.blocks
  constructor
  case index => exact fun i b there => h.index i b (block?_of_releaseUnreachable there)
  case full => exact fun i b there => h.full i b (block?_of_releaseUnreachable there)
  case threads => exact h.threads
  case owners => exact h.owners
  case slot =>
    intro i b there k w held
    rw [handle?_releaseUnreachable]
    exact h.slot i b (block?_of_releaseUnreachable there) k w held
  case free_nodup =>
    rw [free, List.nodup_append]
    refine ⟨(List.reverse_perm _).nodup_iff.2 h.nodup_vacated, h.free_nodup, ?_⟩
    rintro i given _ gap rfl
    obtain ⟨b, there, _⟩ := h.mem_vacated (List.mem_reverse.1 given)
    exact nomatch there.symm.trans ((h.free_iff i).1 gap).2
  case free_iff =>
    intro i
    rw [free, size, block?_releaseUnreachable, List.mem_append, List.mem_reverse, h.free_iff]
    by_cases given : i ∈ t.vacated heap
    · obtain ⟨b, there, _⟩ := h.mem_vacated given
      simp [given, lt_size_of_block? there]
    · simp [given]
  case current_iff =>
    intro i
    show i ∈ t.current.map Prod.snd ↔ _
    rw [h.current_iff]
    constructor
    · rintro ⟨b, there, filling⟩
      refine ⟨b, ?_, filling⟩
      rw [block?_releaseUnreachable, if_neg, there]
      intro given
      obtain ⟨c, there', vacated⟩ := h.mem_vacated given
      rw [there] at there'
      cases there'
      simp [isVacated, filling] at vacated
    · rintro ⟨b, there, filling⟩
      exact ⟨b, block?_of_releaseUnreachable there, filling⟩

theorem Arranged.mem_slots_release (h : t.Arranged) {w : WrapperId} (live : t.isLive heap w) :
    w ∈ (t.releaseUnreachable heap).2.slots ↔ w ∈ t.slots := by
  rw [mem_slots_iff, mem_slots_iff]
  constructor
  · rintro ⟨i, b, there, held⟩
    exact ⟨i, b, block?_of_releaseUnreachable there, held⟩
  · rintro ⟨i, b, there, held⟩
    refine ⟨i, b, ?_, held⟩
    rw [block?_releaseUnreachable, if_neg, there]
    intro given
    obtain ⟨c, there', vacated⟩ := h.mem_vacated given
    rw [there] at there'
    cases there'
    unfold isVacated at vacated
    simp only [Bool.and_eq_true, Array.all_eq_true_iff_forall_mem, Bool.not_eq_true'] at vacated
    have dead := vacated.2 w held
    simp [live] at dead

end RopeBridge.HandleTable
