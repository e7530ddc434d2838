import RopeBridge.Proofs.Handle.Interned

/-! What a handle stands for. A word is found at the slot it was made of, and two wrappers that
resolve share neither their words nor their values. -/
namespace RopeBridge

namespace Handle

/-- The region begins where a block could, so a word tells its block and slot apart. -/
theorem ofSlot_block?_slot {h : Handle} {block : Nat} (found : h.block? = some block) :
    ofSlot block h.slot = h := by
  unfold Handle.block? at found
  split at found
  next inside =>
    obtain ⟨object, start⟩ := inside
    cases found
    have aligned : h.word.toNat % 8 = 0 := by
      simp only [isObject, Bool.and_eq_true, decide_eq_true_eq] at object
      exact object.2
    have word : regionStart + blockBytes * ((h.word.toNat - regionStart) / blockBytes) +
        8 * (h.word.toNat % blockBytes / 8) = h.word.toNat := by
      simp only [regionStart, blockBytes, slotsPerBlock] at start ⊢
      omega
    show Handle.mk (UInt64.ofNat (_ + 8 * (h.word.toNat % blockBytes / 8))) = h
    rw [word, UInt64.ofNat_toNat]
  next => exact nomatch found

theorem ofSlot_injective {i j k l n : Nat} (fits : regionStart + blockBytes * n ≤ UInt64.size)
    (insidei : i < n) (insidej : j < n) (insidek : k < slotsPerBlock) (insidel : l < slotsPerBlock)
    (same : ofSlot i k = ofSlot j l) : i = j ∧ k = l := by
  have words := congrArg (·.word.toNat) same
  simp only [ofSlot, UInt64.toNat_ofNat'] at words
  simp only [regionStart, blockBytes, slotsPerBlock, UInt64.size] at fits insidek insidel words
  omega

end Handle

namespace HandleTable

/-- The blocks taken so far fit into the region. Each of them stands for as many bytes of memory as
it takes of the region. -/
def InRegion (t : HandleTable) : Prop :=
  Handle.regionStart + Handle.blockBytes * t.blocks.size ≤ UInt64.size

instance (t : HandleTable) : Decidable t.InRegion := inferInstanceAs (Decidable (_ ≤ _))

/-- A table whose wrappers were made for the values of a history. -/
structure Sound (t : HandleTable) (heap : Heap) (log : List Value) : Prop where
  arranged : t.Arranged
  /-- A word is only found to be that of the wrapper made with it. -/
  found : ∀ h w, t.wrapperAt? h = some w → t.handle? w = some h
  /-- A wrapper that resolves is in a slot and under the value it was made for. -/
  live : ∀ w, t.isLive heap w → w ∈ t.slots ∧ ∃ v, log[w]? = some v ∧ t.entries[v.rank]? = some w
  key : ∀ (k : Nat) (w : WrapperId), t.entries[k]? = some w → ∃ v, log[w]? = some v ∧ v.rank = k
  keys_distinct : ∀ w w', t.isLive heap w → t.isLive heap w' → log[w]? = log[w']? → w = w'
  handles_distinct : t.InRegion → ∀ w w', t.isLive heap w → t.isLive heap w' →
    t.handle? w = t.handle? w' → w = w'

variable {t : HandleTable} {heap : Heap} {log : List Value}

theorem Arranged.found (h : t.Arranged) {handle : Handle} {w : WrapperId}
    (found : t.wrapperAt? handle = some w) : t.handle? w = some handle := by
  obtain ⟨i, place, inside⟩ := Option.bind_eq_some_iff.1 found
  obtain ⟨b, there, held⟩ := Option.bind_eq_some_iff.1 inside
  rw [h.slot i b there handle.slot w held, Handle.ofSlot_block?_slot place]

theorem Arranged.handle?_of_mem_slots (h : t.Arranged) {w : WrapperId} (member : w ∈ t.slots) :
    ∃ i b k, t.block? i = some b ∧ b.wrappers[k]? = some w ∧ i < t.blocks.size ∧
      k < Handle.slotsPerBlock ∧ t.handle? w = some (.ofSlot i k) := by
  obtain ⟨i, b, there, held⟩ := mem_slots_iff.1 member
  obtain ⟨k, slot⟩ := Array.mem_iff_getElem?.1 held
  have inside := (Array.getElem?_eq_some_iff.1 slot).1
  have full := h.full i b there
  exact ⟨i, b, k, there, slot, lt_size_of_block? there, Nat.lt_of_lt_of_le inside full,
    h.slot i b there k w slot⟩

/-- Within the region a word belongs to one slot. -/
theorem Arranged.handle?_injective (h : t.Arranged) (fits : t.InRegion) {w w' : WrapperId}
    (member : w ∈ t.slots) (member' : w' ∈ t.slots) (same : t.handle? w = t.handle? w') :
    w = w' := by
  obtain ⟨i, b, k, there, slot, insidei, insidek, handle⟩ := h.handle?_of_mem_slots member
  obtain ⟨j, c, l, there', slot', insidej, insidel, handle'⟩ := h.handle?_of_mem_slots member'
  rw [handle, handle'] at same
  obtain ⟨rfl, rfl⟩ :=
    Handle.ofSlot_injective fits insidei insidej insidek insidel (Option.some.inj same)
  rw [there] at there'
  cases there'
  exact Option.some.inj (slot.symm.trans slot')

theorem Interned.sound (i : t.Interned heap log) : t.Sound heap log where
  arranged := i.arranged
  found := fun _ _ found => i.arranged.found found
  live := i.held
  key := i.entry
  keys_distinct := by
    intro w w' live live' same
    obtain ⟨_, v, made, found⟩ := i.held w live
    obtain ⟨_, v', made', found'⟩ := i.held w' live'
    rw [made, made'] at same
    cases same
    exact Option.some.inj (found.symm.trans found')
  handles_distinct := fun fits w w' live live' same =>
    i.arranged.handle?_injective fits (i.held w live).1 (i.held w' live').1 same

end HandleTable

end RopeBridge
