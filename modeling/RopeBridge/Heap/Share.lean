import RopeBridge.Heap.Basic

/-! Sharing: what native code may hand to another thread is marked as shared, together with all
that can be reached from it. The walk stops at objects that are shared already. -/

namespace RopeBridge.Heap

def isPrivate (h : Heap) (id : ObjectId) : Bool := (h.get? id).any (!·.shared)

def privateCount (h : Heap) : Nat := h.objects.countP (·.any (!·.shared))

def markShared (h : Heap) (id : ObjectId) : Heap := h.update id fun o => { o with shared := true }

theorem privateCount_markShared {h : Heap} {id : ObjectId} (p : h.isPrivate id) :
    (h.markShared id).privateCount < h.privateCount := by
  have size : id < h.objects.size := by
    apply lt_size_of_isAlive
    unfold isPrivate at p
    unfold isAlive
    cases hx : h.get? id <;> simp_all
  have here : h.objects[id].any (!·.shared) = true := by
    simpa [isPrivate, get?, Array.getElem?_eq_getElem size] using p
  have modified : (h.markShared id).objects =
      h.objects.set id (h.objects[id].map fun o => { o with shared := true }) size := by
    apply Array.ext
    · simp [markShared, update]
    · intro i h1 h2
      simp only [markShared, update, Array.getElem_modify, Array.getElem_set]
      split
      · next e => subst e; simp
      · rfl
  have after : (h.objects[id].map fun o => ({ o with shared := true } : Object)).any (!·.shared) =
      false := by
    cases h.objects[id] <;> simp
  have positive : 0 < h.privateCount :=
    Array.countP_pos_iff.2 ⟨_, Array.getElem_mem size, here⟩
  unfold privateCount at positive ⊢
  rw [modified, Array.countP_set]
  simp only [here, after, if_true, Bool.false_eq_true, if_false]
  omega

/-- Marks the given objects and all that can be reached from them through objects not shared yet.
Also counts the objects marked. -/
def shareAll (h : Heap) : List ObjectId → Nat × Heap
  | [] => (0, h)
  | id :: rest =>
    if h.isPrivate id then
      let reached := h.holds id ++ rest
      let (n, shared) := (h.markShared id).shareAll reached
      (n + 1, shared)
    else h.shareAll rest
termination_by worklist => (h.privateCount, worklist.length)
decreasing_by
  · exact Prod.Lex.left _ _ (privateCount_markShared ‹_›)
  · exact Prod.Lex.right _ (by simp)

def share (h : Heap) (v : Value) : Nat × Heap := h.shareAll v.object?.toList

end RopeBridge.Heap
