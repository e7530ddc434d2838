import RopeBridge.Proofs.Heap.Sharing

/-! How sharing comes to its end. Round by round one of the objects that wait is visited; which one
makes no difference. What is going to be shared is known from the start: all that private paths lead
to. -/
namespace RopeBridge.Heap

/-- A path from one object to another that leads over private objects only, the ends included. -/
inductive PrivatePath (h : Heap) (root : ObjectId) : ObjectId → Prop
  | start : h.isPrivate root → PrivatePath h root root
  | step {id other : ObjectId} : PrivatePath h root id → other ∈ h.holds id → h.isPrivate other →
    PrivatePath h root other

/-- What is to be shared for the sake of objects that wait to be visited. -/
def Due (h : Heap) (waiting : List ObjectId) (id : ObjectId) : Prop :=
  ∃ root ∈ waiting, h.PrivatePath root id

/-- A walk on its way: how many objects it has shared, and which wait to be visited. -/
structure Walk where
  count : Nat
  heap : Heap
  waiting : List ObjectId

namespace Walk

def start (h : Heap) (v : Value) : Walk := ⟨0, h, v.object?.toList⟩

/-- One of the objects that wait is visited. -/
inductive Round : Walk → Walk → Prop
  | enter {n : Nat} {h : Heap} {waiting rest : List ObjectId} {id : ObjectId} :
    waiting.Perm (id :: rest) → h.isPrivate id →
    Round ⟨n, h, waiting⟩ ⟨n + 1, h.markShared id, h.holds id ++ rest⟩
  | pass {n : Nat} {h : Heap} {waiting rest : List ObjectId} {id : ObjectId} :
    waiting.Perm (id :: rest) → h.isPrivate id = false → Round ⟨n, h, waiting⟩ ⟨n, h, rest⟩

abbrev Rounds : Walk → Walk → Prop := Relation.ReflTransGen Round

/-- What a walk comes to: all that is due is shared, and nothing else has changed. -/
structure Outcome (w : Walk) (n : Nat) (h : Heap) : Prop where
  size : h.objects.size = w.heap.objects.size
  due : ∀ id, w.heap.Due w.waiting id →
    h.get? id = (w.heap.get? id).map fun o => { o with shared := true }
  other : ∀ id, ¬ w.heap.Due w.waiting id → h.get? id = w.heap.get? id
  count : ∃ ids : List ObjectId, ids.Nodup ∧ w.count + ids.length = n ∧
    ∀ id, id ∈ ids ↔ w.heap.Due w.waiting id

end Walk

variable {h h' : Heap} {root id other first : ObjectId} {v : Value}

theorem isPrivate_markShared :
    (h.markShared first).isPrivate id ↔ h.isPrivate id ∧ first ≠ id := by
  unfold isPrivate markShared
  rw [get?_update]
  by_cases same : first = id
  · cases h.get? id <;> simp [same]
  · simp [same]

namespace PrivatePath

theorem isPrivate (path : h.PrivatePath root id) : h.isPrivate id := by
  cases path with
  | start isPrivate => exact isPrivate
  | step _ _ isPrivate => exact isPrivate

theorem isPrivate_root (path : h.PrivatePath root id) : h.isPrivate root := by
  induction path with
  | start isPrivate => exact isPrivate
  | step _ _ _ ih => exact ih

/-- A path may begin one object earlier. -/
theorem head (isPrivate : h.isPrivate first) (held : root ∈ h.holds first)
    (path : h.PrivatePath root id) : h.PrivatePath first id := by
  induction path with
  | start isPrivate' => exact .step (.start isPrivate) held isPrivate'
  | step _ held' isPrivate' ih => exact .step ih held' isPrivate'

theorem of_markShared (path : (h.markShared first).PrivatePath root id) : h.PrivatePath root id := by
  induction path with
  | start isPrivate => exact .start (isPrivate_markShared.1 isPrivate).1
  | step _ held isPrivate ih =>
    rw [holds_markShared] at held
    exact .step ih held (isPrivate_markShared.1 isPrivate).1

/-- A path that ends elsewhere avoids an object, or leads on from one that the object holds. -/
theorem avoid (path : h.PrivatePath root id) (apart : first ≠ id) :
    (h.markShared first).PrivatePath root id ∨
      ∃ child ∈ h.holds first, (h.markShared first).PrivatePath child id := by
  induction path with
  | start isPrivate => exact .inl (.start (isPrivate_markShared.2 ⟨isPrivate, apart⟩))
  | @step id other _ held isPrivate ih =>
    have isPrivate' := isPrivate_markShared.2 ⟨isPrivate, apart⟩
    by_cases here : first = id
    · subst here
      exact .inr ⟨other, held, .start isPrivate'⟩
    · have held : other ∈ (h.markShared first).holds id := by rwa [holds_markShared]
      rcases ih here with path | ⟨child, member, path⟩
      · exact .inl (path.step held isPrivate')
      · exact .inr ⟨child, member, path.step held isPrivate'⟩

end PrivatePath

section

variable {waiting rest : List ObjectId}

/-- What is due in a round is due after it, but for the object that the round has shared. -/
theorem due_enter (taken : waiting.Perm (first :: rest)) (isPrivate : h.isPrivate first) :
    h.Due waiting id ↔ first = id ∨ (h.markShared first).Due (h.holds first ++ rest) id := by
  constructor
  · rintro ⟨root, member, path⟩
    by_cases here : first = id
    · exact .inl here
    · refine .inr ?_
      rcases path.avoid here with path' | ⟨child, held, path'⟩
      · rcases List.mem_cons.1 (taken.subset member) with rfl | later
        · exact absurd rfl (isPrivate_markShared.1 path'.isPrivate_root).2
        · exact ⟨root, List.mem_append_right _ later, path'⟩
      · exact ⟨child, List.mem_append_left _ held, path'⟩
  · rintro (rfl | ⟨root, member, path⟩)
    · exact ⟨first, taken.symm.subset List.mem_cons_self, .start isPrivate⟩
    · have path' := path.of_markShared
      rcases List.mem_append.1 member with held | later
      · exact ⟨first, taken.symm.subset List.mem_cons_self, path'.head isPrivate held⟩
      · exact ⟨root, taken.symm.subset (List.mem_cons_of_mem _ later), path'⟩

theorem due_pass (taken : waiting.Perm (first :: rest)) (visited : h.isPrivate first = false) :
    h.Due waiting id ↔ h.Due rest id := by
  constructor
  · rintro ⟨root, member, path⟩
    rcases List.mem_cons.1 (taken.subset member) with rfl | later
    · simp [path.isPrivate_root] at visited
    · exact ⟨root, later, path⟩
  · rintro ⟨root, member, path⟩
    exact ⟨root, taken.symm.subset (List.mem_cons_of_mem _ member), path⟩

theorem Due.isPrivate (due : h.Due waiting id) : h.isPrivate id := by
  obtain ⟨_, _, path⟩ := due
  exact path.isPrivate

theorem Due.ne_of_markShared (due : (h.markShared first).Due waiting id) : first ≠ id :=
  (isPrivate_markShared.1 due.isPrivate).2

end

namespace Walk

variable {w w' : Walk} {n n' : Nat}

theorem outcome_done (done : w.waiting = []) : w.Outcome w.count w.heap := by
  have none : ∀ id, ¬ w.heap.Due w.waiting id := by
    rintro id ⟨root, member, _⟩
    rw [done] at member
    exact nomatch member
  refine ⟨rfl, fun id due => absurd due (none id), fun _ _ => rfl, [], List.nodup_nil, rfl, ?_⟩
  exact fun id => iff_of_false List.not_mem_nil (none id)

/-- A round leaves the outcome as it is. -/
theorem Round.outcome (round : Round w w') (outcome : w'.Outcome n h') : w.Outcome n h' := by
  obtain ⟨size, due, other, ids, distinct, count, members⟩ := outcome
  cases round with
  | @enter n₀ h waiting rest first taken isPrivate =>
    have split {id : ObjectId} : h.Due waiting id ↔
        first = id ∨ (h.markShared first).Due (h.holds first ++ rest) id :=
      due_enter taken isPrivate
    have get (id : ObjectId) : (h.markShared first).get? id =
        if first = id then (h.get? id).map fun o => { o with shared := true } else h.get? id :=
      get?_update ..
    refine ⟨?_, fun id isDue => ?_, fun id isOther => ?_, first :: ids, ?_, ?_, fun id => ?_⟩
    · simpa [markShared, update] using size
    · by_cases later : (h.markShared first).Due (h.holds first ++ rest) id
      · rw [due id later, get, if_neg later.ne_of_markShared]
      · rw [other id later, get, if_pos ((split.1 isDue).resolve_right later)]
    · rw [split, not_or] at isOther
      rw [other id isOther.2, get, if_neg isOther.1]
    · refine List.nodup_cons.2 ⟨fun member => ?_, distinct⟩
      exact ((members first).1 member).ne_of_markShared rfl
    · rw [← count]
      show n₀ + (ids.length + 1) = n₀ + 1 + ids.length
      omega
    · rw [List.mem_cons, members, split, eq_comm]
  | pass taken visited =>
    have same {id : ObjectId} : _ ↔ Heap.Due _ _ id := due_pass taken visited
    refine ⟨size, fun id isDue => due id (same.1 isDue),
      fun id isOther => other id (mt same.2 isOther), ids, distinct, count, fun id => ?_⟩
    exact (members id).trans same.symm

theorem Rounds.outcome (rounds : w.Rounds w') (done : w'.waiting = []) :
    w.Outcome w'.count w'.heap := by
  induction rounds using Relation.ReflTransGen.head_induction_on with
  | refl => exact outcome_done done
  | head round _ ih => exact round.outcome ih

/-- There is one outcome at most. -/
theorem Outcome.unique (first : w.Outcome n h) (second : w.Outcome n' h') : n = n' ∧ h = h' := by
  obtain ⟨ids, distinct, count, members⟩ := first.count
  obtain ⟨ids', distinct', count', members'⟩ := second.count
  have same := (List.perm_ext_iff_of_nodup distinct distinct').2 fun id =>
    (members id).trans (members' id).symm
  refine ⟨by rw [← count, ← count', same.length_eq], ?_⟩
  have get (id : ObjectId) : h.get? id = h'.get? id := by
    by_cases due : w.heap.Due w.waiting id
    · rw [first.due id due, second.due id due]
    · rw [first.other id due, second.other id due]
  have size := first.size.trans second.size.symm
  obtain ⟨objects⟩ := h
  obtain ⟨objects'⟩ := h'
  congr 1
  refine Array.ext size fun i inside inside' => ?_
  simpa [get?, inside, inside'] using get i

/-- A round shares an object or leaves one fewer to wait. -/
theorem Round.lower (round : Round w w') : Prod.Lex (· < ·) (· < ·)
    (w'.heap.privateCount, w'.waiting.length) (w.heap.privateCount, w.waiting.length) := by
  cases round with
  | enter _ isPrivate => exact .left _ _ (privateCount_markShared isPrivate)
  | pass taken _ =>
    refine .right _ ?_
    rw [taken.length_eq]
    exact Nat.lt_succ_self _

/-- The rounds of a walk come to an end, whatever they visit first. -/
theorem acc (w : Walk) : Acc (fun w' w => Round w w') w := by
  have ends := InvImage.wf (fun w : Walk => (w.heap.privateCount, w.waiting.length))
    (Prod.lex Nat.lt_wfRel Nat.lt_wfRel).wf
  have lower : Subrelation (fun w' w => Round w w') _ := fun round => Round.lower round
  exact (Subrelation.wf lower ends).apply w

/-- The walk that takes up what an object holds first is one of the ways to go. -/
theorem rounds_shareAll (n : Nat) (h : Heap) (waiting : List ObjectId) :
    Rounds ⟨n, h, waiting⟩ ⟨n + (h.shareAll waiting).1, (h.shareAll waiting).2, []⟩ := by
  fun_induction shareAll h waiting generalizing n with
  | case1 h => exact .refl
  | case2 h first rest isPrivate reached m shared made ih =>
    rw [made] at ih
    have round := Round.enter (n := n) (List.Perm.refl (first :: rest)) isPrivate
    have later := ih (n + 1)
    rw [Nat.add_right_comm] at later
    exact .head round later
  | case3 h first rest visited ih =>
    have round := Round.pass (n := n) (List.Perm.refl (first :: rest)) (by simpa using visited)
    exact .head round (ih n)

theorem Outcome.isShared_iff (outcome : w.Outcome n h') :
    h'.isShared id ↔ w.heap.isShared id ∨ w.heap.Due w.waiting id := by
  unfold isShared
  by_cases due : w.heap.Due w.waiting id
  · obtain ⟨o, there, _⟩ := isPrivate_iff.1 due.isPrivate
    simp [outcome.due id due, there, due]
  · simp [outcome.other id due, due]

theorem Outcome.due_iff (outcome : w.Outcome n h') :
    w.heap.Due w.waiting id ↔ w.heap.isPrivate id ∧ h'.isShared id := by
  rw [outcome.isShared_iff]
  constructor
  · intro due
    exact ⟨due.isPrivate, .inr due⟩
  · rintro ⟨isPrivate, isShared | due⟩
    · simp [(isShared_iff_isAlive.1 isShared).2] at isPrivate
    · exact due

/-- Only the flag of an object can have changed. -/
theorem Outcome.get? (outcome : w.Outcome n h') :
    h'.get? id = (w.heap.get? id).map fun o => { o with shared := h'.isShared id } := by
  by_cases due : w.heap.Due w.waiting id
  · rw [outcome.due id due, outcome.isShared_iff.2 (.inr due)]
  · have same := outcome.other id due
    unfold isShared
    rw [same]
    cases w.heap.get? id <;> rfl

end Walk

/-- What sharing a value comes to: how many objects it shares, and the heap that it leaves. -/
structure Shares (h : Heap) (v : Value) (n : Nat) (h' : Heap) : Prop where
  /-- There is no walk without end, -/
  stops : Acc (fun w' w => Walk.Round w w') (.start h v)
  /-- and all ways to walk come to the same. -/
  ends : ∀ n₁ h₁, (Walk.start h v).Rounds ⟨n₁, h₁, []⟩ ↔ n₁ = n ∧ h₁ = h'
  flags : ∀ id, h'.isShared id ↔
    h.isShared id ∨ ∃ root, v.object? = some root ∧ h.PrivatePath root id
  size : h'.objects.size = h.objects.size
  frame : ∀ id, h'.get? id = (h.get? id).map fun o => { o with shared := h'.isShared id }
  count : ∃ ids : List ObjectId, ids.Nodup ∧ ids.length = n ∧
    ∀ id, id ∈ ids ↔ h.isPrivate id ∧ h'.isShared id
  again : h'.share v = (0, h')
  closed : h.Sealed → h'.Sealed ∧ h'.Exposed v

theorem due_start : h.Due v.object?.toList id ↔
    ∃ root, v.object? = some root ∧ h.PrivatePath root id := by
  simp [Due]

/-- A value none of whose objects is private is not walked. -/
theorem share_of_not_private (visited : ∀ id, v.object? = some id → h.isPrivate id = false) :
    h.share v = (0, h) := by
  unfold share
  cases object : v.object? with
  | none => rw [Option.toList_none, shareAll]
  | some id => rw [Option.toList_some, shareAll, if_neg (by simp [visited id object]), shareAll]

/-- Sharing a value shares what private paths lead to from it, and nothing else. -/
theorem share_shares (whole : h.Whole) (has : h.Has v) :
    h.Shares v (h.share v).1 (h.share v).2 := by
  have rounds : (Walk.start h v).Rounds ⟨(h.share v).1, (h.share v).2, []⟩ := by
    have all := Walk.rounds_shareAll 0 h v.object?.toList
    rwa [Nat.zero_add] at all
  have outcome := rounds.outcome rfl
  have flags (id : ObjectId) : (h.share v).2.isShared id ↔
      h.isShared id ∨ ∃ root, v.object? = some root ∧ h.PrivatePath root id := by
    rw [← due_start]
    exact outcome.isShared_iff
  obtain ⟨ids, distinct, count, members⟩ := outcome.count
  have length : 0 + ids.length = (h.share v).1 := count
  refine ⟨Walk.acc _, fun n₁ h₁ => ?_, flags, outcome.size, fun id => outcome.get?,
    ⟨ids, distinct, ?_, fun id => (members id).trans outcome.due_iff⟩, ?_, fun seals => ?_⟩
  · constructor
    · intro other
      exact (other.outcome rfl).unique outcome
    · rintro ⟨rfl, rfl⟩
      exact rounds
  · omega
  · refine share_of_not_private fun id object => ?_
    exact (isShared_iff_isAlive.1 (isShared_share object (has id object))).2
  · have seals' := seals.share whole v
    exact ⟨seals', seals'.exposed fun id object => isShared_share object (has id object)⟩

/-- An array that holds another array, itself and a shared one, which holds a private one. -/
def knot (shared : Bool) : Heap :=
  ⟨#[some ⟨.array #[.object 1, .object 0, .object 2], shared, []⟩,
    some ⟨.array #[], shared, [.object 0]⟩,
    some ⟨.array #[.object 3], true, []⟩,
    some ⟨.array #[], false, []⟩]⟩

/-- The array and the one it holds get shared, and the one behind the shared array does not. -/
theorem knot_shares : (knot false).Whole ∧ (knot false).Has (.object 0) ∧
    (knot false).Shares (.object 0) 2 (knot true) ∧ (knot true).isShared 3 = false := by
  have whole : (knot false).Whole := by
    intro id o there v member
    have one : v = .object 0 ∨ v = .object 1 ∨ v = .object 2 ∨ v = .object 3 := by
      match id with
      | 0 | 1 | 2 | 3 =>
        cases there
        simp [Object.children, Object.elements] at member <;> grind
      | id + 4 => cases there
    rcases one with rfl | rfl | rfl | rfl <;> exact has_object.2 rfl
  have has : (knot false).Has (.object 0) := has_object.2 rfl
  have shares := share_shares whole has
  have rounds : (Walk.start (knot false) (.object 0)).Rounds ⟨2, knot true, []⟩ := by
    refine .head (.enter (.refl _) rfl) (.head (.enter (.refl _) rfl) ?_)
    refine .head (.pass (.refl _) rfl) (.head (.pass (.refl _) rfl) ?_)
    exact .head (.pass (.refl _) rfl) .refl
  obtain ⟨count, heap⟩ := (shares.ends _ _).1 rounds
  rw [← count, ← heap] at shares
  exact ⟨whole, has, shares, rfl⟩

end RopeBridge.Heap
