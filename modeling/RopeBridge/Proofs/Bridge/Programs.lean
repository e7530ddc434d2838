import RopeBridge.Proofs.Bridge.History

/-! The operations of a bridge as steps of its history. Exposing, retiring and releasing are single
steps; marker runs and collections take many, whatever the markers do. -/
namespace RopeBridge.Bridge

/-- From a bridge with a history to another one, with nothing that was known forgotten. -/
structure Leads (b b' : Bridge) : Prop where
  history : ∀ o log, History o log b → ∃ log', History o log' b'
  later : b.heap.Later b'.heap
  closed : b.Closed → b'.Closed

variable {b b' b'' : Bridge} {α β : Type}

theorem Leads.refl (b : Bridge) : b.Leads b := by
  constructor
  · intro o log history
    exact ⟨log, history⟩
  · exact .refl _
  · exact id

theorem Leads.trans (first : b.Leads b') (second : b'.Leads b'') : b.Leads b'' := by
  constructor
  · intro o log history
    obtain ⟨log', history'⟩ := first.history o log history
    exact second.history o log' history'
  · exact first.later.trans second.later
  · intro closed
    exact second.closed (first.closed closed)

theorem Aside.leads (beside : b.Aside b') : b.Leads b' where
  history := fun _ log history => ⟨log, history.aside beside⟩
  later := beside.heap
  closed := beside.closed

theorem leads_of_eq (handles : b'.handles = b.handles) (heap : b'.heap = b.heap)
    (markers : b'.marking.markers = b.marking.markers) : b.Leads b' :=
  (Aside.of_markers handles (heap ▸ .refl _) markers).leads

theorem wrapperFor_leads (me : ThreadId) {v : Value} (known : b.heap.Knows v) :
    b.Leads ((wrapperFor me v).run b).2 where
  history := fun _ _ history => ⟨_, history.expose me v known⟩
  later := wrapperFor_later me b v
  closed := fun closed => closed_of_later closed (wrapperFor_later me b v) (wrapperFor_markers me b v)

theorem retire_leads (me : ThreadId) (b : Bridge) : b.Leads (b.retire me) := by
  have later : b.heap.Later (b.retire me).heap := retire_heap me b ▸ .refl _
  constructor
  · intro o log history
    exact ⟨log, history.retire me⟩
  · exact later
  · intro closed
    exact closed_of_later closed later (retire_markers me b)

theorem releaseUnreachable_leads (b : Bridge) : b.Leads (releaseUnreachable.run b).2 where
  history := fun _ log history => ⟨log, history.release⟩
  later := .refl _
  closed := fun closed => ⟨closed.heap, closed.scripts⟩

theorem endThread_leads (me : ThreadId) (b : Bridge) : b.Leads (b.endThread me) :=
  (retire_leads me b).trans (leads_of_eq rfl rfl rfl)

theorem settle_aside (b : Bridge) : b.Aside b.settle :=
  .of_markers rfl (Heap.settle_later _) rfl

/-- What a program does is part of a history, and its answer and the bridge it leaves are fine. -/
def Goes (b : Bridge) (x : StateM Bridge α) (Q : α → Bridge → Prop) : Prop :=
  b.Leads (x.run b).2 ∧ Q (x.run b).1 (x.run b).2

variable {x : StateM Bridge α} {f : α → StateM Bridge β} {Q : α → Bridge → Prop}
  {R : β → Bridge → Prop}

theorem Goes.pure {a : α} (fine : Q a b) : Goes b (pure a) Q := ⟨.refl b, fine⟩

theorem Goes.bind (first : Goes b x Q)
    (next : ∀ a b', b.Leads b' → Q a b' → Goes b' (f a) R) : Goes b (x >>= f) R := by
  obtain ⟨leads, fine⟩ := first
  obtain ⟨further, result⟩ := next _ _ leads fine
  exact ⟨leads.trans further, result⟩

theorem Goes.look {f : Bridge → StateM Bridge β} (next : Goes b (f b) R) :
    Goes b (get >>= f) R := next

theorem Goes.change {g : Bridge → Bridge} {f : PUnit → StateM Bridge β} (leads : b.Leads (g b))
    (next : ∀ b', b.Leads b' → Goes b' (f ⟨⟩) R) : Goes b (modify g >>= f) R := by
  obtain ⟨further, result⟩ := next (g b) leads
  exact ⟨leads.trans further, result⟩

theorem Goes.mono {Q' : α → Bridge → Prop} (goes : Goes b x Q)
    (weaker : ∀ a b', b.Leads b' → Q a b' → Q' a b') : Goes b x Q' :=
  ⟨goes.1, weaker _ _ goes.1 goes.2⟩

section

/- Programs that may fail for a reason. -/
variable {ε : Type} {y : ExceptT ε (StateM Bridge) α} {g : α → ExceptT ε (StateM Bridge) β}
  {S : Except ε α → Bridge → Prop} {T : Except ε β → Bridge → Prop}

theorem Goes.attempt (first : Goes b y.run S)
    (next : ∀ a b', b.Leads b' → S (.ok a) b' → Goes b' (g a).run T)
    (failed : ∀ e b', S (.error e) b' → T (.error e) b') : Goes b (y >>= g).run T := by
  have split : ∀ result b', b.Leads b' → S result b' →
      Goes b' (ExceptT.bindCont g result) T := by
    intro result b' leads fine
    cases result with
    | ok a => exact next a b' leads fine
    | error e => exact .pure (failed e b' fine)
  exact .bind first split

theorem Goes.lift (goes : Goes b x fun a b' => S (.ok a) b') :
    Goes b (liftM x : ExceptT ε (StateM Bridge) α).run S := goes

end

theorem wrapperFor_goes (me : ThreadId) {v : Value} (known : b.heap.Knows v) :
    Goes b (wrapperFor me v) fun _ _ => True := ⟨wrapperFor_leads me known, trivial⟩

theorem wrap_goes (me : ThreadId) {v : Value} (known : b.heap.Knows v) :
    Goes b (wrap me v) fun _ _ => True := by
  unfold wrap
  cases Handle.ofImmediate? v with
  | some h => exact .pure trivial
  | none => exact .bind (wrapperFor_goes me known) fun _ _ _ _ => .look (.pure trivial)

end RopeBridge.Bridge

namespace RopeBridge

/-- What a session has marked and what it found marked is known. -/
def MarkSession.Known (s : MarkSession) (heap : Heap) : Prop :=
  ∀ v ∈ s.previous ++ s.marks, heap.Knows v

namespace Bridge

variable {b : Bridge} {s : MarkSession}

theorem known_later {heap heap' : Heap} (known : s.Known heap) (later : heap.Later heap') :
    s.Known heap' := fun v member => later.knows (known v member)

theorem mark_known (known : s.Known b.heap) (h : Handle) : (mark s h b).Known b.heap := by
  unfold mark MarkSession.add
  split
  · exact known
  · split
    · exact known
    next id found =>
      intro v member
      rw [← List.append_assoc, List.mem_append, List.mem_singleton] at member
      rcases member with before | rfl
      · exact known v before
      · obtain ⟨w, _, pinned⟩ := Option.bind_eq_some_iff.1 found
        obtain ⟨x, _, kept⟩ := Option.bind_eq_some_iff.1 pinned
        split at kept
        · exact nomatch kept
        next alive =>
          cases kept
          apply Heap.knows_object.2
          apply Heap.lt_size_of_isAlive
          simp only [not_or, Bool.not_eq_true, Bool.not_eq_false'] at alive
          exact alive.2

theorem markValue_goes (me : ThreadId) (known : s.Known b.heap) {v : Value}
    (named : b.heap.Knows v) : Goes b (markValue me s v) fun s' b' => s'.Known b'.heap := by
  refine .bind (wrap_goes me named) fun h b' leads _ => .look (.pure ?_)
  exact mark_known (known_later known leads.later) h

/-- How an act of a marker ends: if it does not fail, what the session has is known. -/
def Ends (result : Except String MarkSession) (b : Bridge) : Prop :=
  ∀ s, result = .ok s → s.Known b.heap

theorem ends_ok (known : s.Known b.heap) : Ends (.ok s) b := by
  rintro _ ⟨⟩
  exact known

theorem ends_error {reason : String} : Ends (.error reason) b := fun _ same => nomatch same

theorem markValues_goes (me : ThreadId) (known : s.Known b.heap) {vs : List Value}
    (named : ∀ v ∈ vs, b.heap.Knows v) :
    Goes b (vs.foldlM (fun s v => markValue me s v) s : ExceptT String (StateM Bridge) _).run
      Ends := by
  induction vs generalizing b s with
  | nil => exact .pure (ends_ok known)
  | cons v rest ih =>
    rw [List.foldlM_cons]
    have first : Goes b (liftM (markValue me s v) : ExceptT String (StateM Bridge) _).run Ends := by
      apply Goes.lift
      exact (markValue_goes me known (named v List.mem_cons_self)).mono fun _ _ _ => ends_ok
    refine .attempt first (fun s' b' leads ends => ?_) fun _ _ _ => ends_error
    apply ih (ends s' rfl)
    intro v member
    exact leads.later.knows (named v (List.mem_cons_of_mem _ member))

theorem keepObject_markers (m : Marking) (v : Value) : (m.keepObject v).markers = m.markers := by
  unfold Marking.keepObject
  dsimp only
  split <;> rfl

theorem perform_goes (me : ThreadId) (owner : ObjectId) (known : s.Known b.heap) {act : MarkAct}
    (named : ∀ v ∈ act.values, b.heap.Knows v) : Goes b (perform me owner s act).run Ends := by
  cases act with
  | pointer => exact .pure (ends_ok (mark_known known _))
  | handle h => exact .pure (ends_ok (mark_known known h))
  | value v =>
    have goes := markValue_goes me known (named v (by simp [MarkAct.values]))
    exact Goes.lift (goes.mono fun _ _ _ => ends_ok)
  | previous =>
    exact markValues_goes me known fun v member => known v (List.mem_append_left _ member)
  | wrap v =>
    have goes := wrap_goes me (named v (by simp [MarkAct.values]))
    refine .bind goes fun _ b' leads _ => .pure ?_
    exact ends_ok (known_later known leads.later)
  | keep v => exact ⟨leads_of_eq rfl rfl (keepObject_markers _ _), ends_ok known⟩
  | queue vs => exact ⟨leads_of_eq rfl rfl rfl, ends_ok known⟩
  | fail reason => exact .pure ends_error

theorem performAll_goes (me : ThreadId) (owner : ObjectId) (known : s.Known b.heap)
    {script : List MarkAct} (named : b.heap.KnowsScript script) :
    Goes b (performAll me owner s script) fun r b' => r.1.Known b'.heap := by
  induction script generalizing b s with
  | nil => exact .pure known
  | cons act rest ih =>
    have first := perform_goes me owner known (named act List.mem_cons_self)
    refine .bind first fun result b' leads ends => ?_
    cases result with
    | ok s' =>
      apply ih (ends s' rfl)
      intro act member
      exact leads.later.knowsScript named act (List.mem_cons_of_mem _ member)
    | error reason => exact .pure (known_later known leads.later)

theorem runMarker_goes (me : ThreadId) (closed : b.Closed) {m : Marker}
    (named : b.heap.KnowsScript m.script) :
    Goes b (runMarker me m) fun _ _ => True := by
  have before : (⟨(b.heap.get? m.owner).elim [] (·.marked), [], []⟩ : MarkSession).Known b.heap := by
    intro v member
    simp only [List.append_nil] at member
    cases there : b.heap.get? m.owner with
    | none => simp [there] at member
    | some o => exact closed.heap m.owner o there v (by simpa [there] using member)
  refine .look (.bind (performAll_goes me m.owner before named) fun r b' _ known => ?_)
  obtain ⟨s, failure⟩ := r
  cases failure with
  | some reason => exact .pure trivial
  | none =>
    have marks : ∀ v ∈ s.marks, b'.heap.Knows v := fun v member =>
      known v (List.mem_append_right _ member)
    have beside : b'.Aside { b' with heap := b'.heap.setMarked m.owner s.marks } :=
      .of_markers rfl (Heap.setMarked_later m.owner marks) rfl
    exact ⟨beside.leads.trans (settle_aside _).leads, trivial⟩

theorem runMarker_all_goes (me : ThreadId) (closed : b.Closed) {markers : List Marker}
    (named : ∀ m ∈ markers, b.heap.KnowsScript m.script) :
    Goes b (markers.mapM (runMarker me)) fun _ _ => True := by
  induction markers generalizing b with
  | nil => exact .pure trivial
  | cons m rest ih =>
    rw [List.mapM_cons]
    refine .bind (runMarker_goes me closed (named m List.mem_cons_self)) fun _ b' leads _ => ?_
    have named' : ∀ m ∈ rest, b'.heap.KnowsScript m.script := fun m member =>
      leads.later.knowsScript (named m (List.mem_cons_of_mem _ member))
    exact .bind (ih (leads.closed closed) named') fun _ _ _ _ => .pure trivial

/-- Dropping markers drops no others and lets objects die. -/
theorem dropDeadMarkers_spec (kept rest : List Marker) (b : Bridge) :
    (b.dropDeadMarkers kept rest).handles = b.handles ∧
      b.heap.Later (b.dropDeadMarkers kept rest).heap ∧
      (b.dropDeadMarkers kept rest).marking.markers ⊆ kept ++ rest := by
  induction rest generalizing kept b with
  | nil => exact ⟨rfl, .refl _, by simp [dropDeadMarkers]⟩
  | cons m rest ih =>
    unfold dropDeadMarkers
    split
    · simpa using ih (kept ++ [m]) b
    · obtain ⟨handles, later, markers⟩ := ih kept
        (settle { b with marking := { b.marking with markers := kept ++ rest } })
      refine ⟨handles, (Heap.settle_later _).trans later, fun m' member => ?_⟩
      have one := markers member
      rw [List.mem_append] at one ⊢
      exact one.imp id (List.mem_cons_of_mem _)

theorem dropDeadMarkers_aside (b : Bridge) :
    b.Aside (b.dropDeadMarkers [] b.marking.markers) := by
  obtain ⟨handles, later, markers⟩ := dropDeadMarkers_spec [] b.marking.markers b
  refine ⟨handles, later, fun closed => ⟨later.closed closed.heap, ?_⟩⟩
  intro m member
  exact later.knowsScript (closed.scripts m (markers member))

theorem runMarkers_goes (me : ThreadId) (closed : b.Closed) :
    Goes b (runMarkers me) fun _ _ => True := by
  refine .look (.change (leads_of_eq rfl rfl rfl) fun b₁ toQueue => ?_)
  refine .change (dropDeadMarkers_aside b₁).leads fun b₂ toLive => .look ?_
  have closed := toLive.closed (toQueue.closed closed)
  refine .change (leads_of_eq rfl rfl rfl) fun b₃ toFrame => ?_
  have named : ∀ m ∈ b₂.liveMarkers, b₃.heap.KnowsScript m.script := fun m member =>
    toFrame.later.knowsScript (closed.scripts m (List.mem_filter.1 member).1)
  refine .bind (runMarker_all_goes me (toFrame.closed closed) named) fun _ b₄ _ _ => ?_
  refine .change (.trans ?_ (settle_aside _).leads) fun _ _ => .pure trivial
  exact leads_of_eq rfl rfl rfl

theorem collect_goes (me : ThreadId) (closed : b.Closed) :
    Goes b (collect me) fun _ _ => True := by
  refine .bind (runMarkers_goes me closed) fun _ b₁ _ _ => ?_
  have released : Goes b₁ releaseUnreachable fun _ _ => True := ⟨releaseUnreachable_leads b₁, trivial⟩
  refine .bind released fun _ b₂ _ _ => ?_
  have drained : Goes b₂ drain fun _ _ => True := ⟨leads_of_eq rfl rfl rfl, trivial⟩
  exact .bind drained fun _ _ _ _ => .pure trivial

end Bridge

end RopeBridge
