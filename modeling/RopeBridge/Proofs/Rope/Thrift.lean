import RopeBridge.Rope.Render
import RopeBridge.Proofs.Rope.Scanning

/-! No pass is made twice, over every run. Whatever a client does with its ropes and asks about
them, each node is scanned once at most and flattened once at most, however many ropes it is a part
of, and what has become known of a node stays as it is. New nodes begin without a pass, and nothing
but questions makes one. -/
namespace RopeBridge

open Rope (Within Closed)

namespace Ledger

variable {l l' l'' : Ledger} {nodes : List Rope}

/-- Whatever was known is known still, nodes have no second pass made over them, and there are no
passes but over the nodes. -/
structure Kept (nodes : List Rope) (l l' : Ledger) : Prop where
  grows : ∀ id, (l.entry id).Grows (l'.entry id)
  idle : ∀ id, (∀ n ∈ nodes, n.id ≠ id) → ∀ w, l'.times w id = l.times w id
  flattened : ∀ n ∈ nodes, l.FlattenedOnce n → l'.FlattenedOnce n
  scanned : ∀ n ∈ nodes, l.ScannedOnce n → l'.ScannedOnce n

namespace Kept

theorem refl (l : Ledger) : Kept nodes l l :=
  ⟨fun _ => .refl _, fun _ _ _ => rfl, fun _ _ => id, fun _ _ => id⟩

theorem trans (h : Kept nodes l l') (h' : Kept nodes l' l'') : Kept nodes l l'' where
  grows id := (h.grows id).trans (h'.grows id)
  idle id other w := (h'.idle id other w).trans (h.idle id other w)
  flattened n known once := h'.flattened n known (h.flattened n known once)
  scanned n known once := h'.scanned n known (h.scanned n known once)

/-- Where no pass is made, it is enough to lose nothing. -/
theorem ofGrows (grows : ∀ id, (l.entry id).Grows (l'.entry id)) (same : l'.log = l.log) :
    Kept nodes l l' := by
  have times (w : Work) (id : NodeId) : l'.times w id = l.times w id := by simp [times, same]
  have scans (id : NodeId) : l'.scans id = l.scans id := by simp [scans, times]
  exact ⟨grows, fun id _ w => times w id, fun n _ once => once.grow (grows _) (times _ _),
    fun n _ once => once.grow (grows _) (scans _)⟩

theorem update {id : NodeId} {f : Entry → Entry} (grows : (l.entry id).Grows (f (l.entry id))) :
    Kept nodes l (l.update id f) := by
  refine .ofGrows (fun other => ?_) rfl
  by_cases own : other = id
  · subst own
    by_cases inside : other < l.entries.size
    · rwa [l.entry_update_self f inside]
    · simpa [entry, Ledger.update, inside] using Entry.Grows.refl _
  · simpa [l.entry_update_of_ne f own] using Entry.Grows.refl _

theorem add (e : Entry) : Kept nodes l (l.add e).2 := by
  refine .ofGrows (fun id => ?_) rfl
  rw [entry_add]
  split
  next fresh =>
    subst fresh
    have nothing : l.entry l.entries.size = {} := by simp [entry]
    rw [nothing]
    constructor <;> simp [CodeRange.isKnown]
  next => exact .refl _

end Kept

/-- Work on some of the nodes. -/
theorem Later.kept {T : Rope → Prop} (h : Later nodes T l l') : Kept nodes l l' where
  grows := h.grows
  idle id other := by
    rcases h.touches id with same | ⟨n, known, _, number⟩
    · exact same.times
    · exact absurd number (other n known)
  flattened := h.flattened
  scanned := h.scanned

end Ledger

open Ledger (Kept)

variable {nodes : List Rope} {α β : Type}

/-- A question after which nothing is lost and no pass has been made twice. -/
abbrev Query.Keeps (nodes : List Rope) (q : Query α) : Prop :=
  Does .bounded nodes (Kept nodes) q fun _ => True

/-- The making of a rope after which nothing is lost and no pass has been made twice. -/
abbrev Build.Keeps (nodes : List Rope) (b : Build α) : Prop :=
  Query.Along .bounded nodes (Kept nodes) b.run

namespace Query

variable {q : Query α} {f : α → Query β}

theorem Keeps.pure (a : α) : Keeps nodes (Pure.pure a) := Does.pure Kept.refl trivial

theorem Keeps.bind (first : Keeps nodes q) (rest : ∀ a, Keeps nodes (f a)) :
    Keeps nodes (q >>= f) := Does.bind first (fun a _ => rest a) Kept.trans

theorem Answers.keeps {P : α → Prop} (answers : Answers .bounded nodes q P)
    (along : Along .bounded nodes (Kept nodes) q) : Keeps nodes q :=
  ⟨answers.mono fun _ _ => trivial, along⟩

end Query

namespace Build

variable {q : Query α} {b : Build α} {f : α → Build β}

theorem Keeps.pure (a : α) : Keeps nodes (Pure.pure a : Build α) := Query.Along.pure Kept.refl _

theorem Keeps.throw (fault : Fault) : Keeps nodes (throw fault : Build α) :=
  Query.Along.pure Kept.refl _

theorem Keeps.fail (fault : Fault) :
    Keeps nodes ((MonadExcept.throw fault : Build α) >>= f) := Query.Along.pure Kept.refl _

theorem Keeps.lift (h : Query.Along .bounded nodes (Kept nodes) q) :
    Keeps nodes (liftM q : Build α) := h

theorem Keeps.ask (first : Query.Keeps nodes q) (rest : ∀ a, Keeps nodes (f a)) :
    Keeps nodes ((liftM q : Build α) >>= f) :=
  Query.Along.bind first.answers first.along (fun a _ => rest a) Kept.trans

theorem Keeps.map {g : α → β} (first : Keeps nodes b) : Keeps nodes (do return g (← b)) := by
  intro l fits
  have kept := first l fits
  rw [ExceptT.run_bind, StateT.run_bind]
  generalize StateT.run b.run l = ran at kept ⊢
  obtain ⟨result, l'⟩ := ran
  cases result <;> exact kept

/-- A program that makes no node, in front of another one. -/
theorem Keeps.bind (makes : b.Makes .bounded nodes fun more _ => more = nodes)
    (first : Keeps nodes b) (rest : ∀ a, Keeps nodes (f a)) : Keeps nodes (b >>= f) := by
  intro l fits
  obtain ⟨_, _, fits', rfl⟩ := makes l fits
  have kept := first l fits
  rw [ExceptT.run_bind, StateT.run_bind]
  generalize StateT.run b.run l = ran at kept fits' ⊢
  obtain ⟨result, l'⟩ := ran
  cases result with
  | ok a => exact kept.trans (rest a l' fits')
  | error fault => exact kept

end Build

namespace Rope

variable {r a b : Rope}

theorem bytes_keeps (known : r ∈ nodes) : r.bytes.Keeps nodes :=
  (bytes_answers known).keeps ((bytes_reads known).mono (·.later.kept))

theorem codeRange_keeps (known : r ∈ nodes) : r.codeRange.Keeps nodes :=
  (codeRange_answers Reading.bounded_lawful known).keeps ((codeRange_later known).mono (·.kept))

theorem characterLength_keeps (known : r ∈ nodes) : r.characterLength.Keeps nodes :=
  (characterLength_answers Reading.bounded_lawful known).keeps
    ((characterLength_later known).mono (·.kept))

theorem isAsciiOnly_keeps (known : r ∈ nodes) : r.isAsciiOnly.Keeps nodes :=
  (codeRange_keeps known).bind fun _ => .pure _

theorem entry_keeps (known : r ∈ nodes) : (Query.entry r.id).Keeps nodes :=
  (Query.answers_entry known).keeps fun l _ => .refl l

theorem knownCodeRange_keeps (known : r ∈ nodes) : r.knownCodeRange.Keeps nodes :=
  (entry_keeps known).bind fun _ => .pure _

theorem knownCharacterLength_keeps (known : r ∈ nodes) : r.knownCharacterLength.Keeps nodes :=
  (entry_keeps known).bind fun _ => .pure _

theorem hashCode_keeps (known : r ∈ nodes) : r.hashCode.Keeps nodes := by
  have hashed : Query.Along .bounded nodes (Kept nodes) (do
      let h := contentHash r.encoding (← r.bytes)
      Query.update r.id fun e => { e with hash := some h }
      return h) := by
    refine .bind (bytes_answers known) (bytes_keeps known).along (fun bytes same => ?_) Kept.trans
    subst same
    exact fun l fits => .update (Entry.grows_keepHash (fits.entry r known).hash)
  refine (hashCode_answers known).keeps ?_
  unfold hashCode
  refine .entry fun l fits => ?_
  split
  next => exact .refl l
  next => exact hashed l fits

theorem equal_keeps (knowna : a ∈ nodes) (knownb : b ∈ nodes) : (a.equal b).Keeps nodes := by
  have compared : Query.Keeps nodes (do return (← a.bytes) == (← b.bytes)) :=
    (bytes_keeps knowna).bind fun _ => (bytes_keeps knownb).bind fun _ => .pure _
  unfold equal
  split
  next => exact .pure _
  next =>
    split
    next => exact .pure _
    next =>
      refine (entry_keeps knowna).bind fun x => (entry_keeps knownb).bind fun y => ?_
      split
      next =>
        dsimp only
        split
        next => exact .pure _
        next => exact compared
      next => exact compared

theorem compatibleEncoding_keeps (knowna : a ∈ nodes) (knownb : b ∈ nodes) :
    (compatibleEncoding a b).Keeps nodes := by
  unfold compatibleEncoding
  repeat' split
  all_goals first
    | exact .pure _
    | skip
  refine (isAsciiOnly_keeps knownb).bind fun _ => ?_
  split
  next => exact .pure _
  next =>
    refine (isAsciiOnly_keeps knowna).bind fun _ => ?_
    split <;> exact .pure _

theorem outline_keeps (known : r ∈ nodes) : r.outline.Keeps nodes := by
  suffices kept : Closed nodes → r.outline.Keeps nodes from
    ⟨.closed fun closed => (kept closed).answers, .closed fun closed => (kept closed).along⟩
  intro closed
  induction r with
  | leaf n bytes =>
    rw [outline]
    exact ((bytes_keeps known).bind fun _ => .pure _).bind fun _ => .pure _
  | joined n left right ihl ihr =>
    rw [outline]
    refine (ihl (closed.parts _ known left (by simp [parts]))).bind fun _ => ?_
    exact (ihr (closed.parts _ known right (by simp [parts]))).bind fun _ => .pure _
  | excerpt n child offset ih =>
    have knownc := closed.parts _ known child (by simp [parts])
    rw [outline]
    refine (codeRange_keeps knownc).bind fun _ => (bytes_keeps knownc).bind fun _ => ?_
    exact (ih knownc).bind fun _ => (characterLength_keeps known).bind fun _ => .pure _
  | repeated n child times ih =>
    rw [outline]
    exact (ih (closed.parts _ known child (by simp [parts]))).bind fun _ => .pure _

theorem knownRangeIn_keeps (e : Encoding) (known : r ∈ nodes) :
    (knownRangeIn e r).Keeps nodes := by
  unfold knownRangeIn
  refine (knownCodeRange_keeps known).bind fun x => ?_
  repeat' split
  all_goals exact .pure _

theorem newNode_keeps (e : Encoding) (byteLength depth : Nat) (x : CodeRange)
    (chars : Option Nat) :
    (Query.newNode e byteLength depth x chars).Along .bounded nodes (Kept nodes) :=
  fun _ _ => .add _

theorem newLeaf_keeps (e : Encoding) (x : CodeRange) (bytes : List UInt8) :
    (newLeaf e x bytes).Along .bounded nodes (Kept nodes) := newNode_keeps e bytes.length 1 x none

theorem ofBytes_keeps (e : Encoding) (bytes : List UInt8) (x : CodeRange) :
    (ofBytes e bytes x).Along .bounded nodes (Kept nodes) := by
  unfold ofBytes
  split
  next => exact .pure Kept.refl _
  next => exact newLeaf_keeps e x bytes

theorem flatten_keeps (known : r ∈ nodes) : r.flatten.Along .bounded nodes (Kept nodes) := by
  unfold flatten
  split
  next => exact .pure Kept.refl _
  next =>
    refine .bind (bytes_answers known) (bytes_keeps known).along (fun bytes _ => ?_) Kept.trans
    refine knownCodeRange_along fun l fits => ?_
    have kept : Kept nodes l _ := newLeaf_keeps r.encoding (l.entry r.id).codeRange bytes l fits
    rw [StateT.run_bind]
    generalize StateT.run (newLeaf _ _ _) l = made at kept ⊢
    refine kept.trans ?_
    -- the length may be published whether the leaf is one of the nodes or not
    change Kept nodes made.2 (StateT.run (r.knownCharacterLength >>= _) made.2).2
    rw [knownCharacterLength_run]
    split
    next => exact .update (Entry.grows_publishCharacterLength _ _)
    next => exact .refl _

theorem withEncoding_keeps (known : r ∈ nodes) (e : Encoding) :
    (r.withEncoding e).Along .bounded nodes (Kept nodes) := by
  unfold withEncoding
  split
  next => exact .pure Kept.refl _
  next =>
    split
    next => exact .pure Kept.refl _
    next =>
      have ranged := knownRangeIn_keeps e known
      refine .bind ranged.answers ranged.along (fun x _ => ?_) Kept.trans
      refine .bind (bytes_answers known) (bytes_keeps known).along (fun bytes _ => ?_) Kept.trans
      exact newLeaf_keeps e _ bytes

theorem concatBounded_keeps (knowna : a ∈ nodes) (knownb : b ∈ nodes) (e : Encoding)
    (maxDepth : Nat) : (concatBounded a b e maxDepth).Keeps nodes := by
  unfold concatBounded
  dsimp only
  split
  next => exact .fail _
  next =>
    split
    next => exact .lift (withEncoding_keeps knowna e)
    next =>
      split
      next => exact .lift (withEncoding_keeps knownb e)
      next =>
        refine .ask (knownRangeIn_keeps e knowna) fun x => ?_
        refine .ask (knownRangeIn_keeps e knownb) fun y => ?_
        split
        next =>
          refine .ask (bytes_keeps knowna) fun front => .ask (bytes_keeps knownb) fun back => ?_
          exact .lift (newLeaf_keeps e _ _)
        next => exact .map (.lift (newNode_keeps _ _ _ _ _))

theorem concatWithin_keeps (knowna : a ∈ nodes) (knownb : b ∈ nodes) (maxDepth : Nat) :
    (concatWithin maxDepth a b).Keeps nodes := by
  unfold concatWithin
  refine .ask (compatibleEncoding_keeps knowna knownb) fun found => ?_
  split
  next e => exact concatBounded_keeps knowna knownb e maxDepth
  next => exact .throw _

theorem getByte_keeps (r : Rope) (index : Nat) : (r.getByte index).Keeps nodes := by
  intro l _
  rw [getByte_run]
  exact .refl l

theorem view_keeps (known : r ∈ nodes) (offset length : Nat) :
    (r.view offset length).Keeps nodes := by
  unfold view
  exact .ask (knownCodeRange_keeps known) fun x => .map (.lift (newNode_keeps _ _ _ _ _))

theorem narrow_keeps (r : Rope) (offset length : Nat) {cut : Build Rope}
    (cuts : cut.Keeps nodes) : (r.narrow offset length cut).Keeps nodes := by
  unfold narrow
  dsimp only
  split
  next => exact .fail _
  next =>
    split
    next => exact .fail _
    next =>
      split
      next => exact .pure _
      next =>
        split
        next => exact .pure _
        next =>
          split
          next => exact .map (getByte_keeps r offset)
          next => exact cuts

theorem substring_keeps (closed : Closed nodes) (known : r ∈ nodes) (offset length : Nat) :
    (r.substring offset length).Keeps nodes := by
  induction r generalizing offset length with
  | leaf n bytes =>
    rw [substring]
    exact narrow_keeps _ _ _ (view_keeps known offset length)
  | joined n left right ihl ihr =>
    rw [substring]
    refine narrow_keeps _ _ _ ?_
    dsimp only
    split
    next => exact ihl (closed.parts _ known left (by simp [parts])) _ _
    next =>
      split
      next => exact ihr (closed.parts _ known right (by simp [parts])) _ _
      next => exact view_keeps known offset length
  | excerpt n child base ih =>
    rw [substring]
    exact narrow_keeps _ _ _ (ih (closed.parts _ known child (by simp [parts])) _ _)
  | repeated n child times ih =>
    rw [substring]
    refine narrow_keeps _ _ _ ?_
    dsimp only
    split
    next => exact ih (closed.parts _ known child (by simp [parts])) _ _
    next => exact view_keeps known offset length

theorem replicate_keeps (known : r ∈ nodes) (times : Nat) : (r.replicate times).Keeps nodes := by
  unfold replicate
  dsimp only
  split
  next => exact .fail _
  next =>
    split
    next => exact .pure _
    next =>
      split
      next => exact .pure _
      next =>
        refine .ask (knownCodeRange_keeps known) fun x => ?_
        refine .ask (knownCharacterLength_keeps known) fun chars => ?_
        exact .map (.lift (newNode_keeps _ _ _ _ _))

theorem charOffset_keeps (known : r ∈ nodes) (index : Nat) :
    (r.charOffset index).Keeps nodes := by
  unfold charOffset
  extract_lets inBounds located
  have found : ∀ direct : Bool, Build.Keeps nodes (located direct) := by
    intro direct
    dsimp only [located, inBounds]
    split
    next => split <;> first | exact .fail _ | exact .pure _
    next =>
      refine .ask (bytes_keeps known) fun bytes => ?_
      split
      next => exact .pure _
      next => exact .ask (characterLength_keeps known) fun _ => .throw _
  split
  next => exact found true
  next => exact .ask (isAsciiOnly_keeps known) fun direct => found direct

theorem substringChars_keeps (closed : Closed nodes) (known : r ∈ nodes) (offset length : Nat) :
    (r.substringChars offset length).Keeps nodes := by
  have located := charOffset_makes Reading.bounded_lawful known
  unfold substringChars
  dsimp only
  split
  next => exact .fail _
  next =>
    refine .bind (located offset) (charOffset_keeps known offset) fun first => ?_
    refine .bind (located _) (charOffset_keeps known _) fun last => ?_
    exact substring_keeps closed known first (last - first)

variable {ropes : List Rope}

theorem held_keeps (among : ropes ⊆ nodes) {i : Nat} {program : Rope → Build (List Rope)}
    (keeps : ∀ r ∈ nodes, (program r).Keeps nodes) : (held ropes i program).Keeps nodes := by
  unfold held
  split
  next r found => exact keeps r (among (List.mem_of_getElem? found))
  next => exact .pure _

theorem Question.ask_keeps (known : r ∈ nodes) (question : Question) :
    (question.ask r).Keeps nodes := by
  cases question with
  | bytes => exact .ask (bytes_keeps known) fun _ => .pure _
  | codeRange => exact .ask (codeRange_keeps known) fun _ => .pure _
  | characterLength => exact .ask (characterLength_keeps known) fun _ => .pure _
  | hashCode => exact .ask (hashCode_keeps known) fun _ => .pure _
  | byte index => exact .map (getByte_keeps r index)
  | charOffset index => exact .map (charOffset_keeps known index)

theorem Action.program_keeps (closed : Closed nodes) (among : ropes ⊆ nodes) (a : Action) :
    (a.program ropes).Keeps nodes := by
  cases a with
  | ofBytes e bytes hint => exact .map (.lift (ofBytes_keeps e bytes hint))
  | utf8 text => exact .map (.lift (ofBytes_keeps _ _ _))
  | ascii text => exact .map (.lift (ofBytes_keeps _ _ _))
  | empty e => exact .pure _
  | singleByte e b => exact .pure _
  | concat i j =>
    refine held_keeps among fun a knowna => held_keeps among fun b knownb => .map ?_
    exact concatWithin_keeps knowna knownb defaultFlattenDepth
  | concatBounded i j e maxDepth =>
    refine held_keeps among fun a knowna => held_keeps among fun b knownb => .map ?_
    exact concatBounded_keeps knowna knownb e maxDepth
  | substring i offset length =>
    exact held_keeps among fun r known => .map (substring_keeps closed known offset length)
  | substringChars i offset length =>
    exact held_keeps among fun r known => .map (substringChars_keeps closed known offset length)
  | replicate i times => exact held_keeps among fun r known => .map (replicate_keeps known times)
  | withEncoding i e =>
    exact held_keeps among fun r known => .map (.lift (withEncoding_keeps known e))
  | flatten i => exact held_keeps among fun r known => .map (.lift (flatten_keeps known))
  | part i index => exact held_keeps among fun r known => .pure _
  | ask i question => exact held_keeps among fun r known => .map (question.ask_keeps known)
  | equal i j =>
    refine held_keeps among fun a knowna => held_keeps among fun b knownb => ?_
    exact .ask (equal_keeps knowna knownb) fun _ => .pure _
  | compatibleEncoding i j =>
    refine held_keeps among fun a knowna => held_keeps among fun b knownb => ?_
    exact .ask (compatibleEncoding_keeps knowna knownb) fun _ => .pure _

/-- How a rope is written out. -/
inductive Rendering where
  | text | escapes | outline

def Rendering.render (r : Rope) : Rendering → Query String
  | text => r.text
  | escapes => r.escapes
  | outline => r.outline

theorem Rendering.render_keeps (known : r ∈ nodes) (form : Rendering) :
    (form.render r).Keeps nodes := by
  cases form with
  | text => exact (bytes_keeps known).bind fun _ => .pure _
  | escapes => exact (bytes_keeps known).bind fun _ => .pure _
  | outline => exact outline_keeps known

/-- What a client does: a call, or the writing out of a rope it holds. -/
inductive Use where
  | call (a : Action)
  | render (rope : Nat) (form : Rendering)

end Rope

/-- The passes that have been made are over nodes, and none has been made twice. -/
structure Ledger.Tidy (nodes : List Rope) (l : Ledger) : Prop extends l.Fits .bounded nodes where
  idle : ∀ id, (∀ n ∈ nodes, n.id ≠ id) → ∀ w, l.times w id = 0
  flattened : ∀ n ∈ nodes, l.FlattenedOnce n
  scanned : ∀ n ∈ nodes, l.ScannedOnce n

namespace Ledger

variable {l l' : Ledger}

theorem initial_tidy : initial.Tidy Rope.canonical where
  toFits := initial_fits Reading.bounded_lawful
  idle _ _ _ := rfl
  flattened _ _ := .inl rfl
  scanned _ _ _ := .inl rfl

/-- Nodes that have been made since have had no pass made over them. -/
theorem Tidy.later (tidy : l.Tidy nodes) (kept : Kept nodes l l') {more : List Rope}
    (grown : nodes ⊆ more) (fits : l'.Fits .bounded more) : l'.Tidy more := by
  have fresh : ∀ n ∈ more, n ∉ nodes → ∀ w, l'.times w n.id = 0 := by
    intro n member new w
    have other : ∀ old ∈ nodes, old.id ≠ n.id := by
      intro old known number
      rw [fits.unique old (grown known) n member number] at known
      exact new known
    rw [kept.idle n.id other, tidy.idle n.id other]
  constructor
  case toFits => exact fits
  case idle =>
    intro id other w
    have before : ∀ n ∈ nodes, n.id ≠ id := fun n known => other n (grown known)
    rw [kept.idle id before, tidy.idle id before]
  case flattened =>
    intro n member
    by_cases old : n ∈ nodes
    · exact kept.flattened n old (tidy.flattened n old)
    · exact .inl (fresh n member old _)
  case scanned =>
    intro n member
    by_cases old : n ∈ nodes
    · exact kept.scanned n old (tidy.scanned n old)
    · exact fun _ => .inl (by simp [scans, fresh n member old])

end Ledger

namespace Collection

open Rope (Action Use)

variable {c : Collection}

def use (c : Collection) : Use → Collection
  | .call a => c.step a
  | .render i form =>
    match c.ropes[i]? with
    | some r => { c with ledger := ((form.render r).run c.ledger).2 }
    | none => c

def useAll (c : Collection) (uses : List Use) : Collection := uses.foldl use c

/-- The ledger is tidy for some nodes, the ropes of the client among them. -/
def Thrifty (c : Collection) : Prop := ∃ nodes, c.ledger.Tidy nodes ∧ c.ropes ⊆ nodes

theorem step_kept (closed : Closed nodes) (fits : c.ledger.Fits .bounded nodes)
    (among : c.ropes ⊆ nodes) (a : Action) : Kept nodes c.ledger (c.step a).ledger := by
  have kept := a.program_keeps closed among c.ledger fits
  unfold step
  split
  next result ledger made =>
    rw [made] at kept
    split <;> exact kept

/-- One use keeps what is known, and leaves the ledger tidy. -/
theorem use_thrifty (thrifty : c.Thrifty) (u : Use) :
    (c.use u).Thrifty ∧ ∀ id, (c.ledger.entry id).Grows ((c.use u).ledger.entry id) := by
  obtain ⟨nodes, tidy, among⟩ := thrifty
  cases u with
  | call a =>
    have kept := step_kept tidy.toClosed tidy.toFits among a
    obtain ⟨more, grown, fits, among'⟩ :=
      step_grows Reading.bounded_lawful tidy.toFits among a.trusted_bounded
    exact ⟨⟨more, tidy.later kept grown fits, among'⟩, kept.grows⟩
  | render i form =>
    simp only [use]
    split
    next r found =>
      have rendered := form.render_keeps (among (List.mem_of_getElem? found))
      have kept := rendered.along c.ledger tidy.toFits
      have fits := (rendered.answers c.ledger tidy.toFits).1
      exact ⟨⟨nodes, tidy.later kept (List.Subset.refl _) fits, among⟩, kept.grows⟩
    next => exact ⟨⟨nodes, tidy, among⟩, fun _ => .refl _⟩

theorem useAll_thrifty (thrifty : c.Thrifty) (uses : List Use) :
    (c.useAll uses).Thrifty ∧
      ∀ id, (c.ledger.entry id).Grows ((c.useAll uses).ledger.entry id) := by
  induction uses generalizing c with
  | nil => exact ⟨thrifty, fun _ => .refl _⟩
  | cons u rest ih =>
    obtain ⟨first, grows⟩ := use_thrifty thrifty u
    obtain ⟨last, grows'⟩ := ih first
    exact ⟨last, fun id => (grows id).trans (grows' id)⟩

/-- A client keeps the ropes it holds. -/
theorem ropes_useAll (c : Collection) (uses : List Use) : c.ropes ⊆ (c.useAll uses).ropes := by
  induction uses generalizing c with
  | nil => exact List.Subset.refl _
  | cons u rest ih =>
    refine List.Subset.trans ?_ (ih (c.use u))
    cases u with
    | call a => exact ropes_step c a
    | render i form =>
      simp only [use]
      split <;> exact List.Subset.refl _

/-- Whatever a client has done and whatever it does later: no node of its ropes is scanned more than
once, be it for its code range or for its length, none is flattened more than once and a leaf never,
and what is known of a node stays known and stays the same. -/
theorem once_run (uses : List Use) :
    ∀ r ∈ (start.useAll uses).ropes, ∀ n, Within n r → ∀ later,
      (n.byteLength < lengthLimit - 1 →
        ((start.useAll uses).useAll later).ledger.scans n.id ≤ 1) ∧
      ((start.useAll uses).useAll later).ledger.times .flatten n.id ≤ (if n.isLeaf then 0 else 1) ∧
      ((start.useAll uses).ledger.entry n.id).Grows
        (((start.useAll uses).useAll later).ledger.entry n.id) := by
  intro r held n within later
  have begun : start.Thrifty := ⟨_, Ledger.initial_tidy, List.nil_subset _⟩
  obtain ⟨⟨nodes, tidy, among⟩, grows⟩ := useAll_thrifty (useAll_thrifty begun uses).1 later
  have known := tidy.toClosed.within (among (ropes_useAll _ later held)) within
  refine ⟨fun small => ?_, ?_, grows n.id⟩
  · rcases tidy.scanned n known small with never | ⟨once, _⟩ <;> omega
  · rcases tidy.flattened n known with never | ⟨once, composite, _⟩
    · omega
    · simp [once, composite]

/-- The first two bytes of a character, and a rope in which they occur twice. -/
def shared : List Use :=
  [.call (.ofBytes .utf8 ⟨[0xE2, 0x82], by decide⟩ .unknown), .call (.concat 0 0)]

theorem once_run_shared :
    ∃ n p, (start.useAll shared).ropes[1]? = some (.joined n p p) ∧ ∀ later,
      ((start.useAll shared).useAll later).ledger.scans n.id ≤ 1 ∧
      ((start.useAll shared).useAll later).ledger.scans p.id ≤ 1 ∧
      ((start.useAll shared).useAll later).ledger.times .flatten n.id ≤ 1 ∧
      ((start.useAll shared).useAll later).ledger.times .flatten p.id = 0 := by
  obtain ⟨n, m, bytes, held, four, two⟩ : ∃ n m bytes, (start.useAll shared).ropes[1]? =
      some (.joined n (.leaf m bytes) (.leaf m bytes)) ∧ n.byteLength = 4 ∧ m.byteLength = 2 :=
    ⟨_, _, _, rfl, rfl, rfl⟩
  have smalln : n.byteLength < lengthLimit - 1 := by simp [four, lengthLimit]
  have smallm : m.byteLength < lengthLimit - 1 := by simp [two, lengthLimit]
  have once := once_run shared _ (List.mem_of_getElem? held)
  refine ⟨n, .leaf m bytes, held, fun later => ?_⟩
  have whole := once _ .self later
  have part := once _ (.part List.mem_cons_self .self) later
  exact ⟨whole.1 smalln, part.1 smallm, whole.2.1, Nat.le_zero.1 part.2.1⟩

end Collection

end RopeBridge
