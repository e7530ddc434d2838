import RopeBridge.Proofs.Rope.Ledger

/-! Reasoning about questions to ropes and about the making of ropes. A question keeps the ledger
right for the nodes there are; making a rope may also add nodes. What a program gives, and what it
does to a right ledger, is followed in the same way. Each rule below is for one way of putting
programs together, so programs are followed along their text. -/
namespace RopeBridge

variable {R : Reading} {nodes : List Rope} {α β : Type}

/-- A question keeps the ledger right, and its answer satisfies `P`. -/
def Query.Answers (R : Reading) (nodes : List Rope) (q : Query α) (P : α → Prop) : Prop :=
  ∀ l : Ledger, l.Fits R nodes → (q.run l).2.Fits R nodes ∧ P (q.run l).1

/-- A program leaves the ledger right for the nodes there were and some more, and what it gives
satisfies `P` for all of them. -/
def Query.Makes (R : Reading) (nodes : List Rope) (q : Query α) (P : List Rope → α → Prop) : Prop :=
  ∀ l : Ledger, l.Fits R nodes →
    ∃ more, nodes ⊆ more ∧ (q.run l).2.Fits R more ∧ P more (q.run l).1

namespace Query

section

variable {q : Query α} {f : α → Query β} {P : α → Prop} {Q : β → Prop}

theorem Answers.pure {a : α} (h : P a) : Answers R nodes (Pure.pure a) P :=
  fun _ fits => ⟨fits, h⟩

theorem Answers.bind (first : Answers R nodes q P) (rest : ∀ a, P a → Answers R nodes (f a) Q) :
    Answers R nodes (q >>= f) Q := by
  intro l fits
  obtain ⟨fits', answer⟩ := first l fits
  exact rest _ answer _ fits'

theorem Answers.mono (h : Answers R nodes q P) {P' : α → Prop} (weaker : ∀ a, P a → P' a) :
    Answers R nodes q P' := by
  intro l fits
  obtain ⟨fits', answer⟩ := h l fits
  exact ⟨fits', weaker _ answer⟩

/-- What holds of the nodes of a right ledger may be used for a question. -/
theorem Answers.closed (h : Rope.Closed nodes → Answers R nodes q P) : Answers R nodes q P :=
  fun l fits => h fits.toClosed l fits

end

theorem answers_entry {r : Rope} (known : r ∈ nodes) :
    Answers R nodes (entry r.id) fun e => e.Fits R r :=
  fun _ fits => ⟨fits, fits.entry r known⟩

theorem answers_note (w : Work) (id : NodeId) : Answers R nodes (note w id) fun _ => True :=
  fun _ fits => ⟨fits.note _, trivial⟩

theorem answers_update {r : Rope} (known : r ∈ nodes) {f : Entry → Entry}
    (right : ∀ e : Entry, e.Fits R r → (f e).Fits R r) :
    Answers R nodes (update r.id f) fun _ => True :=
  fun _ fits => ⟨fits.update known right, trivial⟩

theorem answers_publishCodeRange {r : Rope} (known : r ∈ nodes) {x : CodeRange}
    (right : R.range r.encoding r.toBytes x) :
    Answers R nodes (publishCodeRange r.id x) (· = x) :=
  (answers_update known fun _ fits => fits.publishCodeRange right).bind fun _ _ => .pure rfl

theorem answers_publishCharacterLength {r : Rope} (known : r ∈ nodes) {n : Nat}
    (right : R.length r.encoding r.toBytes n) :
    Answers R nodes (publishCharacterLength r.id n) fun _ => True :=
  answers_update known fun _ fits => fits.publishCharacterLength right

section

variable {q : Query α} {f : α → Query β} {P : List Rope → α → Prop} {Q : List Rope → β → Prop}

theorem Makes.pure {a : α} (h : P nodes a) : Makes R nodes (Pure.pure a) P :=
  fun _ fits => ⟨nodes, List.Subset.refl _, fits, h⟩

theorem Makes.bind (first : Makes R nodes q P)
    (rest : ∀ more, nodes ⊆ more → ∀ a, P more a → Makes R more (f a) Q) :
    Makes R nodes (q >>= f) Q := by
  intro l fits
  obtain ⟨more, grown, fits', made⟩ := first l fits
  obtain ⟨final, grown', fits'', made'⟩ := rest more grown _ made _ fits'
  exact ⟨final, List.Subset.trans grown grown', fits'', made'⟩

theorem Makes.mono (h : Makes R nodes q P) {P' : List Rope → α → Prop}
    (weaker : ∀ more a, nodes ⊆ more → P more a → P' more a) : Makes R nodes q P' := by
  intro l fits
  obtain ⟨more, grown, fits', made⟩ := h l fits
  exact ⟨more, grown, fits', weaker _ _ grown made⟩

/-- A question makes no node. -/
theorem Answers.makes {P : α → Prop} (h : Answers R nodes q P) :
    Makes R nodes q fun more a => more = nodes ∧ P a := by
  intro l fits
  obtain ⟨fits', answer⟩ := h l fits
  exact ⟨nodes, List.Subset.refl _, fits', rfl, answer⟩

/-- A question in front of a program. -/
theorem Answers.thenMakes {P : α → Prop} (first : Answers R nodes q P)
    (rest : ∀ a, P a → Makes R nodes (f a) Q) : Makes R nodes (q >>= f) Q := by
  refine first.makes.bind fun more _ a made => ?_
  obtain ⟨rfl, answer⟩ := made
  exact rest a answer

/-- What holds of the nodes of a right ledger may be used for a program. -/
theorem Makes.closed (h : Rope.Closed nodes → Makes R nodes q P) : Makes R nodes q P :=
  fun l fits => h fits.toClosed l fits

end

end Query

/-- The making of a rope, which may fail, as a program that answers with a result. -/
def Build.Makes (R : Reading) (nodes : List Rope) (b : Build α)
    (P : List Rope → Except Fault α → Prop) : Prop := Query.Makes R nodes b.run P

namespace Build

variable {q : Query α} {b : Build α} {f : α → Build β}
  {P : List Rope → Except Fault α → Prop} {Q : List Rope → Except Fault β → Prop}

theorem Makes.pure {a : α} (h : P nodes (.ok a)) : Makes R nodes (Pure.pure a : Build α) P :=
  Query.Makes.pure h

theorem Makes.throw {fault : Fault} (h : P nodes (.error fault)) :
    Makes R nodes (throw fault : Build α) P := Query.Makes.pure h

theorem Makes.fail {fault : Fault} (h : Q nodes (.error fault)) :
    Makes R nodes ((MonadExcept.throw fault : Build α) >>= f) Q :=
  fun _ fits => ⟨nodes, List.Subset.refl _, fits, h⟩

theorem Makes.lift {S : List Rope → α → Prop} (h : Query.Makes R nodes q S)
    (result : ∀ more a, S more a → P more (.ok a)) : Makes R nodes (liftM q : Build α) P :=
  Query.Makes.bind h fun _ _ a made => .pure (result _ a made)

/-- A failure of the first program is the failure of both. -/
theorem Makes.bind (first : Makes R nodes b P)
    (fails : ∀ more fault, P more (.error fault) → Q more (.error fault))
    (rest : ∀ more, nodes ⊆ more → ∀ a, P more (.ok a) → Makes R more (f a) Q) :
    Makes R nodes (b >>= f) Q := by
  rw [Build.Makes, ExceptT.run_bind]
  refine Query.Makes.bind first fun more grown result made => ?_
  cases result with
  | ok a => exact rest more grown a made
  | error fault => exact Query.Makes.pure (fails more fault made)

theorem Makes.bindLift {S : List Rope → α → Prop} (first : Query.Makes R nodes q S)
    (rest : ∀ more, nodes ⊆ more → ∀ a, S more a → Makes R more (f a) Q) :
    Makes R nodes ((liftM q : Build α) >>= f) Q := Query.Makes.bind first rest

theorem Makes.closed (h : Rope.Closed nodes → Makes R nodes b P) : Makes R nodes b P :=
  Query.Makes.closed h

theorem Makes.mono (h : Makes R nodes b P) {P' : List Rope → Except Fault α → Prop}
    (weaker : ∀ more result, nodes ⊆ more → P more result → P' more result) :
    Makes R nodes b P' := Query.Makes.mono h weaker

/-- What is said of a program holds of its runs. -/
theorem Makes.ran (makes : Makes R nodes b P) {l l' : Ledger} (fits : l.Fits R nodes)
    {result : Except Fault α} (ran : b.run.run l = (result, l')) :
    ∃ more, nodes ⊆ more ∧ l'.Fits R more ∧ P more result := by
  obtain ⟨more, grown, fits', kept⟩ := makes l fits
  change (b.run.run l).2.Fits R more at fits'
  change P more (b.run.run l).1 at kept
  rw [ran] at fits' kept
  exact ⟨more, grown, fits', kept⟩

/-- A question in front of the making of a rope. -/
theorem Makes.ask {S : α → Prop} (first : Query.Answers R nodes q S)
    (rest : ∀ a, S a → Makes R nodes (f a) Q) :
    Makes R nodes ((liftM q : Build α) >>= f) Q := by
  intro l fits
  obtain ⟨fits', answer⟩ := first l fits
  exact rest _ answer _ fits'

end Build

/-- What a program gives satisfies `P`, whatever a right ledger says. -/
def Query.Yields (R : Reading) (nodes : List Rope) (q : Query α) (P : α → Prop) : Prop :=
  ∀ l : Ledger, l.Fits R nodes → P (q.run l).1

/-- What the making of a rope gives satisfies `P`, if it does not fail. -/
def Build.Yields (R : Reading) (nodes : List Rope) (b : Build α) (P : α → Prop) : Prop :=
  Query.Yields R nodes b.run fun result => ∀ a, result = .ok a → P a

namespace Query

variable {q : Query α} {f : α → Query β} {P : α → Prop} {Q : β → Prop}

theorem Yields.pure {a : α} (h : P a) : Yields R nodes (Pure.pure a) P := fun _ _ => h

/-- A question in front of a program. -/
theorem Answers.thenYields (first : Answers R nodes q P)
    (rest : ∀ a, P a → Yields R nodes (f a) Q) : Yields R nodes (q >>= f) Q := by
  intro l fits
  obtain ⟨fits', answer⟩ := first l fits
  exact rest _ answer _ fits'

theorem Makes.thenYields {P : List Rope → α → Prop} (first : Makes R nodes q P)
    (rest : ∀ more a, nodes ⊆ more → P more a → Yields R more (f a) Q) :
    Yields R nodes (q >>= f) Q := by
  intro l fits
  obtain ⟨more, grown, fits', made⟩ := first l fits
  exact rest more _ grown made _ fits'

/-- A program in front of one that needs nothing of the ledger. -/
theorem Yields.bind (first : Yields R nodes q P) (rest : ∀ a, P a → ∀ l, Q ((f a).run l).1) :
    Yields R nodes (q >>= f) Q :=
  fun l fits => rest _ (first l fits) _

theorem Yields.mono (h : Yields R nodes q P) {P' : α → Prop} (weaker : ∀ a, P a → P' a) :
    Yields R nodes q P' :=
  fun l fits => weaker _ (h l fits)

theorem Yields.closed (h : Rope.Closed nodes → Yields R nodes q P) : Yields R nodes q P :=
  fun l fits => h fits.toClosed l fits

theorem yields_newNode {e : Encoding} {byteLength depth : Nat} {x : CodeRange}
    {chars : Option Nat} :
    Yields R nodes (newNode e byteLength depth x chars)
      fun n => n.encoding = e ∧ n.byteLength = byteLength ∧ n.depth = depth :=
  fun _ _ => ⟨rfl, rfl, rfl⟩

end Query

namespace Build

variable {q : Query α} {b : Build α} {f : α → Build β} {P : α → Prop} {Q : β → Prop}

theorem Yields.pure {a : α} (h : P a) : Yields R nodes (Pure.pure a : Build α) P := by
  rintro _ _ _ ⟨⟩
  exact h

theorem Yields.throw {fault : Fault} : Yields R nodes (throw fault : Build α) P :=
  fun _ _ _ none => nomatch none

theorem Yields.fail {fault : Fault} :
    Yields R nodes ((MonadExcept.throw fault : Build α) >>= f) Q :=
  fun _ _ _ none => nomatch none

theorem Yields.lift (h : Query.Yields R nodes q P) : Yields R nodes (liftM q : Build α) P := by
  rintro l fits a ⟨⟩
  exact h l fits

theorem Yields.ask (first : Query.Answers R nodes q P)
    (rest : ∀ a, P a → Yields R nodes (f a) Q) :
    Yields R nodes ((liftM q : Build α) >>= f) Q := by
  intro l fits
  obtain ⟨fits', answer⟩ := first l fits
  exact rest _ answer _ fits'

theorem Yields.bind {P : List Rope → Except Fault α → Prop} (first : b.Makes R nodes P)
    (rest : ∀ more a, nodes ⊆ more → P more (.ok a) → Yields R more (f a) Q) :
    Yields R nodes (b >>= f) Q := by
  rw [Build.Yields, ExceptT.run_bind]
  refine Query.Makes.thenYields first fun more result grown made => ?_
  cases result with
  | ok a => exact rest more a grown made
  | error fault => exact Query.Yields.pure fun _ none => nomatch none

theorem Yields.map {g : α → β} (first : Yields R nodes b P) (rest : ∀ a, P a → Q (g a)) :
    Yields R nodes (do return g (← b)) Q := by
  intro l fits
  have given := first l fits
  rw [ExceptT.run_bind, StateT.run_bind]
  generalize StateT.run b.run l = ran at given ⊢
  obtain ⟨result, l⟩ := ran
  cases result with
  | ok a => rintro _ ⟨⟩; exact rest a (given a rfl)
  | error fault => exact fun _ none => nomatch none

theorem Yields.mono (h : Yields R nodes b P) {P' : α → Prop} (weaker : ∀ a, P a → P' a) :
    Yields R nodes b P' :=
  fun l fits a given => weaker a (h l fits a given)

theorem Yields.closed (h : Rope.Closed nodes → Yields R nodes b P) : Yields R nodes b P :=
  Query.Yields.closed h

end Build

/-- What a program does to any right ledger. -/
def Query.Along (R : Reading) (nodes : List Rope) (rel : Ledger → Ledger → Prop) (q : Query α) :
    Prop := ∀ l : Ledger, l.Fits R nodes → rel l (q.run l).2

namespace Query

variable {rel rel₁ rel₂ : Ledger → Ledger → Prop} {q : Query α} {f : α → Query β} {P : α → Prop}

theorem Along.pure (refl : ∀ l, rel l l) (a : α) : Along R nodes rel (Pure.pure a) :=
  fun l _ => refl l

/-- A question, and what is done with its answer. -/
theorem Along.bind (answers : Answers R nodes q P) (first : Along R nodes rel₁ q)
    (rest : ∀ a, P a → Along R nodes rel₂ (f a))
    (both : ∀ {l l' l''}, rel₁ l l' → rel₂ l' l'' → rel l l'') : Along R nodes rel (q >>= f) := by
  intro l fits
  obtain ⟨fits', answer⟩ := answers l fits
  exact both (first l fits) (rest _ answer _ fits')

theorem Along.mono (h : Along R nodes rel q) {rel' : Ledger → Ledger → Prop}
    (weaker : ∀ {l l'}, rel l l' → rel' l l') : Along R nodes rel' q :=
  fun l fits => weaker (h l fits)

/-- The entry of a node is that of the ledger there is. -/
theorem Along.entry {id : NodeId} {f : Entry → Query β}
    (rest : ∀ l, l.Fits R nodes → rel l ((f (l.entry id)).run l).2) :
    Along R nodes rel (Query.entry id >>= f) := rest

theorem Along.closed (h : Rope.Closed nodes → Along R nodes rel q) : Along R nodes rel q :=
  fun l fits => h fits.toClosed l fits

/-- What a program answers and what it does. -/
structure Does (R : Reading) (nodes : List Rope) (rel : Ledger → Ledger → Prop) (q : Query α)
    (P : α → Prop) : Prop where
  answers : Answers R nodes q P
  along : Along R nodes rel q

theorem Does.pure (refl : ∀ l, rel l l) {a : α} (h : P a) : Does R nodes rel (Pure.pure a) P :=
  ⟨.pure h, .pure refl a⟩

theorem Does.bind {Q : β → Prop} (first : Does R nodes rel₁ q P)
    (rest : ∀ a, P a → Does R nodes rel₂ (f a) Q)
    (both : ∀ {l l' l''}, rel₁ l l' → rel₂ l' l'' → rel l l'') : Does R nodes rel (q >>= f) Q where
  answers := first.answers.bind fun a right => (rest a right).answers
  along := .bind first.answers first.along (fun a right => (rest a right).along) both

end Query

end RopeBridge
