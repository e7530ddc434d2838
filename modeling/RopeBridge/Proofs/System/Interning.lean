import Mathlib.Data.List.Dedup
import RopeBridge.Proofs.System.Names
import RopeBridge.Proofs.System.RoundTrip

/-! Interning through whole runs. A client makes and asks ropes, interns some of them and looks
others up, while everything else in the system goes on. Whatever the shape of the ropes and whatever
is found out about them meanwhile, a symbol stands for one spelling for good, and so does the handle
that the symbol has got. -/
namespace RopeBridge

open Rope (Deed)

/-- A system, the ropes that a client of it holds, and the names that have been interned so far with
what they came to, the oldest first. -/
structure Lexicon where
  system : System
  ropes : List Rope
  interned : List (Rope × Value)

/-- An interned name is found, or a symbol is made. -/
theorem Bridge.intern_run (name : Rope) (b : Bridge) :
    (intern name).run b = (.object ((b.symbols.intern b.heap name).run b.ledger).1.1, { b with
      ledger := ((b.symbols.intern b.heap name).run b.ledger).2
      symbols := ((b.symbols.intern b.heap name).run b.ledger).1.2.1
      heap := ((b.symbols.intern b.heap name).run b.ledger).1.2.2 }) := rfl

namespace Lexicon

def ofOptions (o : Options) : Lexicon := ⟨.ofOptions o, [], []⟩

abbrev bridge (c : Lexicon) : Bridge := c.system.bridge

abbrev ledger (c : Lexicon) : Ledger := c.bridge.ledger

abbrev entries (c : Lexicon) : List (Rope × ObjectId) := c.bridge.symbols.entries

def perform (c : Lexicon) (d : Deed) : Lexicon :=
  let done := Collection.perform ⟨c.ledger, c.ropes⟩ d
  { c with system.bridge.ledger := done.ledger, ropes := done.ropes }

def lookup (c : Lexicon) (name : Rope) : Option ObjectId :=
  ((c.bridge.symbols.lookup name).run c.ledger).1

/-- A name has been looked up. -/
def look (c : Lexicon) (name : Rope) : Lexicon :=
  { c with system.bridge.ledger := ((c.bridge.symbols.lookup name).run c.ledger).2 }

def intern (c : Lexicon) (name : Rope) : Lexicon :=
  let (symbol, bridge) := (Bridge.intern name).run c.bridge
  { c with system.bridge := bridge, interned := c.interned ++ [(name, symbol)] }

/-- A text is made a rope, and that is interned. -/
def internText (c : Lexicon) (text : StorableText) : Lexicon :=
  (c.perform (.use (.call (.utf8 text)))).intern ((Rope.utf8 text).run c.ledger).1

/-- The symbol of a text has got a handle. -/
def symbolHandle (c : Lexicon) (me : ThreadId) (text : StorableText) : Lexicon :=
  { c.internText text with
    system.bridge := ((Bridge.symbolHandle me text.1).run c.bridge).2 }

/-- What may happen next. Anything that leaves names alone may, on any thread. -/
inductive Step (c : Lexicon) : Lexicon → Prop
  | perform (d : Deed) : c.Step (c.perform d)
  | intern {name : Rope} : name ∈ c.ropes → c.Step (c.intern name)
  | look {name : Rope} : name ∈ c.ropes → c.Step (c.look name)
  | move {es : List Event} {s : System} : c.system.Move es s → c.bridge.LeavesNames s.bridge →
    c.Step { c with system := s }

/-- Every move may happen that, if it is beside handles, leaves names alone. -/
theorem Step.goes_on {c : Lexicon} {es : List Event} {s : System} (move : c.system.Move es s)
    (beside : c.bridge.Beside s.bridge → c.bridge.LeavesNames s.bridge) :
    c.Step { c with system := s } := .move move (move.leavesNames beside)

/-- What is quiet may be done at any time. -/
theorem Step.errand {c : Lexicon} {e : Bridge.Errand} (quiet : e.Quiet) (fits : e.Fits c.bridge) :
    c.Step { c with system.bridge := e.perform c.bridge } :=
  .goes_on (.act (.beside (e.perform_beside fits))) fun _ => e.perform_leavesNames quiet fits

abbrev Leads : Lexicon → Lexicon → Prop := Relation.ReflTransGen Step

/-- The table has what has been interned, each spelling once, and its symbols have leaves of the
spellings that they stand for. -/
structure Sound (o : Options) (nodes : List Rope) (c : Lexicon) : Prop where
  reachable : System.Reachable o c.system
  fits : c.ledger.Fits .any nodes
  held : c.ropes ⊆ nodes
  distinct : c.bridge.symbols.Distinct
  asked : ∀ p ∈ c.interned, p.1 ∈ c.ropes ∧
    ∃ entry ∈ c.entries, entry.1.spelling = p.1.spelling ∧ p.2 = .object entry.2
  entered : ∀ entry ∈ c.entries, (entry.1, .object entry.2) ∈ c.interned
  named : ∀ entry ∈ c.entries, ∃ leaf ∈ nodes, c.bridge.heap.symbolName? entry.2 = some leaf ∧
    leaf.isLeaf = true ∧ leaf.spelling = entry.1.spelling

/-- Nothing that has been interned is lost. -/
structure Later (c c' : Lexicon) : Prop where
  run : ∃ es, c.system.Run es c'.system
  ropes : c.ropes ⊆ c'.ropes
  interned : c.interned <+: c'.interned
  entries : c.entries <+: c'.entries
  names : ∀ entry ∈ c.entries,
    c'.bridge.heap.symbolName? entry.2 = c.bridge.heap.symbolName? entry.2

/-- Interning a text is making a rope of it and interning that. -/
theorem leads_internText (c : Lexicon) (text : StorableText) : c.Leads (c.internText text) := by
  refine .tail (.single (.perform (.use (.call (.utf8 text))))) (.intern ?_)
  exact List.mem_append_right _ List.mem_cons_self

variable {c c' c'' : Lexicon} {o : Options} {nodes more : List Rope} {name : Rope}
  {es : List Event}

theorem Later.refl (c : Lexicon) : Later c c :=
  ⟨⟨[], .refl⟩, List.Subset.refl _, List.prefix_rfl, List.prefix_rfl, fun _ _ => rfl⟩

theorem Later.trans (first : Later c c') (second : Later c' c'') : Later c c'' where
  run := by
    obtain ⟨es, run⟩ := first.run
    obtain ⟨es', run'⟩ := second.run
    exact ⟨_, run.trans run'⟩
  ropes := List.Subset.trans first.ropes second.ropes
  interned := first.interned.trans second.interned
  entries := first.entries.trans second.entries
  names entry member :=
    (second.names entry (first.entries.subset member)).trans (first.names entry member)

namespace Sound

theorem keys (sound : c.Sound o nodes) : ∀ entry ∈ c.entries, entry.1 ∈ nodes :=
  fun entry member => sound.held (sound.asked _ (sound.entered entry member)).1

/-- The table holds its symbols. -/
theorem alive (sound : c.Sound o nodes) :
    ∀ entry ∈ c.entries, c.bridge.heap.isAlive entry.2 := by
  intro entry member
  obtain ⟨leaf, _, named, _⟩ := sound.named entry member
  exact Heap.isAlive_of_symbolName? named

theorem start (o : Options) : (ofOptions o).Sound o Rope.canonical where
  reachable := ⟨[], .refl⟩
  fits := Ledger.initial_fits Reading.any_lawful
  held := List.nil_subset _
  distinct := ⟨List.nodup_nil, List.nodup_nil⟩
  asked := nofun
  entered := nofun
  named := nofun

/-- A step that changes neither the table nor what has been interned. -/
theorem keep (sound : c.Sound o nodes) (run : c.system.Run es c'.system) (grown : nodes ⊆ more)
    (fits : c'.ledger.Fits .any more) (ropes : c.ropes ⊆ c'.ropes) (held : c'.ropes ⊆ more)
    (symbols : c'.bridge.symbols = c.bridge.symbols) (interned : c'.interned = c.interned)
    (names : ∀ entry ∈ c.entries,
      c'.bridge.heap.symbolName? entry.2 = c.bridge.heap.symbolName? entry.2) :
    c'.Sound o more ∧ Later c c' := by
  have entries : c'.entries = c.entries := congrArg SymbolTable.entries symbols
  constructor
  · constructor
    case reachable =>
      obtain ⟨es', before⟩ := sound.reachable
      exact ⟨_, before.trans run⟩
    case fits => exact fits
    case held => exact held
    case distinct => rw [symbols]; exact sound.distinct
    case asked =>
      rw [interned, entries]
      intro p member
      obtain ⟨known, entry⟩ := sound.asked p member
      exact ⟨ropes known, entry⟩
    case entered => rw [interned, entries]; exact sound.entered
    case named =>
      rw [entries]
      intro entry member
      obtain ⟨leaf, known, named, flat⟩ := sound.named entry member
      exact ⟨leaf, grown known, (names entry member).trans named, flat⟩
  · refine ⟨⟨es, run⟩, ropes, ?_, ?_, names⟩
    · exact interned.symm ▸ List.prefix_rfl
    · exact entries.symm ▸ List.prefix_rfl

/-- What is found out is beside the system. -/
theorem inform (sound : c.Sound o nodes) {l : Ledger} {ropes : List Rope} (grown : nodes ⊆ more)
    (fits : l.Fits .any more) (kept : c.ropes ⊆ ropes) (held : ropes ⊆ more) :
    Sound o more { c with system.bridge.ledger := l, ropes := ropes } ∧
      Later c { c with system.bridge.ledger := l, ropes := ropes } := by
  have move : c.system.Move [] { c.system with bridge.ledger := l } :=
    .act (.beside { Bridge.Beside.refl c.bridge with })
  exact sound.keep (.of_move move) grown fits kept held rfl rfl fun _ _ => rfl

theorem perform (sound : c.Sound o nodes) (d : Deed) :
    ∃ more, (c.perform d).Sound o more ∧ Later c (c.perform d) := by
  obtain ⟨more, grown, fits, held⟩ :=
    Collection.perform_grows (c := ⟨c.ledger, c.ropes⟩) sound.fits sound.held d
  exact ⟨more, sound.inform grown fits (Collection.ropes_perform ⟨c.ledger, c.ropes⟩ d) held⟩

theorem look (sound : c.Sound o nodes) (known : name ∈ c.ropes) :
    (c.look name).Sound o nodes ∧ Later c (c.look name) := by
  have answers := SymbolTable.lookup_answers (R := .any) sound.keys (sound.held known)
  obtain ⟨fits, _⟩ := answers c.ledger sound.fits
  exact sound.inform (List.Subset.refl _) fits (List.Subset.refl _) sound.held

theorem move (sound : c.Sound o nodes) {s : System} (move : c.system.Move es s)
    (leaves : c.bridge.LeavesNames s.bridge) :
    Sound o nodes { c with system := s } ∧ Later c { c with system := s } := by
  obtain ⟨w, written, keeps⟩ := leaves.heap
  refine sound.keep (.of_move move) (List.Subset.refl _) ?_ (List.Subset.refl _) sound.held
    leaves.symbols rfl ?_
  · show s.bridge.ledger.Fits .any nodes
    rw [leaves.ledger]
    exact sound.fits
  · intro entry member
    obtain ⟨leaf, _, named, _⟩ := sound.named entry member
    have rooted : entry.2 ∈ s.bridge.roots :=
      Bridge.mem_roots.2 (.inl ⟨entry, by rw [leaves.symbols]; exact member, rfl⟩)
    have alive := (move.sound sound.reachable.sound).bridge_roots _ rooted
    show s.bridge.heap.symbolName? entry.2 = c.bridge.heap.symbolName? entry.2
    rw [written] at alive ⊢
    rw [Heap.symbolName?_write keeps named alive, named]

/-- A name with an entry in the table has been interned again. -/
theorem again (sound : c.Sound o nodes) (known : name ∈ c.ropes) {entry : Rope × ObjectId}
    (member : entry ∈ c.entries) (same : entry.1.spelling = name.spelling) :
    Sound o nodes { c with interned := c.interned ++ [(name, .object entry.2)] } := by
  refine { sound with asked := ?_, entered := ?_ }
  · rw [List.forall_mem_append, List.forall_mem_singleton]
    exact ⟨sound.asked, known, entry, member, same, rfl⟩
  · exact fun other member => List.mem_append_left _ (sound.entered other member)

/-- A name that is new has been entered with a leaf of its own. -/
theorem enter (sound : c.Sound o nodes) (known : name ∈ c.ropes) {leaf : Rope} (flat : leaf ∈ nodes)
    (shape : leaf.isLeaf = true) (same : leaf.spelling = name.spelling)
    (new : c.bridge.symbols.entryFor? name = none) {b : Bridge}
    (reachable : System.Reachable o { c.system with bridge := b }) (ledger : b.ledger = c.ledger)
    (symbols : b.symbols = ⟨c.entries ++ [(name, c.bridge.heap.objects.size)]⟩)
    (heap : b.heap = (c.bridge.heap.add (.symbol leaf)).2) :
    Sound o nodes { c with
      system.bridge := b
      interned := c.interned ++ [(name, .object c.bridge.heap.objects.size)] } := by
  have fresh : ∀ entry ∈ c.entries, entry.2 ≠ c.bridge.heap.objects.size := fun entry member =>
    Nat.ne_of_lt (Heap.lt_size_of_isAlive (sound.alive entry member))
  have entries : b.symbols.entries = c.entries ++ [(name, c.bridge.heap.objects.size)] := by
    rw [symbols]
  constructor
  case reachable => exact reachable
  case fits =>
    show b.ledger.Fits .any nodes
    rw [ledger]
    exact sound.fits
  case held => exact sound.held
  case distinct =>
    show b.symbols.Distinct
    rw [symbols]
    exact sound.distinct.add new fresh
  case asked =>
    show ∀ p ∈ c.interned ++ _, p.1 ∈ c.ropes ∧ ∃ entry ∈ b.symbols.entries, _
    rw [entries, List.forall_mem_append, List.forall_mem_singleton]
    refine ⟨fun p member => ?_, known, _, List.mem_append_right _ List.mem_cons_self, rfl, rfl⟩
    obtain ⟨held, entry, old, fine⟩ := sound.asked p member
    exact ⟨held, entry, List.mem_append_left _ old, fine⟩
  case entered =>
    show ∀ entry ∈ b.symbols.entries, _ ∈ c.interned ++ _
    rw [entries, List.forall_mem_append, List.forall_mem_singleton]
    refine ⟨fun entry member => ?_, List.mem_append_right _ List.mem_cons_self⟩
    exact List.mem_append_left _ (sound.entered entry member)
  case named =>
    show ∀ entry ∈ b.symbols.entries, ∃ leaf ∈ nodes, b.heap.symbolName? entry.2 = some leaf ∧ _
    rw [entries, heap, List.forall_mem_append, List.forall_mem_singleton]
    refine ⟨fun entry member => ?_, leaf, flat, Heap.symbolName?_add_self leaf, shape, same⟩
    obtain ⟨old, known, named, fine⟩ := sound.named entry member
    exact ⟨old, known, Heap.symbolName?_add _ named, fine⟩

/-- A name is interned as the symbol of its spelling. -/
theorem intern (sound : c.Sound o nodes) (known : name ∈ c.ropes) :
    ∃ more, (c.intern name).Sound o more ∧ Later c (c.intern name) := by
  have run : c.system.Run [] (c.intern name).system :=
    .of_move (.act (.beside (Bridge.intern_beside name)))
  obtain ⟨more, grown, fits, made⟩ := SymbolTable.intern_makes Reading.any_lawful sound.keys
    (sound.held known) c.bridge.heap c.ledger sound.fits
  obtain ⟨⟨⟨symbol, table, heap⟩, l⟩, ran⟩ : ∃ result,
    (c.bridge.symbols.intern c.bridge.heap name).run c.ledger = result := ⟨_, rfl⟩
  have state : c.intern name = { c with
      system.bridge := { c.bridge with ledger := l, symbols := table, heap }
      interned := c.interned ++ [(name, .object symbol)] } := by
    unfold Lexicon.intern
    rw [Bridge.intern_run, ran]
  rw [ran] at fits made
  rw [state] at run ⊢
  obtain ⟨informed, later⟩ := sound.inform grown fits (List.Subset.refl _)
    (List.Subset.trans sound.held grown)
  rcases made with ⟨entry, found, made⟩ | ⟨new, leaf, flat, shape, same, made⟩
  · cases made
    obtain ⟨member, same⟩ := SymbolTable.mem_of_entryFor? found
    exact ⟨more, informed.again known member same,
      { later with interned := List.prefix_append _ _ }⟩
  · cases made
    obtain ⟨es, reached⟩ := sound.reachable
    refine ⟨more, informed.enter known flat shape same new ⟨_, reached.trans run⟩ rfl rfl rfl, ?_⟩
    refine ⟨⟨_, run⟩, List.Subset.refl _, List.prefix_append _ _, List.prefix_append _ _, ?_⟩
    intro entry member
    obtain ⟨old, _, named, _⟩ := sound.named entry member
    exact (Heap.symbolName?_add _ named).trans named.symm

theorem step (sound : c.Sound o nodes) (step : c.Step c') :
    ∃ more, c'.Sound o more ∧ Later c c' := by
  cases step with
  | perform d => exact sound.perform d
  | intern known => exact sound.intern known
  | look known => exact ⟨nodes, sound.look known⟩
  | move move leaves => exact ⟨nodes, sound.move move leaves⟩

theorem leads (sound : c.Sound o nodes) (leads : c.Leads c') :
    ∃ more, c'.Sound o more ∧ Later c c' := by
  induction leads with
  | refl => exact ⟨nodes, sound, .refl c⟩
  | tail _ step ih =>
    obtain ⟨between, sound', later⟩ := ih
    obtain ⟨more, sound'', later'⟩ := sound'.step step
    exact ⟨more, sound'', later.trans later'⟩

/-- The symbol of a text is that of its spelling, and its handle is the one that the symbol gets. -/
theorem internText (sound : c.Sound o nodes) (text : StorableText) :
    ∃ more, (c.internText text).Sound o more ∧ Later c (c.internText text) ∧
      ∃ p ∈ (c.internText text).interned, p.1.spelling = (.utf8, text.1.toUTF8.toList) ∧
        ∀ me, (Bridge.symbolHandle me text.1).run c.bridge =
          (Bridge.wrap me p.2).run (c.internText text).bridge := by
  obtain ⟨_, _, _, denotes⟩ := Rope.utf8_makes Reading.any_lawful text.2 c.ledger sound.fits
  obtain ⟨more, sound', later⟩ := sound.leads (leads_internText c text)
  let made := c.perform (.use (.call (.utf8 text)))
  let name := ((Rope.utf8 text).run c.ledger).1
  refine ⟨more, sound', later, (name, ((Bridge.intern name).run made.bridge).1), ?_,
    denotes.spelling, fun me => rfl⟩
  exact List.mem_append_right _ List.mem_cons_self

/-- Names have come to one symbol if they are spelled alike, and only then. -/
theorem symbol_eq_iff (sound : c.Sound o nodes) {p q : Rope × Value} (hp : p ∈ c.interned)
    (hq : q ∈ c.interned) : p.2 = q.2 ↔ p.1.spelling = q.1.spelling := by
  obtain ⟨_, a, among, spelled, symbol⟩ := sound.asked p hp
  obtain ⟨_, b, among', spelled', symbol'⟩ := sound.asked q hq
  rw [symbol, symbol', ← spelled, ← spelled', Value.object.injEq]
  constructor
  · intro same
    rw [List.inj_on_of_nodup_map sound.distinct.symbols among among' same]
  · intro same
    rw [List.inj_on_of_nodup_map sound.distinct.names among among' same]

end Sound

/-- The names that have been interned are the spellings that the table has. -/
theorem Sound.size_eq (sound : c.Sound o nodes) :
    c.bridge.symbols.size = (c.interned.map (·.1.spelling)).dedup.length := by
  have spellings : (c.entries.map (·.1.spelling)).Perm (c.interned.map (·.1.spelling)).dedup := by
    refine (List.perm_ext_iff_of_nodup sound.distinct.names (List.nodup_dedup _)).2 fun x => ?_
    rw [List.mem_dedup]
    constructor
    · intro member
      obtain ⟨entry, among, rfl⟩ := List.mem_map.1 member
      exact List.mem_map.2 ⟨_, sound.entered entry among, rfl⟩
    · intro member
      obtain ⟨p, among, rfl⟩ := List.mem_map.1 member
      obtain ⟨_, entry, there, same, _⟩ := sound.asked p among
      exact List.mem_map.2 ⟨entry, there, same⟩
  rw [← spellings.length_eq, List.length_map]
  rfl

theorem Sound.lookup_eq_some_iff (sound : c.Sound o nodes) (known : name ∈ c.ropes)
    {id : ObjectId} : c.lookup name = some id ↔
      ∃ p ∈ c.interned, p.1.spelling = name.spelling ∧ p.2 = .object id := by
  have answers := SymbolTable.lookup_answers (R := .any) sound.keys (sound.held known)
  obtain ⟨_, answer⟩ := answers c.ledger sound.fits
  rw [lookup, answer, Option.map_eq_some_iff]
  constructor
  · rintro ⟨entry, found, rfl⟩
    obtain ⟨member, same⟩ := SymbolTable.mem_of_entryFor? found
    exact ⟨_, sound.entered entry member, same, rfl⟩
  · rintro ⟨p, among, same, symbol⟩
    obtain ⟨_, entry, member, spelled, object⟩ := sound.asked p among
    refine ⟨entry, sound.distinct.entryFor?_eq_some_iff.2 ⟨member, spelled.trans same⟩, ?_⟩
    exact Value.object.inj (object.symm.trans symbol)

/-- A handle unwraps to the symbol that a text has been interned as. -/
def StandsFor (c : Lexicon) (h : Handle) (text : StorableText) : Prop :=
  ∃ p ∈ c.interned, p.1.encoding = .utf8 ∧
    (p.1.bytes.run c.ledger).1 = text.1.toUTF8.toList ∧ c.bridge.unwrap h = .ok p.2

/-- What interning comes to, whatever happens later. -/
structure Interns (c : Lexicon) : Prop where
  symbols : ∀ p ∈ c.interned, ∀ q ∈ c.interned, p.2 = q.2 ↔
    p.1.encoding = q.1.encoding ∧ (p.1.bytes.run c.ledger).1 = (q.1.bytes.run c.ledger).1
  equal : ∀ p ∈ c.interned, ∀ q ∈ c.interned,
    p.2 = q.2 ↔ ((p.1.equal q.1).run c.ledger).1 = true
  found : ∀ name ∈ c.ropes, ∀ id, c.lookup name = some id ↔
    ∃ p ∈ c.interned, ((p.1.equal name).run c.ledger).1 = true ∧ p.2 = .object id
  named : ∀ p ∈ c.interned, ∃ id leaf, p.2 = .object id ∧
    c.bridge.heap.symbolName? id = some leaf ∧ leaf.isLeaf = true ∧
      ((leaf.equal p.1).run c.ledger).1 = true
  size : c.bridge.symbols.size =
    (c.interned.map fun p => (p.1.encoding, (p.1.bytes.run c.ledger).1)).dedup.length
  kept : ∀ c', c.Leads c' → c.interned <+: c'.interned ∧
    ∀ p ∈ c.interned, ∀ id, p.2 = .object id → c'.lookup p.1 = some id ∧
      c'.bridge.heap.isAlive id = true ∧
        c'.bridge.heap.symbolName? id = c.bridge.heap.symbolName? id
  /-- Interning a text and getting its handle are a few of the steps each. -/
  texts : ∀ text, c.Leads (c.internText text) ∧ ∀ me, c.Leads (c.symbolHandle me text)
  handles : ∀ me text c', (c.symbolHandle me text).Leads c' →
    ∀ me', ((Bridge.symbolHandle me' text.1).run c'.bridge).1 =
      ((Bridge.symbolHandle me text.1).run c.bridge).1
  stands : ∀ me text, (c.symbolHandle me text).bridge.handles.InRegion →
    ∀ c', (c.symbolHandle me text).Leads c' →
      c'.StandsFor ((Bridge.symbolHandle me text.1).run c.bridge).1 text

/-- What a name has come to keeps its handle, as the table holds the symbol. -/
theorem Sound.keepsHandle (sound : c.Sound o nodes) {p : Rope × Value} (among : p ∈ c.interned)
    {h : Handle} (names : c.bridge.Names p.2 h) (sound' : c'.Sound o more) (later : Later c c') :
    c'.bridge.Names p.2 h := by
  obtain ⟨_, entry, member, _, object⟩ := sound.asked p among
  obtain ⟨es, run⟩ := later.run
  obtain ⟨log, faithful⟩ := sound.reachable.sound.faithful
  refine names.kept (run.onward sound.reachable.sound) fun w id found pinned => ?_
  obtain ⟨other, pinned', stands⟩ := faithful.stands_of_lookup found
  cases pinned.symm.trans pinned'
  rw [object] at stands
  obtain same | ⟨_, different, _⟩ := stands
  · cases same
    exact sound'.alive entry (later.entries.subset member)
  · exact nomatch different

/-- The handle of a symbol unwraps to the symbol for good. -/
theorem Sound.unwrap (sound : c.Sound o nodes) {p : Rope × Value} (among : p ∈ c.interned)
    {h : Handle} (names : c.bridge.Names p.2 h) (fits : c.bridge.handles.InRegion)
    (sound' : c'.Sound o more) (later : Later c c') : c'.bridge.unwrap h = .ok p.2 := by
  obtain ⟨_, entry, member, _, object⟩ := sound.asked p among
  obtain ⟨es, run⟩ := later.run
  obtain ⟨log, faithful⟩ := sound.reachable.sound.faithful
  have plain : c.bridge.heap.Plain p.2 := by
    rw [object]
    rintro id ⟨⟩
    obtain ⟨leaf, _, named, _⟩ := sound.named entry member
    exact Heap.boxed?_of_symbolName? named
  have unwraps := names.unwrap faithful fits plain
  refine (run.onward sound.reachable.sound).unwrap unwraps fun id resolves => ?_
  have read := Except.ok.inj ((Bridge.unwrap_of_resolves resolves).symm.trans unwraps)
  rw [Heap.read_eq_object (read.trans object)]
  exact sound'.alive entry (later.entries.subset member)

/-- Getting the handle of a text is interning it and wrapping its symbol. -/
theorem Sound.wrapText (sound : c.Sound o nodes) (me : ThreadId) (text : StorableText) :
    c.Leads (c.symbolHandle me text) ∧
      ∃ p ∈ (c.symbolHandle me text).interned, p.1.spelling = (.utf8, text.1.toUTF8.toList) ∧
        (c.symbolHandle me text).bridge.Names p.2
          ((Bridge.symbolHandle me text.1).run c.bridge).1 := by
  obtain ⟨more, sound', _, p, among, spelled, ran⟩ := sound.internText text
  obtain ⟨_, entry, member, _, object⟩ := sound'.asked p among
  have has : (c.internText text).bridge.heap.Has p.2 := by
    rw [object]
    exact Heap.has_object.2 (sound'.alive entry member)
  obtain ⟨log, faithful⟩ := sound'.reachable.sound.faithful
  have wraps := Bridge.wrap_wraps me p.2 (c.internText text).bridge
  have act := Bridge.Act.wrap me p.2 has
  rw [← ran me] at wraps act
  have handles := (leads_internText c text).tail (.move (.act act) wraps.leavesNames)
  exact ⟨handles, p, among, spelled, wraps.names faithful has⟩

/-- A text gets the same handle again. -/
theorem Sound.symbolHandle_eq (sound : c.Sound o nodes) {text : StorableText} (me me' : ThreadId)
    (leads : (c.symbolHandle me text).Leads c') :
    ((Bridge.symbolHandle me' text.1).run c'.bridge).1 =
      ((Bridge.symbolHandle me text.1).run c.bridge).1 := by
  obtain ⟨handles, p, among, spelled, names⟩ := sound.wrapText me text
  obtain ⟨_, handled, _⟩ := sound.leads handles
  obtain ⟨_, sound', later⟩ := handled.leads leads
  obtain ⟨_, again, later', q, among', spelled', ran⟩ := sound'.internText text
  have known := later'.interned.subset (later.interned.subset among)
  have same : q.2 = p.2 := (again.symbol_eq_iff among' known).2 (spelled'.trans spelled.symm)
  have names' := handled.keepsHandle among names again (later.trans later')
  rw [ran, same, Bridge.wrap_of_names names']

/-- A handle that a text has got stands for the text from then on. -/
theorem Sound.standsFor (sound : c.Sound o nodes) {me : ThreadId} {text : StorableText}
    (fits : (c.symbolHandle me text).bridge.handles.InRegion)
    (leads : (c.symbolHandle me text).Leads c') :
    c'.StandsFor ((Bridge.symbolHandle me text.1).run c.bridge).1 text := by
  obtain ⟨handles, p, among, spelled, names⟩ := sound.wrapText me text
  obtain ⟨_, handled, _⟩ := sound.leads handles
  obtain ⟨_, sound', later⟩ := handled.leads leads
  have known := later.interned.subset among
  have bytes := (Rope.bytes_answers (sound'.held (sound'.asked p known).1) _ sound'.fits).2
  obtain ⟨encoding, content⟩ := Prod.ext_iff.1 spelled
  exact ⟨p, known, encoding, bytes.trans content, handled.unwrap among names fits sound' later⟩

theorem leads_performAll (c : Lexicon) (deeds : List Deed) : c.Leads (deeds.foldl perform c) := by
  induction deeds generalizing c with
  | nil => exact .refl
  | cons d rest ih => exact .head (.perform d) (ih (c.perform d))

theorem ropes_performAll (c : Lexicon) (deeds : List Deed) :
    (deeds.foldl perform c).ropes = (Collection.performAll ⟨c.ledger, c.ropes⟩ deeds).ropes := by
  induction deeds generalizing c with
  | nil => rfl
  | cons d rest ih => exact ih (c.perform d)

/-- The text of one letter that the deeds of `Collection.met` make. -/
def oneLetter : StorableText := ⟨"\u0434", by decide +kernel⟩

theorem inRegion_oneLetter : ((Collection.met.foldl perform (ofOptions {})).symbolHandle 0
    oneLetter).bridge.handles.InRegion := by
  rw [ofOptions, System.ofOptions, Bridge.ofOptions, Ledger.initial, List.append_toArray]
  decide +kernel

theorem ropes_symbolHandle (c : Lexicon) (me : ThreadId) (text : StorableText) :
    c.ropes ⊆ (c.symbolHandle me text).ropes :=
  Collection.ropes_perform ⟨c.ledger, c.ropes⟩ (.use (.call (.utf8 text)))

theorem interned_intern (c : Lexicon) (name : Rope) :
    ∃ symbol, (c.intern name).interned = c.interned ++ [(name, symbol)] := ⟨_, rfl⟩

theorem ropes_intern (c : Lexicon) (name : Rope) : (c.intern name).ropes = c.ropes := rfl

theorem interned_symbolHandle (c : Lexicon) (me : ThreadId) (text : StorableText) :
    ∃ p, (c.symbolHandle me text).interned = c.interned ++ [p] := ⟨_, rfl⟩

/-- Interning goes by label and bytes alone, in every run. -/
theorem interns (leads : (ofOptions o).Leads c) : c.Interns := by
  obtain ⟨nodes, sound, _⟩ := (Sound.start o).leads leads
  have known : ∀ p ∈ c.interned, p.1 ∈ nodes := fun p member =>
    sound.held (sound.asked p member).1
  have bytes : ∀ p ∈ c.interned, (p.1.bytes.run c.ledger).1 = p.1.toBytes := fun p member =>
    (Rope.bytes_answers (known p member) _ sound.fits).2
  have equal : ∀ a ∈ nodes, ∀ b ∈ nodes,
      ((a.equal b).run c.ledger).1 = true ↔ a.spelling = b.spelling := by
    intro a knowna b knownb
    rw [Rope.spelling_eq_iff]
    exact (Rope.equal_answers knowna knownb _ sound.fits).2
  constructor
  case symbols =>
    intro p hp q hq
    rw [sound.symbol_eq_iff hp hq, Rope.spelling_eq_iff, bytes p hp, bytes q hq]
  case equal =>
    intro p hp q hq
    rw [sound.symbol_eq_iff hp hq, equal _ (known p hp) _ (known q hq)]
  case found =>
    intro name held id
    rw [sound.lookup_eq_some_iff held]
    refine exists_congr fun p => and_congr_right fun hp => ?_
    rw [equal _ (known p hp) _ (sound.held held)]
  case named =>
    intro p hp
    obtain ⟨_, entry, member, same, object⟩ := sound.asked p hp
    obtain ⟨leaf, flat, named, shape, spelled⟩ := sound.named entry member
    refine ⟨entry.2, leaf, object, named, shape, ?_⟩
    exact (equal _ flat _ (known p hp)).2 (spelled.trans same)
  case size =>
    rw [sound.size_eq]
    congr 2
    refine List.map_congr_left fun p hp => ?_
    rw [bytes p hp]
    rfl
  case kept =>
    intro c' further
    obtain ⟨more, sound', later⟩ := sound.leads further
    refine ⟨later.interned, fun p hp id object => ?_⟩
    have hp' := later.interned.subset hp
    obtain ⟨held, _⟩ := sound'.asked p hp'
    obtain ⟨_, entry, member, _, object'⟩ := sound.asked p hp
    cases object.symm.trans object'
    refine ⟨(sound'.lookup_eq_some_iff held).2 ⟨p, hp', rfl, object⟩, ?_, later.names entry member⟩
    exact sound'.alive entry (later.entries.subset member)
  case texts =>
    exact fun text => ⟨leads_internText c text, fun me => (sound.wrapText me text).1⟩
  case handles => exact fun me text c' further me' => sound.symbolHandle_eq me me' further
  case stands => exact fun me text fits c' further => sound.standsFor fits further

/-- The text gets a handle, and then a leaf and a rope in which its bytes meet are interned. -/
theorem interns_met :
    let made := Collection.met.foldl perform (ofOptions {})
    ∃ leaf ∈ made.ropes, ∃ joined ∈ made.ropes, leaf.isLeaf = true ∧ joined.isLeaf = false ∧
      let c := ((made.symbolHandle 0 oneLetter).intern leaf).intern joined
      (∃ text symbol, c.interned = [(text, symbol), (leaf, symbol), (joined, symbol)]) ∧
        c.bridge.symbols.size = 1 ∧
          c.StandsFor ((Bridge.symbolHandle 0 oneLetter.1).run made.bridge).1 oneLetter := by
  intro made
  have making : (ofOptions {}).Leads made := leads_performAll _ _
  have fits : (made.symbolHandle 0 oneLetter).bridge.handles.InRegion := inRegion_oneLetter
  have ropes : made.ropes = (Collection.start.performAll Collection.met).ropes :=
    ropes_performAll (ofOptions {}) Collection.met
  have before : made.interned = [] := rfl
  have flat : oneLetter.1.toUTF8.toList = [0xD0, 0xB4] := by decide +kernel
  clear_value made
  generalize oneLetter = text at fits flat ⊢
  obtain ⟨leaf, joined, first, last, shape, shape', spelled, spelled'⟩ := Collection.ropes_met
  rw [← Rope.spelling_eq_pair_iff] at spelled spelled'
  rw [← ropes] at first last
  have helda := List.mem_of_getElem? first
  have heldb := List.mem_of_getElem? last
  have held := ropes_symbolHandle made 0 text
  refine ⟨leaf, helda, joined, heldb, shape, shape', ?_⟩
  have naming : (made.symbolHandle 0 text).Leads
      (((made.symbolHandle 0 text).intern leaf).intern joined) := by
    refine .tail (.single (.intern (held helda))) (.intern ?_)
    rw [ropes_intern]
    exact held heldb
  have stands := (interns making).stands 0 text fits _ naming
  obtain ⟨_, sound, _⟩ := (Sound.start {}).leads making
  obtain ⟨handling, p, among, spelled'', _⟩ := sound.wrapText 0 text
  obtain ⟨_, sound', _⟩ := (Sound.start {}).leads ((making.trans handling).trans naming)
  obtain ⟨q, handled⟩ := interned_symbolHandle made 0 text
  obtain ⟨second, found⟩ := interned_intern (made.symbolHandle 0 text) leaf
  obtain ⟨third, again⟩ := interned_intern ((made.symbolHandle 0 text).intern leaf) joined
  rw [handled, before] at among
  cases List.mem_singleton.1 among
  rw [found, handled, before] at again
  rw [flat] at spelled''
  have symbol : ∀ name value, (name, value) ∈ [(leaf, second), (joined, third)] →
      name.spelling = (.utf8, [0xD0, 0xB4]) → value = p.2 := by
    intro name value member flat'
    have alike := flat'.trans spelled''.symm
    refine (sound'.symbol_eq_iff (p := (name, value)) ?_ (again ▸ List.mem_cons_self)).2 alike
    exact again ▸ List.mem_cons_of_mem p member
  cases symbol leaf second List.mem_cons_self spelled
  cases symbol joined third (List.mem_cons_of_mem _ List.mem_cons_self) spelled'
  refine ⟨⟨p.1, p.2, again⟩, ?_, stands⟩
  rw [sound'.size_eq, again]
  simp [spelled, spelled', spelled'']

end Lexicon

end RopeBridge
