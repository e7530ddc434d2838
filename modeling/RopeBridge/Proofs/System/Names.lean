import Mathlib.Data.List.Nodup
import RopeBridge.Proofs.Rope.Equality
import RopeBridge.Proofs.System.Exposure

/-! Names and the symbols they stand for. The table finds a name by its spelling, whatever the shape
of the rope and of the one it was entered with, and enters each spelling once. The rope of a symbol
is never replaced, so what leaves the table and the ledger alone leaves all names as they are. -/
namespace RopeBridge

/-- What makes two names one: label and bytes. -/
def Rope.spelling (r : Rope) : Encoding × List UInt8 := (r.encoding, r.toBytes)

theorem Rope.spelling_eq_pair_iff {r : Rope} {e : Encoding} {bytes : List UInt8} :
    r.spelling = (e, bytes) ↔ r.encoding = e ∧ r.toBytes = bytes := Prod.ext_iff

theorem Rope.spelling_eq_iff {a b : Rope} :
    a.spelling = b.spelling ↔ a.encoding = b.encoding ∧ a.toBytes = b.toBytes := Prod.ext_iff

theorem Rope.Denotes.spelling {nodes : List Rope} {e : Encoding} {bytes : List UInt8} {r : Rope}
    (h : r.Denotes nodes e bytes) : r.spelling = (e, bytes) :=
  Rope.spelling_eq_pair_iff.2 ⟨h.encoding, h.toBytes⟩

/-- A flat copy is a leaf. -/
theorem Rope.flatten_yieldsLeaf {R : Reading} {nodes : List Rope} {r : Rope} (known : r ∈ nodes) :
    r.flatten.Yields R nodes (·.isLeaf = true) := by
  unfold flatten
  split
  next leaf => exact .pure leaf
  next =>
    refine (bytes_answers known).thenYields fun bytes _ => ?_
    refine (knownCodeRange_answers known).thenYields fun x _ => ?_
    have made : (newLeaf r.encoding x bytes).Yields R nodes (·.isLeaf = true) := fun _ _ => rfl
    refine made.bind fun leaf shape l => ?_
    rw [StateT.run_bind]
    obtain ⟨length, l⟩ := StateT.run r.knownCharacterLength l
    cases length <;> exact shape

namespace SymbolTable

variable {R : Reading} {nodes : List Rope} {t : SymbolTable} {name : Rope} {id : ObjectId}

/-- Each spelling is entered once, and each symbol stands for one. -/
structure Distinct (t : SymbolTable) : Prop where
  names : (t.entries.map (·.1.spelling)).Nodup
  symbols : (t.entries.map (·.2)).Nodup

/-- The entry of a name, by its spelling. -/
def entryFor? (t : SymbolTable) (name : Rope) : Option (Rope × ObjectId) :=
  t.entries.find? fun entry => entry.1.spelling = name.spelling

theorem entryFor?_eq_none_iff :
    t.entryFor? name = none ↔ ∀ entry ∈ t.entries, entry.1.spelling ≠ name.spelling := by
  simp [entryFor?]

theorem mem_of_entryFor? {entry : Rope × ObjectId} (found : t.entryFor? name = some entry) :
    entry ∈ t.entries ∧ entry.1.spelling = name.spelling := by
  refine ⟨List.mem_of_find?_eq_some found, ?_⟩
  simpa using List.find?_some (show t.entries.find? _ = _ from found)

theorem Distinct.entryFor?_eq_some_iff (distinct : t.Distinct) {entry : Rope × ObjectId} :
    t.entryFor? name = some entry ↔ entry ∈ t.entries ∧ entry.1.spelling = name.spelling := by
  refine ⟨mem_of_entryFor?, ?_⟩
  rintro ⟨member, same⟩
  cases found : t.entryFor? name with
  | none => exact absurd same (entryFor?_eq_none_iff.1 found entry member)
  | some other =>
    obtain ⟨among, spelled⟩ := mem_of_entryFor? found
    rw [List.inj_on_of_nodup_map distinct.names among member (spelled.trans same.symm)]

theorem Distinct.add (distinct : t.Distinct) (new : t.entryFor? name = none)
    (fresh : ∀ entry ∈ t.entries, entry.2 ≠ id) : Distinct ⟨t.entries ++ [(name, id)]⟩ := by
  constructor
  · rw [List.map_append, List.nodup_append]
    refine ⟨distinct.names, List.pairwise_singleton _ _, ?_⟩
    intro spelling old _ last
    obtain ⟨entry, member, rfl⟩ := List.mem_map.1 old
    rw [List.mem_singleton.1 last]
    exact entryFor?_eq_none_iff.1 new entry member
  · rw [List.map_append, List.nodup_append]
    refine ⟨distinct.symbols, List.pairwise_singleton _ _, ?_⟩
    intro symbol old _ last
    obtain ⟨entry, member, rfl⟩ := List.mem_map.1 old
    rw [List.mem_singleton.1 last]
    exact fresh entry member

theorem findEqual_answers {entries : List (Rope × ObjectId)} (keys : ∀ e ∈ entries, e.1 ∈ nodes)
    (known : name ∈ nodes) :
    (entries.findM? fun entry => entry.1.equal name : Query _).Answers R nodes
      (· = entries.find? fun entry => entry.1.spelling = name.spelling) := by
  induction entries with
  | nil => exact .pure rfl
  | cons first rest ih =>
    obtain ⟨knownfirst, knownrest⟩ := List.forall_mem_cons.1 keys
    refine (Rope.equal_answers knownfirst known).bind fun same right => ?_
    have spelled : same = decide (first.1.spelling = name.spelling) := by
      rw [Bool.eq_iff_iff, right, decide_eq_true_iff, Rope.spelling_eq_iff]
    rw [List.find?_cons, ← spelled]
    cases same with
    | true => exact .pure rfl
    | false => exact ih knownrest

theorem lookup_answers (keys : ∀ entry ∈ t.entries, entry.1 ∈ nodes) (known : name ∈ nodes) :
    (t.lookup name).Answers R nodes (· = (t.entryFor? name).map (·.2)) := by
  unfold lookup
  split
  next empty => exact .pure (by simp [entryFor?, List.isEmpty_iff.1 empty])
  next =>
    refine (Rope.hashCode_answers known).bind fun _ _ => ?_
    refine (findEqual_answers keys known).bind fun found same => .pure ?_
    rw [same]
    rfl

/-- A name is found by its spelling, or entered with a leaf of that spelling. -/
theorem intern_makes (lawful : R.Lawful) (keys : ∀ entry ∈ t.entries, entry.1 ∈ nodes)
    (known : name ∈ nodes) (h : Heap) :
    (t.intern h name).Makes R nodes fun more made =>
      (∃ entry, t.entryFor? name = some entry ∧ made = (entry.2, t, h)) ∨
        t.entryFor? name = none ∧ ∃ leaf ∈ more, leaf.isLeaf = true ∧
          leaf.spelling = name.spelling ∧ made = (h.objects.size,
            ⟨t.entries ++ [(name, h.objects.size)]⟩, (h.add (.symbol leaf)).2) := by
  unfold intern
  refine (lookup_answers keys known).thenMakes fun found same => ?_
  cases spelled : t.entryFor? name with
  | some entry =>
    rw [same, spelled]
    exact .pure (.inl ⟨entry, rfl, rfl⟩)
  | none =>
    rw [same, spelled]
    refine (Rope.hashCode_answers known).thenMakes fun _ _ => ?_
    have flat : name.flatten.Makes R nodes fun more leaf =>
        leaf.Denotes more name.encoding name.toBytes ∧ leaf.isLeaf = true := by
      intro l fits
      obtain ⟨more, grown, fits', denotes⟩ := Rope.flatten_makes lawful known l fits
      exact ⟨more, grown, fits', denotes, Rope.flatten_yieldsLeaf known l fits⟩
    refine flat.bind fun more _ leaf flat => .pure (.inr ⟨rfl, ?_⟩)
    exact ⟨leaf, flat.1.known, flat.2, flat.1.spelling, rfl⟩

end SymbolTable

namespace Heap

variable {h : Heap} {id other : ObjectId} {name : Rope} {f : Object → Object}

/-- The rope of a symbol. -/
def symbolName? (h : Heap) (id : ObjectId) : Option Rope := (h.get? id).bind Object.symbolName?

/-- The content of a symbol is replaced. -/
def Renames (h : Heap) : Write → Prop
  | .replace id _ => h.kindOf id = .symbol
  | _ => False

theorem isAlive_of_symbolName? (named : h.symbolName? id = some name) : h.isAlive id := by
  obtain ⟨o, there, _⟩ := Option.bind_eq_some_iff.1 named
  exact isAlive_of_get? there

theorem symbolName?_eq_some_iff :
    h.symbolName? id = some name ↔ ∃ o, h.get? id = some o ∧ o.payload = .symbol name := by
  unfold symbolName?
  rw [Option.bind_eq_some_iff]
  refine exists_congr fun o => and_congr_right fun _ => ?_
  unfold Object.symbolName?
  split <;> simp_all

/-- A symbol is no box. -/
theorem boxed?_of_symbolName? (named : h.symbolName? id = some name) : h.boxed? id = none := by
  obtain ⟨o, there, symbol⟩ := symbolName?_eq_some_iff.1 named
  simp [boxed?, there, Object.boxed?, symbol]

theorem read_eq_object (read : h.read id = .object other) : id = other := by
  unfold Heap.read at read
  cases boxed : h.boxed? id with
  | none =>
    rw [boxed] at read
    exact Value.object.inj read
  | some n =>
    rw [boxed] at read
    cases read

theorem symbolName?_add_self (name : Rope) :
    (h.add (.symbol name)).2.symbolName? h.objects.size = some name := by
  simp [symbolName?, get?_add, Object.symbolName?]

theorem symbolName?_add (payload : Payload) (named : h.symbolName? id = some name) :
    (h.add payload).2.symbolName? id = some name := by
  have inside := lt_size_of_isAlive (isAlive_of_symbolName? named)
  unfold symbolName? at named ⊢
  rwa [get?_add, if_neg (Nat.ne_of_lt inside)]

theorem symbolName?_update (same : ∀ o, h.get? id = some o → (f o).symbolName? = o.symbolName?) :
    (h.update id f).symbolName? other = h.symbolName? other := by
  unfold symbolName?
  rw [get?_update]
  split
  next own =>
    subst own
    cases there : h.get? id with
    | none => rfl
    | some o => exact same o there
  next => rfl

theorem symbolName?_shareAll (worklist : List ObjectId) :
    (h.shareAll worklist).2.symbolName? id = h.symbolName? id := by
  fun_induction shareAll h worklist with
  | case1 h => rfl
  | case2 h first rest _ reached n shared made ih =>
    rw [made] at ih
    exact ih.trans (symbolName?_update fun _ _ => rfl)
  | case3 h first rest _ ih => exact ih

/-- A symbol keeps its rope until it dies. -/
theorem symbolName?_write {w : Write} (keeps : ¬ h.Renames w) (named : h.symbolName? id = some name)
    (alive : (h.write w).isAlive id) : (h.write w).symbolName? id = some name := by
  cases w with
  | nothing => exact named
  | make payload => exact symbolName?_add payload named
  | push array v =>
    refine (symbolName?_update ?_).trans named
    rintro ⟨payload, shared, marked⟩ _
    cases payload <;> rfl
  | share v => exact (symbolName?_shareAll _).trans named
  | assign owner marked =>
    rw [← named]
    exact symbolName?_update fun _ _ => rfl
  | replace other payload =>
    have apart : other ≠ id := by
      rintro rfl
      obtain ⟨o, there, symbol⟩ := symbolName?_eq_some_iff.1 named
      exact keeps (by simp [Renames, kindOf, there, Object.kind, symbol])
    unfold symbolName? at named ⊢
    rwa [write, setPayload, get?_update, if_neg apart]
  | settle roots =>
    obtain ⟨o, there⟩ := isAlive_iff.1 alive
    obtain ⟨o', before, symbol⟩ := symbolName?_eq_some_iff.1 named
    cases (get?_settle there).symm.trans before
    exact symbolName?_eq_some_iff.2 ⟨o, there, symbol⟩

end Heap

namespace Bridge

variable {b b' : Bridge} {es : List Event} {α : Type} {v : Value}

/-- Nothing happens to names: neither to the table, nor to the ledger, nor to any symbol. -/
structure LeavesNames (b b' : Bridge) : Prop where
  ledger : b'.ledger = b.ledger
  symbols : b'.symbols = b.symbols
  heap : ∃ w, b'.heap = b.heap.write w ∧ ¬ b.heap.Renames w

theorem LeavesNames.within {heap : Heap} (w : Heap.Write) (written : heap = b.heap.write w)
    (keeps : ¬ b.heap.Renames w) : b.LeavesNames { b with heap } := ⟨rfl, rfl, w, written, keeps⟩

theorem LeavesNames.refl (b : Bridge) : b.LeavesNames b := ⟨rfl, rfl, .nothing, rfl, id⟩

/-- Objects that are made otherwise than by the table may be symbols, but not those of the table. -/
theorem newObject_leavesNames (payload : Payload) :
    b.LeavesNames ((newObject payload).run b).2 := .within (.make payload) rfl id

theorem push_leavesNames (array v : Value) : b.LeavesNames ((push array v).run.run b).2 := by
  rcases push_cases array v b with refused | ⟨array, pushed⟩
  · rw [refused]
    exact .refl b
  · rw [pushed]
    exact .within (.push array v) rfl id

theorem share_leavesNames (v : Value) : b.LeavesNames ((share v).run b).2 :=
  .within (.share v) rfl id

theorem setPointer_leavesNames {id : ObjectId} (typeName : String) (word : UInt64)
    (data : b.heap.kindOf id = .data) :
    b.LeavesNames { b with heap := b.heap.setPayload id (.data typeName word) } := by
  refine .within (.replace id (.data typeName word)) rfl fun renames => ?_
  exact nomatch data.symm.trans renames

theorem newNativeString_leavesNames (byteLength : Nat) :
    b.LeavesNames ((newNativeString byteLength).run.run b).2 := by
  rcases newNativeString_cases byteLength b with refused | ⟨text, finalization, made⟩
  · rw [refused]
    exact .refl b
  · rw [made]
    exact ⟨rfl, rfl, .make (.string (.native text)), rfl, id⟩

theorem startThread_leavesNames : b.LeavesNames b.startThread.2 := { LeavesNames.refl b with }

theorem withLock_leavesNames (me : ThreadId) (wait : LockWait → α × LockWait) :
    b.LeavesNames ((withLock me wait).run b).2 := { LeavesNames.refl b with }

theorem unlock_leavesNames (me : ThreadId) : b.LeavesNames ((unlock me).run b).2 := by
  obtain ⟨lock, unlocked⟩ := unlock_eq me b
  rw [unlocked]
  exact { LeavesNames.refl b with }

theorem releaseLock_leavesNames (me : ThreadId) : b.LeavesNames ((releaseLock me).run b).2 :=
  { LeavesNames.refl b with }

/-- Nothing is asked about ropes, and no name is interned. -/
def Errand.Quiet : Errand → Prop
  | .ask _ | .concat .. | .onString .. | .intern _ => False
  | _ => True

/-- What is quiet leaves names alone. -/
theorem Errand.perform_leavesNames {e : Errand} (quiet : e.Quiet) (fits : e.Fits b) :
    b.LeavesNames (e.perform b) := by
  cases e with
  | ask q => cases quiet
  | concat left right => cases quiet
  | onString v op => cases quiet
  | intern name => cases quiet
  | newObject payload => exact newObject_leavesNames payload
  | newNativeString byteLength => exact newNativeString_leavesNames byteLength
  | push array v => exact push_leavesNames array v
  | share v => exact share_leavesNames v
  | setPointer id typeName word =>
    obtain ⟨o, pointer, there, data⟩ := fits
    exact setPointer_leavesNames typeName word (by simp [Heap.kindOf, there, Object.kind, data])
  | startThread => exact startThread_leavesNames
  | withLock me wait => exact withLock_leavesNames me wait
  | unlock me => exact unlock_leavesNames me
  | releaseLock me => exact releaseLock_leavesNames me
  | contend =>
    obtain ⟨lock, contender, contends⟩ := contend_eq b
    change b.LeavesNames b.contend
    rw [contends]
    exact { startThread_leavesNames with }
  | dismissContender =>
    obtain ⟨lock, contender, dismisses⟩ := dismissContender_eq b
    change b.LeavesNames b.dismissContender
    rw [dismisses]
    exact { LeavesNames.refl b with }
  | finalize f => exact { LeavesNames.refl b with }
  | post me action => exact { LeavesNames.refl b with }
  | count me scans => exact { LeavesNames.refl b with }
  | hold clients => exact { LeavesNames.refl b with }

theorem Wraps.leavesNames {me : ThreadId} {h : Handle} (wraps : b.Wraps me v h b') :
    b.LeavesNames b' := by
  cases wraps with
  | word _ => exact .refl b
  | found _ _ => exact .refl b
  | entered _ _ exposes _ =>
    cases exposes with
    | object => exact ⟨rfl, rfl, .share _, rfl, id⟩
    | number n => exact ⟨rfl, rfl, .make (.boxed n), rfl, id⟩

/-- Acts leave names alone, if what happens beside handles does. -/
theorem Act.leavesNames (act : b.Act es b') (beside : b.Beside b' → b.LeavesNames b') :
    b.LeavesNames b' := by
  cases act with
  | beside happens => exact beside happens
  | wrap me v _ => exact (wrap_wraps me v b).leavesNames
  | retire me =>
    rw [retire_eq]
    exact { LeavesNames.refl b with }
  | release => exact { LeavesNames.refl b with }
  | setMarked owner vs _ => exact .within (.assign owner vs) rfl id
  | addMarker m _ => exact { LeavesNames.refl b with }
  | enqueue vs _ => exact { LeavesNames.refl b with }
  | keepObject v _ => exact { LeavesNames.refl b with }
  | push me block _ => exact { LeavesNames.refl b with }
  | keepInFrame me v _ => exact { LeavesNames.refl b with }
  | pop me => exact { LeavesNames.refl b with }
  | clear me => exact { LeavesNames.refl b with }

end Bridge

/-- Every move leaves names alone, if what happens beside handles does. -/
theorem System.Move.leavesNames {s s' : System} {es : List Event} (move : s.Move es s')
    (beside : s.bridge.Beside s'.bridge → s.bridge.LeavesNames s'.bridge) :
    s.bridge.LeavesNames s'.bridge := by
  cases move with
  | act act => exact act.leavesNames beside
  | settle => exact .within (.settle s.roots) rfl id
  | @finish me waiting turn _ =>
    exact .within (.assign turn.marker.owner turn.session.marks) rfl id
  | start me _ => exact { Bridge.LeavesNames.refl s.bridge with }
  | drop _ _ _ _ _ _ => exact { Bridge.LeavesNames.refl s.bridge with }
  | enter _ => exact { Bridge.LeavesNames.refl s.bridge with }
  | begin _ => exact .refl s.bridge
  | mark h _ => exact .refl s.bridge
  | fail _ => exact .refl s.bridge
  | leave _ => exact { Bridge.LeavesNames.refl s.bridge with }

end RopeBridge
