import RopeBridge.Proofs.Rope.Client

/-! The shape of ropes. An operation makes a node only where no node there is will do: it leaves out
empty sides, windows of windows and windows that a part holds, and it makes no node without bytes.
So the nodes of every rope have a normal form. -/
namespace RopeBridge

namespace Rope

/-- The nodes of a rope: itself and those of its parts. -/
inductive Within (n : Rope) : Rope → Prop
  | self : Within n n
  | part {p r : Rope} : p ∈ r.parts → Within n p → Within n r

/-- No smaller part of a rope holds the window, as far as the parts have its encoding. A window of a
repetition goes over the end of a unit. -/
def Crosses (e : Encoding) (offset length : Nat) : Rope → Prop
  | leaf .. => True
  | joined _ left right =>
    (left.encoding = e → left.byteLength < offset + length) ∧
      (right.encoding = e → offset < left.byteLength)
  | excerpt .. => False
  | repeated _ unit _ =>
    ∃ k, offset < k * unit.byteLength ∧ k * unit.byteLength < offset + length

/-- A window that takes a node of its own. -/
structure Window (n : Node) (child : Rope) (offset : Nat) : Prop where
  encoding : n.encoding = child.encoding
  positive : 0 < n.byteLength
  shorter : n.byteLength < child.byteLength
  inside : offset + n.byteLength ≤ child.byteLength
  /-- For single bytes there are canonical nodes. -/
  several : n.encoding.asciiCompatible = true → 2 ≤ n.byteLength
  crosses : Crosses n.encoding offset n.byteLength child

/-- Nothing simpler would do in place of the node. -/
def Warranted : Rope → Prop
  | leaf .. => True
  | joined _ left right => 0 < left.byteLength ∧ 0 < right.byteLength
  | excerpt n child offset => Window n child offset
  | repeated n child times => n.encoding = child.encoding ∧ 0 < child.byteLength ∧ 2 ≤ times

/-- The normal form of a node. -/
structure Normal (r : Rope) : Prop where
  warranted : r.Warranted
  canonical : r.byteLength = 0 → r = empty r.encoding
  height : r.depth = (r.parts.map depth).foldr max 0 + 1

/-- All nodes of a rope have normal form. -/
def Trim (r : Rope) : Prop := ∀ n, Within n r → n.Normal

theorem Trim.normal {r : Rope} (h : r.Trim) : r.Normal := h r .self

theorem Trim.part {r p : Rope} (h : r.Trim) (part : p ∈ r.parts) : p.Trim :=
  fun n within => h n (.part part within)

theorem Normal.trim {r : Rope} (h : r.Normal) (parts : ∀ p ∈ r.parts, p.Trim) : r.Trim := by
  intro n within
  cases within with
  | self => exact h
  | part member within => exact parts _ member n within

theorem trim_leaf {n : Node} {bytes : List UInt8} (canonical : n.byteLength ≠ 0)
    (height : n.depth = 1) : (leaf n bytes).Trim :=
  Normal.trim ⟨trivial, fun none => absurd none canonical, height⟩ fun _ part => nomatch part

theorem trim_empty (e : Encoding) : (empty e).Trim :=
  Normal.trim ⟨trivial, fun _ => rfl, rfl⟩ fun _ part => nomatch part

theorem trim_singleByte (e : Encoding) (b : UInt8) : (singleByte e b).Trim :=
  trim_leaf (Nat.one_ne_zero) rfl

/-- Both sides of a seam have bytes. -/
theorem joined_trim {n : Node} {a b : Rope} (trima : a.Trim) (trimb : b.Trim)
    (somea : 0 < a.byteLength) (someb : 0 < b.byteLength)
    (size : n.byteLength = a.byteLength + b.byteLength)
    (height : n.depth = max a.depth b.depth + 1) : (joined n a b).Trim := by
  refine Normal.trim ⟨⟨somea, someb⟩, fun none => ?_, ?_⟩ fun p part => ?_
  · have none : n.byteLength = 0 := none
    omega
  · show n.depth = _
    simp [height, parts]
  · simp only [parts, List.mem_cons, List.not_mem_nil, or_false] at part
    rcases part with rfl | rfl
    · exact trima
    · exact trimb

theorem excerpt_trim {n : Node} {child : Rope} {offset : Nat} (trim : child.Trim)
    (window : Window n child offset) (height : n.depth = child.depth + 1) :
    (excerpt n child offset).Trim := by
  refine Normal.trim ⟨window, fun none => ?_, ?_⟩ fun p part => ?_
  · exact absurd none (Nat.ne_of_gt window.positive)
  · show n.depth = _
    simp [height, parts]
  · obtain rfl := List.mem_singleton.1 part
    exact trim

theorem repeated_trim {n : Node} {child : Rope} {times : Nat} (trim : child.Trim)
    (label : n.encoding = child.encoding) (some : 0 < child.byteLength) (several : 2 ≤ times)
    (size : n.byteLength = child.byteLength * times) (height : n.depth = child.depth + 1) :
    (repeated n child times).Trim := by
  refine Normal.trim ⟨⟨label, some, several⟩, fun none => ?_, ?_⟩ fun p part => ?_
  · have bytes : 0 < child.byteLength * times := Nat.mul_pos some (by omega)
    have none : n.byteLength = 0 := none
    omega
  · show n.depth = _
    simp [height, parts]
  · obtain rfl := List.mem_singleton.1 part
    exact trim

/-- The depth of a concatenation is within bounds, but for what has no parts or is there already. -/
structure Bounded (maxDepth : Nat) (a b r : Rope) : Prop where
  trim : r.Trim
  bounded : r.depth ≤ maxDepth ∨ r.isLeaf ∨ b.byteLength = 0 ∧ r = a ∨ a.byteLength = 0 ∧ r = b

/-- Where the first and the last byte of a window are in different units, one of the units ends in
between. -/
theorem exists_seam {unit offset length : Nat} (positive : 0 < unit) (some : 0 < length)
    (apart : offset / unit ≠ (offset + length - 1) / unit) :
    ∃ k, offset < k * unit ∧ k * unit < offset + length := by
  refine ⟨(offset + length - 1) / unit, ?_, ?_⟩
  · have order : offset / unit ≤ (offset + length - 1) / unit := Nat.div_le_div_right (by omega)
    exact (Nat.div_lt_iff_lt_mul positive).1 (by omega)
  · have last := Nat.div_mul_le_self (offset + length - 1) unit
    omega

end Rope

variable {R : Reading} {nodes : List Rope}

namespace Rope

variable {r : Rope}

theorem newLeaf_yields {e : Encoding} {x : CodeRange} {bytes : List UInt8} (some : bytes ≠ []) :
    (newLeaf e x bytes).Yields R nodes fun s => s.Trim ∧ s.isLeaf := by
  refine Query.yields_newNode.bind ?_
  rintro n ⟨-, size, height⟩ _
  refine ⟨trim_leaf ?_ height, rfl⟩
  rwa [size, ne_eq, List.length_eq_zero_iff]

theorem ofBytes_yields (e : Encoding) (bytes : List UInt8) (x : CodeRange) :
    (ofBytes e bytes x).Yields R nodes Trim := by
  unfold ofBytes
  split
  next => exact .pure (trim_empty e)
  next some => exact (newLeaf_yields some).mono fun _ trim => trim.1

theorem bytes_ne_nil (closed : Closed nodes) (known : r ∈ nodes) (some : r.byteLength ≠ 0) :
    r.toBytes ≠ [] :=
  mt (closed.sound r known).toBytes_eq_nil_iff.1 some

theorem flatten_yields (known : r ∈ nodes) (trim : r.Trim) : r.flatten.Yields R nodes Trim := by
  refine .closed fun closed => ?_
  unfold flatten
  split
  next => exact .pure trim
  next inner =>
    -- the only rope without bytes is a leaf
    have some : r.byteLength ≠ 0 := by
      intro none
      rw [trim.normal.canonical none] at inner
      exact inner rfl
    refine (bytes_answers known).thenYields fun bytes same => ?_
    subst same
    refine (knownCodeRange_answers known).thenYields fun x _ => ?_
    refine (newLeaf_yields (bytes_ne_nil closed known some)).bind fun s made l => ?_
    rw [StateT.run_bind]
    obtain ⟨length, l⟩ := StateT.run r.knownCharacterLength l
    cases length <;> exact made.1

theorem view_yields {offset length : Nat} (known : r ∈ nodes) (trim : r.Trim)
    (window : ∀ n : Node, n.encoding = r.encoding → n.byteLength = length → Window n r offset) :
    (r.view offset length).Yields R nodes Trim := by
  unfold view
  refine .ask (knownCodeRange_answers known) fun x _ => ?_
  dsimp only
  refine .map (.lift Query.yields_newNode) fun n made => ?_
  obtain ⟨label, size, height⟩ := made
  exact excerpt_trim trim (window n label size) height

/-- Where nothing simpler will do, a window is shorter than the rope and not too short. -/
theorem narrow_yields (known : r ∈ nodes) (trim : r.Trim) {offset length : Nat}
    {cut : Build Rope}
    (cuts : 0 < length → length < r.byteLength → offset + length ≤ r.byteLength →
      (r.encoding.asciiCompatible = true → 2 ≤ length) → cut.Yields R nodes Trim) :
    (r.narrow offset length cut).Yields R nodes Trim := by
  unfold narrow
  dsimp only
  split
  next => exact .fail
  next =>
    split
    next => exact .fail
    next inside =>
      split
      next => exact .pure (trim_empty _)
      next some =>
        split
        next => exact .pure trim
        next part =>
          split
          next =>
            refine .bind (getByte_answers known offset).makes fun _ byte _ _ => ?_
            exact .pure (trim_singleByte _ byte)
          next several =>
            refine cuts (by omega) (by omega) (by omega) fun compatible => ?_
            have several : length ≠ 1 := fun one => several ⟨one, compatible⟩
            omega

theorem substring_yields (known : r ∈ nodes) (trim : r.Trim) (offset length : Nat) :
    (r.substring offset length).Yields R nodes Trim := by
  refine .closed fun closed => ?_
  -- a window that crosses the seams of the rope it is cut from takes a node
  have viewed : ∀ {r : Rope} {offset length : Nat}, r ∈ nodes → r.Trim → 0 < length →
      length < r.byteLength → offset + length ≤ r.byteLength →
      (r.encoding.asciiCompatible = true → 2 ≤ length) → Crosses r.encoding offset length r →
      (r.view offset length).Yields R nodes Trim := by
    intro r offset length known trim some shorter inside several crosses
    refine view_yields known trim fun n label size => ?_
    subst size
    exact ⟨label, some, shorter, inside, label ▸ several, label ▸ crosses⟩
  induction r generalizing offset length with
  | leaf n bytes =>
    rw [substring]
    refine narrow_yields known trim fun some shorter inside several => ?_
    exact viewed known trim some shorter inside several trivial
  | joined n left right ihl ihr =>
    have knownl := closed.parts _ known left (by simp [parts])
    have knownr := closed.parts _ known right (by simp [parts])
    have triml := trim.part (p := left) (by simp [parts])
    have trimr := trim.part (p := right) (by simp [parts])
    rw [substring]
    refine narrow_yields known trim fun some shorter inside several => ?_
    dsimp only
    split
    next => exact ihl knownl triml _ _
    next past =>
      split
      next => exact ihr knownr trimr _ _
      next ahead =>
        refine viewed known trim some shorter inside several ⟨fun same => ?_, fun same => ?_⟩
        · exact Nat.lt_of_not_le fun before => past ⟨before, same⟩
        · exact Nat.lt_of_not_le fun behind => ahead ⟨behind, same⟩
  | excerpt n child base ih =>
    have knownc := closed.parts _ known child (by simp [parts])
    have trimc := trim.part (p := child) (by simp [parts])
    rw [substring]
    exact narrow_yields known trim fun _ _ _ _ => ih knownc trimc _ _
  | repeated n child times ih =>
    have knownc := closed.parts _ known child (by simp [parts])
    have trimc := trim.part (p := child) (by simp [parts])
    rw [substring]
    refine narrow_yields known trim fun some shorter inside several => ?_
    dsimp only
    split
    next => exact ih knownc trimc _ _
    next apart =>
      exact viewed known trim some shorter inside several
        (exists_seam trim.normal.warranted.2.1 some apart)

theorem replicate_yields (known : r ∈ nodes) (trim : r.Trim) (times : Nat) :
    (r.replicate times).Yields R nodes Trim := by
  unfold replicate
  dsimp only
  split
  next => exact .fail
  next =>
    split
    next => exact .pure (trim_empty _)
    next some =>
      split
      next => exact .pure trim
      next several =>
        obtain ⟨unit, copies⟩ : r.byteLength ≠ 0 ∧ times ≠ 0 := by
          simpa [Nat.mul_eq_zero, not_or] using some
        refine .ask (knownCodeRange_answers known) fun x _ => ?_
        refine .ask (knownCharacterLength_answers known) fun chars _ => ?_
        refine .map (.lift Query.yields_newNode) fun n made => ?_
        obtain ⟨label, size, height⟩ := made
        exact repeated_trim trim label (Nat.pos_of_ne_zero unit) (by omega) size height

section

variable (lawful : R.Lawful)
include lawful

theorem withEncoding_yields (known : r ∈ nodes) (trim : r.Trim) (e : Encoding) :
    (r.withEncoding e).Yields R nodes fun s => s.Trim ∧ (s.isLeaf ∨ s = r) := by
  refine .closed fun closed => ?_
  unfold withEncoding
  split
  next => exact .pure ⟨trim, .inr rfl⟩
  next =>
    split
    next => exact .pure ⟨trim_empty e, .inl rfl⟩
    next some =>
      have some : r.byteLength ≠ 0 := by simpa [isEmpty] using some
      refine (knownRangeIn_answers lawful e known).thenYields fun x _ => ?_
      refine (bytes_answers known).thenYields fun bytes same => ?_
      subst same
      refine (newLeaf_yields (bytes_ne_nil closed known some)).mono fun s made => ?_
      exact ⟨made.1, .inl made.2⟩

theorem concatBounded_yields {a b : Rope} (knowna : a ∈ nodes) (knownb : b ∈ nodes)
    (trima : a.Trim) (trimb : b.Trim) (e : Encoding) (maxDepth : Nat) :
    (concatBounded a b e maxDepth).Yields R nodes (Bounded maxDepth a b) := by
  refine .closed fun closed => ?_
  unfold concatBounded
  dsimp only
  split
  next => exact .fail
  next =>
    split
    next none =>
      have none : b.byteLength = 0 := by simpa [isEmpty] using none
      refine .lift ((withEncoding_yields lawful knowna trima e).mono fun r made => ⟨made.1, ?_⟩)
      rcases made.2 with leaf | same
      · exact .inr (.inl leaf)
      · exact .inr (.inr (.inl ⟨none, same⟩))
    next someb =>
      have someb : b.byteLength ≠ 0 := by simpa [isEmpty] using someb
      split
      next none =>
        have none : a.byteLength = 0 := by simpa [isEmpty] using none
        refine .lift ((withEncoding_yields lawful knownb trimb e).mono fun r made => ⟨made.1, ?_⟩)
        rcases made.2 with leaf | same
        · exact .inr (.inl leaf)
        · exact .inr (.inr (.inr ⟨none, same⟩))
      next somea =>
        have somea : a.byteLength ≠ 0 := by simpa [isEmpty] using somea
        refine .ask (knownRangeIn_answers lawful e knowna) fun x _ => ?_
        refine .ask (knownRangeIn_answers lawful e knownb) fun y _ => ?_
        split
        next =>
          refine .ask (bytes_answers knowna) fun front same => ?_
          refine .ask (bytes_answers knownb) fun back same' => ?_
          subst same same'
          have some : a.toBytes ++ b.toBytes ≠ [] := by
            simp [bytes_ne_nil closed knowna somea]
          exact .lift ((newLeaf_yields some).mono fun r made => ⟨made.1, .inr (.inl made.2)⟩)
        next shallow =>
          refine .map (.lift Query.yields_newNode) fun n made => ?_
          obtain ⟨-, size, height⟩ := made
          refine ⟨joined_trim trima trimb (Nat.pos_of_ne_zero somea) (Nat.pos_of_ne_zero someb)
            size height, .inl ?_⟩
          show n.depth ≤ maxDepth
          omega

theorem concatWithin_yields {a b : Rope} (knowna : a ∈ nodes) (knownb : b ∈ nodes)
    (trima : a.Trim) (trimb : b.Trim) (maxDepth : Nat) :
    (concatWithin maxDepth a b).Yields R nodes Trim := by
  unfold concatWithin
  refine .ask (compatibleEncoding_answers lawful knowna knownb) fun found _ => ?_
  split
  next e =>
    exact (concatBounded_yields lawful knowna knownb trima trimb e maxDepth).mono fun _ made =>
      made.trim
  next => exact .throw

theorem substringChars_yields (known : r ∈ nodes) (trim : r.Trim) (offset length : Nat) :
    (r.substringChars offset length).Yields R nodes Trim := by
  unfold substringChars
  dsimp only
  split
  next => exact .fail
  next =>
    refine .bind (charOffset_makes lawful known offset) fun more first _ same => ?_
    subst same
    refine .bind (charOffset_makes lawful known _) fun more last _ same => ?_
    subst same
    exact substring_yields known trim first (last - first)

end

/-- A program whose results have normal form throughout. -/
abbrev YieldsTrim (R : Reading) (nodes : List Rope) (b : Build (List Rope)) : Prop :=
  b.Yields R nodes fun new => ∀ r ∈ new, r.Trim

theorem yieldsTrim_one {b : Build Rope} (yields : b.Yields R nodes Trim) :
    YieldsTrim R nodes (do return [← b]) :=
  yields.map fun _ trim => by simpa using trim

theorem yieldsTrim_none {α : Type} {b : Build α} :
    YieldsTrim R nodes (do let _ ← b; return []) :=
  Build.Yields.map (g := fun _ => []) (P := fun _ => True) (fun _ _ _ _ => trivial)
    fun _ _ _ none => nomatch none

theorem held_yieldsTrim {ropes : List Rope} (among : ropes ⊆ nodes) (trim : ∀ r ∈ ropes, r.Trim)
    {i : Nat} {program : Rope → Build (List Rope)}
    (yields : ∀ r ∈ nodes, r.Trim → YieldsTrim R nodes (program r)) :
    YieldsTrim R nodes (held ropes i program) := by
  unfold held
  split
  next r found =>
    have member := List.mem_of_getElem? found
    exact yields r (among member) (trim r member)
  next => exact .pure fun _ none => nomatch none

/-- Every call on ropes in normal form gives ropes in normal form. -/
theorem Action.program_yieldsTrim (lawful : R.Lawful) {ropes : List Rope} (among : ropes ⊆ nodes)
    (trim : ∀ r ∈ ropes, r.Trim) (a : Action) : YieldsTrim R nodes (a.program ropes) := by
  cases a with
  | ofBytes e bytes hint => exact yieldsTrim_one (.lift (ofBytes_yields e bytes hint))
  | utf8 text => exact yieldsTrim_one (.lift (ofBytes_yields _ _ _))
  | ascii text => exact yieldsTrim_one (.lift (ofBytes_yields _ _ _))
  | empty e => exact .pure (by simpa using trim_empty e)
  | singleByte e b => exact .pure (by simpa using trim_singleByte e b)
  | concat i j =>
    refine held_yieldsTrim among trim fun a knowna trima => ?_
    refine held_yieldsTrim among trim fun b knownb trimb => yieldsTrim_one ?_
    exact concatWithin_yields lawful knowna knownb trima trimb defaultFlattenDepth
  | concatBounded i j e maxDepth =>
    refine held_yieldsTrim among trim fun a knowna trima => ?_
    refine held_yieldsTrim among trim fun b knownb trimb => yieldsTrim_one ?_
    exact (concatBounded_yields lawful knowna knownb trima trimb e maxDepth).mono fun _ made =>
      made.trim
  | substring i offset length =>
    refine held_yieldsTrim among trim fun r known trim => yieldsTrim_one ?_
    exact substring_yields known trim offset length
  | substringChars i offset length =>
    refine held_yieldsTrim among trim fun r known trim => yieldsTrim_one ?_
    exact substringChars_yields lawful known trim offset length
  | replicate i times =>
    refine held_yieldsTrim among trim fun r known trim => yieldsTrim_one ?_
    exact replicate_yields known trim times
  | withEncoding i e =>
    refine held_yieldsTrim among trim fun r known trim => yieldsTrim_one ?_
    exact .lift ((withEncoding_yields lawful known trim e).mono fun _ made => made.1)
  | flatten i =>
    refine held_yieldsTrim among trim fun r known trim => yieldsTrim_one ?_
    exact .lift (flatten_yields known trim)
  | part i index =>
    refine held_yieldsTrim among trim fun r known trim => .pure fun p member => ?_
    rw [Option.mem_toList] at member
    exact trim.part (List.mem_of_getElem? member)
  | ask i question => exact held_yieldsTrim among trim fun _ _ _ => yieldsTrim_none
  | equal i j =>
    refine held_yieldsTrim among trim fun _ _ _ => ?_
    exact held_yieldsTrim among trim fun _ _ _ => yieldsTrim_none
  | compatibleEncoding i j =>
    refine held_yieldsTrim among trim fun _ _ _ => ?_
    exact held_yieldsTrim among trim fun _ _ _ => yieldsTrim_none

end Rope

namespace Collection

open Rope (Action Within Normal)

variable {c : Collection}

theorem step_trim (fits : c.Fits .any) (trim : ∀ r ∈ c.ropes, r.Trim) (a : Action) :
    ∀ r ∈ (c.step a).ropes, r.Trim := by
  obtain ⟨nodes, right, among⟩ := fits
  have yields := Action.program_yieldsTrim Reading.any_lawful among trim a c.ledger right
  unfold step
  split
  next result ledger made =>
    rw [made] at yields
    split
    next new => exact List.forall_mem_append.2 ⟨trim, yields new rfl⟩
    next => exact trim

theorem run_trim (fits : c.Fits .any) (trim : ∀ r ∈ c.ropes, r.Trim) (actions : List Action) :
    ∀ r ∈ (c.run actions).ropes, r.Trim := by
  induction actions generalizing c with
  | nil => exact trim
  | cons a rest ih =>
    exact ih (step_fits Reading.any_lawful fits a.trusted_any) (step_trim fits trim a)

/-- After every run all nodes of all ropes have normal form, and no concatenation is deeper than it
may be, unless it is one of its sides. -/
theorem normal_run (actions : List Action) :
    (∀ r ∈ (start.run actions).ropes, ∀ n, Within n r → n.Normal) ∧
    ∀ a ∈ (start.run actions).ropes, ∀ b ∈ (start.run actions).ropes, ∀ e maxDepth r,
      ((Rope.concatBounded a b e maxDepth).run.run (start.run actions).ledger).1 = .ok r →
        r.depth ≤ maxDepth ∨ r.isLeaf ∨ b.byteLength = 0 ∧ r = a ∨ a.byteLength = 0 ∧ r = b := by
  have fits : start.Fits .any := start_fits Reading.any_lawful
  have trim := run_trim fits (fun _ none => nomatch none) actions
  refine ⟨trim, fun a helda b heldb e maxDepth r given => ?_⟩
  obtain ⟨nodes, right, among⟩ :=
    run_fits Reading.any_lawful fits fun a (_ : a ∈ actions) => a.trusted_any
  exact (Rope.concatBounded_yields Reading.any_lawful (among helda) (among heldb) (trim a helda)
    (trim b heldb) e maxDepth _ right r given).bounded

/-- Two leaves, put together and repeated, and a window over the end of a unit. -/
def seams : List Action :=
  [.ofBytes .utf8 ⟨[0x78, 0x79], by decide⟩ .unknown,
    .ofBytes .utf8 ⟨[0xC3, 0xBC], by decide⟩ .unknown, .concat 0 1, .replicate 2 3,
    .substring 3 3 3]

theorem normal_run_seams :
    (∃ r, (start.run seams).ropes[4]? = some r ∧ r.byteLength = 3 ∧ r.depth = 4 ∧
      ∀ n, Within n r → n.Normal) ∧
    ∃ a b r, (start.run seams).ropes[3]? = some a ∧ (start.run seams).ropes[1]? = some b ∧
      ((Rope.concatBounded a b .utf8 4).run.run (start.run seams).ledger).1 = .ok r ∧
      (r.depth ≤ 4 ∨ r.isLeaf ∨ b.byteLength = 0 ∧ r = a ∨ a.byteLength = 0 ∧ r = b) := by
  refine ⟨⟨_, rfl, rfl, rfl, (normal_run seams).1 _ (List.mem_of_getElem? (i := 4) rfl)⟩, ?_⟩
  refine ⟨_, _, _, rfl, rfl, rfl, ?_⟩
  exact (normal_run seams).2 _ (List.mem_of_getElem? (i := 3) rfl) _
    (List.mem_of_getElem? (i := 1) rfl) .utf8 4 _ rfl

end Collection

end RopeBridge
