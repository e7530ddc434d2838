import RopeBridge.Proofs.CommandLine.Sweep

/-! Command lines as they are meant: words, and flags anywhere among them. A pass takes the values of
one flag out and leaves all else in its order, so where a flag stands does not matter; of several
values of a flag the last one counts. -/
namespace RopeBridge.CommandLine

/-- The flags that take a value. -/
inductive Flag where
  | options | encoding | times | window
deriving DecidableEq

def Flag.name : Flag → String
  | options => "--options"
  | encoding => "--encoding"
  | times => "--repeat"
  | window => "--slice"

/-- Words that name no flag. -/
abbrev PlainWord := { word : String // word ≠ "--stats" ∧ ∀ flag : Flag, word ≠ flag.name }

inductive Item where
  | word (text : PlainWord)
  | stats
  | pair (flag : Flag) (value : PlainWord)

namespace Item

def spell : Item → List String
  | word text => [text]
  | stats => ["--stats"]
  | pair flag value => [flag.name, value]

def word? : Item → Option String
  | word text => some text.val
  | _ => none

/-- The value, if the item is one of the flag. -/
def value? (flag : Flag) : Item → Option String
  | pair other value => if other = flag then some value.val else none
  | _ => none

def isStats : Item → Bool
  | stats => true
  | _ => false

def isPair : Item → Bool
  | pair .. => true
  | _ => false

end Item

/-- The command line that is made of some items. -/
def spell (items : List Item) : List String := items.flatMap Item.spell

def plainWords (items : List Item) : List String := items.filterMap Item.word?

/-- The value that a flag is given last. -/
def lastValue (flag : Flag) (items : List Item) : Option String :=
  (items.filterMap (Item.value? flag)).getLast?

/-- All pairs in front, in the order they have. -/
def pairsFirst (items : List Item) : List Item :=
  items.filter Item.isPair ++ items.filter (!·.isPair)

/-- What a pass for a flag leaves. -/
def without (flag : Flag) (items : List Item) : List Item :=
  items.filter fun item => (item.value? flag).isNone

def withoutStats (items : List Item) : List Item := items.filter (!·.isStats)

variable {flag other : Flag} {item : Item} {items rest : List Item} {value : PlainWord}

theorem spell_cons : spell (item :: rest) = item.spell ++ spell rest := rfl

theorem Flag.name_ne_stats (flag : Flag) : flag.name ≠ "--stats" := by cases flag <;> decide

theorem Flag.name_injective (same : flag.name = other.name) : flag = other := by
  revert same
  cases flag <;> cases other <;> decide

theorem Item.word?_of_isPair (pair : item.isPair = true) : item.word? = none := by
  cases item with
  | pair => rfl
  | word | stats => cases pair

theorem Item.value?_of_not_isPair (apart : item.isPair = false) : item.value? flag = none := by
  cases item with
  | pair => cases apart
  | word | stats => rfl

theorem lastValue_cons_of_none (none : item.value? flag = none) :
    lastValue flag (item :: rest) = lastValue flag rest := by
  rw [lastValue, List.filterMap_cons_none none, lastValue]

theorem lastValue_cons_pair :
    lastValue flag (.pair flag value :: rest) = (lastValue flag rest).or (some value.val) := by
  have first : (Item.pair flag value).value? flag = some value.val := if_pos rfl
  rw [lastValue, List.filterMap_cons_some first, List.getLast?_cons]
  change some ((lastValue flag rest).getD value.val) = _
  cases lastValue flag rest <;> rfl

theorem without_cons_of_none (none : item.value? flag = none) :
    without flag (item :: rest) = item :: without flag rest := by
  simp [without, none]

theorem without_cons_pair : without flag (.pair flag value :: rest) = without flag rest := by
  simp [without, Item.value?]

/-! One pass. -/

theorem takeValue?_cons_of_ne {flag word : String} (other : word ≠ flag) (words : List String) :
    takeValue? flag (word :: words) =
      (takeValue? flag words).map fun (value, left) => (value, word :: left) := by
  cases words <;> simp [takeValue?, other]

/-- A pass takes all pairs of its flag and nothing else, and finds the value that is last. -/
theorem takeValue?_spell (flag : Flag) (items : List Item) :
    takeValue? flag.name (spell items) =
      some (lastValue flag items, spell (without flag items)) := by
  induction items with
  | nil => rfl
  | cons item rest ih =>
    rw [spell_cons]
    cases item with
    | word text =>
      rw [lastValue_cons_of_none rfl, without_cons_of_none rfl, spell_cons]
      simp [Item.spell, takeValue?_cons_of_ne (text.2.2 flag), ih]
    | stats =>
      rw [lastValue_cons_of_none rfl, without_cons_of_none rfl, spell_cons]
      simp [Item.spell, takeValue?_cons_of_ne (Ne.symm flag.name_ne_stats), ih]
    | pair other value =>
      by_cases mine : other = flag
      · subst mine
        rw [lastValue_cons_pair, without_cons_pair]
        simp [Item.spell, takeValue?, ih]
      · have none : (Item.pair other value).value? flag = none := if_neg mine
        have different : other.name ≠ flag.name := mt Flag.name_injective mine
        rw [lastValue_cons_of_none none, without_cons_of_none none, spell_cons]
        simp [Item.spell, takeValue?_cons_of_ne different, takeValue?_cons_of_ne (value.2.2 flag),
          ih]

theorem takeFlag_spell (flag : Flag) (usage : String) (items : List Item) :
    takeFlag flag.name usage (spell items) =
      .ok (lastValue flag items, spell (without flag items)) := by
  rw [takeFlag, takeValue?_spell]

theorem filter_spell (items : List Item) :
    (spell items).filter (· ≠ "--stats") = spell (withoutStats items) := by
  induction items with
  | nil => rfl
  | cons item rest ih =>
    rw [spell_cons, List.filter_append, ih]
    cases item with
    | word text => simp [Item.spell, withoutStats, Item.isStats, spell_cons, text.2.1]
    | stats => simp [Item.spell, withoutStats, Item.isStats]
    | pair flag value =>
      simp [Item.spell, withoutStats, Item.isStats, spell_cons, value.2.1, flag.name_ne_stats]

theorem contains_spell (items : List Item) :
    (spell items).contains "--stats" = items.any Item.isStats := by
  induction items with
  | nil => rfl
  | cons item rest ih =>
    rw [spell_cons, List.any_cons, ← ih]
    cases item with
    | word text => simp [Item.spell, Item.isStats, Ne.symm text.2.1]
    | stats => simp [Item.spell, Item.isStats]
    | pair flag value =>
      simp [Item.spell, Item.isStats, Ne.symm value.2.1, Ne.symm flag.name_ne_stats]

/-! One pass after another. -/

/-- Nothing is missed among the items that satisfy `keep` if nothing is to be had of the others. -/
theorem filterMap_filter_of_none {α : Type} {keep : Item → Bool} {f : Item → Option α}
    (others : ∀ item : Item, keep item = false → f item = none) (items : List Item) :
    (items.filter keep).filterMap f = items.filterMap f := by
  have same : (fun item => if keep item then f item else none) = f := by
    funext item
    cases member : keep item with
    | true => rfl
    | false => exact (others item member).symm
  rw [List.filterMap_filter, same]

theorem lastValue_filter {keep : Item → Bool}
    (others : ∀ item : Item, keep item = false → item.value? flag = none) (items : List Item) :
    lastValue flag (items.filter keep) = lastValue flag items := by
  rw [lastValue, filterMap_filter_of_none others, lastValue]

theorem lastValue_without (different : other ≠ flag) (items : List Item) :
    lastValue flag (without other items) = lastValue flag items := by
  refine lastValue_filter (fun item gone => ?_) items
  cases item with
  | word | stats => rfl
  | pair mine value =>
    have : mine = other := by
      by_contra apart
      simp [Item.value?, apart] at gone
    exact if_neg (this ▸ different)

theorem lastValue_withoutStats (items : List Item) :
    lastValue flag (withoutStats items) = lastValue flag items := by
  refine lastValue_filter (fun item gone => ?_) items
  cases item with
  | stats => rfl
  | word | pair => simp [Item.isStats] at gone

/-- What all passes leave of a command line. -/
theorem spell_left (items : List Item) :
    spell (without .window (without .times (without .encoding (without .options
      (withoutStats items))))) = plainWords items := by
  induction items with
  | nil => rfl
  | cons item rest ih =>
    cases item with
    | word text => exact congrArg (text.val :: ·) ih
    | stats => exact ih
    | pair flag value => cases flag <;> exact ih

/-- What some items request: the last value of each flag is read, and the words are kept. The first
value that cannot be read is reported. -/
def requested (items : List Item) (files : String → Option String) (reasons : Reasons) :
    Except String Request := do
  let options ← readOptions files reasons (lastValue .options items)
  let encoding ← readEncoding (lastValue .encoding items)
  let times ← readTimes (lastValue .times items)
  let window ← readWindow (lastValue .window items)
  return ⟨items.any Item.isStats, options, encoding, times, window, plainWords items⟩

/-- The passes find the last values and leave the words, wherever the flags stand. -/
theorem readRequest_spell (items : List Item) (files : String → Option String) (reasons : Reasons) :
    readRequest (spell items) files reasons = requested items files reasons := by
  have options := takeFlag_spell .options "<file>" (withoutStats items)
  have encoding := takeFlag_spell .encoding "<name>" (without .options (withoutStats items))
  have times := takeFlag_spell .times "<n>"
    (without .encoding (without .options (withoutStats items)))
  have window := takeFlag_spell .window "<offset>:<len>"
    (without .times (without .encoding (without .options (withoutStats items))))
  rw [lastValue_withoutStats, ← filter_spell] at options
  rw [lastValue_without (by decide), lastValue_withoutStats] at encoding
  rw [lastValue_without (by decide), lastValue_without (by decide), lastValue_withoutStats] at times
  rw [lastValue_without (by decide), lastValue_without (by decide), lastValue_without (by decide),
    lastValue_withoutStats, spell_left] at window
  simp only [Flag.name] at options encoding times window
  simp only [readRequest, requested, bind, Except.bind, options, encoding, times, window,
    contains_spell]

/-- Two command lines that say the same but for places: the same words, the same last values. -/
structure SaysSame (items items' : List Item) : Prop where
  words : plainWords items' = plainWords items
  values : ∀ flag, lastValue flag items' = lastValue flag items
  stats : items'.any Item.isStats = items.any Item.isStats

theorem SaysSame.readRequest_eq {items' : List Item} (same : SaysSame items items')
    (files : String → Option String) (reasons : Reasons) :
    readRequest (spell items') files reasons = readRequest (spell items) files reasons := by
  rw [readRequest_spell, readRequest_spell, requested, requested, same.words, same.stats]
  simp only [same.values]

theorem pairsFirst_saysSame (items : List Item) : SaysSame items (pairsFirst items) := by
  constructor
  case words =>
    have none : (items.filter Item.isPair).filterMap Item.word? = [] :=
      List.filterMap_eq_nil_iff.2 fun item member =>
        Item.word?_of_isPair (List.mem_filter.1 member).2
    have rest : (items.filter (!·.isPair)).filterMap Item.word? = items.filterMap Item.word? :=
      filterMap_filter_of_none (fun _ pair => Item.word?_of_isPair (by simpa using pair)) items
    rw [plainWords, pairsFirst, List.filterMap_append, none, rest, plainWords, List.nil_append]
  case values =>
    intro flag
    have none : (items.filter (!·.isPair)).filterMap (Item.value? flag) = [] := by
      refine List.filterMap_eq_nil_iff.2 fun item member => Item.value?_of_not_isPair ?_
      simpa using (List.mem_filter.1 member).2
    have pairs : (items.filter Item.isPair).filterMap (Item.value? flag) =
        items.filterMap (Item.value? flag) :=
      filterMap_filter_of_none (fun _ => Item.value?_of_not_isPair) items
    rw [lastValue, pairsFirst, List.filterMap_append, none, pairs, lastValue, List.append_nil]
  case stats =>
    have none : items.any (fun item => item.isPair && item.isStats) = false := by
      rw [List.any_eq_false]
      rintro (_ | _ | _) - <;> exact Bool.false_ne_true
    have rest : (fun item : Item => !item.isPair && item.isStats) = Item.isStats := by
      funext item
      cases item <;> rfl
    rw [pairsFirst, List.any_append, List.any_filter, List.any_filter, none, rest, Bool.false_or]

/-- What holds of a command line wherever its flags stand. -/
structure PlaceFree (items : List Item) : Prop where
  /-- A pass ends on any words, within one round more than there are words. -/
  ends : ∀ (flag : Flag) (words : List String),
    (Sweep.next flag.name)^[words.length + 1] (.going 0 none words) =
      .ending [] none (takeValue? flag.name words)
  /-- A pass finds the last value of its flag and leaves all else in its order. -/
  takes : ∀ flag, takeValue? flag.name (spell items) =
    some (lastValue flag items, spell (without flag items))
  optionsPath : optionsPath? (spell items) = lastValue .options items
  /-- The last values and the words, in their order, are what the program goes on with. -/
  request : ∀ files reasons, readRequest (spell items) files reasons = requested items files reasons
  output : ∀ files reasons,
    run (spell items) files reasons = outcome (requested items files reasons)
  /-- With the pairs in front the same is requested, or the same reported, and the same shown. -/
  front : ∀ files reasons,
    readRequest (spell (pairsFirst items)) files reasons = readRequest (spell items) files reasons ∧
      run (spell (pairsFirst items)) files reasons = run (spell items) files reasons
  /-- The same is shown for whatever says the same. -/
  alike : ∀ items', SaysSame items items' → ∀ files reasons,
    run (spell items') files reasons = run (spell items) files reasons

/-- Flags may stand anywhere. -/
theorem placeFree (items : List Item) : PlaceFree items := by
  have shown : ∀ items', SaysSame items items' → ∀ files reasons,
      run (spell items') files reasons = run (spell items) files reasons := by
    intro items' same files reasons
    rw [run, run, same.readRequest_eq files reasons]
  constructor
  case ends => exact fun flag words => Sweep.ends flag.name words
  case takes => exact fun flag => takeValue?_spell flag items
  case optionsPath =>
    have taken := takeValue?_spell .options (withoutStats items)
    rw [lastValue_withoutStats, ← filter_spell] at taken
    exact congrArg (·.bind Prod.fst) taken
  case request => exact readRequest_spell items
  case output =>
    intro files reasons
    rw [run, readRequest_spell]
  case front =>
    intro files reasons
    have same := pairsFirst_saysSame items
    exact ⟨same.readRequest_eq files reasons, shown _ same files reasons⟩
  case alike => exact shown

end RopeBridge.CommandLine
