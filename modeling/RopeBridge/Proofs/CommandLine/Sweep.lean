import Mathlib.Logic.Function.Iterate
import RopeBridge.CommandLine

/-! Taking a flag and its values out of a list of words where they stand. A pass goes through the list
by place and takes two words away at a time; the words behind them move up, so a pass that has taken
a pair away looks at the same place again. It ends, and with what `takeValue?` answers. -/
namespace RopeBridge.CommandLine

/-- How far a pass has come. -/
inductive Sweep where
  | going (place : Nat) (found : Option String) (words : List String)
  | finished (found : Option String) (words : List String)
  /-- The flag is the last word. -/
  | stuck

namespace Sweep

/-- One round of a pass. Nothing happens to one that has ended. -/
def next (flag : String) : Sweep → Sweep
  | going place found words =>
    match words[place]? with
    | none => finished found words
    | some word =>
      if word = flag then
        match words[place + 1]? with
        | none => stuck
        | some value => going place (some value) ((words.eraseIdx (place + 1)).eraseIdx place)
      else going (place + 1) found words
  | ended => ended

/-- The end of a pass that has `front` behind it and has found `found`, by what is to be taken out of
the words before it. -/
def ending (front : List String) (found : Option String) :
    Option (Option String × List String) → Sweep
  | some (later, words) => finished (later.or found) (front ++ words)
  | none => stuck

variable {flag word value : String} {front rest : List String} {found : Option String}

/-! Rounds of a pass that has come to the end of `front`. -/

theorem next_end : next flag (going front.length found front) = finished found front := by
  simp [next]

theorem next_other (other : word ≠ flag) :
    next flag (going front.length found (front ++ word :: rest)) =
      going (front ++ [word]).length found ((front ++ [word]) ++ rest) := by
  simp [next, other]

theorem next_last : next flag (going front.length found (front ++ [flag])) = stuck := by
  simp [next]

theorem next_pair :
    next flag (going front.length found (front ++ flag :: value :: rest)) =
      going front.length (some value) (front ++ rest) := by
  have taken : ((front ++ flag :: value :: rest).eraseIdx (front.length + 1)).eraseIdx
      front.length = front ++ rest := by
    simp [List.eraseIdx_append_of_length_le]
  simp [next, taken]

theorem rounds_ending (answer : Option (Option String × List String)) (n : Nat) :
    (next flag)^[n] (ending front found answer) = ending front found answer := by
  refine Function.iterate_fixed ?_ n
  cases answer <;> rfl

/-- From the end of `front` on, one round more than there are words before a pass will do. -/
theorem rounds_eq (flag : String) (front rest : List String) (found : Option String) :
    (next flag)^[rest.length + 1] (going front.length found (front ++ rest)) =
      ending front found (takeValue? flag rest) := by
  fun_induction takeValue? flag rest generalizing front found with
  | case1 => simp [next_end, ending]
  | case2 =>
    rw [List.length_singleton, Function.iterate_succ_apply, next_last]
    exact rounds_ending none 1
  | case3 word other =>
    rw [List.length_singleton, Function.iterate_succ_apply, next_other other, List.append_nil,
      Function.iterate_one, next_end]
    simp [ending]
  | case4 value rest ih =>
    -- two words are gone after the first round, so one round is left over
    rw [List.length_cons, List.length_cons, Function.iterate_succ_apply, next_pair,
      Nat.add_comm _ 1, Function.iterate_add_apply, ih, rounds_ending]
    cases takeValue? flag rest <;> simp [ending]
  | case5 word value rest other ih =>
    rw [List.length_cons, Function.iterate_succ_apply, next_other other, ih]
    cases takeValue? flag (value :: rest) <;> simp [ending]

/-- A pass over some words ends within one round more than there are words. -/
theorem ends (flag : String) (words : List String) :
    (next flag)^[words.length + 1] (going 0 none words) = ending [] none (takeValue? flag words) :=
  rounds_eq flag [] words none

end Sweep

end RopeBridge.CommandLine
