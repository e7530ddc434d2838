import RopeBridge.Fault

/-! Actions that other threads ask a thread to run at its next safepoint. They run in the order in
which they were posted, each once; a poll ends at the first that fails. -/

namespace RopeBridge

structure SafepointAction where
  tag : String
  /-- Asks whoever contends for the extension lock to let go of it. -/
  releases : Bool := false
  /-- Further actions that are posted when this one runs. -/
  posts : List SafepointAction := []
  failure : Option String := none
deriving Inhabited

namespace Safepoint

mutual

def weight : SafepointAction → Nat
  | ⟨_, _, posts, _⟩ => weights posts + 1

def weights : List SafepointAction → Nat
  | [] => 0
  | a :: rest => weight a + weights rest

end

theorem weights_append (as bs : List SafepointAction) :
    weights (as ++ bs) = weights as + weights bs := by
  induction as with
  | nil => simp [weights]
  | cons a rest ih => simp [weights, ih, Nat.add_assoc]

theorem weight_eq (a : SafepointAction) : weight a = weights a.posts + 1 := by
  cases a
  simp [weight]

structure Poll where
  ran : List SafepointAction
  left : List SafepointAction
  failure : Option Fault

/-- Runs queued actions until one fails or none is left. -/
def poll : List SafepointAction → Poll
  | [] => ⟨[], [], none⟩
  | a :: rest =>
    match a.failure with
    | some reason => ⟨[a], rest ++ a.posts, some (.interrupted reason)⟩
    | none =>
      let p := poll (rest ++ a.posts)
      { p with ran := a :: p.ran }
termination_by queue => weights queue
decreasing_by simp [weights_append, weights, weight_eq]; omega

theorem weights_left_lt {queue : List SafepointAction} {fault : Fault}
    (failed : (poll queue).failure = some fault) : weights (poll queue).left < weights queue := by
  fun_induction poll queue with
  | case1 => cases failed
  | case2 a rest reason h => simp [weights_append, weights, weight_eq]; omega
  | case3 a rest h p ih =>
    refine Nat.lt_trans (ih failed) ?_
    simp only [weights_append, weights, weight_eq]
    omega

end Safepoint

end RopeBridge
