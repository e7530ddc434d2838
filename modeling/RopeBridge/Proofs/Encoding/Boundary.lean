import RopeBridge.Proofs.Encoding.Scan

/-! Cutting bytes where a piece begins. Neither part is cut into other pieces than before, broken or
not: a character keeps its own bytes, and bytes that begin none do not begin one because others
behind them are gone. -/
namespace RopeBridge.Encoding

theorem covered_add (ps : List Piece) (i j : Nat) :
    covered ps (i + j) = covered ps i + covered (ps.drop i) j := by
  induction i generalizing ps with
  | zero => simp
  | succ i ih =>
    cases ps with
    | nil => simp [covered]
    | cons p ps =>
      rw [Nat.succ_add]
      simp [covered, ih, Nat.add_assoc]

theorem le_covered {ps : List Piece} (positive : ∀ p ∈ ps, 0 < p.width) {i : Nat}
    (inside : i ≤ ps.length) : i ≤ covered ps i := by
  induction ps generalizing i with
  | nil =>
    obtain rfl : i = 0 := by simpa using inside
    simp
  | cons p ps ih =>
    cases i with
    | zero => simp
    | succ i =>
      have first := positive p List.mem_cons_self
      have rest := ih (fun q later => positive q (List.mem_cons_of_mem _ later))
        (Nat.le_of_succ_le_succ inside)
      simp only [covered]
      omega

theorem covered_lt {ps : List Piece} (positive : ∀ p ∈ ps, 0 < p.width) {i j : Nat} (before : i < j)
    (inside : j ≤ ps.length) : covered ps i < covered ps j := by
  obtain ⟨k, rfl⟩ := Nat.exists_eq_add_of_lt before
  have between : k + 1 ≤ covered (ps.drop i) (k + 1) := le_covered
    (fun p later => positive p (List.mem_of_mem_drop later)) (by rw [List.length_drop]; omega)
  rw [Nat.add_assoc, covered_add]
  omega

/-- Pieces that cover no more bytes than there are pieces have one byte each. -/
theorem covered_eq_self {ps : List Piece} (positive : ∀ p ∈ ps, 0 < p.width)
    (single : covered ps ps.length = ps.length) {i : Nat} (inside : i ≤ ps.length) :
    covered ps i = i := by
  have front := le_covered positive inside
  have back : ps.length - i ≤ covered (ps.drop i) (ps.length - i) := le_covered
    (fun p later => positive p (List.mem_of_mem_drop later)) (by simp)
  have whole := covered_add ps i (ps.length - i)
  rw [Nat.add_sub_cancel' inside, single] at whole
  omega

theorem width_pos_of_mem_pieces {e : Encoding} {bytes : List UInt8} {p : Piece}
    (h : p ∈ e.pieces bytes) : 0 < p.width := by
  by_cases empty : bytes = []
  · subst empty
    cases h
  · rw [e.pieces_of_ne_nil empty] at h
    rcases List.mem_cons.1 h with rfl | later
    · exact e.piece_width_pos empty
    · exact width_pos_of_mem_pieces later
termination_by bytes.length
decreasing_by exact e.length_drop_piece_lt empty

/-- The pieces cover all bytes. -/
theorem covered_pieces (e : Encoding) (bytes : List UInt8) :
    covered (e.pieces bytes) (e.pieces bytes).length = bytes.length := by
  by_cases empty : bytes = []
  · simp [empty]
  · have rest := covered_pieces e (bytes.drop (e.piece bytes).width)
    have inside := e.piece_width_le bytes
    rw [e.pieces_of_ne_nil empty, List.length_cons, covered, rest, List.length_drop]
    omega
termination_by bytes.length
decreasing_by exact e.length_drop_piece_lt empty

/-- The first piece does not depend on what comes after it. -/
theorem piece_take {e : Encoding} {bytes : List UInt8} {m : Nat}
    (reach : (e.piece bytes).width ≤ m) : e.piece (bytes.take m) = e.piece bytes := by
  cases verdict : e.measure bytes with
  | found n =>
    have first : e.piece bytes = ⟨n, true⟩ := by simp [piece, verdict]
    rw [first] at reach ⊢
    have own : e.measure ((bytes.take m).take n) = .found n := by
      rw [List.take_take, Nat.min_eq_left reach]
      exact measure_take verdict
    have cut := measure_append own ((bytes.take m).drop n)
    rw [List.take_append_drop] at cut
    simp [piece, cut]
  | invalid | needMore =>
    have first : e.piece bytes = ⟨lengthUpTo e.minLength bytes, false⟩ := by simp [piece, verdict]
    have none : ∀ n, e.measure (bytes.take m) ≠ .found n := by
      intro n found
      have whole := measure_append found (bytes.drop m)
      rw [List.take_append_drop, verdict] at whole
      cases whole
    have cut : e.piece (bytes.take m) = ⟨lengthUpTo e.minLength (bytes.take m), false⟩ := by
      unfold piece
      split
      next n found => exact absurd found (none n)
      next => rfl
    rw [first] at reach ⊢
    rw [cut]
    simp only [lengthUpTo_eq_min, List.length_take] at reach ⊢
    congr 1
    omega

theorem pieces_drop (e : Encoding) (bytes : List UInt8) (n : Nat) :
    e.pieces (bytes.drop (covered (e.pieces bytes) n)) = (e.pieces bytes).drop n := by
  induction n generalizing bytes with
  | zero => simp
  | succ n ih =>
    by_cases empty : bytes = []
    · simp [empty]
    · rw [e.pieces_of_ne_nil empty, covered, ← List.drop_drop, ih, List.drop_succ_cons]

theorem pieces_take (e : Encoding) (bytes : List UInt8) (n : Nat) :
    e.pieces (bytes.take (covered (e.pieces bytes) n)) = (e.pieces bytes).take n := by
  induction n generalizing bytes with
  | zero => simp
  | succ n ih =>
    by_cases empty : bytes = []
    · simp [empty]
    · have positive := e.piece_width_pos empty
      rw [e.pieces_of_ne_nil empty, covered, List.take_succ_cons, ← ih]
      have nonempty : bytes.take ((e.piece bytes).width +
          covered (e.pieces (bytes.drop (e.piece bytes).width)) n) ≠ [] := by
        simp only [ne_eq, List.take_eq_nil_iff, empty, or_false]
        omega
      rw [e.pieces_of_ne_nil nonempty, piece_take (Nat.le_add_right _ _), List.drop_take,
        Nat.add_sub_cancel_left]

/-- The bytes between two boundaries are cut into the pieces that lie between them. -/
theorem pieces_window (e : Encoding) (bytes : List UInt8) (i count : Nat) :
    e.pieces ((bytes.drop (covered (e.pieces bytes) i)).take
        (covered (e.pieces bytes) (i + count) - covered (e.pieces bytes) i)) =
      ((e.pieces bytes).drop i).take count := by
  rw [covered_add, Nat.add_sub_cancel_left, ← pieces_drop, pieces_take]

end RopeBridge.Encoding
