import RopeBridge.Proofs.Encoding.Characters

/-! What a measure says of all bytes that may still come. A measure looks at its bytes from the
front, so what is beyond repair stays so, and what is the beginning of a character becomes one by
as many bytes as are missing, and by no fewer. -/
namespace RopeBridge

namespace Utf8

theorem measureFollowing_invalid_append {width due : Nat} {low high : UInt8} {bytes : List UInt8}
    (invalid : measureFollowing width due low high bytes = .invalid) (more : List UInt8) :
    measureFollowing width due low high (bytes ++ more) = .invalid := by
  induction due generalizing low high bytes with
  | zero => cases invalid
  | succ due ih =>
    cases bytes with
    | nil => cases invalid
    | cons b rest =>
      simp only [measureFollowing] at invalid
      split at invalid
      next inside => simpa [measureFollowing, inside] using ih invalid
      next outside => simp [measureFollowing, outside]

/-- The least bytes of their windows complete a character. -/
theorem measureFollowing_completed {width due k : Nat} {low high : UInt8} {bytes : List UInt8}
    (lacking : measureFollowing width due low high bytes = .needMore k) (window : low ≤ high) :
    1 ≤ k ∧ bytes.length + k = due ∧ ∃ more : List UInt8, more.length = k ∧
      measureFollowing width due low high (bytes ++ more) = .found width := by
  induction due generalizing low high bytes with
  | zero => cases lacking
  | succ due ih =>
    cases bytes with
    | nil =>
      cases lacking
      refine ⟨by omega, by simp, low :: List.replicate due 0x80, by simp, ?_⟩
      -- every byte after the second may be 80
      have tails : ∀ n, measureFollowing width n 0x80 0xBF (List.replicate n 0x80) =
          .found width := by
        intro n
        induction n with
        | zero => rfl
        | succ n ih => simpa [measureFollowing, List.replicate_succ] using ih
      simp [measureFollowing, window, tails]
    | cons b rest =>
      simp only [measureFollowing] at lacking
      split at lacking
      next inside =>
        obtain ⟨some, total, more, length, found⟩ := ih lacking (by decide)
        refine ⟨some, by rw [List.length_cons]; omega, more, length, ?_⟩
        simpa [measureFollowing, inside] using found
      next => cases lacking

theorem lead?_low_le_high {b : UInt8} {l : Lead} (h : lead? b = some l) : l.low ≤ l.high := by
  unfold lead? at h
  repeat' split at h
  all_goals (cases h <;> decide)

theorem measure_invalid_append {bytes : List UInt8} (invalid : measure bytes = .invalid)
    (more : List UInt8) : measure (bytes ++ more) = .invalid := by
  cases bytes with
  | nil => cases invalid
  | cons b rest =>
    simp only [measure] at invalid
    split at invalid
    · cases invalid
    next high =>
      split at invalid
      next l lead =>
        simpa [measure, high, lead] using measureFollowing_invalid_append invalid more
      next none => simp [measure, high, none]

theorem measure_completed {bytes : List UInt8} {k : Nat} (nonempty : bytes ≠ [])
    (lacking : measure bytes = .needMore k) :
    1 ≤ k ∧ ∃ more : List UInt8, more.length = k ∧
      measure (bytes ++ more) = .found (bytes.length + k) := by
  cases bytes with
  | nil => exact absurd rfl nonempty
  | cons b rest =>
    simp only [measure] at lacking
    split at lacking
    · cases lacking
    next high =>
      split at lacking
      next l lead =>
        obtain ⟨some, total, more, length, found⟩ :=
          measureFollowing_completed lacking (lead?_low_le_high lead)
        have width : rest.length + 1 + k = l.following + 1 := by omega
        exact ⟨some, more, length, by simpa [measure, high, lead, width] using found⟩
      next => cases lacking

/-- The lead byte tells how long the character will be. -/
theorem needMore_le_of_found {bytes more : List UInt8} {k n : Nat} (nonempty : bytes ≠ [])
    (lacking : measure bytes = .needMore k) (found : measure (bytes ++ more) = .found n) :
    bytes.length + k ≤ n := by
  cases bytes with
  | nil => exact absurd rfl nonempty
  | cons b rest =>
    simp only [measure] at lacking
    simp only [measure, List.cons_append] at found
    split at lacking
    · cases lacking
    next high =>
      split at lacking
      next l lead =>
        rw [if_neg high, lead] at found
        obtain ⟨_, total, _⟩ := measureFollowing_completed lacking (lead?_low_le_high lead)
        obtain ⟨rfl, _⟩ := measureFollowing_found found
        rw [List.length_cons]
        omega
      next => cases lacking

end Utf8

namespace Utf16

theorem isLowSurrogate_unit (low : UInt8) : isLowSurrogate (unit low 0xDC) = true := by
  have := low.toNat_lt
  simp [isLowSurrogate, unit]
  omega

theorem not_surrogate_unit_zero (low : UInt8) :
    isHighSurrogate (unit low 0) = false ∧ isLowSurrogate (unit low 0) = false := by
  have := low.toNat_lt
  simp [isHighSurrogate, isLowSurrogate, unit]
  omega

theorem measure_invalid_append {bytes : List UInt8} (invalid : measure bytes = .invalid)
    (more : List UInt8) : measure (bytes ++ more) = .invalid := by
  rcases bytes with _ | ⟨a, _ | ⟨b, rest⟩⟩
  · cases invalid
  · cases invalid
  simp only [measure, List.cons_append] at invalid ⊢
  split at invalid
  next high =>
    rcases rest with _ | ⟨c, _ | ⟨d, rest⟩⟩
    · cases invalid
    · cases invalid
    · simpa [high] using invalid
  next notHigh =>
    split at invalid
    next low => simp [notHigh, low]
    next => cases invalid

/-- A single unit is completed by a zero byte, a high surrogate by the first low one. -/
theorem measure_completed {bytes : List UInt8} {k : Nat} (nonempty : bytes ≠ [])
    (lacking : measure bytes = .needMore k) :
    1 ≤ k ∧ ∃ more : List UInt8, more.length = k ∧
      measure (bytes ++ more) = .found (bytes.length + k) := by
  rcases bytes with _ | ⟨a, _ | ⟨b, rest⟩⟩
  · exact absurd rfl nonempty
  · cases lacking
    obtain ⟨notHigh, notLow⟩ := not_surrogate_unit_zero a
    exact ⟨by decide, [0], rfl, by simp [measure, notHigh, notLow]⟩
  · simp only [measure] at lacking
    split at lacking
    next high =>
      rcases rest with _ | ⟨c, _ | ⟨d, rest⟩⟩
      · cases lacking
        exact ⟨by decide, [0, 0xDC], rfl, by simp [measure, high, isLowSurrogate_unit]⟩
      · cases lacking
        exact ⟨by decide, [0xDC], rfl, by simp [measure, high, isLowSurrogate_unit]⟩
      · simp only at lacking
        split at lacking <;> cases lacking
    next => split at lacking <;> cases lacking

/-- A unit takes two bytes, and a pair of surrogates four. -/
theorem needMore_le_of_found {bytes more : List UInt8} {k n : Nat} (nonempty : bytes ≠ [])
    (lacking : measure bytes = .needMore k) (found : measure (bytes ++ more) = .found n) :
    bytes.length + k ≤ n := by
  rcases bytes with _ | ⟨a, _ | ⟨b, rest⟩⟩
  · exact absurd rfl nonempty
  · cases lacking
    obtain ⟨width, _⟩ := measure_found found
    rw [List.length_singleton]
    omega
  · simp only [measure] at lacking
    simp only [measure, List.cons_append] at found
    split at lacking
    next high =>
      rw [if_pos high] at found
      have width : n = 4 := by
        split at found
        · cases found
        · cases found
        · split at found <;> cases found
          rfl
      rcases rest with _ | ⟨c, _ | ⟨d, rest⟩⟩
      · cases lacking
        simp [width]
      · cases lacking
        simp [width]
      · simp only at lacking
        split at lacking <;> cases lacking
    next => split at lacking <;> cases lacking

end Utf16

namespace Encoding

/-- No bytes make up for a wrong beginning. -/
theorem measure_invalid_append {e : Encoding} {bytes : List UInt8}
    (invalid : e.measure bytes = .invalid) (more : List UInt8) :
    e.measure (bytes ++ more) = .invalid := by
  cases bytes with
  | nil => cases invalid
  | cons b rest =>
    cases e with
    | utf8 =>
      have invalid : Utf8.measure (b :: rest) = .invalid := invalid
      exact Utf8.measure_invalid_append invalid more
    | utf16le =>
      have invalid : Utf16.measure (b :: rest) = .invalid := invalid
      exact Utf16.measure_invalid_append invalid more
    | usAscii => simpa [measure] using invalid
    | binary | latin1 => cases invalid

/-- Bytes of the least length that make a character. -/
theorem exists_least_character (e : Encoding) :
    ∃ bytes : List UInt8, bytes.length = e.minLength ∧ e.measure bytes = .found e.minLength := by
  cases e with
  | utf16le => exact ⟨[0, 0], rfl, rfl⟩
  | _ => exact ⟨[0], rfl, rfl⟩

/-- The missing bytes can be found. -/
theorem measure_completed {e : Encoding} {bytes : List UInt8} {k : Nat}
    (lacking : e.measure bytes = .needMore k) :
    1 ≤ k ∧ ∃ more : List UInt8, more.length = k ∧
      e.measure (bytes ++ more) = .found (bytes.length + k) := by
  cases bytes with
  | nil =>
    cases lacking
    obtain ⟨least, length, found⟩ := exists_least_character e
    exact ⟨e.minLength_pos, least, length, by simpa using found⟩
  | cons b rest =>
    cases e with
    | utf8 =>
      have lacking : Utf8.measure (b :: rest) = .needMore k := lacking
      exact Utf8.measure_completed (by simp) lacking
    | utf16le =>
      have lacking : Utf16.measure (b :: rest) = .needMore k := lacking
      exact Utf16.measure_completed (by simp) lacking
    | usAscii =>
      simp only [measure] at lacking
      split at lacking <;> cases lacking
    | binary | latin1 => cases lacking

/-- What becomes a character has at least the missing bytes added to it. -/
theorem needMore_le_of_found {e : Encoding} {bytes more : List UInt8} {k n : Nat}
    (lacking : e.measure bytes = .needMore k) (found : e.measure (bytes ++ more) = .found n) :
    bytes.length + k ≤ n := by
  cases bytes with
  | nil =>
    cases lacking
    simpa using (measure_found found).1
  | cons b rest =>
    cases e with
    | utf8 =>
      have lacking : Utf8.measure (b :: rest) = .needMore k := lacking
      exact Utf8.needMore_le_of_found (by simp) lacking found
    | utf16le =>
      have lacking : Utf16.measure (b :: rest) = .needMore k := lacking
      exact Utf16.needMore_le_of_found (by simp) lacking found
    | usAscii =>
      simp only [measure] at lacking
      split at lacking <;> cases lacking
    | binary | latin1 => cases lacking

/-- A character is found exactly where its own bytes are all there. -/
theorem measure_eq_found_iff {e : Encoding} {bytes : List UInt8} {n : Nat} :
    e.measure bytes = .found n ↔ n ≤ bytes.length ∧ e.measure (bytes.take n) = .found n := by
  constructor
  · exact fun found => ⟨(measure_found found).2.2, measure_take found⟩
  · rintro ⟨_, own⟩
    simpa using measure_append own (bytes.drop n)

/-- Bytes are no beginning exactly if nothing can be added to make them one. -/
theorem measure_eq_invalid_iff {e : Encoding} {bytes : List UInt8} :
    e.measure bytes = .invalid ↔ ∀ more n, e.measure (bytes ++ more) ≠ .found n := by
  constructor
  · intro invalid more n found
    rw [measure_invalid_append invalid more] at found
    cases found
  · intro hopeless
    cases verdict : e.measure bytes with
    | found n => exact absurd (measure_append verdict []) (hopeless [] n)
    | invalid => rfl
    | needMore k =>
      obtain ⟨_, more, _, found⟩ := measure_completed verdict
      exact absurd found (hopeless more _)

/-- The count of missing bytes is the least number of them that completes a character. -/
theorem measure_eq_needMore_iff {e : Encoding} {bytes : List UInt8} {k : Nat} :
    e.measure bytes = .needMore k ↔ 1 ≤ k ∧
      (∃ more : List UInt8, more.length = k ∧
        e.measure (bytes ++ more) = .found (bytes.length + k)) ∧
      ∀ more : List UInt8, more.length < k → ∀ n, e.measure (bytes ++ more) ≠ .found n := by
  constructor
  · intro lacking
    obtain ⟨some, completed⟩ := measure_completed lacking
    refine ⟨some, completed, fun more short n found => ?_⟩
    have least := needMore_le_of_found lacking found
    have inside := (measure_found found).2.2
    rw [List.length_append] at inside
    omega
  · rintro ⟨some, ⟨more, length, found⟩, least⟩
    cases verdict : e.measure bytes with
    | found n => exact absurd (measure_append verdict []) (least [] some n)
    | invalid => exact absurd found (measure_eq_invalid_iff.1 verdict more _)
    | needMore j =>
      have atMost := needMore_le_of_found verdict found
      obtain ⟨_, more', length', found'⟩ := measure_completed verdict
      have atLeast : ¬ more'.length < k := fun short => least more' short _ found'
      congr 1
      omega

end Encoding

end RopeBridge
