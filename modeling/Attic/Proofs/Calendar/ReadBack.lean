import Attic.Calendar.Timestamp
import Mathlib

/-!
# Written times are read back

The text of a timestamp is read as the same timestamp: every field is written
with as many digits as its reader takes, a year outside 0..9999 has a sign, and
a leap second shows as second 60.

Key definition: `Timestamp.isValid`.
Key theorems: `Date.readStart?_write`, `Date.read?_write`, `Timestamp.read?_write`.
-/

namespace Attic

/-! ### Digits -/

theorem Text.isBlank_of_isDigit {c : Char} (h : c.isDigit = true) : Text.isBlank c = false := by
  simp only [Char.isDigit, ge_iff_le, Bool.and_eq_true, decide_eq_true_eq,
    UInt32.le_iff_toNat_le] at h
  have hn : 48 ≤ c.toNat ∧ c.toNat ≤ 57 := h
  simp only [Text.isBlank, Bool.or_eq_false_iff, Bool.and_eq_false_iff, decide_eq_false_iff_not,
    beq_eq_false_iff_ne]
  omega

/-- A text that starts with a digit has no blanks in front. -/
theorem Text.trimStart_of_digit {c : Char} {cs : List Char} (h : c.isDigit = true) :
    Text.trimStart (c :: cs) = c :: cs :=
  trimStart_of_head (isBlank_of_isDigit h)

namespace Date

theorem digitsValue_eq_ofDigitChars (ds : List Char) :
    digitsValue ds = Nat.ofDigitChars 10 ds 0 := by
  simp [digitsValue, Nat.ofDigitChars_eq_foldl, Nat.mul_comm]

/-- The value of written digits is the number. -/
theorem digitsValue_padded (width n : Nat) : digitsValue (padded width n) = n := by
  rw [digitsValue_eq_ofDigitChars, padded, Nat.ofDigitChars_append,
    Nat.ofDigitChars_replicate_zero, Nat.mul_zero]
  exact Nat.ofDigitChars_ten_toDigits

theorem isDigit_of_mem_padded {width n : Nat} {c : Char} (h : c ∈ padded width n) :
    c.isDigit = true := by
  rcases List.mem_append.1 h with h | h
  · rw [(List.mem_replicate.1 h).2]
    rfl
  · exact Nat.isDigit_of_mem_toDigits (by omega) (by omega) h

theorem padded_ne_nil (width n : Nat) : padded width n ≠ [] := by
  simp [padded, Nat.toDigits_ne_nil]

/-- A number that fits into its field fills it. -/
theorem length_padded {width n : Nat} (hw : 0 < width) (h : n < 10 ^ width) :
    (padded width n).length = width := by
  have := (Nat.length_toDigits_le_iff (by omega) hw).2 h
  simp only [padded, List.length_append, List.length_replicate]
  omega

/-- Written digits start with a digit. -/
theorem padded_eq_cons (width n : Nat) :
    ∃ c cs, padded width n = c :: cs ∧ c.isDigit = true := by
  obtain ⟨c, cs, h⟩ := List.exists_cons_of_ne_nil (padded_ne_nil width n)
  exact ⟨c, cs, h, isDigit_of_mem_padded (h ▸ List.mem_cons_self)⟩

/-- Digits are read up to their end when no further digit could be taken. -/
theorem readDigits?_append {width : Nat} {ds rest : List Char}
    (digits : ∀ c ∈ ds, c.isDigit = true) (hne : ds ≠ []) (fits : ds.length ≤ width)
    (beyond : (rest.take (width - ds.length)).takeWhile Char.isDigit = []) :
    readDigits? width (ds ++ rest) = some (digitsValue ds, rest) := by
  have h : ((ds ++ rest).take width).takeWhile Char.isDigit = ds := by
    rw [List.take_append, List.take_of_length_le fits, List.takeWhile_append_of_pos digits, beyond,
      List.append_nil]
  unfold readDigits?
  rw [h]
  cases ds with
  | nil => exact absurd rfl hne
  | cons d ds => simp

/-- A field of fixed width is read as the number it was written for. -/
theorem readNumber?_padded {width n : Nat} (hw : 0 < width) (h : n < 10 ^ width)
    (rest : List Char) : readNumber? width (padded width n ++ rest) = some (n, rest) := by
  have hl := length_padded hw h
  obtain ⟨c, cs, hc, hd⟩ := padded_eq_cons width n
  rw [readNumber?, hc, List.cons_append, Text.trimStart_of_digit hd, ← List.cons_append, ← hc,
    readDigits?_append (fun c => isDigit_of_mem_padded) (padded_ne_nil width n) (Nat.le_of_eq hl)
      (by simp [hl]), digitsValue_padded]

/-! ### Dates -/

/-- A year is read up to the dash after it. -/
theorem readYear?_writeYear (year : Int) (rest : List Char) :
    readYear? (writeYear year ++ '-' :: rest) = some (year, '-' :: rest) := by
  by_cases h : 0 ≤ year ∧ year ≤ 9999
  · obtain ⟨c, cs, hc, hd⟩ := padded_eq_cons 4 year.toNat
    have hl : (padded 4 year.toNat).length = 4 := length_padded (by omega) (by omega)
    have hy : writeYear year = padded 4 year.toNat := by simp [writeYear, h.1, h.2]
    have minus : c ≠ '-' := fun e => by subst e; revert hd; decide
    have plus : c ≠ '+' := fun e => by subst e; revert hd; decide
    unfold readYear?
    rw [hy, hc, List.cons_append, Text.trimStart_of_digit hd]
    split
    · next he => exact absurd (List.cons.inj he).1 minus
    · next he => exact absurd (List.cons.inj he).1 plus
    · rw [← List.cons_append, ← hc, readDigits?_append (fun c => isDigit_of_mem_padded)
        (padded_ne_nil _ _) (Nat.le_of_eq hl) (by simp [hl]), digitsValue_padded]
      simp [Int.toNat_of_nonneg h.1]
  · have digits : readDigits? (padded 4 year.natAbs ++ '-' :: rest).length
        (padded 4 year.natAbs ++ '-' :: rest) = some (year.natAbs, '-' :: rest) := by
      rw [readDigits?_append (fun c => isDigit_of_mem_padded) (padded_ne_nil _ _) (by simp)
        (by simp), digitsValue_padded]
    have hb : ¬ (0 ≤ year && year ≤ 9999) = true := by simpa using h
    unfold readYear? writeYear
    rw [if_neg hb]
    by_cases hneg : year < 0
    · rw [if_pos hneg, List.cons_append, Text.trimStart_of_head rfl]
      simp only [digits, Option.map_some, Option.some.injEq, Prod.mk.injEq, and_true]
      omega
    · rw [if_neg hneg, List.cons_append, Text.trimStart_of_head rfl]
      simp only [digits, Option.map_some, Option.some.injEq, Prod.mk.injEq, and_true]
      omega

theorem mem_writeYear {year : Int} {c : Char} (h : c ∈ writeYear year) :
    c.isDigit = true ∨ c = '-' ∨ c = '+' := by
  unfold writeYear at h
  split at h
  · exact .inl (isDigit_of_mem_padded h)
  · rcases List.mem_cons.1 h with rfl | h
    · split <;> simp
    · exact .inl (isDigit_of_mem_padded h)

/-- A written date has no characters but digits, dashes and a plus sign. -/
theorem mem_write {day : Date} {c : Char} (h : c ∈ day.write) :
    c.isDigit = true ∨ c = '-' ∨ c = '+' := by
  simp only [write, List.mem_append, List.mem_cons] at h
  rcases h with (h | h | h) | h | h
  · exact mem_writeYear h
  · exact .inr (.inl h)
  · exact .inl (isDigit_of_mem_padded h)
  · exact .inr (.inl h)
  · exact .inl (isDigit_of_mem_padded h)

theorem dash_mem_write (day : Date) : '-' ∈ day.write := by simp [write]

theorem isValid_iff {d : Date} : d.isValid = true ↔
    firstYear ≤ d.year ∧ d.year ≤ lastYear ∧ 1 ≤ d.month ∧ d.month ≤ 12 ∧ 1 ≤ d.day ∧
      d.day ≤ daysInMonth d.year d.month := by
  simp [isValid, and_assoc]

theorem daysInMonth_le (year : Int) (month : Nat) : daysInMonth year month ≤ 31 := by
  unfold daysInMonth
  split
  · split <;> omega
  all_goals omega

/-- A written date is read back, whatever follows it. -/
theorem readStart?_write {d : Date} {gap : List Char → List Char} (h : d.isValid = true)
    (hgap : ∀ cs, gap ('-' :: cs) = '-' :: cs) (rest : List Char) :
    readStart? gap (d.write ++ rest) = some (d, rest) := by
  obtain ⟨-, -, -, hm, -, hd⟩ := isValid_iff.1 h
  have := daysInMonth_le d.year d.month
  have month (cs) : readNumber? 2 (padded 2 d.month ++ cs) = some (d.month, cs) :=
    readNumber?_padded (by omega) (by omega) cs
  have day (cs) : readNumber? 2 (padded 2 d.day ++ cs) = some (d.day, cs) :=
    readNumber?_padded (by omega) (by omega) cs
  simp only [readStart?, write, List.append_assoc, List.cons_append, readYear?_writeYear, hgap,
    readMark?, month, day, Option.bind_eq_bind, Option.bind_some, if_true]
  rw [if_pos h]

/-- A date that is the whole text is read back. -/
theorem read?_write {d : Date} (h : d.isValid = true) : read? d.write = some d := by
  have start : readStart? id (d.write ++ []) = some (d, []) :=
    readStart?_write h (fun _ => rfl) []
  rw [List.append_nil] at start
  rw [read?, start]

end Date

namespace Timestamp

/-- Whether the timestamp names a moment: a day of the calendar, a second of
that day, and a leap second only at the end of a minute. -/
def isValid (t : Timestamp) : Bool :=
  t.date.isValid && t.second < secondsPerDay && t.nano < 2 * nanosPerSecond &&
    (t.nano < nanosPerSecond || t.second % 60 == 59)

/-- Up to nine digits of a fraction are read as billionths. -/
theorem readFraction?_padded {width n : Nat} (hw : 0 < width) (h9 : width ≤ 9)
    (hn : n < 10 ^ width) (rest : List Char) :
    readFraction? (Date.padded width n ++ 'Z' :: rest) =
      some (n * 10 ^ (9 - width), 'Z' :: rest) := by
  have hl := Date.length_padded hw hn
  have taken : ((Date.padded width n ++ 'Z' :: rest).take 9).takeWhile Char.isDigit =
      Date.padded width n := by
    rw [List.take_append, List.take_of_length_le (by omega), List.takeWhile_append_of_pos
      (fun c => Date.isDigit_of_mem_padded), hl]
    cases hk : 9 - width with
    | zero => simp
    | succ k => simp
  have left : (Date.padded width n ++ 'Z' :: rest).drop width = 'Z' :: rest := by
    rw [List.drop_append, List.drop_of_length_le (by omega), hl]
    simp
  obtain ⟨c, cs, hc, -⟩ := Date.padded_eq_cons width n
  unfold readFraction?
  rw [taken, hc]
  simp only [← hc, hl, Date.digitsValue_padded, left]
  simp

/-- A fraction is written as nothing or as digits that are read back. -/
theorem writeFraction_cases {nano : Nat} (h : nano < nanosPerSecond) :
    (nano = 0 ∧ writeFraction nano = []) ∨
      ∃ ds, writeFraction nano = '.' :: ds ∧
        ∀ rest, readFraction? (ds ++ 'Z' :: rest) = some (nano, 'Z' :: rest) := by
  unfold nanosPerSecond at h
  unfold writeFraction
  split
  · next h0 => exact .inl ⟨h0, rfl⟩
  right
  split
  · refine ⟨_, rfl, fun rest => ?_⟩
    rw [readFraction?_padded (by omega) (by omega) (by omega)]
    simp only [Option.some.injEq, Prod.mk.injEq, and_true]
    omega
  split
  · refine ⟨_, rfl, fun rest => ?_⟩
    rw [readFraction?_padded (by omega) (by omega) (by omega)]
    simp only [Option.some.injEq, Prod.mk.injEq, and_true]
    omega
  · refine ⟨_, rfl, fun rest => ?_⟩
    rw [readFraction?_padded (by omega) (by omega) (by omega)]
    simp

/-- What a clock shows of a second, and what is made of it again: a leap second
shows as second 60. -/
theorem shown_cases {second nano : Nat} (d : Date) (hn : nano < 2 * nanosPerSecond)
    (leap : nano < nanosPerSecond ∨ second % 60 = 59) :
    let shown := shownSecond ⟨d, second, nano⟩
    let fraction := shownNano ⟨d, second, nano⟩
    shown ≤ 60 ∧ fraction < nanosPerSecond ∧
      (if shown = 60 then 59 else shown) = second % 60 ∧
      fraction + (if shown = 60 then nanosPerSecond else 0) = nano := by
  unfold shownSecond shownNano
  by_cases hl : nanosPerSecond ≤ nano
  · have h59 : second % 60 = 59 := by omega
    simp only [if_pos hl, h59, if_true]
    exact ⟨by omega, by omega, trivial, by omega⟩
  · have : second % 60 ≠ 60 := by omega
    simp only [if_neg hl, Nat.add_zero, if_neg this]
    exact ⟨by omega, by omega, trivial, trivial⟩

/-- The time of day of a valid timestamp is read back. -/
theorem readClock?_write {second nano : Nat} (hs : second < secondsPerDay)
    (hn : nano < 2 * nanosPerSecond) (leap : nano < nanosPerSecond ∨ second % 60 = 59)
    (d : Date) (rest : List Char) :
    readClock? (Date.padded 2 (second / 3600) ++ ':' :: (Date.padded 2 (second / 60 % 60) ++
      ':' :: (Date.padded 2 (shownSecond ⟨d, second, nano⟩) ++
        (writeFraction (shownNano ⟨d, second, nano⟩) ++ 'Z' :: rest)))) =
      some ((second, nano), 'Z' :: rest) := by
  obtain ⟨hshown, hfraction, hback, hnano⟩ := shown_cases d hn leap
  unfold secondsPerDay at hs
  have two {n : Nat} (h : n < 100) (cs) :
      Date.readNumber? 2 (Date.padded 2 n ++ cs) = some (n, cs) :=
    Date.readNumber?_padded (by omega) h cs
  have hour : second / 3600 ≤ 23 := by omega
  have minute : second / 60 % 60 ≤ 59 := by omega
  unfold readClock?
  simp only [two (show second / 3600 < 100 by omega), two (show second / 60 % 60 < 100 by omega),
    two (show shownSecond ⟨d, second, nano⟩ < 100 by omega), Option.bind_eq_bind, Option.bind_some,
    Date.readMark?, Text.trimStart_of_head (show Text.isBlank ':' = false from rfl), if_true]
  have total : second / 3600 * 3600 + second / 60 % 60 * 60 + second % 60 = second := by omega
  rcases writeFraction_cases hfraction with ⟨h0, hw⟩ | ⟨ds, hw, hread⟩
  · rw [h0] at hnano
    rw [hw]
    simp only [List.nil_append, hour, minute, hshown, decide_true, Bool.and_self, if_true, hback,
      total, hnano]
    rfl
  · rw [hw]
    simp only [List.cons_append, hread, Option.bind_some, hour, minute, hshown, decide_true,
      Bool.and_self, if_true, hback, total, hnano]

theorem isValid_iff {t : Timestamp} : t.isValid = true ↔
    t.date.isValid = true ∧ t.second < secondsPerDay ∧ t.nano < 2 * nanosPerSecond ∧
      (t.nano < nanosPerSecond ∨ t.second % 60 = 59) := by
  simp [isValid, and_assoc]

/-- **A written timestamp is read as the same moment.** -/
theorem read?_write {t : Timestamp} (h : t.isValid = true) : read? t.write = some t := by
  obtain ⟨hd, hs, hn, leap⟩ := isValid_iff.1 h
  have gap (cs) : Text.trimStart ('-' :: cs) = '-' :: cs := Text.trimStart_of_head rfl
  unfold read? write
  simp only [List.append_assoc, List.cons_append, Date.readStart?_write hd gap,
    Option.bind_eq_bind, Option.bind_some]
  rw [readClock?_write hs hn leap t.date []]
  have offset : readOffset? ['Z'] = some ((0, true), []) := rfl
  have same : takeOffset t 0 true = t := by
    rw [takeOffset, if_pos rfl, if_pos (Nat.zero_le _), Nat.sub_zero]
  have none : (Text.trimStart []).isEmpty = true := rfl
  simp only [Option.bind_some, offset, same, none, hd, Bool.and_self, if_true]
  rfl

end Timestamp
end Attic
