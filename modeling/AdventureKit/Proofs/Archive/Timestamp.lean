import AdventureKit.Archive.Timestamp
import AdventureKit.Proofs.Text.Utf8

/-!
# Written dates

A date whose year has four digits is written in fourteen digits and read again (`ofText_toString`).  All of its
fields have their full width, so that the first form that fits a field is the right one.
-/

namespace AdventureKit.Archive.Timestamp

/-- The years for which a written date has its usual length. -/
def FourDigitYear (t : Timestamp) : Prop :=
  1000 ≤ t.year ∧ t.year ≤ 9999

instance (t : Timestamp) : Decidable t.FourDigitYear :=
  inferInstanceAs (Decidable (_ ∧ _))

/-! ### Digits -/

/-- The characters of a string. -/
def text (s : String) : Text :=
  s.toList.map Char.toNat

theorem text_append (s t : String) : text (s ++ t) = text s ++ text t := by
  rw [text, String.toList_append, List.map_append]
  rfl

theorem text_number_of_lt {n : Nat} (h : n < 10) : text (ToString.toString n) = [48 + n] := by
  rw [text, Nat.toString_eq_repr, Nat.toList_repr, Nat.toDigits_of_lt_base h, List.map_singleton,
    Nat.toNat_digitChar_of_lt_ten h]

theorem text_number_of_ge {n : Nat} (h : 10 ≤ n) :
    text (ToString.toString n) = text (ToString.toString (n / 10)) ++ [48 + n % 10] := by
  have hlast : n % 10 < 10 := Nat.mod_lt n (by decide)
  have hdigits : Nat.toDigits 10 n = Nat.toDigits 10 (n / 10) ++ Nat.toDigits 10 (n % 10) := by
    rw [Nat.toDigits_append_toDigits (by decide) (by omega) hlast, Nat.div_add_mod]
  rw [← text_number_of_lt hlast]
  simp only [text, Nat.toString_eq_repr, Nat.toList_repr, hdigits, List.map_append]

/-- The two digits of a number below a hundred. -/
def two (n : Nat) : Text :=
  [48 + n / 10, 48 + n % 10]

theorem text_twoDigits {n : Nat} (h : n < 100) : text (twoDigits n) = two n := by
  have hzero : text "0" = [48] := by decide
  rw [twoDigits, text_append, two]
  by_cases hn : n < 10
  · rw [if_pos hn, hzero, text_number_of_lt hn, Nat.div_eq_of_lt hn, Nat.mod_eq_of_lt hn]
    rfl
  · rw [if_neg hn, text_number_of_ge (by omega), text_number_of_lt (by omega)]
    rfl

/-- The four digits of a year. -/
def four (n : Nat) : Text :=
  two (n / 100) ++ two (n % 100)

theorem text_year {n : Nat} (h : 1000 ≤ n ∧ n ≤ 9999) : text (ToString.toString n) = four n := by
  have h1 : n / 10 / 10 = n / 100 := Nat.div_div_eq_div_mul n 10 10
  have h2 : n / 10 % 10 = n % 100 / 10 := by omega
  have h3 : n % 100 % 10 = n % 10 := by omega
  rw [text_number_of_ge (by omega), text_number_of_ge (by omega), text_number_of_ge (by omega),
    text_number_of_lt (by omega), h1, h2, four, two, two, h3]
  rfl

/-! ### Fields -/

theorem value?_digit {first last k : Nat} (h : first ≤ k ∧ k ≤ last) :
    (Slot.digit first last).value? (48 + k) = some k := by
  simp [Slot.value?, h]

theorem value?_other_digit {first last k : Nat} (h : k < first ∨ last < k) :
    (Slot.digit first last).value? (48 + k) = none := by
  simp only [Slot.value?, Bool.and_eq_true, decide_eq_true_eq]
  exact if_neg (by omega)

theorem value?_any {k : Nat} (hk : k < 10) : Slot.any.value? (48 + k) = some k := by
  have hall : ∀ k < 10, Text.digit? (48 + k) = some k := by decide
  exact hall k hk

section Fields

variable {others : List (List (List Slot))} {n : Nat} {t rest : Text} {ns : List Nat}

/-- A field of two digits is read in the first form that fits its first digit. -/
theorem readFields_two (before : List (List Slot)) {after : List (List Slot)} {tens ones : Slot}
    (hbefore : ∀ form ∈ before, ∃ slot slots, form = slot :: slots ∧ slot.value? (48 + n / 10) = none)
    (htens : tens.value? (48 + n / 10) = some (n / 10)) (hones : ones.value? (48 + n % 10) = some (n % 10))
    (hrest : readFields others t = some (ns, rest)) :
    readFields ((before ++ [tens, ones] :: after) :: others) (two n ++ t) = some (n :: ns, rest) := by
  have hvalue : (0 * 10 + n / 10) * 10 + n % 10 = n := by omega
  rw [readFields, List.findSome?_append, List.findSome?_eq_none_iff.2]
  · simp only [Option.none_or, List.findSome?_cons, two, List.cons_append, List.nil_append, readSlots, htens,
      hones, hrest, hvalue, Option.map_some]
  · intro form hform
    obtain ⟨slot, slots, rfl, hslot⟩ := hbefore form hform
    simp only [two, List.cons_append, readSlots, hslot]

theorem value?_ones : Slot.any.value? (48 + n % 10) = some (n % 10) :=
  value?_any (by omega)

/-- A form that wants another first digit. -/
theorem exists_other_digit {first last : Nat} {slots : List Slot} (h : n / 10 < first ∨ last < n / 10) :
    ∃ slot more, Slot.digit first last :: slots = slot :: more ∧ slot.value? (48 + n / 10) = none :=
  ⟨_, _, rfl, value?_other_digit h⟩

theorem readFields_day (h1 : 1 ≤ n) (h31 : n ≤ 31) (hrest : readFields others t = some (ns, rest)) :
    readFields ([[.digit 3 3, .digit 0 1], [.digit 1 2, .any], [.digit 0 0, .digit 1 9], [.digit 1 9],
      [.blank, .digit 1 9]] :: others) (two n ++ t) = some (n :: ns, rest) := by
  by_cases h3 : n / 10 = 3
  · exact readFields_two [] (by simp) (value?_digit (by omega)) (value?_digit (by omega)) hrest
  by_cases h0 : n / 10 = 0
  · refine readFields_two [_, _] ?_ (value?_digit (by omega)) (value?_digit (by omega)) hrest
    exact List.forall_mem_cons.2 ⟨exists_other_digit (by omega),
      List.forall_mem_singleton.2 (exists_other_digit (by omega))⟩
  · refine readFields_two [_] ?_ (value?_digit (by omega)) value?_ones hrest
    exact List.forall_mem_singleton.2 (exists_other_digit (by omega))

theorem readFields_month (h1 : 1 ≤ n) (h12 : n ≤ 12) (hrest : readFields others t = some (ns, rest)) :
    readFields ([[.digit 1 1, .digit 0 2], [.digit 0 0, .digit 1 9], [.digit 1 9]] :: others) (two n ++ t) =
      some (n :: ns, rest) := by
  by_cases h : n / 10 = 1
  · exact readFields_two [] (by simp) (value?_digit (by omega)) (value?_digit (by omega)) hrest
  · refine readFields_two [_] ?_ (value?_digit (by omega)) (value?_digit (by omega)) hrest
    exact List.forall_mem_singleton.2 (exists_other_digit (by omega))

theorem readFields_year (hn : n ≤ 9999) (hrest : readFields others t = some (ns, rest)) :
    readFields ([[.any, .any, .any, .any]] :: others) (four n ++ t) = some (n :: ns, rest) := by
  have hvalue : (((0 * 10 + n / 100 / 10) * 10 + n / 100 % 10) * 10 + n % 100 / 10) * 10 + n % 100 % 10 = n := by
    omega
  have h1 : n / 100 / 10 < 10 := by omega
  have h3 : n % 100 / 10 < 10 := by omega
  simp only [readFields, List.findSome?_cons, four, two, List.cons_append, List.nil_append, readSlots,
    value?_any h1, value?_ones, value?_any h3, hrest, hvalue, Option.map_some]

theorem readFields_hour (h23 : n ≤ 23) (hrest : readFields others t = some (ns, rest)) :
    readFields ([[.digit 2 2, .digit 0 3], [.digit 0 1, .any], [.any]] :: others) (two n ++ t) =
      some (n :: ns, rest) := by
  by_cases h : n / 10 = 2
  · exact readFields_two [] (by simp) (value?_digit (by omega)) (value?_digit (by omega)) hrest
  · refine readFields_two [_] ?_ (value?_digit (by omega)) value?_ones hrest
    exact List.forall_mem_singleton.2 (exists_other_digit (by omega))

theorem readFields_minute (h59 : n ≤ 59) (hrest : readFields others t = some (ns, rest)) :
    readFields ([[.digit 0 5, .any], [.any]] :: others) (two n ++ t) = some (n :: ns, rest) :=
  readFields_two [] (by simp) (value?_digit (by omega)) value?_ones hrest

theorem readFields_second (h59 : n ≤ 59) (hrest : readFields others t = some (ns, rest)) :
    readFields ([[.digit 6 6, .digit 0 1], [.digit 0 5, .any], [.any]] :: others) (two n ++ t) =
      some (n :: ns, rest) := by
  refine readFields_two [_] ?_ (value?_digit (by omega)) value?_ones hrest
  exact List.forall_mem_singleton.2 (exists_other_digit (by omega))

end Fields

theorem daysIn_le (month year : Nat) : daysIn month year ≤ 31 := by
  rw [daysIn]
  split
  · split <;> decide
  · split <;> decide

/-- The digits of a date. -/
def digits (t : Timestamp) : Text :=
  two t.day ++ (two t.month ++ (four t.year ++ (two t.hour ++ (two t.minute ++ (two t.second ++ [])))))

variable {t : Timestamp}

theorem bounds_of_isValid (h : t.isValid = true) :
    1 ≤ t.day ∧ t.day ≤ 31 ∧ 1 ≤ t.month ∧ t.month ≤ 12 ∧ t.hour ≤ 23 ∧ t.minute ≤ 59 ∧ t.second ≤ 59 := by
  have hdays := daysIn_le t.month t.year
  simp only [isValid, Bool.and_eq_true, decide_eq_true_eq] at h
  omega

theorem text_toString (h : t.isValid = true) (hy : t.FourDigitYear) : text t.toString = t.digits := by
  obtain ⟨-, hday, -, hmonth, hhour, hminute, hsecond⟩ := bounds_of_isValid h
  rw [toString, text_append, text_append, text_append, text_append, text_append, text_twoDigits (by omega),
    text_twoDigits (by omega), text_year hy, text_twoDigits (by omega), text_twoDigits (by omega),
    text_twoDigits (by omega), digits]
  simp only [List.append_assoc, List.append_nil]

theorem readFields_digits (h : t.isValid = true) (hy : t.FourDigitYear) :
    readFields fields t.digits = some ([t.day, t.month, t.year, t.hour, t.minute, t.second], []) := by
  obtain ⟨hday, hday', hmonth, hmonth', hhour, hminute, hsecond⟩ := bounds_of_isValid h
  exact readFields_day hday hday' (readFields_month hmonth hmonth' (readFields_year hy.2
    (readFields_hour hhour (readFields_minute hminute (readFields_second hsecond rfl)))))

/-- A written date is read again. -/
theorem ofText_toString (h : t.isValid = true) (hy : t.FourDigitYear) : ofText (text t.toString) = .ok t := by
  rw [text_toString h hy, ofText, readFields_digits h hy]
  exact if_pos h

theorem length_toString (h : t.isValid = true) (hy : t.FourDigitYear) : t.toString.length = 14 := by
  have hlen := congrArg List.length (text_toString h hy)
  rwa [text, List.length_map, String.length_toList] at hlen

theorem ascii_toString (h : t.isValid = true) (hy : t.FourDigitYear) : ∀ c ∈ t.toString.toList, c.toNat < 128 := by
  obtain ⟨-, hday, -, hmonth, hhour, hminute, hsecond⟩ := bounds_of_isValid h
  have hyear := hy.2
  have hall : ∀ n ∈ text t.toString, n < 128 := by
    rw [text_toString h hy]
    simp only [digits, four, two, List.cons_append, List.nil_append, List.forall_mem_cons]
    refine ⟨by omega, by omega, by omega, by omega, by omega, by omega, by omega, by omega, by omega, by omega,
      by omega, by omega, by omega, by omega, by simp⟩
  exact fun c hc => hall c.toNat (List.mem_map_of_mem hc)

theorem isValid_of_ofText {text : Text} (h : ofText text = .ok t) : t.isValid = true := by
  rw [ofText] at h
  split at h
  · dsimp only at h
    split at h
    · cases h
      assumption
    · cases h
  · cases h

end AdventureKit.Archive.Timestamp
