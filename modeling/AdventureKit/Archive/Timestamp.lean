import AdventureKit.Text.Digit
import AdventureKit.Text.Utf8

/-!
# Dates of archive entries

A date is written as day, month, year, hour, minute and second without anything between them.  All
but the year have two digits; when read, a leading zero may be missing if the date can still be told
apart, and the one of the day may be a blank.
-/

namespace AdventureKit.Archive

/-- A date and time. -/
structure Timestamp where
  day : Nat
  month : Nat
  year : Nat
  hour : Nat
  minute : Nat
  second : Nat
  deriving DecidableEq, Repr

namespace Timestamp

/-- What may stand at a place of a field. -/
inductive Slot where
  /-- One of some digits. -/
  | digit (first last : Nat)
  /-- A digit of any script. -/
  | any
  /-- A space. -/
  | blank
  deriving DecidableEq, Repr

/-- The value that a character gives in a slot. -/
def Slot.value? : Slot → Nat → Option Nat
  | .digit first last, c => if 48 + first ≤ c && c ≤ 48 + last then some (c - 48) else none
  | .any, c => Text.digit? c
  | .blank, c => if c == 32 then some 0 else none

/-- The number in the slots, and the text after it. -/
def readSlots (n : Nat) : List Slot → Text → Option (Nat × Text)
  | [], t => some (n, t)
  | _ :: _, [] => none
  | slot :: slots, c :: t =>
    match slot.value? c with
    | some d => readSlots (n * 10 + d) slots t
    | none => none

/-- The forms of the fields, in the order in which they are tried. -/
def fields : List (List (List Slot)) := [
  [[.digit 3 3, .digit 0 1], [.digit 1 2, .any], [.digit 0 0, .digit 1 9], [.digit 1 9],
    [.blank, .digit 1 9]],
  [[.digit 1 1, .digit 0 2], [.digit 0 0, .digit 1 9], [.digit 1 9]],
  [[.any, .any, .any, .any]],
  [[.digit 2 2, .digit 0 3], [.digit 0 1, .any], [.any]],
  [[.digit 0 5, .any], [.any]],
  [[.digit 6 6, .digit 0 1], [.digit 0 5, .any], [.any]]]

/-- The first way to read the fields one after the other, and the text after them. -/
def readFields : List (List (List Slot)) → Text → Option (List Nat × Text)
  | [], t => some ([], t)
  | forms :: others, t =>
    forms.findSome? fun form =>
      match readSlots 0 form t with
      | some (n, t) => (readFields others t).map fun (ns, t) => (n :: ns, t)
      | none => none

/-- Whether a year has a 29th of February. -/
def isLeap (year : Nat) : Bool :=
  year % 4 == 0 && (year % 100 != 0 || year % 400 == 0)

/-- The number of days of a month. -/
def daysIn (month year : Nat) : Nat :=
  if month == 2 then (if isLeap year then 29 else 28)
  else if month == 4 || month == 6 || month == 9 || month == 11 then 30
  else 31

/-- Whether the date exists. -/
def isValid (t : Timestamp) : Bool :=
  1 ≤ t.year && 1 ≤ t.month && t.month ≤ 12 && 1 ≤ t.day && t.day ≤ daysIn t.month t.year
    && t.hour ≤ 23 && t.minute ≤ 59 && t.second ≤ 59

/-- The date that a text writes. -/
def ofText (text : Text) : Except Fault Timestamp :=
  match readFields fields text with
  | some ([day, month, year, hour, minute, second], []) =>
    let t : Timestamp := ⟨day, month, year, hour, minute, second⟩
    if t.isValid then .ok t else .error .notDate
  | _ => .error .notDate

/-- A number in two digits. -/
def twoDigits (n : Nat) : String :=
  (if n < 10 then "0" else "") ++ toString n

/-- The written date. -/
def toString (t : Timestamp) : String :=
  twoDigits t.day ++ twoDigits t.month ++ ToString.toString t.year ++ twoDigits t.hour
    ++ twoDigits t.minute ++ twoDigits t.second

end Timestamp

end AdventureKit.Archive
