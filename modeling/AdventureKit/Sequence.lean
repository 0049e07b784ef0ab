/-!
# Searching and replacing in sequences

Texts, byte strings and names are lists, and the library looks for a part of one, cuts it there, or
puts another part in its place.  All searches go from left to right and hits do not overlap.
-/

namespace AdventureKit.Sequence

variable {α : Type} [BEq α]

/-- The part before the first `mark` and the part after it. -/
def splitFirst (mark : List α) : List α → Option (List α × List α)
  | [] => if mark.isEmpty then some ([], []) else none
  | x :: xs =>
    if mark.isPrefixOf (x :: xs) then some ([], (x :: xs).drop mark.length)
    else (splitFirst mark xs).map fun (before, after) => (x :: before, after)

theorem eq_of_splitFirst [LawfulBEq α] {mark xs before after : List α}
    (h : splitFirst mark xs = some (before, after)) : xs = before ++ mark ++ after := by
  induction xs generalizing before with
  | nil =>
    unfold splitFirst at h
    split at h
    · rename_i he
      cases h
      simp [List.isEmpty_iff.1 he]
    · simp at h
  | cons x xs ih =>
    unfold splitFirst at h
    split at h
    · rename_i hp
      cases h
      obtain ⟨t, ht⟩ := List.isPrefixOf_iff_prefix.1 hp
      simp [← ht]
    · cases hs : splitFirst mark xs with
      | none => simp [hs] at h
      | some p =>
        obtain ⟨before', after'⟩ := p
        simp only [hs, Option.map_some, Option.some.injEq, Prod.mk.injEq] at h
        obtain ⟨rfl, rfl⟩ := h
        simp [ih hs]

/-- Whether `part` occurs in `xs`. -/
def occursIn (part xs : List α) : Bool :=
  (splitFirst part xs).isSome

/-- Leaves out the first `skip` elements, then puts `new` in place of every `old`. -/
def replaceFrom (old new : List α) : (skip : Nat) → List α → List α
  | _, [] => []
  | skip + 1, _ :: xs => replaceFrom old new skip xs
  | 0, x :: xs =>
    if old.isPrefixOf (x :: xs) then new ++ replaceFrom old new (old.length - 1) xs
    else x :: replaceFrom old new 0 xs

/-- Puts `new` in place of every `old`.  An empty `old` stands before, between and after all
elements. -/
def replaceAll (old new xs : List α) : List α :=
  if old.isEmpty then xs.flatMap (fun x => new ++ [x]) ++ new
  else replaceFrom old new 0 xs

/-- Replaces one pair after the other, each in what the pairs before it have left. -/
def replaceMany (pairs : List (List α × List α)) (xs : List α) : List α :=
  pairs.foldl (fun s pair => replaceAll pair.1 pair.2 s) xs

/-- Leaves out the first `skip` elements, then cuts at every `mark`; `part` is what the current part
holds so far, last element first. -/
def splitFrom (mark : List α) : (skip : Nat) → (part : List α) → List α → List (List α)
  | _, part, [] => [part.reverse]
  | skip + 1, part, _ :: xs => splitFrom mark skip part xs
  | 0, part, x :: xs =>
    if mark.isPrefixOf (x :: xs) then part.reverse :: splitFrom mark (mark.length - 1) [] xs
    else splitFrom mark 0 (x :: part) xs

/-- The parts between the marks, of which there is one more than there are marks. -/
def splitAll (mark xs : List α) : List (List α) :=
  splitFrom mark 0 [] xs

/-- The elements, filled up with `blank` to `size`; more than `size` elements are refused. -/
def fill? (size : Int) (blank : α) (xs : List α) : Option (List α) :=
  if xs.length ≤ size then some (xs ++ List.replicate (size - xs.length).toNat blank) else none

/-- Combines `ys` with the part of `xs` that starts at `place`, which may lie outside; what of `ys`
does not meet an element of `xs` is left out. -/
def overlay {β : Type} (combine : β → β → β) (place : Int) (ys xs : List β) : List β :=
  let start := place.toNat
  let ys := ys.drop (-place).toNat
  xs.take start ++ List.zipWith combine (xs.drop start) ys ++ xs.drop (start + ys.length)

/-- Puts one more element before runs. -/
def addToRuns (x : α) : List (α × Nat) → List (α × Nat)
  | [] => [(x, 1)]
  | (y, n) :: rest => if x == y then (y, n + 1) :: rest else (x, 1) :: (y, n) :: rest

/-- Equal neighbours together with their number. -/
def runs (xs : List α) : List (α × Nat) :=
  xs.foldr addToRuns []

/-- Puts an element before those that were seen, unless it is one of them. -/
def addNew (seen : List α) (x : α) : List α :=
  if seen.contains x then seen else x :: seen

/-- Keeps the first of equal elements. -/
def distinct (xs : List α) : List α :=
  (xs.foldl addNew []).reverse

end AdventureKit.Sequence
