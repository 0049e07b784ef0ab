import AdventureKit.Name
import AdventureKit.Text.Letter

/-!
# Name patterns

`*` stands for any characters, `?` for one, `[..]` for one of a set and `[!..]` for one outside it.  A
set may hold ranges; a range that runs backwards holds nothing.  A bracket that is not closed stands
for itself.

A pattern is matched with names exactly, in capitals, or letter by letter.  In a folder some patterns
do not stand for names: two dots and two stars lead to folders, and others are refused
(`Pattern.aim`).
-/

namespace AdventureKit

/-- A member of a set of characters. -/
inductive CharItem where
  | single (c : Char)
  /-- The characters from `first` to `last`. -/
  | range (first last : Char)
  deriving DecidableEq, Repr

namespace CharItem

/-- Whether a character is meant. -/
def holds : CharItem → Char → Bool
  | .single d, c => c == d
  | .range first last, c => first ≤ c && c ≤ last

/-- Whether a form of a letter is meant.  In a range that ends beyond `0xFFFF` the letter is also looked
for at the start of its capital form. -/
def holdsLetter : CharItem → Char → Bool
  | .single d, c => Text.letter c.toNat == Text.letter d.toNat
  | .range first last, c =>
    let isBetween (n : Nat) : Bool := first.toNat ≤ n && n ≤ last.toNat
    (Text.forms c.toNat).any isBetween
      || 0xFFFF < last.toNat && (Text.letter c.toNat).head?.any isBetween

/-- Whether the item is a capital beyond `0xFFFF`. -/
def isFarCapital : CharItem → Bool
  | .single c => 0xFFFF < c.toNat && Text.isCapital c.toNat
  | .range _ _ => false

end CharItem

/-- A set of characters: what its items mean, or what lies outside them. -/
structure CharSet where
  outside : Bool
  items : List CharItem
  deriving DecidableEq, Repr

namespace CharSet

/-- Whether a character is in the set. -/
def contains (set : CharSet) (c : Char) : Bool :=
  set.items.any (·.holds c) != set.outside

/-- Whether a letter is in the set.  Capitals beyond `0xFFFF` count only if they stand alone. -/
def containsLetter (set : CharSet) (c : Char) : Bool :=
  let items := set.items.eraseDups
  let items := if items.length = 1 then items else items.filter fun item => !item.isFarCapital
  items.any (·.holdsLetter c) != set.outside

end CharSet

/-- A part of a pattern. -/
inductive Wildcard where
  | anyText
  | anyChar
  | exactly (c : Char)
  | oneOf (set : CharSet)
  deriving DecidableEq, Repr

namespace Wildcard

/-- Whether the part matches a character. -/
def takes : Wildcard → Char → Bool
  | .anyText, _ | .anyChar, _ => true
  | .exactly d, c => c == d
  | .oneOf set, c => set.contains c

/-- Whether the part matches a letter. -/
def takesLetter : Wildcard → Char → Bool
  | .anyText, _ | .anyChar, _ => true
  | .exactly d, c => Text.letter c.toNat == Text.letter d.toNat
  | .oneOf set, c => set.containsLetter c

end Wildcard

/-- A pattern for names. -/
abbrev Pattern := List Wildcard

namespace Pattern

/-- Cuts the inside of a bracket at the hyphens that make ranges.  The first part has `least`
characters or more, and the others two or more, so that no character ends one range and starts the
next. -/
def rangeParts (least : Nat) (part : List Char) : List Char → List (List Char)
  | [] => [part.reverse]
  | c :: rest =>
    if c == '-' && least ≤ part.length then part.reverse :: rangeParts 2 [] rest
    else rangeParts least (c :: part) rest

/-- Joins two parts whose range runs backwards, from the last part to the first. -/
def dropBackward : List (List Char) → List (List Char)
  | [] => []
  | part :: parts =>
    match dropBackward parts with
    | [] => [part]
    | next :: others =>
      match part.getLast?, next.head? with
      | some first, some last =>
        if last < first then (part.dropLast ++ next.tail) :: others else part :: next :: others
      | _, _ => part :: next :: others

/-- The items of the parts: neighbours make a range of the characters that meet, the others stand
for themselves.  A hyphen that starts the set stands for itself. -/
def itemsOf (joined : Bool) : List (List Char) → List CharItem
  | [] => []
  | [part] => (if joined then part.tail else part).map CharItem.single
  | part :: next :: parts =>
    let own := (if joined then part.tail else part).dropLast.map CharItem.single
    match part.getLast?, next.head? with
    | some first, some last => own ++ .range first last :: itemsOf true (next :: parts)
    | _, _ => own ++ .single '-' :: itemsOf false (next :: parts)

/-- The set that the inside of a bracket writes. -/
def setOf (inside : List Char) : CharSet :=
  let parts := rangeParts (if inside.head? == some '!' then 2 else 1) [] inside
  let parts :=
    match parts.reverse with
    | [] :: part :: others => ((part ++ ['-']) :: others).reverse
    | _ => parts
  match dropBackward parts with
  | ('!' :: part) :: others => ⟨true, itemsOf false (part :: others)⟩
  | parts => ⟨false, itemsOf false parts⟩

/-- The inside of a bracket and what follows it.  A closing bracket that comes first is part of the
inside. -/
def bracket? (s : List Char) : Option (List Char × List Char) :=
  let (mark, s) := if s.head? == some '!' then (['!'], s.tail) else ([], s)
  let (first, s) := if s.head? == some ']' then ([']'], s.tail) else ([], s)
  let inside := s.takeWhile (· != ']')
  match s.dropWhile (· != ']') with
  | _ :: rest => some (mark ++ first ++ inside, rest)
  | [] => none

/-- Leaves out `skip` characters, then reads a pattern. -/
def parseFrom : (skip : Nat) → List Char → Pattern
  | _, [] => []
  | skip + 1, _ :: s => parseFrom skip s
  | 0, c :: s =>
    if c == '*' then .anyText :: parseFrom 0 s
    else if c == '?' then .anyChar :: parseFrom 0 s
    else if c == '[' then
      match bracket? s with
      | some (inside, rest) => .oneOf (setOf inside) :: parseFrom (s.length - rest.length) s
      | none => .exactly c :: parseFrom 0 s
    else .exactly c :: parseFrom 0 s

/-- The pattern that a text writes. -/
def ofString (s : String) : Pattern :=
  parseFrom 0 s.toList

/-- Of each place whether it or a later one is marked. -/
def markedFrom : List Bool → List Bool
  | [] => []
  | mark :: marks =>
    let later := markedFrom marks
    (mark || later.headD false) :: later

/-- Marks the ends of a text that the pattern matches, from the whole text to the empty one. -/
def matchedEnds (takes : Wildcard → Char → Bool) (s : List Char) : Pattern → List Bool
  | [] => s.map (fun _ => false) ++ [true]
  | .anyText :: p => markedFrom (matchedEnds takes s p)
  | w :: p => List.zipWith (fun c mark => mark && takes w c) s (matchedEnds takes s p).tail ++ [false]

/-- Whether a written pattern matches a name, if its parts match as `takes` says. -/
def acceptsBy (takes : Wildcard → Char → Bool) (pattern name : String) : Bool :=
  (matchedEnds takes name.toList (ofString pattern)).headD false

/-- Whether a written pattern matches a name. -/
def accepts : (pattern name : String) → Bool :=
  acceptsBy Wildcard.takes

/-- Whether a written pattern matches a name letter by letter. -/
def acceptsLetters : (pattern name : String) → Bool :=
  acceptsBy Wildcard.takesLetter

/-- Whether a pattern written in capitals matches a name in capitals. -/
def acceptsCapitals (pattern name : String) : Bool :=
  accepts (upperCase pattern) (upperCase name)

/-- What a pattern looks for in a folder. -/
inductive Aim where
  | names
  | folders
  deriving DecidableEq, Repr

/-- What a written pattern looks for in a folder.  Two dots mean the folder above, and two stars the
folder itself and all folders below it; besides, no two stars may follow each other.  An empty pattern
and a dot look for nothing. -/
def aim (pattern : String) : Except Fault Aim :=
  if pattern == "" then .error .badName
  else if pattern == "." then .error .outside
  else if pattern == ".." || pattern == "**" then .ok .folders
  else if (pattern.toList.zip pattern.toList.tail).contains ('*', '*') then .error .badName
  else .ok .names

/-- Whether a written pattern finds a name in a folder. -/
def finds (pattern name : String) : Bool :=
  (aim pattern).toOption == some .names && acceptsLetters pattern name

end Pattern

/-- Whether the parts of a pattern match the last parts of a path, where a root is a part, and all of
them if the pattern has a root. -/
def Path.matchesPattern (p : Path) (pattern : String) : Except Fault Bool :=
  let q := Path.ofString pattern
  if q.root == "" && q.parts.isEmpty then .error .badName
  else if q.root != "" then
    .ok (q.root == p.root && q.parts.length == p.parts.length
      && (p.parts.zip q.parts).all fun (part, pat) => Pattern.accepts pat part)
  else
    let parts := if p.root == "" then p.parts else p.root :: p.parts
    .ok (q.parts.length ≤ parts.length
      && (parts.reverse.zip q.parts.reverse).all fun (part, pat) => Pattern.accepts pat part)

end AdventureKit
