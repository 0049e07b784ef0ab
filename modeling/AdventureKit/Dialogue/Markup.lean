import AdventureKit.Sequence
import AdventureKit.Text.Numeral
import AdventureKit.Text.Quoted

/-!
# The markup of dialogue texts

In a script a text is plain bytes mixed with codes: line breaks that carry a position, short commands
with arguments, and the pair `01 00` that ends it.  `tokens` reads the codes, `ofBody` writes them as
text that can be edited, and `toBody` turns the edited text back:

* a break is a line feed, or a rule of three waves between line feeds, and then `x@y` on a line;
* a command is written byte by byte as `\xNN`;
* a tab and a return are written as `|~t~|` and `|~r~|`.
-/

namespace AdventureKit.Markup

/-- One piece of a text. -/
inductive Token where
  | literal (b : UInt8)
  /-- A break with the position at which the text goes on; `five` tells the two kinds apart. -/
  | lineBreak (five : Bool) (x y : Nat)
  /-- A code with its arguments. -/
  | command (bytes : Bytes)
  /-- A code with a list of words, which also breaks the line. -/
  | wordList (bytes : Bytes)
  /-- An end mark that is not complete.  It stands before `position`, and what follows it is
  lost. -/
  | brokenEnd (bytes : Bytes) (position : Nat) (lost : Bytes)
  deriving DecidableEq, Repr

/-- Bytes in their escaped form. -/
def escape (bs : Bytes) : Bytes :=
  bs.flatMap fun b => Bytes.ofAscii ("\\x" ++ Quoted.hex 2 b.toNat)

/-- How many bytes follow the first argument of the code 6. -/
def argumentSize (a : UInt8) : Nat :=
  if a ≥ 0x80 then 2 else if a ≥ 0x40 then 8 else 0

/-- The token that starts with the byte `c` at `position`, and how many bytes of `rest` belong to it;
none at the end mark. -/
def token? (position : Nat) (c : UInt8) (rest : Bytes) : Except Fault (Option (Token × Nat)) :=
  if c = 1 then
    match rest with
    | 0 :: _ => .ok none
    | _ =>
      let taken := rest.take 1
      .ok (some (.brokenEnd (c :: taken) (position + 1 + taken.length) (rest.drop 1), rest.length))
  else if c = 2 ∨ c = 5 then
    .ok (some (.lineBreak (c = 5) rest.word (Bytes.word (rest.drop 2)), 4))
  else if c = 3 ∨ c = 4 then .ok (some (.command (c :: rest.take 1), 1))
  else if c = 6 then
    match rest with
    | [] => .error (.ended .byte)
    | a :: rest =>
      .ok (some (.command (c :: a :: rest.take (argumentSize a)), 1 + argumentSize a))
  else if 7 ≤ c ∧ c ≤ 9 then .ok (some (.command [c], 0))
  else if c = 10 then
    match rest with
    | [] => .error (.ended .byte)
    | a :: rest => .ok (some (.wordList (c :: a :: rest.take (2 * a.toNat)), 1 + 2 * a.toNat))
  else .ok (some (.literal c, 0))

/-- Leaves out `skip` bytes, then reads tokens up to the end mark or the end of the data. -/
def tokensFrom : (position skip : Nat) → Bytes → Except Fault (List Token)
  | _, _, [] => .ok []
  | position, skip + 1, _ :: bs => tokensFrom (position + 1) skip bs
  | position, 0, c :: bs => do
    match ← token? position c bs with
    | none => return []
    | some (token, skip) => return token :: (← tokensFrom (position + 1) skip bs)

/-- The tokens of a text. -/
def tokens (body : Bytes) : Except Fault (List Token) :=
  tokensFrom 0 0 body

/-- The written pieces of a token. -/
def Token.pieces : Token → List Bytes
  | .literal b => [[b]]
  | .lineBreak five x y =>
    [Bytes.ofAscii (if five then "\n~~~\n" else "\n"),
      Bytes.ofAscii (toString x ++ "@" ++ toString y ++ "\n")]
  | .command bs => [escape bs]
  | .wordList bs => [escape bs, [10]]
  | .brokenEnd bs _ _ => [escape bs]

/-- The remark that a token deserves. -/
def Token.remark : Token → String
  | .brokenEnd bs position lost =>
    let taken := bs.drop 1
    toString taken.length ++ " " ++ toString position ++ " " ++ toString (position % 2) ++ "\nREST "
      ++ Quoted.bytes taken ++ " " ++ Quoted.bytes lost ++ "\n"
  | _ => ""

/-- What is written for bytes that a table cell does not show well. -/
def replacements : List (Bytes × Bytes) :=
  [([9], Bytes.ofAscii "|~t~|"), ([13], Bytes.ofAscii "|~r~|")] ++
    [0, 1, 2, 3, 4, 5, 6, 7, 8, 9, 18].map fun b => ([b], escape [b])

/-- The written form of tokens. -/
def render (ts : List Token) : Bytes :=
  Sequence.replaceMany replacements (ts.flatMap Token.pieces).flatten

/-- The mark of a line feed while breaks are looked for. -/
def lineMark : Bytes := Bytes.ofAscii "|~$~|"

/-- The mark of a rule of waves while breaks are looked for. -/
def ruleMark : Bytes := Bytes.ofAscii "|~~~|"

/-- A break in a written text: the text before it, its code, and what follows it. -/
structure Break where
  before : Bytes
  code : UInt8
  after : Bytes
  deriving DecidableEq, Repr

/-- The first break of a text. -/
def nextBreak? : Bytes → Option Break
  | [] => none
  | b :: t =>
    if lineMark.isPrefixOf (b :: t) then some ⟨[], 2, (b :: t).drop lineMark.length⟩
    else if ruleMark.isPrefixOf (b :: t) then some ⟨[], 5, (b :: t).drop ruleMark.length⟩
    else (nextBreak? t).map fun found => { found with before := b :: found.before }

/-- The part up to the next line feed and what follows it. -/
def firstLine (t : Bytes) : Bytes × Bytes :=
  (Sequence.splitFirst lineMark t).getD (t, [])

/-- The position that a line gives. -/
def position? (line : Bytes) : Option (Int × Int) := do
  let (x, y) ← Sequence.splitFirst [64] line
  return (← Numeral.decimal? x, ← Numeral.decimal? y)

/-- A position in its coded form. -/
def positionBytes (x y : Int) : Except Fault Bytes := do
  return (← Bytes.putLE 2 x) ++ (← Bytes.putLE 2 y)

theorem length_splitFirst_lt {mark t before after : Bytes} (hm : mark ≠ [])
    (h : Sequence.splitFirst mark t = some (before, after)) : after.length < t.length := by
  have hlen := congrArg List.length (Sequence.eq_of_splitFirst h)
  have hpos := List.length_pos_iff.2 hm
  simp only [List.length_append] at hlen
  omega

theorem lineMark_ne_nil : lineMark ≠ [] := by decide

theorem ruleMark_ne_nil : ruleMark ≠ [] := by decide

theorem length_drop_lt {mark : Bytes} (hm : mark ≠ []) (b : UInt8) (t : Bytes) :
    ((b :: t).drop mark.length).length < (b :: t).length := by
  have hpos := List.length_pos_iff.2 hm
  simp only [List.length_drop, List.length_cons]
  omega

theorem length_after_lt {t : Bytes} {found : Break} (h : nextBreak? t = some found) :
    found.after.length < t.length := by
  induction t generalizing found with
  | nil => simp [nextBreak?] at h
  | cons b t ih =>
    unfold nextBreak? at h
    split at h
    · cases h
      exact length_drop_lt lineMark_ne_nil b t
    · split at h
      · cases h
        exact length_drop_lt ruleMark_ne_nil b t
      · cases hn : nextBreak? t with
        | none => simp [hn] at h
        | some next =>
          simp only [hn, Option.map_some, Option.some.injEq] at h
          have hlt := ih hn
          subst h
          exact Nat.lt_succ_of_lt hlt

theorem length_firstLine_le (t : Bytes) : (firstLine t).2.length ≤ t.length := by
  unfold firstLine
  cases h : Sequence.splitFirst lineMark t with
  | none => simp
  | some p => exact Nat.le_of_lt (length_splitFirst_lt lineMark_ne_nil h)

/-- The text with its breaks in coded form, piece by piece.  A break without a position goes on below
the last one. -/
def breaksFrom (x y : Int) (t : Bytes) : Except Fault (List Bytes) :=
  match h : nextBreak? t with
  | none => .ok [t]
  | some b => do
    have := length_after_lt h
    have := length_firstLine_le b.after
    match position? (firstLine b.after).1 with
    | some (x, y) =>
      let place ← positionBytes x y
      return (b.before ++ escape [b.code]) :: place :: (← breaksFrom x y (firstLine b.after).2)
    | none =>
      let place ← positionBytes x (y + 10)
      return (b.before ++ escape [b.code]) :: place :: (← breaksFrom x (y + 10) b.after)
termination_by t.length

/-- The pieces of a text whose line feeds and rules are marked. -/
def breaks (t : Bytes) : Except Fault (List Bytes) :=
  breaksFrom 0 0 t

/-- The byte of an escape whose mark has been cut off, and what follows it.  Without a number there
the text stays. -/
def unescape (t : Bytes) : Bytes :=
  match Numeral.hexadecimal? (t.take 2) with
  | some n => UInt8.ofNat n :: t.drop 2
  | none => t

/-- The bytes of a text with escapes. -/
def unescapeAll (t : Bytes) : Bytes :=
  match Sequence.splitAll (Bytes.ofAscii "\\x") t with
  | [] => []
  | first :: rest => first ++ rest.flatMap unescape

/-- Marks the line feeds and rules of a written text. -/
def markLines (t : Bytes) : Bytes :=
  Sequence.replaceMany
    [(Bytes.ofAscii "\n~~~\n", ruleMark), ([10], lineMark), (Bytes.ofAscii "|~r~|", [13]),
      (Bytes.ofAscii "|~t~|", [9])] t

/-- The coded form of a written text. -/
def toBody (t : Bytes) : Except Fault Bytes := do
  return unescapeAll (← breaks (markLines t)).flatten

end AdventureKit.Markup
