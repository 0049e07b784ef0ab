import AdventureKit.Fault
import AdventureKit.Sequence
import AdventureKit.Table
import AdventureKit.Text.Digit

/-!
# Command-line arguments

A tool names the options that it takes and the values that it expects.  Arguments that start with a
dash are options: by their name, by a beginning of a long name that fits one option only, or as short
options joined in one argument, the last of which may carry its value.  A value may also stand after an
equals sign.  After two dashes everything is a value.

Values are handed out where they stand: each stretch of values between options is matched with the
expected values that are left, as many of them as fit, and each of these takes as much as it can.
-/

namespace AdventureKit.CommandLine

/-- What an option takes. -/
inductive Taking where
  | nothing
  /-- One value; the last one counts. -/
  | one
  /-- One value each time; all count. -/
  | oneEach
  /-- All values that follow. -/
  | all
  /-- Nothing, but the help is shown and the program ends. -/
  | help
  deriving DecidableEq, Repr

/-- Whether an option stands alone. -/
def Taking.isAlone (taking : Taking) : Bool :=
  taking == .nothing || taking == .help

/-- An option with all its names. -/
structure OptionRule where
  names : List String
  key : String
  taking : Taking
  deriving DecidableEq, Repr

/-- How many values are expected. -/
inductive Count where
  | one
  | atMostOne
  | any
  deriving DecidableEq, Repr

/-- Expected values; with `choices` no others are taken. -/
structure ValueRule where
  key : String
  count : Count
  choices : Option (List String)
  deriving DecidableEq, Repr

/-- What a tool takes. -/
structure Rules where
  options : List OptionRule
  values : List ValueRule
  deriving DecidableEq, Repr

/-- What was given for a key. -/
inductive Given where
  | present
  | text (value : String)
  | texts (values : List String)
  deriving DecidableEq, Repr

/-- A text joined to an option, right behind its name or after an equals sign. -/
structure Joined where
  equals : Bool
  text : String
  deriving DecidableEq, Repr

/-- An option as it is written: its rule, its name, and what is joined to it. -/
structure Written where
  rule : OptionRule
  name : String
  joined : Option Joined
  deriving DecidableEq, Repr

/-- What an argument is. -/
inductive Role where
  | option (written : Written)
  /-- An option that the tool does not have. -/
  | unknown
  | value
  /-- The two dashes. -/
  | separator
  deriving DecidableEq, Repr

/-- The fault of arguments that are refused. -/
def refused : Fault :=
  .usage 2

/-! ### What the arguments are -/

/-- Cuts a text at its first equals sign. -/
def splitEquals (s : String) : Option (String × String) :=
  (Sequence.splitFirst ['='] s.toList).map fun (a, b) => (String.ofList a, String.ofList b)

/-- Whether a text is a negative number: digits, or digits after a point that may follow others.  A
line end behind them does not count. -/
def isNegativeNumber (s : String) : Bool :=
  let isDigit (c : Char) : Bool := (Text.digit? c.toNat).isSome
  let isNumber (digits : List Char) : Bool :=
    match digits.dropWhile isDigit with
    | [] => !digits.isEmpty
    | '.' :: places => !places.isEmpty && places.all isDigit
    | _ => false
  match s.toList with
  | '-' :: digits => isNumber (if digits.getLast? == some '\n' then digits.dropLast else digits)
  | _ => false

namespace Rules

/-- All names with their options. -/
def names (rules : Rules) : List (String × OptionRule) :=
  rules.options.flatMap fun rule => rule.names.map fun name => (name, rule)

/-- The options that an argument may mean when it is no full name. -/
def guesses (rules : Rules) (s : String) : List Written :=
  if s.startsWith "--" then
    let (beginning, joined) : String × Option Joined := match splitEquals s with
      | some (a, b) => (a, some ⟨true, b⟩)
      | none => (s, none)
    (rules.names.filter fun (name, _) => name.startsWith beginning).map fun (name, rule) =>
      ⟨rule, name, joined⟩
  else
    let short := String.ofList (s.toList.take 2)
    rules.names.filterMap fun (name, rule) =>
      if name == short then some ⟨rule, name, some ⟨false, String.ofList (s.toList.drop 2)⟩⟩
      else if name.startsWith s then some ⟨rule, name, none⟩
      else none

/-- What an argument is, before the two dashes. -/
def role (rules : Rules) (s : String) : Except Fault Role :=
  if !s.startsWith "-" then .ok .value
  else
    match rules.names.lookup s with
    | some rule => .ok (.option ⟨rule, s, none⟩)
    | none =>
      if s.length = 1 then .ok .value
      else
        let joined : Option Written := (splitEquals s).bind fun (name, value) =>
          (rules.names.lookup name).map fun rule => ⟨rule, name, some ⟨true, value⟩⟩
        match joined with
        | some written => .ok (.option written)
        | none =>
          match rules.guesses s with
          | [written] => .ok (.option written)
          | _ :: _ :: _ => .error refused
          | [] =>
            if isNegativeNumber s || s.toList.contains ' ' then .ok .value else .ok .unknown

/-- What the arguments are. -/
def roles (rules : Rules) : List String → Except Fault (List (String × Role))
  | [] => .ok []
  | s :: rest =>
    if s == "--" then .ok ((s, .separator) :: rest.map fun s => (s, .value))
    else do
      let role ← rules.role s
      return (s, role) :: (← rules.roles rest)

end Rules

/-! ### Handing out values -/

/-- The numbers from `low` to `high`, the largest first. -/
def countDown (low high : Nat) : List Nat :=
  (List.range (high + 1 - low)).reverse.map (low + ·)

/-- How many of the next arguments expected values may take, in the order in which it is tried.  The
two dashes go with the value beside them. -/
def lengths (count : Count) (next : List Role) : List Nat :=
  let dashes := (next.takeWhile (· == .separator)).length
  let withOne := match next.drop dashes with
    | .value :: rest =>
      countDown (dashes + 1) (dashes + 1 + (rest.takeWhile (· == .separator)).length)
    | _ => []
  match count with
  | .one => withOne
  | .atMostOne => withOne ++ countDown 0 dashes
  | .any => countDown 0 (next.takeWhile fun role => role == .value || role == .separator).length

/-- The first lengths that fit all of the expected values. -/
def fit (next : List Role) : List Count → Option (List Nat)
  | [] => some []
  | count :: counts =>
    (lengths count next).findSome? fun n => (fit (next.drop n) counts).map (n :: ·)

/-- The lengths of as many expected values as fit. -/
def fitMost (next : List Role) (counts : List Count) : List Nat :=
  ((countDown 1 counts.length).findSome? fun n => fit next (counts.take n)).getD []

/-- What is read so far. -/
structure Reader where
  given : Table String Given
  /-- The expected values that are left. -/
  left : List ValueRule
  /-- Whether arguments are left over. -/
  surplus : Bool
  deriving DecidableEq, Repr

namespace Reader

/-- Keeps what is given for a key. -/
def keep (r : Reader) (key : String) (given : Given) : Reader :=
  { r with given := r.given.put key given }

/-- Takes the values of a rule. -/
def takeValues (r : Reader) (rule : ValueRule) (values : List String) : Except Fault Reader := do
  let values := values.erase "--"
  if let some choices := rule.choices then
    unless values.all choices.contains do throw refused
  match rule.count, values with
  | .any, [] | .atMostOne, [] => return r
  | .any, values => return r.keep rule.key (.texts values)
  | _, value :: _ => return r.keep rule.key (.text value)
  | .one, [] => throw refused

/-- Hands values out; gives also how many arguments they took. -/
def handOut (r : Reader) (next : List (String × Role)) : Except Fault (Reader × Nat) := do
  let sizes := fitMost (next.map Prod.snd) (r.left.map ValueRule.count)
  let (r, taken) ← (r.left.zip sizes).foldlM (fun (r, taken) (rule, size) => do
    let r ← takeValues r rule (((next.drop taken).take size).map Prod.fst)
    return (r, taken + size)) (r, 0)
  return ({ r with left := r.left.drop sizes.length }, taken)

/-- Applies an option with its values. -/
def apply (r : Reader) (rule : OptionRule) (values : List String) : Except Fault Reader :=
  match rule.taking with
  | .help => .error (.usage 0)
  | .nothing => .ok (r.keep rule.key .present)
  | .one => .ok (r.keep rule.key (.text (values.headD "")))
  | .oneEach =>
    let before := match r.given.get? rule.key with
      | some (.texts values) => values
      | _ => []
    .ok (r.keep rule.key (.texts (before ++ values)))
  | .all => .ok (r.keep rule.key (.texts values))

end Reader

/-! ### Options -/

/-- The values that stand behind an option. -/
def valuesBehind (rule : OptionRule) (next : List (String × Role)) : Except Fault (List String) :=
  let values := (next.takeWhile fun item => item.2 == .value).map Prod.fst
  match rule.taking with
  | .nothing | .help => .ok []
  | .one | .oneEach =>
    match values with
    | value :: _ => .ok [value]
    | [] => .error refused
  | .all => .ok values

/-- The options of one argument. -/
structure Options where
  /-- The options with their values. -/
  given : List (OptionRule × List String)
  /-- How many of the arguments behind them they took. -/
  taken : Nat
  /-- Whether an option among them is unknown; what follows it is left over. -/
  surplus : Bool
  deriving DecidableEq, Repr

/-- The option with the values that stand behind it. -/
def Options.alone (rule : OptionRule) (next : List (String × Role)) : Except Fault Options := do
  let values ← valuesBehind rule next
  return ⟨[(rule, values)], values.length, false⟩

/-- The short option `rule`, to which a text is joined.  If it takes nothing, the text joins more short
options; no dash and no equals sign may stand between them. -/
def joinedOptions (rules : Rules) (next : List (String × Role)) (rule : OptionRule) (equals : Bool) :
    List Char → Except Fault Options
  | [] => if rule.taking.isAlone then .error refused else .ok ⟨[(rule, [""])], 0, false⟩
  | c :: rest =>
    if !rule.taking.isAlone then .ok ⟨[(rule, [String.ofList (c :: rest)])], 0, false⟩
    else if equals || c == '-' then .error refused
    else do
      let more ←
        match rules.names.lookup (String.ofList ['-', c]), rest with
        | none, _ => .ok ⟨[], 0, true⟩
        | some other, [] => Options.alone other next
        | some other, '=' :: text => joinedOptions rules next other true text
        | some other, d :: text => joinedOptions rules next other false (d :: text)
      return { more with given := (rule, []) :: more.given }

/-- The options of one argument. -/
def optionsOf (rules : Rules) (written : Written) (next : List (String × Role)) :
    Except Fault Options :=
  match written.joined with
  | none => Options.alone written.rule next
  | some joined =>
    if !written.name.startsWith "--" then
      joinedOptions rules next written.rule joined.equals joined.text.toList
    else if written.rule.taking.isAlone then .error refused
    else .ok ⟨[(written.rule, [joined.text])], 0, false⟩

/-! ### Reading -/

/-- Reads arguments one after the other. -/
def readFrom (rules : Rules) (r : Reader) (items : List (String × Role)) : Except Fault Reader :=
  match items with
  | [] => do
    let (r, _) ← r.handOut []
    return r
  | (s, role) :: rest =>
    match role with
    | .option written => do
      let options ← optionsOf rules written rest
      let r ← options.given.foldlM (fun r (rule, values) => r.apply rule values) r
      readFrom rules { r with surplus := r.surplus || options.surplus } (rest.drop options.taken)
    | .unknown => readFrom rules { r with surplus := true } rest
    | _ => do
      let (r, taken) ← r.handOut ((s, role) :: rest)
      if taken = 0 then readFrom rules { r with surplus := true } rest
      else readFrom rules r (rest.drop (taken - 1))
termination_by items.length
decreasing_by
  all_goals simp only [List.length_drop, List.length_cons]; omega

/-- Reads the arguments of a tool.  All values that are expected once have to be there, and nothing may
be left over. -/
def Rules.read (rules : Rules) (arguments : List String) : Except Fault (Table String Given) := do
  let r ← readFrom rules ⟨[], rules.values, false⟩ (← rules.roles arguments)
  if r.surplus || r.left.any fun rule => rule.count == .one then throw refused
  return r.given

end AdventureKit.CommandLine
