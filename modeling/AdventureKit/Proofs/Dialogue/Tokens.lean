import AdventureKit.Dialogue.Markup
import AdventureKit.Proofs.Bytes

/-!
# The coded form of tokens

`Token.coded` writes a token as a script has it, and `tokens` reads regular tokens back up to the end mark,
whatever stands behind it.
-/

namespace AdventureKit.Markup

/-- The bytes `\x`, with which the escapes of a written text begin. -/
def escapeMark : Bytes := [0x5C, 0x78]

/-- A byte that is a token of its own and not a sign of the written form. -/
structure IsPlain (b : UInt8) : Prop where
  range : b = 0 ∨ 11 ≤ b
  ne_backslash : b ≠ 0x5C
  ne_bar : b ≠ 0x7C
  ne_wave : b ≠ 0x7E

namespace Token

/-- The bytes of a token in a script. -/
def coded : Token → Bytes
  | .literal b => [b]
  | .lineBreak five x y => (if five then 5 else 2) :: (Bytes.ofNatLE 2 x ++ Bytes.ofNatLE 2 y)
  | .command bs => bs
  | .wordList bs => bs
  | .brokenEnd bs _ lost => bs ++ lost

/-- The tokens of texts.  The position of a break does not hold the bytes of an escape. -/
inductive Regular : Token → Prop
  | literal {b : UInt8} (hb : IsPlain b) : Regular (.literal b)
  | lineBreak {five : Bool} {x y : Nat} (hx : x < 65536) (hy : y < 65536)
      (hpair : ¬ escapeMark <:+: Bytes.ofNatLE 2 x ++ Bytes.ofNatLE 2 y) : Regular (.lineBreak five x y)
  | short {c a : UInt8} (hc : c = 3 ∨ c = 4) : Regular (.command [c, a])
  | sized {a : UInt8} {args : Bytes} (h : args.length = argumentSize a) : Regular (.command (6 :: a :: args))
  | lone {c : UInt8} (hc : c = 7 ∨ c = 8 ∨ c = 9) : Regular (.command [c])
  | wordList {a : UInt8} {args : Bytes} (h : args.length = 2 * a.toNat) : Regular (.wordList (10 :: a :: args))

/-- The last byte of a position does not begin an escape with the next literal. -/
def Apart : Token → Token → Prop
  | .lineBreak _ _ y, .literal b => ¬ (y / 256 = 0x5C ∧ b = 0x78)
  | _, _ => True

def isWordList : Token → Bool
  | .wordList _ => true
  | _ => false

def isLineBreak : Token → Bool
  | .lineBreak _ _ _ => true
  | _ => false

end Token

/-! ## Reading -/

theorem IsPlain.ne_code {b : UInt8} (h : IsPlain b) {c : UInt8} (hc : 1 ≤ c ∧ c ≤ 10) : b ≠ c := by
  rintro rfl
  obtain ⟨rfl | hb, -, -, -⟩ := h
  · exact absurd hc.1 (by decide)
  · exact absurd (UInt8.le_trans hb hc.2) (by decide)

theorem token?_literal {b : UInt8} (hb : IsPlain b) (position : Nat) (rest : Bytes) :
    token? position b rest = .ok (some (.literal b, 0)) := by
  have hrange : ¬ (7 ≤ b ∧ b ≤ 9) := by
    rintro ⟨hlow, hhigh⟩
    rcases hb.range with rfl | hb
    · exact absurd hlow (by decide)
    · exact absurd (UInt8.le_trans hb hhigh) (by decide)
  simp [token?, hb.ne_code (c := 1) (by decide), hb.ne_code (c := 2) (by decide), hb.ne_code (c := 3) (by decide),
    hb.ne_code (c := 4) (by decide), hb.ne_code (c := 5) (by decide), hb.ne_code (c := 6) (by decide),
    hb.ne_code (c := 10) (by decide), hrange]

theorem token?_lineBreak {x y : Nat} (hx : x < 65536) (hy : y < 65536) (five : Bool) (position : Nat) (rest : Bytes) :
    token? position (if five then 5 else 2) (Bytes.ofNatLE 2 x ++ Bytes.ofNatLE 2 y ++ rest) =
      .ok (some (.lineBreak five x y, 4)) := by
  have hword : Bytes.word (Bytes.ofNatLE 2 x ++ (Bytes.ofNatLE 2 y ++ rest)) = x := Bytes.word_ofNatLE hx _
  have hnext : Bytes.word ((Bytes.ofNatLE 2 x ++ (Bytes.ofNatLE 2 y ++ rest)).drop 2) = y := by
    rw [List.drop_left' (Bytes.length_ofNatLE 2 x), Bytes.word_ofNatLE hy]
  rw [List.append_assoc]
  cases five with
  | false => simp [token?, hword, hnext]
  | true => simp [token?, hword, hnext]

/-- A token is read with all its bytes. -/
theorem Token.Regular.token? {t : Token} (ht : t.Regular) :
    ∃ c args, t.coded = c :: args ∧
      ∀ position rest, Markup.token? position c (args ++ rest) = .ok (some (t, args.length)) := by
  cases ht with
  | literal hb => exact ⟨_, [], rfl, fun position rest => token?_literal hb position rest⟩
  | lineBreak hx hy hpair =>
    refine ⟨_, _, rfl, fun position rest => ?_⟩
    rw [token?_lineBreak hx hy, List.length_append, Bytes.length_ofNatLE, Bytes.length_ofNatLE]
  | short hc =>
    refine ⟨_, _, rfl, fun position rest => ?_⟩
    rcases hc with rfl | rfl
    · simp [Markup.token?]
    · simp [Markup.token?]
  | sized h =>
    refine ⟨_, _, rfl, fun position rest => ?_⟩
    simp [Markup.token?, List.take_left' h, h, Nat.add_comm]
  | lone hc =>
    refine ⟨_, _, rfl, fun position rest => ?_⟩
    rcases hc with rfl | rfl | rfl
    · simp [Markup.token?]
    · simp [Markup.token?]
    · simp [Markup.token?]
  | wordList h =>
    refine ⟨_, _, rfl, fun position rest => ?_⟩
    simp [Markup.token?, List.take_left' h, h, Nat.add_comm]

theorem tokensFrom_skip (position : Nat) (args rest : Bytes) :
    tokensFrom position args.length (args ++ rest) = tokensFrom (position + args.length) 0 rest := by
  induction args generalizing position with
  | nil => rfl
  | cons b args ih =>
    rw [List.length_cons, List.cons_append, tokensFrom, ih, Nat.add_assoc, Nat.add_comm 1]

theorem tokensFrom_append {ts : List Token} (hts : ∀ t ∈ ts, t.Regular) (position : Nat) (rest : Bytes) :
    tokensFrom position 0 (ts.flatMap Token.coded ++ rest) =
      (tokensFrom (position + (ts.flatMap Token.coded).length) 0 rest).map (ts ++ ·) := by
  induction ts generalizing position with
  | nil => cases h : tokensFrom position 0 rest <;> simp [Except.map, h]
  | cons t ts ih =>
    obtain ⟨ht, hts⟩ := List.forall_mem_cons.1 hts
    obtain ⟨c, args, hcoded, htoken⟩ := ht.token?
    have hposition : position + ((t :: ts).flatMap Token.coded).length =
        position + 1 + args.length + (ts.flatMap Token.coded).length := by
      rw [List.flatMap_cons, hcoded, List.length_append, List.length_cons]
      omega
    rw [hposition, List.flatMap_cons, hcoded, List.append_assoc, List.cons_append, tokensFrom, htoken]
    simp only [bind, Except.bind, tokensFrom_skip, ih hts]
    cases tokensFrom (position + 1 + args.length + (ts.flatMap Token.coded).length) 0 rest with
    | error e => rfl
    | ok later => rfl

theorem tokens_append_end {ts : List Token} (hts : ∀ t ∈ ts, t.Regular) (more : Bytes) :
    tokens (ts.flatMap Token.coded ++ 1 :: 0 :: more) = .ok ts := by
  rw [tokens, tokensFrom_append hts]
  exact congrArg Except.ok (List.append_nil ts)

theorem tokens_coded {ts : List Token} (hts : ∀ t ∈ ts, t.Regular) :
    tokens (ts.flatMap Token.coded ++ [1, 0]) = .ok ts :=
  tokens_append_end hts []

end AdventureKit.Markup
