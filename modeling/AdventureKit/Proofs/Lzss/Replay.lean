import AdventureKit.Lzss.Pack
import AdventureKit.Proofs.Lzss.Window

/-!
# Replaying commands

`Window.replay w commands` are the bytes that commands give when they run one after the other.  The
reader of packed data does exactly this with the bytes of commands: it takes these bytes and no more,
and goes on with what is behind them or is done if it has as many bytes as it wants
(`unpackFrom_encodeCommands`).
-/

namespace AdventureKit.Lzss

namespace Command

/-- The bytes that a command gives on a window. -/
def output (w : Window) : Command → Bytes
  | .literal b => [b]
  | .copy place length => w.copied place length

/-- The number of bytes that a command gives. -/
def span : Command → Nat
  | .literal _ => 1
  | .copy _ length => length

/-- Whether the two bytes of a copy can tell it. -/
def Fits : Command → Prop
  | .literal _ => True
  | .copy place length => place < 4096 ∧ 3 ≤ length ∧ length ≤ maxCopy

theorem length_output (w : Window) (c : Command) : (c.output w).length = c.span := by
  cases c with
  | literal b => rfl
  | copy place length => exact w.length_copied place length

theorem Fits.span_pos {c : Command} (h : c.Fits) : 0 < c.span := by
  cases c with
  | literal b => exact Nat.one_pos
  | copy place length => exact Nat.lt_of_lt_of_le (by decide) h.2.1

end Command

/-- The number of bytes that commands give. -/
def spans : List Command → Nat
  | [] => 0
  | c :: commands => c.span + spans commands

@[simp] theorem spans_nil : spans [] = 0 := rfl

@[simp] theorem spans_cons (c : Command) (commands : List Command) :
    spans (c :: commands) = c.span + spans commands := rfl

@[simp] theorem spans_append (cs ds : List Command) : spans (cs ++ ds) = spans cs + spans ds := by
  induction cs with
  | nil => rw [List.nil_append, spans_nil, Nat.zero_add]
  | cons c cs ih => rw [List.cons_append, spans_cons, spans_cons, ih, Nat.add_assoc]

theorem spans_literals (bs : Bytes) : spans (bs.map Command.literal) = bs.length := by
  induction bs with
  | nil => rfl
  | cons b bs ih => rw [List.map_cons, spans_cons, ih, List.length_cons, Command.span, Nat.add_comm]

theorem spans_pos {commands : List Command} (hne : commands ≠ []) (hc : ∀ c ∈ commands, c.Fits) :
    0 < spans commands := by
  obtain ⟨c, tail, rfl⟩ := List.exists_cons_of_ne_nil hne
  rw [spans_cons]
  exact Nat.add_pos_left (hc c (by simp)).span_pos _

namespace Window

/-- The bytes that commands give one after the other. -/
def replay (w : Window) : List Command → Bytes
  | [] => []
  | c :: commands => c.output w ++ ((c.output w).foldl push w).replay commands

theorem length_replay (w : Window) (commands : List Command) :
    (w.replay commands).length = spans commands := by
  induction commands generalizing w with
  | nil => rfl
  | cons c commands ih => rw [replay, List.length_append, ih, c.length_output, spans_cons]

theorem replay_append (w : Window) (cs ds : List Command) :
    w.replay (cs ++ ds) = w.replay cs ++ ((w.replay cs).foldl push w).replay ds := by
  induction cs generalizing w with
  | nil => rfl
  | cons c cs ih => rw [List.cons_append, replay, replay, ih, List.foldl_append, List.append_assoc]

theorem replay_literals (w : Window) (bs : Bytes) : w.replay (bs.map Command.literal) = bs := by
  induction bs generalizing w with
  | nil => rfl
  | cons b bs ih => rw [List.map_cons, replay, ih]; rfl

end Window

/-! ### Flag bytes -/

theorem bits_double (n k : Nat) (b : Bool) :
    (List.range (k + 1)).map (2 * n + if b then 1 else 0).testBit = b :: (List.range k).map n.testBit := by
  rw [List.range_succ_eq_map, List.map_cons, List.map_map]
  congr 1
  · rw [Nat.testBit_zero]
    cases b <;> simp
  · refine List.map_congr_left fun i _ => ?_
    have hhalf : (2 * n + if b then 1 else 0) / 2 = n := by cases b <;> simp; omega
    rw [Function.comp_apply, Nat.testBit_succ, hhalf]

theorem bits_zero (k : Nat) : (List.range k).map (Nat.testBit 0) = List.replicate k false := by
  refine List.eq_replicate_iff.2 ⟨by simp, fun b hb => ?_⟩
  obtain ⟨i, -, rfl⟩ := List.mem_map.1 hb
  exact Nat.zero_testBit i

/-- The number whose bits tell the kinds of commands. -/
def kindNumber (group : List Command) : Nat :=
  group.foldr (fun c n => 2 * n + if c.isLiteral then 1 else 0) 0

theorem bits_kindNumber {group : List Command} {k : Nat} (h : group.length ≤ k) :
    (List.range k).map (kindNumber group).testBit =
      group.map Command.isLiteral ++ List.replicate (k - group.length) false := by
  induction group generalizing k with
  | nil => exact bits_zero k
  | cons c group ih =>
    obtain ⟨k, rfl⟩ : ∃ j, k = j + 1 := ⟨k - 1, by rw [List.length_cons] at h; omega⟩
    rw [List.length_cons, Nat.add_le_add_iff_right] at h
    rw [List.map_cons, List.length_cons, Nat.add_sub_add_right, List.cons_append, ← ih h]
    exact bits_double (kindNumber group) k c.isLiteral

/-- The flags of a group are the kinds of its commands. -/
theorem flagsOf_flagByte {group : List Command} (h : group.length ≤ 8) :
    flagsOf (flagByte group) =
      group.map Command.isLiteral ++ List.replicate (8 - group.length) false := by
  rw [← bits_kindNumber h, flagsOf]
  refine List.map_congr_left fun i hi => ?_
  -- the byte keeps the eight lowest bits
  rw [flagByte, ← kindNumber, UInt8.toNat_ofNat', Nat.testBit_mod_two_pow, decide_eq_true (List.mem_range.1 hi),
    Bool.true_and]

/-! ### The two bytes of a copy -/

section CopyBytes

variable {place length : Nat} (h : (Command.copy place length).Fits)
include h

theorem toNat_copyByte :
    (UInt8.ofNat (place / 256 * 16 + (length - 3))).toNat = place / 256 * 16 + (length - 3) := by
  obtain ⟨h1, h2, h3⟩ := h
  rw [maxCopy] at h3
  rw [UInt8.toNat_ofNat']
  exact Nat.mod_eq_of_lt (by omega)

theorem copyPlace_bytes :
    copyPlace (UInt8.ofNat (place % 256)) (UInt8.ofNat (place / 256 * 16 + (length - 3))) = place := by
  rw [copyPlace, toNat_copyByte h, UInt8.toNat_ofNat']
  obtain ⟨h1, h2, h3⟩ := h
  rw [maxCopy] at h3
  omega

theorem copyLength_byte : copyLength (UInt8.ofNat (place / 256 * 16 + (length - 3))) = length := by
  rw [copyLength, toNat_copyByte h]
  obtain ⟨h1, h2, h3⟩ := h
  rw [maxCopy] at h3
  omega

end CopyBytes

/-! ### The reader on encoded commands -/

namespace Progress

/-- Bytes one after the other. -/
def feed (p : Progress) (bs : Bytes) : Progress where
  window := bs.foldl Window.push p.window
  output := bs.reverse ++ p.output
  wanted := p.wanted - bs.length

theorem feed_nil (p : Progress) : p.feed [] = p := by
  simp [feed]

theorem feed_append (p : Progress) (bs cs : Bytes) : p.feed (bs ++ cs) = (p.feed bs).feed cs := by
  simp only [feed, List.foldl_append, List.reverse_append, List.append_assoc, List.length_append,
    Progress.mk.injEq, true_and]
  omega

theorem feed_cons (p : Progress) (b : UInt8) (bs : Bytes) : p.feed (b :: bs) = (p.emit b).feed bs := by
  simp only [feed, emit, List.foldl_cons, List.reverse_cons, List.append_assoc, List.singleton_append,
    List.length_cons, Progress.mk.injEq, true_and]
  omega

/-- Commands of `n` bytes do not stop before their end. -/
def Lasts (p : Progress) (n : Nat) : Prop :=
  ∀ k : Nat, 0 < k → k < n → p.wanted ≠ k

theorem Lasts.mono {p : Progress} {m n : Nat} (h : p.Lasts n) (hmn : m ≤ n) : p.Lasts m :=
  fun k h0 hk => h k h0 (Nat.lt_of_lt_of_le hk hmn)

theorem Lasts.feed {p : Progress} {n : Nat} {bs : Bytes} (h : p.Lasts (bs.length + n)) :
    (p.feed bs).Lasts n := by
  intro k h0 hk hw
  refine h (bs.length + k) (by omega) (by omega) ?_
  simp only [Progress.feed] at hw
  omega

theorem Lasts.wanted_feed_ne {p : Progress} {n : Nat} {bs : Bytes} (h : p.Lasts (bs.length + n))
    (hbs : 0 < bs.length) (hn : 0 < n) : (p.feed bs).wanted ≠ 0 := by
  intro hw
  refine h bs.length hbs (by omega) ?_
  simp only [Progress.feed] at hw
  omega

theorem copy_eq_feed {p : Progress} {place count : Nat} (h : p.Lasts count) :
    p.copy place count = p.feed (p.window.copied place count) := by
  induction count generalizing p place with
  | zero => exact (p.feed_nil).symm
  | succ count ih =>
    rw [copy, Window.copied, feed_cons]
    by_cases hw : (p.emit (p.window.byteAt place)).wanted = 0
    · rw [if_pos hw]
      -- the last wanted byte can only be the last byte of the copy
      have hc : count = 0 := by
        refine Nat.eq_zero_of_not_pos fun hpos => h 1 (by omega) (by omega) ?_
        simp only [emit] at hw
        omega
      subst hc
      exact (feed_nil _).symm
    · rw [if_neg hw]
      refine ih fun k h0 hk hw' => h (k + 1) (by omega) (by omega) ?_
      simp only [emit] at hw'
      omega

/-- Goes on with what is left of the data, unless enough bytes are out. -/
def proceed (flags : List Bool) (p : Progress) (rest : Bytes) : Except Fault (Bytes × Bytes) :=
  if p.wanted = 0 then .ok (p.output.reverse, rest) else unpackFrom flags p rest

end Progress

theorem unpackFrom_command {c : Command} (hc : c.Fits) (flags : List Bool) {p : Progress}
    (hp : p.Lasts c.span) (rest : Bytes) :
    unpackFrom (c.isLiteral :: flags) p (c.bytes ++ rest) =
      (p.feed (c.output p.window)).proceed flags rest := by
  cases c with
  | literal b =>
    rw [show p.feed ((Command.literal b).output p.window) = p.emit b by
      rw [Command.output, Progress.feed_cons, Progress.feed_nil]]
    simp only [Command.isLiteral, Command.bytes, List.singleton_append, unpackFrom, Progress.proceed]
  | copy place length =>
    have hcopy : p.copy place length = p.feed (p.window.copied place length) := Progress.copy_eq_feed hp
    rw [Command.output, ← hcopy]
    simp only [Command.isLiteral, Command.bytes, List.cons_append, List.nil_append, unpackFrom,
      copyPlace_bytes hc, copyLength_byte hc, Progress.proceed]

theorem unpackFrom_group {group : List Command} (hne : group ≠ []) (hg : ∀ c ∈ group, c.Fits)
    (flags : List Bool) {p : Progress} (hp : p.Lasts (spans group)) (rest : Bytes) :
    unpackFrom (group.map Command.isLiteral ++ flags) p (group.flatMap Command.bytes ++ rest) =
      (p.feed (p.window.replay group)).proceed flags rest := by
  induction group generalizing p with
  | nil => exact absurd rfl hne
  | cons c group ih =>
    have hc := hg c (by simp)
    rw [spans_cons] at hp
    rw [List.map_cons, List.cons_append, List.flatMap_cons, List.append_assoc,
      unpackFrom_command hc _ (hp.mono (by omega)), Window.replay, Progress.feed_append]
    have hp' : p.Lasts ((c.output p.window).length + spans group) := by rwa [c.length_output]
    by_cases hgroup : group = []
    · subst hgroup
      rw [Window.replay, Progress.feed_nil]
      rfl
    · have hpos := spans_pos hgroup fun d hd => hg d (by simp [hd])
      have hlen : 0 < (c.output p.window).length := by rw [c.length_output]; exact hc.span_pos
      rw [Progress.proceed, if_neg (hp'.wanted_feed_ne hlen hpos),
        ih hgroup (fun d hd => hg d (by simp [hd])) hp'.feed]
      rfl

/-! ### Groups of eight -/

theorem encodeCommands_group {group : List Command} (hne : group ≠ []) (h : group.length ≤ 8) :
    encodeCommands group = flagByte group :: group.flatMap Command.bytes := by
  obtain ⟨c, tail, rfl⟩ := List.exists_cons_of_ne_nil hne
  have h7 : tail.length ≤ 7 := by rw [List.length_cons] at h; omega
  rw [encodeCommands]
  simp only [List.take_of_length_le h7, List.drop_of_length_le h7]
  rw [encodeCommands, List.append_nil]

theorem encodeCommands_append {group later : List Command} (h : group.length = 8) :
    encodeCommands (group ++ later) =
      flagByte group :: (group.flatMap Command.bytes ++ encodeCommands later) := by
  obtain ⟨c, tail, rfl⟩ := List.exists_cons_of_length_pos (by omega : 0 < group.length)
  have h7 : tail.length = 7 := by rw [List.length_cons] at h; omega
  rw [List.cons_append, encodeCommands]
  simp only [List.take_left' h7, List.drop_left' h7, List.cons_append]

/-- Commands are a group of up to eight, or eight and more commands behind them. -/
theorem group_induction {P : (commands : List Command) → commands ≠ [] → Prop}
    (hshort : ∀ group (hne : group ≠ []), group.length ≤ 8 → P group hne)
    (hlong : ∀ group later (_ : group.length = 8) (hne : later ≠ []), P later hne →
      P (group ++ later) (by simp [hne]))
    (commands : List Command) (hne : commands ≠ []) : P commands hne := by
  induction h : commands.length using Nat.strongRecOn generalizing commands with
  | ind n ih =>
    by_cases h8 : commands.length ≤ 8
    · exact hshort commands hne h8
    · have hlater : commands.drop 8 ≠ [] := by
        rw [Ne, List.drop_eq_nil_iff]
        exact h8
      have hlong' := hlong (commands.take 8) (commands.drop 8) (by rw [List.length_take]; omega) hlater
        (ih (commands.drop 8).length (by rw [List.length_drop]; omega) (commands.drop 8) hlater rfl)
      simpa only [List.take_append_drop] using hlong'

/-- The flags that a last group leaves unused. -/
def unusedFlags (commands : List Command) : List Bool :=
  List.replicate ((8 - commands.length % 8) % 8) false

theorem unusedFlags_group {group : List Command} (hne : group ≠ []) (h : group.length ≤ 8) :
    unusedFlags group = List.replicate (8 - group.length) false := by
  have := List.length_pos_iff.2 hne
  rw [unusedFlags]
  congr 1
  omega

theorem unusedFlags_append {group later : List Command} (h : group.length = 8) :
    unusedFlags (group ++ later) = unusedFlags later := by
  rw [unusedFlags, unusedFlags, List.length_append, h, Nat.add_mod_left]

/-- **The reader replays the commands** whose bytes it is given, up to their end. -/
theorem unpackFrom_encodeCommands {commands : List Command} (hne : commands ≠ [])
    (hc : ∀ c ∈ commands, c.Fits) {p : Progress} (hp : p.Lasts (spans commands)) (rest : Bytes) :
    unpackFrom [] p (encodeCommands commands ++ rest) =
      (p.feed (p.window.replay commands)).proceed (unusedFlags commands) rest := by
  induction commands, hne using group_induction generalizing p with
  | hshort group hne h8 =>
    rw [encodeCommands_group hne h8, List.cons_append, unpackFrom, flagsOf_flagByte h8,
      unpackFrom_group hne hc _ hp, unusedFlags_group hne h8]
  | hlong group later h8 hlater ih =>
    have hgroup : ∀ c ∈ group, c.Fits := fun c h => hc c (List.mem_append_left _ h)
    have hlater' : ∀ c ∈ later, c.Fits := fun c h => hc c (List.mem_append_right _ h)
    have hne : group ≠ [] := List.ne_nil_of_length_pos (by omega)
    rw [spans_append] at hp
    have hp' : p.Lasts ((p.window.replay group).length + spans later) := by
      rwa [Window.length_replay]
    have hpos : 0 < (p.window.replay group).length := by
      rw [Window.length_replay]
      exact spans_pos hne hgroup
    rw [encodeCommands_append h8, List.cons_append, List.append_assoc, unpackFrom,
      flagsOf_flagByte (by omega), h8, Nat.sub_self, List.replicate_zero,
      unpackFrom_group hne hgroup _ (hp.mono (by omega)), Progress.proceed,
      if_neg (hp'.wanted_feed_ne hpos (spans_pos hlater hlater')), ih hlater' hp'.feed,
      unusedFlags_append h8, Window.replay_append, Progress.feed_append]
    rfl

end AdventureKit.Lzss
