import AdventureKit.Proofs.Lzss.Replay
import AdventureKit.Proofs.Lzss.Search

/-!
# The run of the packer

`Packer` is the state between two commands, `Turn` gives one more command, and `Reached data` are the
states on the way through `data`.  They are the states of the running packer: what it gives for the
whole data is what is given at a reached state and what it goes on to give from there
(`Reached.commands_eq`), and it ends in a reached state, where nothing is left or the search fails
(`commands_cases`).

`Took data t m s` says that the packer took the part `m` in state `t` on its way to `s`.  What the
commands give is the data as far as they are packed exactly if every part that was taken was copied as
it stood ahead (`Reached.replay_eq_take_iff`).
-/

namespace AdventureKit.Lzss

/-- The packer between two commands: its window, the commands so far and the data that are left. -/
structure Packer where
  window : Window
  emitted : List Command
  rest : Bytes

namespace Packer

/-- The packer behind the three literals that packed data start with. -/
def start (data : Bytes) : Packer where
  window := (data.take 3).foldl Window.push Window.packing
  emitted := (data.take 3).map Command.literal
  rest := data.drop 3

/-- The part of the window that the packer finds for the next bytes. -/
def search (s : Packer) : Except Fault (Option Match) :=
  findMatch s.window.cells.toArray s.window.cursor (s.rest.take maxCopy).length (s.rest.take maxCopy)

/-- The packer with a literal more. -/
def addLiteral (s : Packer) (b : UInt8) : Packer where
  window := s.window.push b
  emitted := s.emitted ++ [.literal b]
  rest := s.rest.drop 1

/-- The packer with a copy more. -/
def addCopy (s : Packer) (m : Match) : Packer where
  window := s.window.copy m.place m.length
  emitted := s.emitted ++ [.copy m.place m.length]
  rest := s.rest.drop m.length

/-- One more command for the data that are left. -/
inductive Turn (s : Packer) : Packer → Prop where
  | literal {b : UInt8} (hb : s.rest.head? = some b) (hs : s.search = .ok none) : Turn s (s.addLiteral b)
  | copy {m : Match} (hr : s.rest ≠ []) (hs : s.search = .ok (some m)) : Turn s (s.addCopy m)

/-- The states of the packer on its way through the data. -/
inductive Reached (data : Bytes) : Packer → Prop where
  | start : Reached data (Packer.start data)
  | turn {s t : Packer} (hs : Reached data s) (ht : s.Turn t) : Reached data t

/-- In state `t` the packer took the part `m`, on its way to `s`. -/
def Took (data : Bytes) (t : Packer) (m : Match) (s : Packer) : Prop :=
  Reached data t ∧ t.emitted ++ [.copy m.place m.length] <+: s.emitted

/-! ### What the search gives -/

theorem search_cases (s : Packer) :
    (s.search = .ok none ∧ ∀ p k, Occurs s.window s.rest p k → k < 3) ∨
    ∃ m : Match, Chosen s.window s.rest m.place m.length ∧
      s.search = if m.place < 4096 then .ok (some m) else .error (.disagreement .matchPosition) :=
  findMatch_cases s.window s.rest

theorem chosen_of_search {s : Packer} {m : Match} (h : s.search = .ok (some m)) :
    Chosen s.window s.rest m.place m.length ∧ m.place < 4096 := by
  obtain ⟨hn, -⟩ | ⟨m', hm', he⟩ := s.search_cases
  · rw [hn] at h
    cases h
  · by_cases hp : m'.place < 4096
    · rw [if_pos hp, h] at he
      cases he
      exact ⟨hm', hp⟩
    · rw [if_neg hp, h] at he
      cases he

theorem search_of_chosen {s : Packer} {m : Match} (h : Chosen s.window s.rest m.place m.length) :
    s.search = if m.place < 4096 then .ok (some m) else .error (.disagreement .matchPosition) := by
  obtain ⟨-, hn⟩ | ⟨m', hm', he⟩ := s.search_cases
  · have := hn _ _ h.occurs
    have := h.three_le
    omega
  · obtain ⟨hp, hl⟩ := hm'.unique h
    obtain rfl : m' = m := by cases m; cases m'; simp_all
    exact he

theorem chosen_of_search_error {s : Packer} {e : Fault} (h : s.search = .error e) :
    ∃ m : Match, Chosen s.window s.rest m.place m.length ∧ ¬ m.place < 4096 ∧
      e = .disagreement .matchPosition := by
  obtain ⟨hn, -⟩ | ⟨m, hm, he⟩ := s.search_cases
  · rw [hn] at h
    cases h
  · by_cases hp : m.place < 4096
    · rw [if_pos hp, h] at he
      cases he
    · rw [if_neg hp, h] at he
      exact ⟨m, hm, hp, by injection he⟩

theorem fits_of_search {s : Packer} {m : Match} (h : s.search = .ok (some m)) :
    (Command.copy m.place m.length).Fits :=
  ⟨(chosen_of_search h).2, (chosen_of_search h).1.three_le, (chosen_of_search h).1.occurs.short⟩

/-! ### The states of the running packer -/

theorem commandsFrom_skip (w : Window) (skip : Nat) (data : Bytes) :
    commandsFrom w skip data = commandsFrom w 0 (data.drop skip) := by
  induction data generalizing skip with
  | nil =>
    rw [List.drop_nil]
    cases skip <;> rfl
  | cons b data ih =>
    cases skip with
    | zero => rfl
    | succ skip => rw [commandsFrom, ih, List.drop_succ_cons]

theorem commandsFrom_cons (w : Window) (b : UInt8) (rest : Bytes) :
    commandsFrom w 0 (b :: rest) =
      match (Packer.mk w [] (b :: rest)).search with
      | .error e => .error e
      | .ok none => (commandsFrom (w.push b) 0 rest).map (.literal b :: ·)
      | .ok (some m) =>
        (commandsFrom (w.copy m.place m.length) (m.length - 1) rest).map (.copy m.place m.length :: ·) := by
  rw [commandsFrom]
  show ((Packer.mk w [] (b :: rest)).search >>= _) = _
  cases (Packer.mk w [] (b :: rest)).search with
  | error e => rfl
  | ok o =>
    cases o with
    | none =>
      cases commandsFrom (w.push b) 0 rest <;> simp [bind, Except.bind, pure, Except.pure, Except.map]
    | some m =>
      cases h : commandsFrom (w.copy m.place m.length) (m.length - 1) rest <;>
        simp [bind, Except.bind, pure, Except.pure, h, Except.map]

theorem commandsFrom_of_search_error {s : Packer} {e : Fault} (hr : s.rest ≠ [])
    (h : s.search = .error e) : commandsFrom s.window 0 s.rest = .error e := by
  obtain ⟨w, cs, rest⟩ := s
  obtain ⟨b, rest, rfl⟩ := List.exists_cons_of_ne_nil hr
  rw [commandsFrom_cons, show (Packer.mk w [] (b :: rest)).search = .error e from h]

theorem commandsFrom_turn {s t : Packer} (h : s.Turn t) :
    (commandsFrom s.window 0 s.rest).map (s.emitted ++ ·) =
      (commandsFrom t.window 0 t.rest).map (t.emitted ++ ·) := by
  obtain ⟨w, cs, rest⟩ := s
  cases h with
  | literal hb hs =>
    rename_i b
    obtain ⟨rest', rfl⟩ : ∃ rest', rest = b :: rest' := List.head?_eq_some_iff.1 hb
    rw [commandsFrom_cons, show (Packer.mk w [] (b :: rest')).search = .ok none from hs]
    simp only [addLiteral, List.drop_succ_cons, List.drop_zero]
    cases commandsFrom (w.push b) 0 rest' <;> simp [Except.map]
  | copy hr hs =>
    rename_i m
    obtain ⟨b, rest', rfl⟩ := List.exists_cons_of_ne_nil hr
    have hlen := (chosen_of_search hs).1.three_le
    rw [commandsFrom_cons, show (Packer.mk w [] (b :: rest')).search = .ok (some m) from hs]
    simp only [addCopy]
    rw [commandsFrom_skip, show rest'.drop (m.length - 1) = (b :: rest').drop m.length by
      rw [show m.length = m.length - 1 + 1 by omega, List.drop_succ_cons]; rfl]
    cases commandsFrom (w.copy m.place m.length) 0 ((b :: rest').drop m.length) <;> simp [Except.map]

/-- The commands for the data are those so far and those for what is left. -/
theorem Reached.commands_eq {data : Bytes} {s : Packer} (h : Reached data s) :
    commands data = (commandsFrom s.window 0 s.rest).map (s.emitted ++ ·) := by
  induction h with
  | start =>
    rw [commands]
    simp only [Packer.start]
    cases commandsFrom ((data.take 3).foldl Window.push Window.packing) 0 (data.drop 3) <;> rfl
  | turn hs ht ih => rw [ih, commandsFrom_turn ht]

theorem Reached.prefix_of_commands {data : Bytes} {s : Packer} (h : Reached data s) {cs : List Command}
    (hcs : commands data = .ok cs) : s.emitted <+: cs := by
  rw [h.commands_eq] at hcs
  cases hmore : commandsFrom s.window 0 s.rest with
  | error e =>
    rw [hmore] at hcs
    cases hcs
  | ok more =>
    rw [hmore] at hcs
    injection hcs with hcs
    exact ⟨more, hcs⟩

/-! ### What a turn does -/

/-- The one command of a turn, and what it does to the window and the data. -/
theorem Turn.spec {s t : Packer} (h : s.Turn t) :
    ∃ c : Command, c.Fits ∧ c.span ≤ s.rest.length ∧ t.emitted = s.emitted ++ [c] ∧
      t.window = (c.output s.window).foldl Window.push s.window ∧ t.rest = s.rest.drop c.span := by
  cases h with
  | literal hb hs =>
    rename_i b
    obtain ⟨rest, hrest⟩ := List.head?_eq_some_iff.1 hb
    exact ⟨.literal b, trivial, by rw [hrest]; exact Nat.succ_pos _, rfl, rfl, rfl⟩
  | copy hr hs =>
    rename_i m
    refine ⟨.copy m.place m.length, fits_of_search hs, ?_, rfl, ?_, rfl⟩
    · exact (chosen_of_search hs).1.occurs.count_le_length
    · exact Window.copy_eq_foldl _ _ _

theorem Reached.fits {data : Bytes} {s : Packer} (h : Reached data s) : ∀ c ∈ s.emitted, c.Fits := by
  induction h with
  | start =>
    intro c hc
    obtain ⟨b, -, rfl⟩ := List.mem_map.1 hc
    trivial
  | turn hs ht ih =>
    obtain ⟨c, hc, -, he, -⟩ := ht.spec
    intro d hd
    rw [he, List.mem_append, List.mem_singleton] at hd
    obtain hd | rfl := hd
    · exact ih d hd
    · exact hc

theorem Reached.spans_add_length {data : Bytes} {s : Packer} (h : Reached data s) :
    spans s.emitted + s.rest.length = data.length := by
  induction h with
  | start =>
    simp only [Packer.start, spans_literals, List.length_take, List.length_drop]
    omega
  | turn hs ht ih =>
    obtain ⟨c, -, hle, he, -, hr⟩ := ht.spec
    rw [he, hr, spans_append, spans_cons, spans_nil, List.length_drop]
    omega

theorem Reached.rest_eq {data : Bytes} {s : Packer} (h : Reached data s) :
    s.rest = data.drop (spans s.emitted) := by
  induction h with
  | start =>
    simp only [Packer.start, spans_literals, List.length_take]
    by_cases hd : 3 ≤ data.length
    · rw [Nat.min_eq_left hd]
    · rw [List.drop_of_length_le (by omega), List.drop_of_length_le (by omega)]
  | turn hs ht ih =>
    obtain ⟨c, -, -, he, -, hr⟩ := ht.spec
    rw [he, hr, ih, List.drop_drop, spans_append, spans_cons, spans_nil, Nat.add_zero]

theorem Reached.window_eq {data : Bytes} {s : Packer} (h : Reached data s) :
    s.window = (Window.packing.replay s.emitted).foldl Window.push Window.packing := by
  induction h with
  | start => simp only [Packer.start, Window.replay_literals]
  | turn hs ht ih =>
    obtain ⟨c, -, -, he, hw, -⟩ := ht.spec
    rw [he, hw, Window.replay_append, List.foldl_append, ← ih, Window.replay, Window.replay,
      List.append_nil]

/-- A state is known by the commands so far. -/
theorem Reached.eq_of_emitted_eq {data : Bytes} {s t : Packer} (hs : Reached data s)
    (ht : Reached data t) (h : s.emitted = t.emitted) : s = t := by
  obtain ⟨w, cs, rest⟩ := s
  obtain ⟨w', cs', rest'⟩ := t
  have hw := hs.window_eq
  have hw' := ht.window_eq
  have hr := hs.rest_eq
  have hr' := ht.rest_eq
  simp only at h hw hw' hr hr'
  rw [hw, hw', hr, hr', h]

theorem Reached.blank {data : Bytes} {s : Packer} (h : Reached data s) :
    s.window.Blank (spans s.emitted) := by
  have hb := Window.blank_packing.foldl_push (Window.packing.replay s.emitted)
  rwa [Nat.zero_add, Window.length_replay, ← h.window_eq] at hb

/-! ### The end of the run -/

/-- A turn is possible until nothing is left, unless the search fails. -/
theorem turn_cases (s : Packer) :
    s.rest = [] ∨ (∃ t, s.Turn t ∧ t.rest.length < s.rest.length) ∨
      (s.rest ≠ [] ∧ s.search = .error (.disagreement .matchPosition)) := by
  by_cases hr : s.rest = []
  · exact .inl hr
  right
  obtain ⟨b, rest, hb⟩ := List.exists_cons_of_ne_nil hr
  obtain ⟨hn, -⟩ | ⟨m, hm, he⟩ := s.search_cases
  · refine .inl ⟨_, .literal (by rw [hb]; rfl) hn, ?_⟩
    simp only [addLiteral, hb, List.drop_succ_cons, List.drop_zero, List.length_cons]
    omega
  · by_cases hp : m.place < 4096
    · rw [if_pos hp] at he
      refine .inl ⟨_, .copy hr he, ?_⟩
      have := hm.three_le
      have := List.length_pos_iff.2 hr
      simp only [addCopy, List.length_drop]
      omega
    · rw [if_neg hp] at he
      exact .inr ⟨hr, he⟩

theorem Reached.run {data : Bytes} {s : Packer} (h : Reached data s) :
    (∃ w cs, Reached data ⟨w, cs, []⟩) ∨
      ∃ t, Reached data t ∧ t.rest ≠ [] ∧ t.search = .error (.disagreement .matchPosition) := by
  induction hn : s.rest.length using Nat.strongRecOn generalizing s with
  | ind n ih =>
    obtain hr | ⟨t, ht, hlt⟩ | ⟨hr, he⟩ := s.turn_cases
    · obtain ⟨w, cs, rest⟩ := s
      simp only at hr
      subst hr
      exact .inl ⟨w, cs, h⟩
    · exact ih _ (by omega) (h.turn ht) rfl
    · exact .inr ⟨s, h, hr, he⟩

/-- The packer goes through all data, or the search fails at one of the states. -/
theorem commands_cases (data : Bytes) :
    (∃ w cs, Reached data ⟨w, cs, []⟩ ∧ commands data = .ok cs) ∨
      ∃ t, Reached data t ∧ t.rest ≠ [] ∧ t.search = .error (.disagreement .matchPosition) ∧
        commands data = .error (.disagreement .matchPosition) := by
  obtain ⟨w, cs, h⟩ | ⟨t, h, hr, he⟩ := (Reached.start : Reached data _).run
  · refine .inl ⟨w, cs, h, ?_⟩
    rw [h.commands_eq]
    simp [commandsFrom, Except.map]
  · refine .inr ⟨t, h, hr, he, ?_⟩
    rw [h.commands_eq, commandsFrom_of_search_error hr he]
    rfl

/-! ### The parts that were taken -/

theorem not_took_start (data : Bytes) (t : Packer) (m : Match) : ¬ Took data t m (Packer.start data) := by
  rintro ⟨-, hp⟩
  have hmem : Command.copy m.place m.length ∈ (data.take 3).map Command.literal :=
    hp.subset (by simp)
  obtain ⟨b, -, hb⟩ := List.mem_map.1 hmem
  cases hb

theorem took_addLiteral {data : Bytes} {s t : Packer} {m : Match} {b : UInt8} :
    Took data t m (s.addLiteral b) ↔ Took data t m s := by
  simp only [Took, addLiteral, List.prefix_concat_iff]
  constructor
  · rintro ⟨ht, he | hp⟩
    · have := (List.append_inj' he rfl).2
      simp at this
    · exact ⟨ht, hp⟩
  · exact fun ⟨ht, hp⟩ => ⟨ht, .inr hp⟩

theorem took_addCopy {data : Bytes} {s t : Packer} {m m' : Match} (hs : Reached data s) :
    Took data t m' (s.addCopy m) ↔ Took data t m' s ∨ (t = s ∧ m' = m) := by
  simp only [Took, addCopy, List.prefix_concat_iff]
  constructor
  · rintro ⟨ht, he | hp⟩
    · obtain ⟨h1, h2⟩ := List.append_inj' he rfl
      simp only [List.cons.injEq, Command.copy.injEq, and_true] at h2
      refine .inr ⟨ht.eq_of_emitted_eq hs h1, ?_⟩
      cases m
      cases m'
      simpa using h2
    · exact .inl ⟨ht, hp⟩
  · rintro (⟨ht, hp⟩ | ⟨rfl, rfl⟩)
    · exact ⟨ht, .inr hp⟩
    · exact ⟨hs, .inl rfl⟩

theorem Took.search_eq {data : Bytes} {s t : Packer} {m : Match} (hs : Reached data s)
    (h : Took data t m s) : t.search = .ok (some m) := by
  induction hs with
  | start => exact absurd h (not_took_start data t m)
  | turn hs ht ih =>
    cases ht with
    | literal hb hn => exact ih (took_addLiteral.1 h)
    | copy hr hm =>
      obtain h | ⟨rfl, rfl⟩ := (took_addCopy hs).1 h
      · exact ih h
      · exact hm

/-- The unpacking side replays the commands like the packing side. -/
theorem Reached.replay_eq {data : Bytes} {s : Packer} (h : Reached data s) :
    Window.unpacking.replay s.emitted = Window.packing.replay s.emitted := by
  induction h with
  | start => rw [Packer.start, Window.replay_literals, Window.replay_literals]
  | turn hs ht ih =>
    rename_i s t
    have halike := Window.alike_start.foldl_push (Window.packing.replay s.emitted)
    rw [Nat.zero_add, Window.length_replay, ← hs.window_eq] at halike
    cases ht with
    | literal hb hn =>
      simp only [addLiteral, Window.replay_append, Window.replay, Command.output, ih]
    | copy hr hm =>
      have hcopied := halike.copied_eq fun i hi => (chosen_of_search hm).1.cell_lt hs.blank hi
      simp only [addCopy, Window.replay_append, Window.replay, Command.output, ih, hcopied,
        ← hs.window_eq]

/-- **Commands give the data** as far as they are packed exactly if every copy gives what stood ahead. -/
theorem Reached.replay_eq_take_iff {data : Bytes} {s : Packer} (h : Reached data s) :
    Window.packing.replay s.emitted = data.take (spans s.emitted) ↔
      ∀ t m, Took data t m s → t.window.copied m.place m.length = t.rest.take m.length := by
  induction h with
  | start =>
    simp only [Packer.start, Window.replay_literals, spans_literals, List.length_take]
    constructor
    · exact fun _ t m h => absurd h (not_took_start data t m)
    · intro _
      by_cases hd : 3 ≤ data.length
      · rw [Nat.min_eq_left hd]
      · rw [List.take_of_length_le (by omega), List.take_of_length_le (by omega)]
  | turn hs ht ih =>
    rename_i s t
    have hle := hs.spans_add_length
    -- the commands before this one and this one are compared apart
    have hsplit : ∀ (c : Command), (Window.packing.replay (s.emitted ++ [c]) =
        data.take (spans (s.emitted ++ [c])) ↔
        Window.packing.replay s.emitted = data.take (spans s.emitted) ∧
          c.output s.window = s.rest.take c.span) := by
      intro c
      rw [Window.replay_append, ← hs.window_eq, Window.replay, Window.replay, List.append_nil,
        spans_append, spans_cons, spans_nil, Nat.add_zero, List.take_add, ← hs.rest_eq]
      refine ⟨fun he => List.append_inj he ?_, fun he => by rw [he.1, he.2]⟩
      rw [Window.length_replay, List.length_take]
      omega
    cases ht with
    | literal hb hn =>
      rename_i b
      obtain ⟨rest, hrest⟩ := List.head?_eq_some_iff.1 hb
      have hone : (Command.literal b).output s.window = s.rest.take (Command.literal b).span := by
        rw [hrest]
        rfl
      rw [addLiteral, hsplit]
      simp only [hone, and_true, ih]
      exact forall_congr' fun t => forall_congr' fun m => by rw [← took_addLiteral]; rfl
    | copy hr hm =>
      rename_i m
      rw [addCopy, hsplit, ih]
      constructor
      · rintro ⟨hall, hlast⟩ t m' ht
        obtain ht | ⟨rfl, rfl⟩ := (took_addCopy hs).1 ht
        · exact hall t m' ht
        · exact hlast
      · intro hall
        exact ⟨fun t m' ht => hall t m' ((took_addCopy hs).2 (.inl ht)),
          hall s m ((took_addCopy hs).2 (.inr ⟨rfl, rfl⟩))⟩

end Packer

end AdventureKit.Lzss
