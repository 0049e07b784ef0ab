import AdventureKit.Prompt.Asking

/-!
# What the keys of a selection say

A selection of several options is told by the keys that were pressed: the cursor by the steps down and up, the
mark of an option by how often it was turned over, and the wish for its advanced settings by the presses that
were made while it was marked.  `Tracks` says that a selection stands as its keys say, `Tracks.press` that one
more key keeps this, and `chosen_of_keys` what is chosen in the end.
-/

namespace AdventureKit.Selection

variable {α δ : Type}

/-! ## Histories of keys -/

/-- The key that marks an option. -/
def markKey : Key := .char ' '

/-- The key that asks for advanced settings. -/
def advancedKey : Key := .char 'a'

/-- The keys that go on with a selection of several options. -/
def goingOn : List Key :=
  [.down, .up, markKey, advancedKey]

/-- The place of the cursor after keys, among `count` options. -/
def place (count : Nat) (keys : List Key) : Int :=
  ((keys.count .down : Int) - (keys.count .up : Int)) % (count : Int)

/-- How often a key was pressed when `ready` held of the keys before it. -/
def presses (key : Key) (ready : List Key → Bool) (keys : List Key) : Nat :=
  (List.range keys.length).countP fun i => keys[i]? == some key && ready (keys.take i)

/-- Whether option number `i` is marked after keys: its first mark, turned over by each press on it. -/
def marked (count i : Nat) (first : Bool) (keys : List Key) : Bool :=
  first ^^ (presses markKey (fun before => decide (place count before = (i : Int))) keys % 2 == 1)

/-- Whether the advanced settings of option number `i` are asked for after keys: presses count that were made
on it while it was marked. -/
def asked (count i : Nat) (first : Bool) (keys : List Key) : Bool :=
  presses advancedKey (fun before => decide (place count before = (i : Int)) && marked count i first before) keys % 2 == 1

/-- The options that are marked after keys, in their order, with the advanced settings that are asked for. -/
def chosenAfter (options : List (Choice α δ)) (keys : List Key) : List (Chosen α δ) :=
  (options.zipIdx.filter fun p => marked options.length p.2 p.1.selected keys).map fun p =>
    ⟨p.1.key, if asked options.length p.2 p.1.selected keys then p.1.advanced else none, some p.1.settings⟩

theorem place_append (count : Nat) (keys more : List Key) :
    place count (keys ++ more) =
      (place count keys + ((more.count .down : Int) - (more.count .up : Int))) % (count : Int) := by
  rw [place, place, List.count_append, List.count_append, Int.emod_add_emod]
  congr 1
  omega

theorem presses_concat (key : Key) (ready : List Key → Bool) (keys : List Key) (last : Key) :
    presses key ready (keys ++ [last]) = presses key ready keys + if last = key ∧ ready keys then 1 else 0 := by
  have hbefore : ∀ i ∈ List.range keys.length,
      ((keys ++ [last])[i]? == some key && ready ((keys ++ [last]).take i)) =
        (keys[i]? == some key && ready (keys.take i)) := by
    intro i hi
    have hlt := List.mem_range.1 hi
    rw [List.getElem?_append_left hlt, List.take_append_of_le_length (Nat.le_of_lt hlt)]
  rw [presses, List.length_append, List.length_singleton, List.range_succ, List.countP_append, presses]
  congr 1
  · exact List.countP_congr fun i hi => by rw [hbefore i hi]
  · simp [List.countP_cons]

/-- A key that is not the one counted changes nothing. -/
theorem presses_concat_of_ne {key last : Key} (h : last ≠ key) (ready : List Key → Bool) (keys : List Key) :
    presses key ready (keys ++ [last]) = presses key ready keys := by
  rw [presses_concat, if_neg fun h' => h h'.1, Nat.add_zero]

theorem odd_add_ite (n : Nat) (c : Prop) [Decidable c] :
    ((n + if c then 1 else 0) % 2 == 1) = ((n % 2 == 1) ^^ decide c) := by
  by_cases hc : c
  · have hturn : ((n + 1) % 2 == 1) = !(n % 2 == 1) := by
      rcases Nat.mod_two_eq_zero_or_one n with h | h
      · simp [Nat.add_mod, h]
      · simp [Nat.add_mod, h]
    simp [hc, hturn]
  · simp [hc]

section Turns

variable (count i : Nat) (first : Bool) (keys : List Key)

theorem marked_markKey :
    marked count i first (keys ++ [markKey]) = (marked count i first keys ^^ decide (place count keys = (i : Int))) := by
  rw [marked, presses_concat, odd_add_ite, ← Bool.xor_assoc, marked]
  simp

theorem marked_of_ne {last : Key} (h : last ≠ markKey) :
    marked count i first (keys ++ [last]) = marked count i first keys := by
  rw [marked, presses_concat_of_ne h, marked]

theorem asked_advancedKey :
    asked count i first (keys ++ [advancedKey]) =
      (asked count i first keys ^^ (decide (place count keys = (i : Int)) && marked count i first keys)) := by
  rw [asked, presses_concat, odd_add_ite, asked]
  simp

theorem asked_of_ne {last : Key} (h : last ≠ advancedKey) :
    asked count i first (keys ++ [last]) = asked count i first keys := by
  rw [asked, presses_concat_of_ne h, asked]

end Turns

/-! ## Selections that stand as their keys say -/

/-- The selection stands as the keys say. -/
structure Tracks (options : List (Choice α δ)) (keys : List Key) (s : Selection α δ) : Prop where
  options_eq : s.options = options
  multiple_eq : s.multiple = true
  cursor_eq : (s.cursor : Int) = place options.length keys
  selected_eq : ∀ i option, options[i]? = some option →
    s.selected.contains option.key = marked options.length i option.selected keys
  advanced_eq : ∀ i option, options[i]? = some option → option.advanced.isSome = true →
    s.advanced.contains option.key = asked options.length i option.selected keys

/-- Turning a key over changes this key alone. -/
theorem contains_toggle (key other : String) (keys : List String) :
    (toggle key keys).contains other = (keys.contains other ^^ (other == key)) := by
  rw [toggle]
  by_cases hother : other = key
  · subst hother
    by_cases hkey : other ∈ keys
    · simp [hkey]
    · simp [hkey]
  · have hne : (other == key) = false := beq_eq_false_iff_ne.2 hother
    by_cases hkey : key ∈ keys
    · simp [hkey, hother, hne]
    · simp [hkey, hother, hne]

variable {options : List (Choice α δ)} {keys : List Key} {s : Selection α δ}

/-- Different options have different keys. -/
theorem key_beq_key (hkeys : (options.map Choice.key).Nodup) {i j : Nat} {option other : Choice α δ}
    (hi : options[i]? = some option) (hj : options[j]? = some other) : (option.key == other.key) = decide (j = i) := by
  have hlt : j < (options.map Choice.key).length := by
    rw [List.length_map]
    exact (List.getElem?_eq_some_iff.1 hj).1
  have hinj := List.getElem?_inj hlt hkeys (j := i)
  rw [List.getElem?_map, List.getElem?_map, hi, hj, Option.map_some, Option.map_some, Option.some.injEq] at hinj
  rw [Bool.eq_iff_iff, beq_iff_eq, decide_eq_true_iff, ← hinj, eq_comm]

/-- At first the options are marked as they say themselves. -/
theorem Tracks.start (hkeys : (options.map Choice.key).Nodup) : Tracks options [] (Selection.start options true) := by
  refine ⟨rfl, rfl, ?_, fun i option hi => ?_, fun i option hi _ => rfl⟩
  · show (0 : Int) = 0 % _
    rw [Int.zero_emod]
  · have hmem : option.key ∈ (options.filter Choice.selected).map Choice.key ↔ option.selected = true := by
      refine ⟨fun h => ?_, fun h => List.mem_map_of_mem (List.mem_filter.2 ⟨List.mem_of_getElem? hi, h⟩)⟩
      obtain ⟨other, hother, he⟩ := List.mem_map.1 h
      obtain ⟨hother, hselected⟩ := List.mem_filter.1 hother
      obtain ⟨j, hj⟩ := List.getElem?_of_mem hother
      have hsame := key_beq_key hkeys hi hj
      rw [he, beq_self_eq_true, eq_comm, decide_eq_true_iff] at hsame
      rw [hsame, hi] at hj
      cases hj
      exact hselected
    have hfirst : marked options.length i option.selected [] = option.selected := Bool.xor_false _
    rw [hfirst, Bool.eq_iff_iff, ← hmem, Selection.start]
    simp

theorem Tracks.current_eq (h : Tracks options keys s) (hne : options ≠ []) :
    ∃ option, s.current = .ok option ∧ options[s.cursor]? = some option := by
  have hpos : 0 < (options.length : Int) := Int.natCast_pos.2 (List.length_pos_iff.2 hne)
  have hlt : s.cursor < options.length := by
    have hcursor := h.cursor_eq
    have hbound := Int.emod_lt_of_pos ((keys.count .down : Int) - (keys.count .up : Int)) hpos
    rw [place] at hcursor
    omega
  refine ⟨options[s.cursor], ?_, List.getElem?_eq_getElem hlt⟩
  simp only [current, h.options_eq, List.getElem?_eq_getElem hlt]

/-- A step of the cursor. -/
theorem Tracks.moveBy (h : Tracks options keys s) (hne : options ≠ []) (key : Key) (hmark : key ≠ markKey)
    (hadvanced : key ≠ advancedKey) {step : Int}
    (hstep : (([key].count .down : Nat) : Int) - (([key].count .up : Nat) : Int) = step) :
    ∃ t, s.moveBy step = .ok t ∧ Tracks options (keys ++ [key]) t := by
  have hempty : s.options.isEmpty = false := by
    rw [h.options_eq]
    simpa using hne
  have hpos : 0 < (options.length : Int) := Int.natCast_pos.2 (List.length_pos_iff.2 hne)
  have hmove : s.moveBy step =
      .ok { s with cursor := (((s.cursor : Int) + step) % (s.options.length : Int)).toNat } := by
    rw [Selection.moveBy, hempty, if_neg (by decide)]
  refine ⟨_, hmove, h.options_eq, h.multiple_eq, ?_, ?_, ?_⟩
  · rw [place_append, hstep, ← h.cursor_eq, h.options_eq]
    exact Int.toNat_of_nonneg (Int.emod_nonneg _ (Int.ne_of_gt hpos))
  · intro i option hi
    rw [marked_of_ne _ _ _ _ hmark]
    exact h.selected_eq i option hi
  · intro i option hi hsome
    rw [asked_of_ne _ _ _ _ hadvanced]
    exact h.advanced_eq i option hi hsome

/-- No key but the arrows moves the cursor. -/
theorem Tracks.cursor_concat (h : Tracks options keys s) {c : Char} :
    (s.cursor : Int) = place options.length (keys ++ [.char c]) := by
  have hnone : (([Key.char c].count .down : Nat) : Int) - (([Key.char c].count .up : Nat) : Int) = 0 := by simp
  rw [place_append, hnone, Int.add_zero, place, Int.emod_emod, ← place]
  exact h.cursor_eq

/-- The cursor is at an option if the keys say so. -/
theorem Tracks.decide_cursor (h : Tracks options keys s) (i : Nat) :
    decide (s.cursor = i) = decide (place options.length keys = (i : Int)) := by
  rw [← h.cursor_eq]
  exact decide_eq_decide.2 Int.natCast_inj.symm

/-- A press on the option at the cursor turns its mark over. -/
theorem Tracks.toggleCurrent (h : Tracks options keys s) (hne : options ≠ [])
    (hkeys : (options.map Choice.key).Nodup) :
    ∃ t, s.toggleCurrent = .ok t ∧ Tracks options (keys ++ [markKey]) t := by
  obtain ⟨option, hcurrent, hat⟩ := h.current_eq hne
  have htoggle : s.toggleCurrent = .ok { s with selected := toggle option.key s.selected } := by
    rw [Selection.toggleCurrent, hcurrent]
    rfl
  refine ⟨_, htoggle, h.options_eq, h.multiple_eq, h.cursor_concat, ?_, ?_⟩
  · intro i other hi
    rw [marked_markKey, contains_toggle, h.selected_eq i other hi, key_beq_key hkeys hi hat, h.decide_cursor]
  · intro i other hi hsome
    rw [asked_of_ne _ _ _ _ (by decide)]
    exact h.advanced_eq i other hi hsome

/-- A press on the option at the cursor turns the wish for its advanced settings over, if it is marked. -/
theorem Tracks.toggleAdvanced (h : Tracks options keys s) (hne : options ≠ [])
    (hkeys : (options.map Choice.key).Nodup) :
    ∃ t, s.toggleAdvanced = .ok t ∧ Tracks options (keys ++ [advancedKey]) t := by
  obtain ⟨option, hcurrent, hat⟩ := h.current_eq hne
  have hselected : ∀ i other, options[i]? = some other →
      s.selected.contains other.key = marked options.length i other.selected (keys ++ [advancedKey]) := by
    intro i other hi
    rw [marked_of_ne _ _ _ _ (by decide)]
    exact h.selected_eq i other hi
  -- the guard of the key is about the option at the cursor
  have hguard : ∀ i other, options[i]? = some other → other.advanced.isSome = true →
      (decide (s.cursor = i) && s.selected.contains other.key) =
        (decide (s.cursor = i) && (option.advanced.isSome && s.selected.contains option.key)) := by
    intro i other hi hsome
    by_cases hcursor : s.cursor = i
    · subst hcursor
      rw [hat] at hi
      cases hi
      rw [hsome, Bool.true_and]
    · simp [hcursor]
  have hasked : ∀ i other, options[i]? = some other → other.advanced.isSome = true →
      asked options.length i other.selected (keys ++ [advancedKey]) = (s.advanced.contains other.key ^^
        (decide (s.cursor = i) && (option.advanced.isSome && s.selected.contains option.key))) := by
    intro i other hi hsome
    rw [asked_advancedKey, ← h.advanced_eq i other hi hsome, ← h.selected_eq i other hi, ← h.decide_cursor,
      hguard i other hi hsome]
  by_cases hon : (option.advanced.isSome && s.selected.contains option.key) = true
  · have htoggle : s.toggleAdvanced = .ok { s with advanced := toggle option.key s.advanced } := by
      rw [Selection.toggleAdvanced, hcurrent]
      exact if_pos hon
    refine ⟨_, htoggle, h.options_eq, h.multiple_eq, h.cursor_concat, hselected, fun i other hi hsome => ?_⟩
    rw [hasked i other hi hsome, contains_toggle, key_beq_key hkeys hi hat, hon, Bool.and_true]
  · have htoggle : s.toggleAdvanced = .ok s := by
      rw [Selection.toggleAdvanced, hcurrent]
      exact if_neg hon
    refine ⟨s, htoggle, h.options_eq, h.multiple_eq, h.cursor_concat, hselected, fun i other hi hsome => ?_⟩
    rw [Bool.not_eq_true] at hon
    rw [hasked i other hi hsome, hon, Bool.and_false, Bool.xor_false]

/-- **One key keeps a selection in step with its keys.** -/
theorem Tracks.press (h : Tracks options keys s) (hne : options ≠ []) (hkeys : (options.map Choice.key).Nodup)
    {key : Key} (hkey : key ∈ goingOn) :
    ∃ t, s.press key = .ok (.moved, t) ∧ Tracks options (keys ++ [key]) t := by
  have hmultiple := h.multiple_eq
  simp only [goingOn, List.mem_cons, List.not_mem_nil, or_false] at hkey
  rcases hkey with rfl | rfl | rfl | rfl
  · obtain ⟨t, ht, htracks⟩ := h.moveBy hne .down (by decide) (by decide) (rfl : _ = (1 : Int))
    exact ⟨t, by simp only [Selection.press, ht]; rfl, htracks⟩
  · obtain ⟨t, ht, htracks⟩ := h.moveBy hne .up (by decide) (by decide) (rfl : _ = (-1 : Int))
    exact ⟨t, by simp only [Selection.press, ht]; rfl, htracks⟩
  · obtain ⟨t, ht, htracks⟩ := h.toggleCurrent hne hkeys
    refine ⟨t, ?_, htracks⟩
    simp only [Selection.press, markKey, hmultiple, ht]
    rfl
  · obtain ⟨t, ht, htracks⟩ := h.toggleAdvanced hne hkeys
    refine ⟨t, ?_, htracks⟩
    simp only [Selection.press, advancedKey, hmultiple, ht]
    rfl

/-! ## Rows of keys -/

/-- Keys that go on are pressed one after the other. -/
theorem Tracks.pressAll (hne : options ≠ []) (hkeys : (options.map Choice.key).Nodup) {more : List Key}
    (hmore : ∀ key ∈ more, key ∈ goingOn) (h : Tracks options keys s) (rest : List Key) :
    ∃ t, s.pressAll (more ++ rest) = t.pressAll rest ∧ Tracks options (keys ++ more) t := by
  induction more generalizing keys s with
  | nil => exact ⟨s, rfl, by rwa [List.append_nil]⟩
  | cons key more ih =>
    obtain ⟨hkey, hmore⟩ := List.forall_mem_cons.1 hmore
    obtain ⟨next, hnext, htracks⟩ := h.press hne hkeys hkey
    obtain ⟨t, ht, hlast⟩ := ih hmore htracks
    refine ⟨t, ?_, by rwa [List.append_assoc] at hlast⟩
    rw [List.cons_append, Selection.pressAll, hnext]
    exact ht

/-- What is chosen from a selection that stands as its keys say. -/
theorem Tracks.chosen_eq (h : Tracks options keys s) : s.chosen = chosenAfter options keys := by
  have hat : ∀ p ∈ options.zipIdx, options[p.2]? = some p.1 := fun p hp => List.mem_zipIdx_iff_getElem?.1 hp
  have hmarked : (options.filter fun option => s.selected.contains option.key) =
      (options.zipIdx.filter fun p => marked options.length p.2 p.1.selected keys).map Prod.fst := by
    rw [← List.filter_congr fun p hp => h.selected_eq p.2 p.1 (hat p hp)]
    have hfilter := List.filter_map (f := Prod.fst) (p := fun option => s.selected.contains option.key)
      (l := options.zipIdx)
    rwa [List.zipIdx_map_fst] at hfilter
  rw [chosen, h.options_eq, hmarked, List.map_map, chosenAfter]
  refine List.map_congr_left fun p hp => ?_
  have hp := hat p (List.mem_filter.1 hp).1
  cases hadvanced : p.1.advanced with
  | none => simp [hadvanced]
  | some handler =>
    have hasked := h.advanced_eq p.2 p.1 hp (by rw [hadvanced]; rfl)
    simp only [Function.comp_apply, hasked, hadvanced]

/-- **The selection computes what the keys say.**  However the keys follow each other, the cursor stands at the
steps down less the steps up, round the ends.  In the end just those options are chosen, in their order, whose
mark was turned over so often that they are marked, and an option comes with its advanced settings if these were
asked for an odd number of times while it was marked. -/
theorem chosen_of_keys {options : List (Choice α δ)} (hne : options ≠ [])
    (hdistinct : (options.map Choice.key).Nodup) {keys : List Key} (hkeys : ∀ key ∈ keys, key ∈ goingOn) :
    (∀ before, before <+: keys → ∃ s, (start options true).pressAll before = .ok (none, s) ∧
      (s.cursor : Int) = place options.length before) ∧
    ∀ rest, ∃ s, (start options true).pressAll (keys ++ .enter :: rest) =
      .ok (some (chosenAfter options keys, rest), s) := by
  have hstart := Tracks.start hdistinct
  constructor
  · rintro before ⟨later, rfl⟩
    have hbefore : ∀ key ∈ before, key ∈ goingOn := fun key hkey => hkeys key (List.mem_append_left _ hkey)
    obtain ⟨s, hs, htracks⟩ := hstart.pressAll hne hdistinct hbefore []
    rw [List.append_nil] at hs
    exact ⟨s, hs, htracks.cursor_eq⟩
  · intro rest
    obtain ⟨s, hs, htracks⟩ := hstart.pressAll hne hdistinct hkeys (.enter :: rest)
    rw [List.nil_append] at htracks
    refine ⟨s, ?_⟩
    rw [hs, Selection.pressAll, ← htracks.chosen_eq]
    simp only [Selection.press, htracks.multiple_eq]
    rfl

/-- Texts, which have advanced settings, and fonts, which are marked at first. -/
def textsAndFonts : List (Choice Unit Unit) :=
  [⟨"texts", none, false, some (), ()⟩, ⟨"fonts", none, true, none, ()⟩]

/-- Marks the texts and asks for their settings, goes up to the fonts and takes their mark away, and on the texts
takes the mark away, asks in vain and marks them again. -/
def backAndForth : List Key :=
  [markKey, advancedKey, .up, markKey, .down, markKey, advancedKey, markKey]

theorem chosen_of_keys_backAndForth :
    textsAndFonts ≠ [] ∧ (textsAndFonts.map Choice.key).Nodup ∧ (∀ key ∈ backAndForth, key ∈ goingOn) ∧
      ((∀ before, before <+: backAndForth → ∃ s, (start textsAndFonts true).pressAll before = .ok (none, s) ∧
        (s.cursor : Int) = place 2 before) ∧
      ∀ rest, ∃ s, (start textsAndFonts true).pressAll (backAndForth ++ .enter :: rest) =
        .ok (some ([⟨"texts", some (), some ()⟩], rest), s)) := by
  have hdistinct : (textsAndFonts.map Choice.key).Nodup := by decide
  have hkeys : ∀ key ∈ backAndForth, key ∈ goingOn := by decide
  exact ⟨List.cons_ne_nil _ _, hdistinct, hkeys, chosen_of_keys (List.cons_ne_nil _ _) hdistinct hkeys⟩

end AdventureKit.Selection
