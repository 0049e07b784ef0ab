import AdventureKit.Proofs.Dialogue.WrittenForm
import AdventureKit.Proofs.Fault
import Mathlib.Data.List.Chain

/-!
# Turning the written form back

`turned` is the marked text with its breaks in coded form.  It goes through a text from left to right, so
it can be followed token by token, and so can the reading of escapes as long as the bytes of positions do
not look like one.
-/

namespace AdventureKit.Markup

/-! ## Breaks -/

/-- The text with its breaks in coded form. -/
def turned (x y : Int) (t : Bytes) : Except Fault Bytes :=
  (breaksFrom x y t).map List.flatten

theorem nextBreak?_append {u : Bytes} (hu : 0x7C ∉ u) (t : Bytes) :
    nextBreak? (u ++ t) = (nextBreak? t).map fun b => { b with before := u ++ b.before } := by
  induction u with
  | nil => simp
  | cons c u ih =>
    rw [List.mem_cons, not_or] at hu
    have hline : lineMark.isPrefixOf (c :: (u ++ t)) = false :=
      Sequence.isPrefixOf_eq_false (Ne.symm hu.1) _ _
    have hrule : ruleMark.isPrefixOf (c :: (u ++ t)) = false :=
      Sequence.isPrefixOf_eq_false (Ne.symm hu.1) _ _
    rw [List.cons_append, nextBreak?, hline, hrule, ih hu.2]
    simp [Function.comp_def]

theorem nextBreak?_lineMark (t : Bytes) : nextBreak? (lineMark ++ t) = some ⟨[], 2, t⟩ := by
  rw [lineMark_eq, mark]
  simp only [List.cons_append, List.nil_append]
  rw [nextBreak?, lineMark_eq, mark]
  simp [List.isPrefixOf]

theorem nextBreak?_ruleMark (t : Bytes) : nextBreak? (ruleMark ++ t) = some ⟨[], 5, t⟩ := by
  rw [ruleMark_eq, mark]
  simp only [List.cons_append, List.nil_append]
  rw [nextBreak?, lineMark_eq, ruleMark_eq, mark, mark]
  simp [List.isPrefixOf]

theorem breaksFrom_of_none {t : Bytes} (h : nextBreak? t = none) (x y : Int) : breaksFrom x y t = .ok [t] := by
  rw [breaksFrom]
  split
  · rfl
  · rename_i b hb
    rw [h] at hb
    cases hb

theorem turned_of_none {t : Bytes} (h : nextBreak? t = none) (x y : Int) : turned x y t = .ok t := by
  rw [turned, breaksFrom_of_none h]
  simp [Except.map]

/-- The position at which the text goes on after a break, and the text there. -/
def resumed (x y : Int) (after : Bytes) : (Int × Int) × Bytes :=
  match position? (firstLine after).1 with
  | some place => (place, (firstLine after).2)
  | none => ((x, y + 10), after)

theorem breaksFrom_of_some {t : Bytes} {b : Break} (h : nextBreak? t = some b) {x y : Int} {p : Int × Int}
    {rest : Bytes} (hresumed : resumed x y b.after = (p, rest)) :
    breaksFrom x y t = do
      let place ← positionBytes p.1 p.2
      let parts ← breaksFrom p.1 p.2 rest
      return (b.before ++ escape [b.code]) :: place :: parts := by
  rw [breaksFrom]
  split
  · rename_i hb
    rw [h] at hb
    cases hb
  · rename_i b' hb
    rw [h] at hb
    cases hb
    unfold resumed at hresumed
    split at hresumed
    all_goals
      rename_i hplace
      cases hresumed
      simp only [hplace]

theorem turned_of_some {t : Bytes} {b : Break} (h : nextBreak? t = some b) {x y : Int} {p : Int × Int} {rest : Bytes}
    (hresumed : resumed x y b.after = (p, rest)) :
    turned x y t = do
      let place ← positionBytes p.1 p.2
      let rest ← turned p.1 p.2 rest
      return b.before ++ (escape [b.code] ++ (place ++ rest)) := by
  rw [turned, turned, breaksFrom_of_some h hresumed]
  cases positionBytes p.1 p.2 with
  | error e => rfl
  | ok place =>
    cases breaksFrom p.1 p.2 rest with
    | error e => rfl
    | ok parts => simp [bind, Except.bind, Except.map, pure, Except.pure]

/-- Bytes before the first mark stay where they are. -/
theorem turned_append {u : Bytes} (hu : 0x7C ∉ u) (x y : Int) (t : Bytes) :
    turned x y (u ++ t) = (turned x y t).map (u ++ ·) := by
  have hnext := nextBreak?_append hu t
  cases h : nextBreak? t with
  | none =>
    rw [h] at hnext
    rw [turned_of_none hnext, turned_of_none h]
    rfl
  | some b =>
    rw [h, Option.map_some] at hnext
    cases hresumed : resumed x y b.after with
    | mk p rest =>
      rw [turned_of_some hnext hresumed, turned_of_some h hresumed]
      cases positionBytes p.1 p.2 with
      | error e => rfl
      | ok place =>
        cases turned p.1 p.2 rest with
        | error e => rfl
        | ok back => simp [bind, Except.bind, Except.map, pure, Except.pure]

theorem firstLine_placeText (x y : Nat) (rest : Bytes) :
    firstLine (placeText x y ++ (lineMark ++ rest)) = (placeText x y, rest) := by
  have hbar : 0x7C ∉ placeText x y := (quiet_placeText x y).bar_notMem
  have hsplit := Sequence.splitFirst_append hbar [0x7E, 0x24, 0x7E, 0x7C] rest
  rw [← mark, ← lineMark_eq, List.append_assoc] at hsplit
  rw [firstLine, hsplit, Option.getD_some]

theorem position?_placeText {x y : Nat} (hx : x < 65536) (hy : y < 65536) :
    position? (placeText x y) = some ((x : Int), (y : Int)) := by
  have hat : 64 ∉ Bytes.ofAscii (toString x) := by
    intro h
    exact absurd (digit_of_mem_toString h).2 (by decide)
  have hsplit : Sequence.splitFirst [64] (placeText x y) =
      some (Bytes.ofAscii (toString x), Bytes.ofAscii (toString y)) := by
    have h := Sequence.splitFirst_append hat [] (Bytes.ofAscii (toString y))
    rwa [List.append_assoc] at h
  have hlimit : 65536 ≤ 10 ^ Numeral.maxDigits :=
    Nat.le_trans (by decide : 65536 ≤ 10 ^ 5) (Nat.pow_le_pow_right (by decide) (by decide))
  have hdx := Numeral.decimal?_toString (Nat.lt_of_lt_of_le hx hlimit)
  have hdy := Numeral.decimal?_toString (Nat.lt_of_lt_of_le hy hlimit)
  rw [position?, hsplit]
  simp only [Option.bind_eq_bind, Option.bind_some, hdx, hdy]
  rfl

theorem positionBytes_eq {x y : Nat} (hx : x < 65536) (hy : y < 65536) :
    positionBytes (x : Int) (y : Int) = .ok (Bytes.ofNatLE 2 x ++ Bytes.ofNatLE 2 y) := by
  rw [positionBytes, Bytes.putLE_of_lt hx, Bytes.putLE_of_lt hy]
  rfl

theorem turned_break {m rest : Bytes} {code : UInt8} (hnext : ∀ t, nextBreak? (m ++ t) = some ⟨[], code, t⟩)
    {x y : Nat} (hx : x < 65536) (hy : y < 65536) (x' y' : Int) :
    turned x' y' (m ++ (placeText x y ++ (lineMark ++ rest))) =
      (turned x y rest).map (escape [code] ++ (Bytes.ofNatLE 2 x ++ Bytes.ofNatLE 2 y) ++ ·) := by
  have hresumed : resumed x' y' (placeText x y ++ (lineMark ++ rest)) = (((x : Int), (y : Int)), rest) := by
    simp [resumed, firstLine_placeText, position?_placeText hx hy]
  rw [turned_of_some (hnext _) hresumed, positionBytes_eq hx hy]
  cases turned (x : Int) (y : Int) rest with
  | error e => rfl
  | ok rest => simp [bind, Except.bind, Except.map, pure, Except.pure]

/-- The form of a token in which its break is coded. -/
def Token.placed : Token → Bytes
  | .lineBreak five x y => escape [if five then 5 else 2] ++ (Bytes.ofNatLE 2 x ++ Bytes.ofNatLE 2 y)
  | t => t.marked

theorem placed_literal (b : UInt8) : (Token.literal b).placed = if b = 13 then [13] else shownByte b := rfl

theorem placed_command (bs : Bytes) : (Token.command bs).placed = escape bs := rfl

theorem bar_notMem_marked {t : Token} (ht : t.Regular) (hlist : t.isWordList = false)
    (hbreak : t.isLineBreak = false) : 0x7C ∉ t.marked := by
  cases ht with
  | @literal b hb =>
    by_cases hreturn : b = 13
    · rw [Token.marked, Token.text, if_pos hreturn]
      decide
    · rw [Token.marked, Token.text, if_neg hreturn]
      exact (quiet_shownByte hb hreturn).bar_notMem
  | lineBreak hx hy hpair => cases hbreak
  | short hc => exact (quiet_escape _).bar_notMem
  | sized h => exact (quiet_escape _).bar_notMem
  | lone hc => exact (quiet_escape _).bar_notMem
  | wordList h => cases hlist

theorem placed_of_not_lineBreak {t : Token} (h : t.isLineBreak = false) : t.placed = t.marked := by
  cases t with
  | lineBreak five x y => cases h
  | _ => rfl

theorem Token.Regular.turned_append {t : Token} (ht : t.Regular) (hlist : t.isWordList = false) (x y : Int)
    (rest : Bytes) :
    ∃ x' y', turned x y (t.marked ++ rest) = (turned x' y' rest).map (t.placed ++ ·) := by
  by_cases hbreak : t.isLineBreak = false
  · rw [placed_of_not_lineBreak hbreak]
    exact ⟨x, y, Markup.turned_append (bar_notMem_marked ht hlist hbreak) x y rest⟩
  · cases ht with
    | @lineBreak five x' y' hx hy hpair =>
      refine ⟨x', y', ?_⟩
      have hsplit : (Token.lineBreak five x' y').marked ++ rest =
          (if five then ruleMark else lineMark) ++ (placeText x' y' ++ (lineMark ++ rest)) := by
        simp [Token.marked, Token.text]
      rw [hsplit]
      cases five with
      | false => exact turned_break nextBreak?_lineMark hx hy x y
      | true => exact turned_break nextBreak?_ruleMark hx hy x y
    | _ => exact absurd rfl hbreak

/-- The step of one token, for all tokens in turn. -/
theorem turned_flatMap_marked {ts : List Token} (hts : ∀ t ∈ ts, t.Regular) (hlists : ∀ t ∈ ts, t.isWordList = false)
    (x y : Int) (rest : Bytes) :
    ∃ x' y', turned x y (ts.flatMap Token.marked ++ rest) =
      (turned x' y' rest).map (ts.flatMap Token.placed ++ ·) := by
  induction ts generalizing x y with
  | nil =>
    refine ⟨x, y, ?_⟩
    cases h : turned x y rest with
    | error e => exact h
    | ok back => exact h
  | cons t ts ih =>
    obtain ⟨ht, hts⟩ := List.forall_mem_cons.1 hts
    obtain ⟨hlist, hlists⟩ := List.forall_mem_cons.1 hlists
    obtain ⟨x₁, y₁, hstep⟩ := ht.turned_append hlist x y (ts.flatMap Token.marked ++ rest)
    obtain ⟨x₂, y₂, hrun⟩ := ih hts hlists x₁ y₁
    refine ⟨x₂, y₂, ?_⟩
    rw [List.flatMap_cons, List.append_assoc, hstep, hrun, List.flatMap_cons]
    cases turned x₂ y₂ rest with
    | error e => rfl
    | ok back => simp [Except.map]

/-! ## Escapes -/

theorem exists_splitAll (t : Bytes) : ∃ first rest, unescapeAll t = first ++ rest.flatMap unescape ∧
    ∀ part, Sequence.splitFrom escapeMark 0 part t = (part.reverse ++ first) :: rest := by
  have hmark : Bytes.ofAscii "\\x" = escapeMark := by decide
  obtain ⟨first, rest, h⟩ := Sequence.exists_splitFrom escapeMark 0 t
  refine ⟨first, rest, ?_, h⟩
  rw [unescapeAll, hmark, Sequence.splitAll, h]
  rfl

theorem unescapeAll_nil : unescapeAll [] = [] := by decide

theorem unescapeAll_cons {c : UInt8} {t : Bytes} (h : escapeMark.isPrefixOf (c :: t) = false) :
    unescapeAll (c :: t) = c :: unescapeAll t := by
  obtain ⟨first, rest, ht, hparts⟩ := exists_splitAll t
  obtain ⟨first', rest', ht', hparts'⟩ := exists_splitAll (c :: t)
  have hsplit : Sequence.splitFrom escapeMark 0 [] (c :: t) = Sequence.splitFrom escapeMark 0 [c] t := by
    rw [Sequence.splitFrom, h]
    rfl
  rw [hparts, hparts'] at hsplit
  simp only [List.reverse_nil, List.nil_append, List.reverse_singleton, List.singleton_append, List.cons.injEq] at hsplit
  rw [ht', ht, hsplit.1, hsplit.2, List.cons_append]

theorem unescape_digits {b : UInt8} (t : Bytes) :
    unescape (Numeral.digitByte (b.toNat / 16) :: Numeral.digitByte (b.toNat % 16) :: t) = b :: t := by
  have hb : b.toNat < 256 := b.toNat_lt
  have hhex := Numeral.hexadecimal?_digitBytes (a := b.toNat / 16) (b := b.toNat % 16) (by omega) (by omega)
  have hvalue : b.toNat / 16 * 16 + b.toNat % 16 = b.toNat := by omega
  rw [hvalue] at hhex
  simp [unescape, hhex]

theorem unescapeAll_escape_single (b : UInt8) (t : Bytes) : unescapeAll (escape [b] ++ t) = b :: unescapeAll t := by
  have hb : b.toNat < 256 := b.toNat_lt
  obtain ⟨first, rest, ht, hparts⟩ := exists_splitAll t
  obtain ⟨first', rest', ht', hparts'⟩ := exists_splitAll (escape [b] ++ t)
  have hdigit : ∀ d < 16, ∀ s, escapeMark.isPrefixOf (Numeral.digitByte d :: s) = false := by
    intro d hd s
    refine Sequence.isPrefixOf_eq_false ?_ _ _
    revert d
    decide
  have hsplit : Sequence.splitFrom escapeMark 0 [] (escape [b] ++ t) =
      [] :: Sequence.splitFrom escapeMark 0
        [Numeral.digitByte (b.toNat % 16), Numeral.digitByte (b.toNat / 16)] t := by
    have hhit : escapeMark.isPrefixOf (0x5C :: 0x78 :: Numeral.digitByte (b.toNat / 16) ::
        Numeral.digitByte (b.toNat % 16) :: t) = true := by
      simp [escapeMark, List.isPrefixOf]
    rw [escape_single]
    simp only [List.cons_append, List.nil_append]
    rw [Sequence.splitFrom, if_pos hhit]
    have hlength : escapeMark.length - 1 = 1 := rfl
    rw [hlength, Sequence.splitFrom, Sequence.splitFrom, hdigit _ (by omega), Sequence.splitFrom, hdigit _ (by omega)]
    rfl
  rw [hparts', hparts] at hsplit
  simp only [List.reverse_nil, List.nil_append, List.cons.injEq] at hsplit
  rw [ht', ht, hsplit.1, hsplit.2]
  simp [unescape_digits]

theorem unescapeAll_escape (bs t : Bytes) : unescapeAll (escape bs ++ t) = bs ++ unescapeAll t := by
  induction bs with
  | nil => rfl
  | cons b bs ih => rw [escape_cons, List.append_assoc, unescapeAll_escape_single, ih, List.cons_append]

/-- Bytes without an escape stay, if they do not begin one with what follows. -/
theorem unescapeAll_append {u t : Bytes} (hu : ¬ escapeMark <:+: u)
    (hjoin : ¬ (u.getLast? = some 0x5C ∧ t.head? = some 0x78)) : unescapeAll (u ++ t) = u ++ unescapeAll t := by
  induction u with
  | nil => rfl
  | cons c u ih =>
    -- an escape that begins here lies in `u` or goes on with the first byte of `t`
    have hmiss : escapeMark.isPrefixOf (c :: (u ++ t)) = false := by
      rw [Bool.eq_false_iff, ne_eq, List.isPrefixOf_iff_prefix, escapeMark, List.cons_prefix_cons]
      rintro ⟨rfl, hprefix⟩
      cases u with
      | nil =>
        apply hjoin
        obtain ⟨s, hs⟩ := hprefix
        rw [List.nil_append] at hs
        simp [← hs]
      | cons d u =>
        rw [List.cons_append, List.cons_prefix_cons] at hprefix
        obtain ⟨rfl, -⟩ := hprefix
        exact hu ⟨[], u, rfl⟩
    have hrest : ¬ escapeMark <:+: u := fun h => hu (h.trans (List.suffix_cons c u).isInfix)
    have hlast : ¬ (u.getLast? = some 0x5C ∧ t.head? = some 0x78) := by
      rintro ⟨hlast, hhead⟩
      refine hjoin ⟨?_, hhead⟩
      rw [List.getLast?_cons, hlast]
      rfl
    rw [List.cons_append, unescapeAll_cons hmiss, ih hrest hlast, List.cons_append]

/-! ## Tokens -/

theorem head?_escape (b : UInt8) (bs t : Bytes) : (escape (b :: bs) ++ t).head? = some 0x5C := by
  rw [escape_cons, escape_single]
  rfl

theorem Token.Regular.head?_placed {t : Token} (ht : t.Regular) :
    t = .literal 0x78 ∨ ∃ c, t.placed.head? = some c ∧ c ≠ 0x78 := by
  have hescape : ∀ b bs, ∃ c, (escape (b :: bs)).head? = some c ∧ c ≠ 0x78 := by
    intro b bs
    exact ⟨0x5C, List.append_nil (escape (b :: bs)) ▸ head?_escape b bs [], by decide⟩
  cases ht with
  | @literal b hb =>
    by_cases hx : b = 0x78
    · exact .inl (congrArg Token.literal hx)
    · right
      by_cases hreturn : b = 13
      · rw [hreturn]
        exact ⟨13, rfl, by decide⟩
      · rw [placed_literal, if_neg hreturn]
        rcases shownByte_cases hb hreturn with h | h
        · exact h ▸ hescape b []
        · exact h ▸ ⟨b, rfl, hx⟩
  | lineBreak hx hy hpair => exact .inr ⟨0x5C, head?_escape _ _ _, by decide⟩
  | short hc => exact .inr (placed_command _ ▸ hescape _ _)
  | sized h => exact .inr (placed_command _ ▸ hescape _ _)
  | lone hc => exact .inr (placed_command _ ▸ hescape _ _)
  | wordList h => exact .inr ⟨0x5C, head?_escape _ _ _, by decide⟩

theorem unescapeAll_plain {b : UInt8} (h : b ≠ 0x5C) (t : Bytes) : unescapeAll (b :: t) = b :: unescapeAll t :=
  unescapeAll_cons (Sequence.isPrefixOf_eq_false h _ _)

theorem getLast?_positionBytes {x y : Nat} (hy : y < 65536)
    (h : (Bytes.ofNatLE 2 x ++ Bytes.ofNatLE 2 y).getLast? = some 0x5C) : y / 256 = 0x5C := by
  have hlast : UInt8.ofNat (y / 256 % 256) = 0x5C := by
    simpa [Bytes.ofNatLE] using h
  have hvalue := congrArg UInt8.toNat hlast
  rw [UInt8.toNat_ofNat'] at hvalue
  simp at hvalue
  omega

/-- The bytes of a token come back, if its position does not begin an escape with the next byte. -/
theorem Token.Regular.unescapeAll_placed {t : Token} (ht : t.Regular) (hlist : t.isWordList = false) {rest : Bytes}
    (hrest : ∀ five x y, t = .lineBreak five x y → ¬ (y / 256 = 0x5C ∧ rest.head? = some 0x78)) :
    unescapeAll (t.placed ++ rest) = t.coded ++ unescapeAll rest := by
  cases ht with
  | @literal b hb =>
    by_cases hreturn : b = 13
    · rw [hreturn]
      exact unescapeAll_plain (by decide) rest
    · rw [placed_literal, if_neg hreturn]
      rcases shownByte_cases hb hreturn with h | h
      · rw [h, unescapeAll_escape]
        rfl
      · rw [h]
        exact unescapeAll_plain hb.ne_backslash rest
  | @lineBreak five x y hx hy hpair =>
    have hjoin : ¬ ((Bytes.ofNatLE 2 x ++ Bytes.ofNatLE 2 y).getLast? = some 0x5C ∧ rest.head? = some 0x78) := by
      rintro ⟨hlast, hhead⟩
      exact hrest five x y rfl ⟨getLast?_positionBytes hy hlast, hhead⟩
    rw [Token.placed, List.append_assoc, unescapeAll_escape, unescapeAll_append hpair hjoin]
    rfl
  | short hc => exact unescapeAll_escape _ _
  | sized h => exact unescapeAll_escape _ _
  | lone hc => exact unescapeAll_escape _ _
  | wordList h => cases hlist

theorem unescapeAll_flatMap_placed {ts : List Token} (hts : ∀ t ∈ ts, t.Regular)
    (hlists : ∀ t ∈ ts, t.isWordList = false) (hapart : ts.IsChain Token.Apart) {rest : Bytes}
    (hrest : rest.head? ≠ some 0x78) :
    unescapeAll (ts.flatMap Token.placed ++ rest) = ts.flatMap Token.coded ++ unescapeAll rest := by
  induction ts with
  | nil => rfl
  | cons t ts ih =>
    obtain ⟨ht, htail⟩ := List.forall_mem_cons.1 hts
    obtain ⟨hlist, hlists⟩ := List.forall_mem_cons.1 hlists
    -- of all tokens only the letter of the escapes starts with it
    have hnext : ∀ five x y, t = .lineBreak five x y →
        ¬ (y / 256 = 0x5C ∧ (ts.flatMap Token.placed ++ rest).head? = some 0x78) := by
      rintro five x y rfl ⟨hy, hhead⟩
      cases ts with
      | nil => exact hrest hhead
      | cons t' ts =>
        rcases (htail t' List.mem_cons_self).head?_placed with rfl | ⟨c, hc, hne⟩
        · exact (List.isChain_cons_cons.1 hapart).1 ⟨hy, rfl⟩
        · simp [hc, hne] at hhead
    rw [List.flatMap_cons, List.append_assoc, ht.unescapeAll_placed hlist hnext, ih htail hlists hapart.tail,
      List.flatMap_cons, List.append_assoc]

theorem toBody_eq (t : Bytes) : toBody t = (turned 0 0 (markLines t)).map unescapeAll := by
  rw [toBody, turned, breaks]
  cases breaksFrom 0 0 (markLines t) with
  | error e => rfl
  | ok parts => rfl

/-- The written form of a text gives its coded form back. -/
theorem toBody_render {ts : List Token} (hts : ∀ t ∈ ts, t.Regular) (hlists : ∀ t ∈ ts, t.isWordList = false)
    (hapart : ts.IsChain Token.Apart) : toBody (render ts) = .ok (ts.flatMap Token.coded) := by
  obtain ⟨x, y, hturned⟩ := turned_flatMap_marked hts hlists 0 0 []
  have hback : unescapeAll (ts.flatMap Token.placed ++ []) = ts.flatMap Token.coded ++ unescapeAll [] :=
    unescapeAll_flatMap_placed hts hlists hapart (by decide)
  have hend : turned x y [] = .ok [] := turned_of_none rfl x y
  rw [List.append_nil, hend] at hturned
  rw [unescapeAll_nil, List.append_nil (ts.flatMap Token.coded)] at hback
  rw [toBody_eq, render_eq, markLines_flatMap hts, hturned]
  exact congrArg Except.ok hback

/-! ## Word lists -/

theorem positionBytes_fault {x y : Int} {e : Fault} (h : positionBytes x y = .error e) : e = .tooWide := by
  have hput : ∀ n, ∀ e, Bytes.putLE 2 n = .error e → e = .tooWide := by
    intro n e h
    rw [Bytes.putLE] at h
    split at h
    · cases h
    · cases h
      rfl
  rw [positionBytes] at h
  cases hx : Bytes.putLE 2 x with
  | error e' =>
    rw [hx] at h
    cases h
    exact hput x e hx
  | ok xs =>
    cases hy : Bytes.putLE 2 y with
    | error e' =>
      rw [hx, hy] at h
      cases h
      exact hput y e hy
    | ok ys =>
      rw [hx, hy] at h
      cases h

theorem length_resumed_lt {t : Bytes} {b : Break} (h : nextBreak? t = some b) (x y : Int) :
    (resumed x y b.after).2.length < t.length := by
  have hafter := length_after_lt h
  have hline := length_firstLine_le b.after
  unfold resumed
  split
  · exact Nat.lt_of_le_of_lt hline hafter
  · exact hafter

/-- Turning back only fails at a position that does not fit. -/
theorem turned_fault {x y : Int} {t : Bytes} {e : Fault} (h : turned x y t = .error e) : e = .tooWide := by
  -- each break leaves less text, so the induction is on the length
  induction hn : t.length using Nat.strongRecOn generalizing x y t with
  | ind n ih =>
    cases hnext : nextBreak? t with
    | none =>
      rw [turned_of_none hnext] at h
      cases h
    | some b =>
      have hlt := length_resumed_lt hnext x y
      cases hresumed : resumed x y b.after with
      | mk p rest =>
        rw [hresumed, hn] at hlt
        rw [turned_of_some hnext hresumed] at h
        cases hplace : positionBytes p.1 p.2 with
        | error e' =>
          rw [hplace] at h
          cases h
          exact positionBytes_fault hplace
        | ok place =>
          cases hrest : turned p.1 p.2 rest with
          | error e' =>
            rw [hplace, hrest] at h
            cases h
            exact ih _ hlt hrest rfl
          | ok back =>
            rw [hplace, hrest] at h
            cases h

theorem turned_lineMark (x y : Int) (t : Bytes) :
    turned x y (lineMark ++ t) = .error .tooWide ∨ ∃ rest, turned x y (lineMark ++ t) = .ok (escape [2] ++ rest) := by
  cases h : turned x y (lineMark ++ t) with
  | error e => exact .inl (congrArg Except.error (turned_fault h))
  | ok back =>
    right
    cases hresumed : resumed x y t with
    | mk p rest =>
      rw [turned_of_some (nextBreak?_lineMark t) hresumed] at h
      obtain ⟨place, -, h⟩ := bind_eq_ok.1 h
      obtain ⟨rest, -, h⟩ := bind_eq_ok.1 h
      have hback := Except.ok.inj h
      rw [List.nil_append] at hback
      exact ⟨place ++ rest, congrArg Except.ok hback.symm⟩

/-- A list of words leaves a break behind. -/
theorem toBody_render_wordList {front back : List Token} {b : UInt8} {bs : Bytes}
    (hts : ∀ t ∈ front ++ .wordList (b :: bs) :: back, t.Regular) (hlists : ∀ t ∈ front, t.isWordList = false)
    (hapart : front.IsChain Token.Apart) :
    toBody (render (front ++ .wordList (b :: bs) :: back)) = .error .tooWide ∨
      ∃ rest, toBody (render (front ++ .wordList (b :: bs) :: back)) =
        .ok (front.flatMap Token.coded ++ (b :: bs ++ 2 :: rest)) := by
  have hfront : ∀ t ∈ front, t.Regular := fun t ht => hts t (List.mem_append_left _ ht)
  have hmarked : (front ++ .wordList (b :: bs) :: back).flatMap Token.marked =
      front.flatMap Token.marked ++ (escape (b :: bs) ++ (lineMark ++ back.flatMap Token.marked)) := by
    simp [Token.marked, Token.text]
  have hbar : 0x7C ∉ escape (b :: bs) := (quiet_escape _).bar_notMem
  rw [toBody_eq, render_eq, markLines_flatMap hts, hmarked]
  obtain ⟨x, y, hturned⟩ := turned_flatMap_marked hfront hlists 0 0
    (escape (b :: bs) ++ (lineMark ++ back.flatMap Token.marked))
  rw [hturned, turned_append hbar]
  rcases turned_lineMark x y (back.flatMap Token.marked) with h | ⟨rest, h⟩
  · rw [h]
    exact .inl rfl
  · rw [h]
    refine .inr ⟨unescapeAll rest, congrArg Except.ok ?_⟩
    have hhead : (escape (b :: bs) ++ (escape [2] ++ rest)).head? ≠ some 0x78 := by
      rw [head?_escape]
      decide
    rw [unescapeAll_flatMap_placed hfront hlists hapart hhead, unescapeAll_escape, unescapeAll_escape]
    rfl

end AdventureKit.Markup
