import AdventureKit.Proofs.Dialogue.Tokens
import AdventureKit.Proofs.Sequence
import AdventureKit.Proofs.Text.Numeral

/-!
# The written form, token by token

The written form and the forms that it takes while it is turned back differ only in three texts: what
stands for a return, for a rule and for a line feed.  `Token.text` has them as parameters, and each
replacement of a whole text is a replacement of one of the three (`Token.Regular.rewrites`).  A hit never
reaches into the next token, since no token starts with a wave.
-/

namespace AdventureKit.Markup

open Sequence (Rewrites)

/-! ## Escapes and positions -/

/-- The bytes with which escapes and positions are written. -/
def IsSign (c : UInt8) : Prop :=
  c = 0x5C ∨ c = 0x78 ∨ c = 0x40 ∨ (48 ≤ c ∧ c ≤ 57) ∨ (97 ≤ c ∧ c ≤ 102)

instance : DecidablePred IsSign := fun c =>
  inferInstanceAs (Decidable (c = 0x5C ∨ c = 0x78 ∨ c = 0x40 ∨ (48 ≤ c ∧ c ≤ 57) ∨ (97 ≤ c ∧ c ≤ 102)))

theorem IsSign.ne {c d : UInt8} (h : IsSign c) (hd : ¬ IsSign d) : c ≠ d :=
  fun he => hd (he ▸ h)

theorem isSign_digitByte {d : Nat} (h : d < 16) : IsSign (Numeral.digitByte d) := by
  rcases Numeral.digitByte_range h with h | h
  · exact .inr (.inr (.inr (.inl h)))
  · exact .inr (.inr (.inr (.inr h)))

theorem escape_single (b : UInt8) :
    escape [b] = [0x5C, 0x78, Numeral.digitByte (b.toNat / 16), Numeral.digitByte (b.toNat % 16)] := by
  have hmark : Bytes.ofAscii "\\x" = [0x5C, 0x78] := by decide
  rw [escape, List.flatMap_singleton, Bytes.ofAscii_append, hmark, Bytes.ofAscii, Numeral.toList_hex b.toNat_lt]
  rfl

theorem escape_append (a b : Bytes) : escape (a ++ b) = escape a ++ escape b :=
  List.flatMap_append

theorem escape_cons (b : UInt8) (bs : Bytes) : escape (b :: bs) = escape [b] ++ escape bs :=
  escape_append [b] bs

theorem isSign_of_mem_escape {c : UInt8} {bs : Bytes} (h : c ∈ escape bs) : IsSign c := by
  induction bs with
  | nil => cases h
  | cons b bs ih =>
    rw [escape_cons, List.mem_append] at h
    rcases h with h | h
    · have hb : b.toNat < 256 := b.toNat_lt
      rw [escape_single] at h
      simp only [List.mem_cons, List.not_mem_nil, or_false] at h
      rcases h with rfl | rfl | rfl | rfl
      · decide
      · decide
      · exact isSign_digitByte (by omega)
      · exact isSign_digitByte (by omega)
    · exact ih h

/-- The position of a break as it is written. -/
def placeText (x y : Nat) : Bytes :=
  Bytes.ofAscii (toString x) ++ 64 :: Bytes.ofAscii (toString y)

theorem digit_of_mem_toString {c : UInt8} {n : Nat} (h : c ∈ Bytes.ofAscii (toString n)) : 48 ≤ c ∧ c ≤ 57 := by
  rw [Numeral.ofAscii_toString] at h
  obtain ⟨d, hd, rfl⟩ := List.mem_map.1 h
  exact Numeral.digitByte_range_ten (Numeral.mem_digitsOf hd)

theorem isSign_of_mem_placeText {c : UInt8} {x y : Nat} (h : c ∈ placeText x y) : IsSign c := by
  rw [placeText, List.mem_append, List.mem_cons] at h
  rcases h with h | rfl | h
  · exact .inr (.inr (.inr (.inl (digit_of_mem_toString h))))
  · decide
  · exact .inr (.inr (.inr (.inl (digit_of_mem_toString h))))

/-! ## What single bytes are written as -/

/-- The single bytes that are replaced, with what is written for them. -/
def singles : List (UInt8 × Bytes) :=
  [(9, Bytes.ofAscii "|~t~|"), (13, Bytes.ofAscii "|~r~|")] ++
    [0, 1, 2, 3, 4, 5, 6, 7, 8, 9, 18].map fun b => (b, escape [b])

/-- What is written for a byte. -/
def shownByte (b : UInt8) : Bytes :=
  (singles.lookup b).getD [b]

/-- A letter between bars and waves. -/
def mark (c : UInt8) : Bytes :=
  [0x7C, 0x7E, c, 0x7E, 0x7C]

theorem lineMark_eq : lineMark = mark 0x24 := by decide

theorem ruleMark_eq : ruleMark = mark 0x7E := by decide

theorem singles_apart : ∀ p ∈ singles, ∀ q ∈ singles, p.1 ∉ q.2 := by decide

theorem shownByte_of_isSign {c : UInt8} (h : IsSign c) : shownByte c = [c] := by
  have hnone : singles.lookup c = none := by
    rw [List.lookup_eq_none_iff]
    intro p hp
    have hkey : ∀ p ∈ singles, ¬ IsSign p.1 := by decide
    exact bne_iff_ne.2 (h.ne (hkey p hp))
  rw [shownByte, hnone, Option.getD_none]

theorem shownByte_escape (bs : Bytes) : (escape bs).flatMap shownByte = escape bs :=
  Sequence.flatMap_eq_self fun _ hc => shownByte_of_isSign (isSign_of_mem_escape hc)

theorem shownByte_placeText (x y : Nat) : (placeText x y).flatMap shownByte = placeText x y :=
  Sequence.flatMap_eq_self fun _ hc => shownByte_of_isSign (isSign_of_mem_placeText hc)

theorem shownByte_return : shownByte 13 = mark 0x72 := by decide

/-- A plain byte other than a return is written as it is, or escaped. -/
theorem shownByte_cases {b : UInt8} (hb : IsPlain b) (hreturn : b ≠ 13) :
    shownByte b = escape [b] ∨ shownByte b = [b] := by
  by_cases h0 : b = 0
  · rw [h0]
    exact .inl (by decide)
  by_cases h18 : b = 18
  · rw [h18]
    exact .inl (by decide)
  have hnone : singles.lookup b = none := by
    rw [List.lookup_eq_none_iff]
    intro p hp
    have hkey : ∀ p ∈ singles, p.1 = 13 ∨ p.1 = 0 ∨ p.1 = 18 ∨ (1 ≤ p.1 ∧ p.1 ≤ 10) := by decide
    rcases hkey p hp with hk | hk | hk | hk
    · exact bne_iff_ne.2 (hk ▸ hreturn)
    · exact bne_iff_ne.2 (hk ▸ h0)
    · exact bne_iff_ne.2 (hk ▸ h18)
    · exact bne_iff_ne.2 (hb.ne_code hk)
  exact .inr (by rw [shownByte, hnone, Option.getD_none])

/-! ## Texts of tokens -/

/-- A rule of three waves on a line of its own. -/
def ruleLine : Bytes := [10, 0x7E, 0x7E, 0x7E, 10]

/-- A token as a text, with what stands for a return, for a rule and for a line feed. -/
def Token.text (back rule feed : Bytes) : Token → Bytes
  | .literal b => if b = 13 then back else shownByte b
  | .lineBreak five x y => (if five then rule else feed) ++ (placeText x y ++ feed)
  | .command bs => escape bs
  | .wordList bs => escape bs ++ feed
  | .brokenEnd bs _ _ => escape bs

/-- The written form of a token. -/
def Token.shown : Token → Bytes :=
  Token.text (mark 0x72) ruleLine [10]

/-- The form of a token in which line feeds and rules are marked. -/
def Token.marked : Token → Bytes :=
  Token.text [13] ruleMark lineMark

theorem Token.flatMap_pieces (t : Token) : t.pieces.flatten.flatMap shownByte = t.shown := by
  have hfeed : [10].flatMap shownByte = [10] := by decide
  cases t with
  | literal b =>
    by_cases hb : b = 13
    · simp [pieces, shown, text, hb, shownByte_return]
    · simp [pieces, shown, text, hb]
  | lineBreak five x y =>
    have hfirst : (Bytes.ofAscii (if five then "\n~~~\n" else "\n")).flatMap shownByte =
        if five then ruleLine else [10] := by
      cases five <;> decide
    have hplace : Bytes.ofAscii (toString x ++ "@" ++ toString y ++ "\n") = placeText x y ++ [10] := by
      have hat : Bytes.ofAscii "@" = [64] := by decide
      have hend : Bytes.ofAscii "\n" = [10] := by decide
      simp [Bytes.ofAscii_append, hat, hend, placeText]
    simp only [pieces, List.flatten_cons, List.flatten_nil, List.append_nil, List.flatMap_append, hfirst, hplace,
      shownByte_placeText, hfeed, shown, text]
  | command bs => simp [pieces, shown, text, shownByte_escape]
  | wordList bs =>
    simp only [pieces, List.flatten_cons, List.flatten_nil, List.append_nil, List.flatMap_append, shownByte_escape,
      hfeed, shown, text]
  | brokenEnd bs position lost => simp [pieces, shown, text, shownByte_escape]

theorem render_eq (ts : List Token) : render ts = ts.flatMap Token.shown := by
  have hpairs : replacements = singles.map fun p => ([p.1], p.2) := rfl
  rw [render, hpairs, Sequence.replaceMany_singles singles_apart]
  induction ts with
  | nil => rfl
  | cons t ts ih =>
    rw [List.flatMap_cons, List.flatten_append, List.flatMap_append, ih, List.flatMap_cons, ← Token.flatMap_pieces]
    rfl

/-! ## Marking the lines -/

/-- A segment that no search for a line feed or a mark can stop at. -/
def Quiet (u : Bytes) : Prop :=
  ∀ c ∈ u, c ≠ 10 ∧ c ≠ 0x7C ∧ c ≠ 0x7E

theorem quiet_of_isSign {u : Bytes} (h : ∀ c ∈ u, IsSign c) : Quiet u :=
  fun c hc => ⟨(h c hc).ne (by decide), (h c hc).ne (by decide), (h c hc).ne (by decide)⟩

theorem quiet_escape (bs : Bytes) : Quiet (escape bs) :=
  quiet_of_isSign fun _ => isSign_of_mem_escape

theorem quiet_placeText (x y : Nat) : Quiet (placeText x y) :=
  quiet_of_isSign fun _ => isSign_of_mem_placeText

theorem quiet_shownByte {b : UInt8} (hb : IsPlain b) (hreturn : b ≠ 13) : Quiet (shownByte b) := by
  rcases shownByte_cases hb hreturn with h | h
  · rw [h]
    exact quiet_escape [b]
  · rw [h]
    intro c hc
    rw [List.mem_singleton.1 hc]
    exact ⟨hb.ne_code (by decide), hb.ne_bar, hb.ne_wave⟩

theorem Quiet.head? {u : Bytes} (h : Quiet u) : u.head? ≠ some 0x7E := by
  intro he
  exact (h _ (List.mem_of_mem_head? he)).2.2 rfl

theorem Quiet.bar_notMem {u : Bytes} (h : Quiet u) : 0x7C ∉ u :=
  fun hmem => (h _ hmem).2.1 rfl

theorem Token.Regular.head?_text {t : Token} (ht : t.Regular) {back rule feed : Bytes} (hback : back.head? ≠ some 0x7E)
    (hrule : rule.head? ≠ some 0x7E) (hfeed : feed.head? ≠ some 0x7E) :
    (t.text back rule feed).head? ≠ some 0x7E := by
  cases ht with
  | @literal b hb =>
    by_cases hreturn : b = 13
    · rw [Token.text, if_pos hreturn]
      exact hback
    · rw [Token.text, if_neg hreturn]
      exact (quiet_shownByte hb hreturn).head?
  | @lineBreak five x y hx hy hpair =>
    have hrest := Sequence.head?_append_ne (quiet_placeText x y).head? hfeed
    cases five with
    | false => exact Sequence.head?_append_ne hfeed hrest
    | true => exact Sequence.head?_append_ne hrule hrest
  | short hc => exact (quiet_escape _).head?
  | sized h => exact (quiet_escape _).head?
  | lone hc => exact (quiet_escape _).head?
  | wordList h => exact Sequence.head?_append_ne (quiet_escape _).head? hfeed

/-- A replacement goes through a token if it goes through its three texts. -/
theorem Token.Regular.rewrites {t : Token} (ht : t.Regular) {old new back rule feed back' rule' feed' : Bytes}
    (hquiet : ∀ u, Quiet u → Rewrites 0x7E old new u u) (hback : Rewrites 0x7E old new back back')
    (hrule : Rewrites 0x7E old new rule rule') (hfeed : Rewrites 0x7E old new feed feed')
    (hhead : feed.head? ≠ some 0x7E) :
    Rewrites 0x7E old new (t.text back rule feed) (t.text back' rule' feed') := by
  cases ht with
  | @literal b hb =>
    by_cases hreturn : b = 13
    · rw [Token.text, Token.text, if_pos hreturn, if_pos hreturn]
      exact hback
    · rw [Token.text, Token.text, if_neg hreturn, if_neg hreturn]
      exact hquiet _ (quiet_shownByte hb hreturn)
  | @lineBreak five x y hx hy hpair =>
    have hplace := quiet_placeText x y
    have hrest := (hquiet _ hplace).append hfeed hhead
    have hclear := Sequence.head?_append_ne hplace.head? hhead
    cases five with
    | false => exact hfeed.append hrest hclear
    | true => exact hrule.append hrest hclear
  | short hc => exact hquiet _ (quiet_escape _)
  | sized h => exact hquiet _ (quiet_escape _)
  | lone hc => exact hquiet _ (quiet_escape _)
  | wordList h => exact (hquiet _ (quiet_escape _)).append hfeed hhead

/-- A mark is no part of a search for another mark. -/
theorem rewrites_mark {c d : UInt8} (hne : d ≠ c) (hbar : d ≠ 0x7C) (new : Bytes) :
    Rewrites 0x7E (mark c) new (mark d) (mark d) := by
  have hinner : Rewrites 0x7E (mark c) new ([0x7E, d, 0x7E] ++ [0x7C]) ([0x7E, d, 0x7E] ++ [0x7C]) := by
    refine .append (.of_notMem ?_) (.cut 0x7C) (by decide)
    simp [Ne.symm hbar]
  refine .cons_of_miss (fun rest => ?_) hinner
  simp [mark, List.isPrefixOf, Ne.symm hne]

theorem Quiet.rewrites {u : Bytes} (h : Quiet u) {a : UInt8} (ha : a = 10 ∨ a = 0x7C) (old new : Bytes) :
    Rewrites 0x7E (a :: old) new u u := by
  refine .of_notMem fun hmem => ?_
  rcases ha with rfl | rfl
  · exact (h _ hmem).1 rfl
  · exact (h _ hmem).2.1 rfl

/-- One replacement in a whole text, with a segment behind it that stays. -/
theorem replaceAll_text {ts : List Token} (hts : ∀ t ∈ ts, t.Regular) {a : UInt8} (ha : a = 10 ∨ a = 0x7C)
    {old new back rule feed back' rule' feed' : Bytes} (hback : Rewrites 0x7E (a :: old) new back back')
    (hrule : Rewrites 0x7E (a :: old) new rule rule') (hfeed : Rewrites 0x7E (a :: old) new feed feed')
    (hheads : back.head? ≠ some 0x7E ∧ rule.head? ≠ some 0x7E ∧ feed.head? ≠ some 0x7E) {tail : Bytes}
    (htail : Quiet tail) :
    Sequence.replaceAll (a :: old) new (ts.flatMap (Token.text back rule feed) ++ tail) =
      ts.flatMap (Token.text back' rule' feed') ++ tail := by
  have hstep : ∀ t ∈ ts, Rewrites 0x7E (a :: old) new (t.text back rule feed) (t.text back' rule' feed') :=
    fun t ht => (hts t ht).rewrites (fun u hu => hu.rewrites ha old new) hback hrule hfeed hheads.2.2
  have hrun := Rewrites.flatMap hstep fun t ht => (hts t ht).head?_text hheads.1 hheads.2.1 hheads.2.2
  exact (hrun.append (htail.rewrites ha old new) htail.head?).replaceAll_eq (by simp)

theorem markLines_append {ts : List Token} (hts : ∀ t ∈ ts, t.Regular) {tail : Bytes} (htail : Quiet tail) :
    markLines (ts.flatMap Token.shown ++ tail) = ts.flatMap Token.marked ++ tail := by
  have hwave : Bytes.ofAscii "\n~~~\n" = ruleLine := by decide
  have hback : Bytes.ofAscii "|~r~|" = mark 0x72 := by decide
  have htab : Bytes.ofAscii "|~t~|" = mark 0x74 := by decide
  rw [markLines, hwave, hback, htab]
  simp only [Sequence.replaceMany, List.foldl_cons, List.foldl_nil, Token.shown, Token.marked]
  -- the rules, the other line feeds, the returns, and the tabs, of which there are none
  have hrules : Sequence.replaceAll ruleLine ruleMark (ts.flatMap (Token.text (mark 0x72) ruleLine [10]) ++ tail) =
      ts.flatMap (Token.text (mark 0x72) ruleMark [10]) ++ tail :=
    replaceAll_text hts (.inl rfl) (.of_notMem (by decide)) (.hit (by decide)) (.cut 10) (by decide) htail
  have hfeeds : Sequence.replaceAll [10] lineMark (ts.flatMap (Token.text (mark 0x72) ruleMark [10]) ++ tail) =
      ts.flatMap (Token.text (mark 0x72) ruleMark lineMark) ++ tail :=
    replaceAll_text hts (.inl rfl) (.of_notMem (by decide)) (.of_notMem (by decide)) (.hit (by decide)) (by decide)
      htail
  have hreturns : Sequence.replaceAll (mark 0x72) [13]
      (ts.flatMap (Token.text (mark 0x72) ruleMark lineMark) ++ tail) =
      ts.flatMap (Token.text [13] ruleMark lineMark) ++ tail := by
    rw [lineMark_eq, ruleMark_eq]
    exact replaceAll_text hts (.inr rfl) (.hit (by decide)) (rewrites_mark (by decide) (by decide) _)
      (rewrites_mark (by decide) (by decide) _) (by decide) htail
  have htabs : Sequence.replaceAll (mark 0x74) [9] (ts.flatMap (Token.text [13] ruleMark lineMark) ++ tail) =
      ts.flatMap (Token.text [13] ruleMark lineMark) ++ tail := by
    rw [lineMark_eq, ruleMark_eq]
    exact replaceAll_text hts (.inr rfl) (.of_notMem (by decide)) (rewrites_mark (by decide) (by decide) _)
      (rewrites_mark (by decide) (by decide) _) (by decide) htail
  rw [hrules, hfeeds, hreturns, htabs]

theorem markLines_flatMap {ts : List Token} (hts : ∀ t ∈ ts, t.Regular) :
    markLines (ts.flatMap Token.shown) = ts.flatMap Token.marked := by
  have h : markLines (ts.flatMap Token.shown ++ []) = ts.flatMap Token.marked ++ [] :=
    markLines_append hts (by simp [Quiet])
  rwa [List.append_nil, List.append_nil] at h

end AdventureKit.Markup
