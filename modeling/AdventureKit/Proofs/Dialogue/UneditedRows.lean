import AdventureKit.Dialogue.Rows
import AdventureKit.Proofs.Dialogue.TurnedBack
import AdventureKit.Proofs.Table

/-!
# Rows of unedited texts

Texts without lists of words come back from rows that nobody edited (`replaceLines_extract`).  A list of
words also leaves a line feed in the written form, so that a text with one does not pass the check of its
own extraction (`extract_verifies_iff`).
-/

namespace AdventureKit

/-! ## Results without remarks -/

theorem Logged.say_empty : Logged.say "" = pure () := by
  funext log
  show (Except.ok (), log ++ "") = (Except.ok (), log)
  rw [String.append_empty]

namespace Markup

theorem Token.Regular.remark_eq {t : Token} (ht : t.Regular) : t.remark = "" := by
  cases ht <;> rfl

theorem join_remarks {ts : List Token} (hts : ∀ t ∈ ts, t.Regular) : String.join (ts.map Token.remark) = "" := by
  induction ts with
  | nil => rfl
  | cons t ts ih =>
    obtain ⟨ht, hts⟩ := List.forall_mem_cons.1 hts
    rw [List.map_cons, String.join_cons, ht.remark_eq, ih hts, String.append_empty]

/-- Tokens that come back from their written form. -/
structure Faithful (ts : List Token) : Prop where
  regular : ∀ t ∈ ts, t.Regular
  noWordList : ∀ t ∈ ts, t.isWordList = false
  apart : ts.IsChain Token.Apart

theorem Faithful.toBody_render {ts : List Token} (h : Faithful ts) : toBody (render ts) = .ok (ts.flatMap Token.coded) :=
  Markup.toBody_render h.regular h.noWordList h.apart

/-- Tokens and the end mark. -/
def WellFormed (body : Bytes) : Prop :=
  ∃ ts, Faithful ts ∧ body = ts.flatMap Token.coded ++ [1, 0]

end Markup

open Markup (Token Faithful WellFormed render toBody)

/-! ## One line -/

namespace Line

/-- The written text of a line whose codes can be read. -/
def written (line : Line) : Option Bytes :=
  line.text?.bind fun body => (Markup.tokens body).toOption.map render

theorem body_of_text? {line : Line} {body : Bytes} (h : line.text? = some body) :
    line.body = line.body.take prologueSize ++ body := by
  have hdrop : line.body.drop prologueSize = body := by
    unfold text? at h
    split at h
    · cases h
    · rename_i b rest hdrop
      split at h
      · cases h
      · cases h
        exact hdrop
  rw [← hdrop, List.take_append_drop]

variable {line : Line} {ts : List Token}

theorem written_of_text? (hts : ∀ t ∈ ts, t.Regular) (htext : line.text? = some (ts.flatMap Token.coded ++ [1, 0])) :
    line.written = some (render ts) := by
  rw [written, htext, Option.bind_some, Markup.tokens_coded hts]
  rfl

theorem cell_of_text? (hts : ∀ t ∈ ts, t.Regular) (htext : line.text? = some (ts.flatMap Token.coded ++ [1, 0])) :
    line.cell true = do
      let back ← Logged.ofExcept (toBody (render ts))
      unless back.isPrefixOf (ts.flatMap Token.coded ++ [1, 0]) do throw (.disagreement .textBody)
      return some (render ts) := by
  rw [cell, htext]
  simp only [Markup.tokens_coded hts, Markup.join_remarks hts, Logged.say_empty, Logged.ofExcept, pure_bind, if_true]

theorem cell_of_faithful (h : Faithful ts) (htext : line.text? = some (ts.flatMap Token.coded ++ [1, 0])) :
    line.cell true = pure line.written := by
  rw [cell_of_text? h.regular htext, written_of_text? h.regular htext, h.toBody_render]
  simp [Logged.ofExcept]

theorem cell_eq_written (h : ∀ body, line.text? = some body → WellFormed body) : line.cell true = pure line.written := by
  cases htext : line.text? with
  | none =>
    rw [cell, written, htext]
    rfl
  | some body =>
    obtain ⟨ts, hts, rfl⟩ := h body htext
    exact cell_of_faithful hts htext

theorem isSome_written (h : ∀ body, line.text? = some body → WellFormed body) :
    line.written.isSome = line.text?.isSome := by
  cases htext : line.text? with
  | none => simp [written, htext]
  | some body =>
    obtain ⟨ts, hts, rfl⟩ := h body htext
    rw [written_of_text? hts.regular htext, Option.isSome_some, Option.isSome_some]

theorem replace_written (h : ∀ body, line.text? = some body → WellFormed body) :
    line.replace line.written = .ok line := by
  cases htext : line.text? with
  | none => simp [replace, htext]
  | some body =>
    obtain ⟨ts, hts, rfl⟩ := h body htext
    have hbody := body_of_text? htext
    rw [← List.append_assoc] at hbody
    simp only [written_of_text? hts.regular htext, replace, htext, hts.toBody_render]
    exact congrArg (fun body => Except.ok { line with body }) hbody.symm

end Line

/-! ## Rows -/

namespace Row

theorem le_foldl_max {n : Nat} {ns : List Nat} {m : Nat} (h : n ≤ m ∨ n ∈ ns) : n ≤ ns.foldl max m := by
  induction ns generalizing m with
  | nil =>
    rcases h with h | h
    · exact h
    · cases h
  | cons k ns ih =>
    refine ih ?_
    rw [List.mem_cons] at h
    rcases h with h | rfl | h
    · exact .inl (Nat.le_trans h (Nat.le_max_left m k))
    · exact .inl (Nat.le_max_right m n)
    · exact .inr h

variable {columns : List (String × List (Option Bytes))} {column : String × List (Option Bytes)}

theorem length_le_ofColumns (h : column ∈ columns) : column.2.length ≤ (ofColumns columns).length := by
  rw [ofColumns, List.length_map, List.length_range]
  exact le_foldl_max (.inr (List.mem_map_of_mem h))

/-- The row of a line has the cell of each language. -/
theorem cell_of_getElem? (hn : (columns.map Prod.fst).Nodup) (h : column ∈ columns) {i : Nat} {cell : Option Bytes}
    (hi : column.2[i]? = some cell) {row : Row} (hrow : (ofColumns columns)[i]? = some row) :
    row.cell column.1 = .ok cell := by
  have hcells : row = columns.filterMap fun c => c.2[i]?.map fun cell => (c.1, cell) := by
    rw [ofColumns, List.getElem?_map, Option.map_eq_some_iff] at hrow
    obtain ⟨j, hj, rfl⟩ := hrow
    obtain ⟨hlt, hj⟩ := List.getElem?_eq_some_iff.1 hj
    rw [List.getElem_range] at hj
    subst hj
    rfl
  have hmem : (column.1, cell) ∈ row := by
    rw [hcells, List.mem_filterMap]
    exact ⟨column, h, by rw [hi, Option.map_some]⟩
  have hkeys : (Table.keys row).Nodup := by
    rw [hcells, Table.keys, List.Nodup, List.pairwise_map]
    rw [List.Nodup, List.pairwise_map] at hn
    refine hn.filterMap _ fun a a' hne b hb b' hb' => ?_
    obtain ⟨-, -, rfl⟩ := Option.map_eq_some_iff.1 hb
    obtain ⟨-, -, rfl⟩ := Option.map_eq_some_iff.1 hb'
    exact hne
  rw [Row.cell, Table.get?_of_mem hkeys hmem]

/-! ## Texts that come back -/

/-- The column of a language. -/
def writtenColumn (source : String × List Line) : String × List (Option Bytes) :=
  (source.1, source.2.map Line.written)

variable {sources : List (String × List Line)}

theorem extract_eq (h : ∀ source ∈ sources, ∀ line ∈ source.2, ∀ body, line.text? = some body → WellFormed body) :
    extract true sources = pure (ofColumns (sources.map writtenColumn)) := by
  have hcolumns : (sources.mapM fun source => do
      return (source.1, ← source.2.mapM (Line.cell true)) : Logged (List (String × List (Option Bytes)))) =
      pure (sources.map writtenColumn) := by
    refine mapM_eq_pure fun source hsource => ?_
    rw [mapM_eq_pure fun line hline => Line.cell_eq_written (h source hsource line hline), pure_bind]
    rfl
  rw [extract, hcolumns, pure_bind]

theorem cell_writtenColumn (hnames : (sources.map Prod.fst).Nodup) {source : String × List Line} (h : source ∈ sources)
    {p : Line × Row} (hp : p ∈ source.2.zip (ofColumns (sources.map writtenColumn))) :
    p.2.cell source.1 = .ok p.1.written := by
  obtain ⟨i, hi⟩ := List.mem_iff_getElem?.1 hp
  obtain ⟨hline, hrow⟩ := List.getElem?_zip_eq_some.1 hi
  have hcolumn : writtenColumn source ∈ sources.map writtenColumn := List.mem_map_of_mem h
  refine cell_of_getElem? ?_ hcolumn ?_ hrow
  · rwa [List.map_map]
  · rw [writtenColumn, List.getElem?_map, hline, Option.map_some]

theorem replaceLines_writtenColumn (hnames : (sources.map Prod.fst).Nodup)
    (htexts : ∀ source ∈ sources, ∀ line ∈ source.2, ∀ body, line.text? = some body → WellFormed body)
    {source : String × List Line} (h : source ∈ sources) :
    replaceLines source.1 (ofColumns (sources.map writtenColumn)) source.2 = .ok source.2 := by
  have hreplace : ∀ p ∈ source.2.zip (ofColumns (sources.map writtenColumn)),
      (do p.1.replace (← p.2.cell source.1)) = (pure p.1 : Except Fault Line) := by
    intro p hp
    rw [cell_writtenColumn hnames h hp]
    exact Line.replace_written (htexts source h p.1 (List.of_mem_zip hp).1)
  have hlength : source.2.length ≤ (ofColumns (sources.map writtenColumn)).length := by
    have hcolumn := length_le_ofColumns (List.mem_map_of_mem h : writtenColumn source ∈ sources.map writtenColumn)
    rwa [writtenColumn, List.length_map] at hcolumn
  rw [replaceLines, mapM_eq_pure hreplace, List.map_fst_zip hlength]
  rfl

/-- **Unedited texts.**  If all texts are well formed, their extraction passes its own check without a
remark, each line that has a text gets one in its row, and the lines of every language come back from the
rows. -/
theorem replaceLines_extract (hnames : (sources.map Prod.fst).Nodup)
    (htexts : ∀ source ∈ sources, ∀ line ∈ source.2, ∀ body, line.text? = some body → WellFormed body)
    (log : String) :
    ∃ rows, (extract true sources).run.run log = (.ok rows, log) ∧
      ∀ source ∈ sources, replaceLines source.1 rows source.2 = .ok source.2 ∧
        ∀ p ∈ source.2.zip rows, ∃ cell, p.2.cell source.1 = .ok cell ∧ cell.isSome = p.1.text?.isSome := by
  have hrun : (extract true sources).run.run log = (.ok (ofColumns (sources.map writtenColumn)), log) := by
    rw [extract_eq htexts]
    rfl
  refine ⟨_, hrun, fun source hsource => ⟨replaceLines_writtenColumn hnames htexts hsource, fun p hp => ?_⟩⟩
  have hline := htexts source hsource p.1 (List.of_mem_zip hp).1
  exact ⟨p.1.written, cell_writtenColumn hnames hsource hp, Line.isSome_written hline⟩

/-- What stands before the text of a line. -/
def somePrologue : Bytes := List.replicate Line.prologueSize 0x55

/-- A letter, a break at 300@20, a command with two arguments and a return. -/
def brokenTokens : List Token :=
  [.literal 0x41, .lineBreak true 300 20, .command [6, 0x80, 0x5C, 0x78], .literal 13]

def englishLines : List Line :=
  [⟨0, 0, somePrologue ++ brokenTokens.flatMap Token.coded ++ [1, 0]⟩, ⟨0xFFFF, 0, []⟩]

theorem replaceLines_extract_english :
    ∃ rows, (extract true [("EN", englishLines), ("FR", [])]).run.run "" = (.ok rows, "") ∧
      ∀ source ∈ [("EN", englishLines), ("FR", [])], replaceLines source.1 rows source.2 = .ok source.2 ∧
        ∀ p ∈ source.2.zip rows, ∃ cell, p.2.cell source.1 = .ok cell ∧ cell.isSome = p.1.text?.isSome := by
  have hfaithful : Faithful brokenTokens := by
    refine ⟨?_, by decide, by simp [brokenTokens, Token.Apart]⟩
    simp only [brokenTokens, List.forall_mem_cons]
    exact ⟨.literal ⟨by decide, by decide, by decide, by decide⟩,
      .lineBreak (by decide) (by decide) (by decide), .sized rfl,
      .literal ⟨by decide, by decide, by decide, by decide⟩, List.forall_mem_nil _⟩
  refine replaceLines_extract (by decide) ?_ ""
  simp only [englishLines, List.forall_mem_cons]
  refine ⟨⟨fun body h => ?_, fun body h => ?_, List.forall_mem_nil _⟩, List.forall_mem_nil _, List.forall_mem_nil _⟩
  · cases h
    exact ⟨brokenTokens, hfaithful, rfl⟩
  · cases h

/-! ## Lists of words -/

theorem isChain_apart {ts : List Token} (h : ∀ t ∈ ts, t.isLineBreak = false) : ts.IsChain Token.Apart := by
  have hpairs : ts.Pairwise Token.Apart := by
    refine List.pairwise_iff_forall_sublist.2 fun {a b} hab => ?_
    have ha := h a (hab.subset List.mem_cons_self)
    cases a with
    | lineBreak five x y => cases ha
    | _ => trivial
  exact hpairs.isChain

theorem head?_coded {t : Token} (ht : t.Regular) (hbreak : t.isLineBreak = false) :
    ∃ c args, t.coded = c :: args ∧ c ≠ 2 := by
  cases ht with
  | literal hb => exact ⟨_, [], rfl, hb.ne_code (by decide)⟩
  | lineBreak hx hy hpair => cases hbreak
  | short hc =>
    refine ⟨_, _, rfl, ?_⟩
    rcases hc with rfl | rfl <;> decide
  | sized h => exact ⟨6, _, rfl, by decide⟩
  | lone hc =>
    refine ⟨_, _, rfl, ?_⟩
    rcases hc with rfl | rfl | rfl <;> decide
  | wordList h => exact ⟨10, _, rfl, by decide⟩

/-- No break stands at the beginning of tokens that are not breaks. -/
theorem not_break_prefix {ts : List Token} (hts : ∀ t ∈ ts, t.Regular) (hbreaks : ∀ t ∈ ts, t.isLineBreak = false)
    (rest : Bytes) : ¬ 2 :: rest <+: ts.flatMap Token.coded ++ [1, 0] := by
  intro h
  cases ts with
  | nil => exact absurd (List.cons_prefix_cons.1 h).1 (by decide)
  | cons t ts =>
    obtain ⟨c, args, hcoded, hc⟩ := head?_coded (hts t List.mem_cons_self) (hbreaks t List.mem_cons_self)
    rw [List.flatMap_cons, hcoded] at h
    exact hc (List.cons_prefix_cons.1 h).1.symm

theorem cell_of_wordList {line : Line} {ts : List Token} (hts : ∀ t ∈ ts, t.Regular)
    (hbreaks : ∀ t ∈ ts, t.isLineBreak = false) (hlist : ts.any Token.isWordList = true)
    (htext : line.text? = some (ts.flatMap Token.coded ++ [1, 0])) :
    line.cell true = throw .tooWide ∨ line.cell true = throw (.disagreement .textBody) := by
  -- the texts agree up to the first list, and then a break stands in only one of them
  obtain ⟨t, hfind⟩ := Option.isSome_iff_exists.1 (List.find?_isSome.2 (List.any_eq_true.1 hlist))
  obtain ⟨ht, front, back, rfl, hfront⟩ := List.find?_eq_some_iff_append.1 hfind
  clear hfind
  have hregular := hts t (List.mem_append_right _ List.mem_cons_self)
  cases hregular with
  | @wordList a args hargs =>
    have hlists : ∀ t ∈ front, t.isWordList = false := by simpa using hfront
    have hapart := isChain_apart fun t ht => hbreaks t (List.mem_append_left _ ht)
    rw [Line.cell_of_text? hts htext]
    rcases Markup.toBody_render_wordList hts hlists hapart with h | ⟨rest, h⟩
    · rw [h]
      exact .inl rfl
    · have hmiss : (front.flatMap Token.coded ++ (10 :: a :: args ++ 2 :: rest)).isPrefixOf
          ((front ++ .wordList (10 :: a :: args) :: back).flatMap Token.coded ++ [1, 0]) = false := by
        rw [Bool.eq_false_iff, ne_eq, List.isPrefixOf_iff_prefix, List.flatMap_append, List.flatMap_cons,
          List.append_assoc, List.append_assoc, List.prefix_append_right_inj, Token.coded,
          List.prefix_append_right_inj]
        refine not_break_prefix (fun t ht => hts t ?_) (fun t ht => hbreaks t ?_) rest
        · exact List.mem_append_right _ (List.mem_cons_of_mem _ ht)
        · exact List.mem_append_right _ (List.mem_cons_of_mem _ ht)
      rw [h]
      right
      simp only [Logged.ofExcept, pure_bind, hmiss]
      rfl
  | _ => cases ht

theorem extract_singleton (language : String) (line : Line) :
    extract true [(language, [line])] = do return [[(language, ← line.cell true)]] := by
  simp [extract, ofColumns]

/-- **Texts with lists of words.**  A text without breaks passes the check of its extraction, and gives its
bytes back, just if it has no list of words. -/
theorem extract_verifies_iff {line : Line} {ts : List Token} (hts : ∀ t ∈ ts, t.Regular)
    (hbreaks : ∀ t ∈ ts, t.isLineBreak = false) (htext : line.text? = some (ts.flatMap Token.coded ++ [1, 0]))
    (language log : String) :
    ((∃ written, (extract true [(language, [line])]).run.run log = (.ok [[(language, some written)]], log) ∧
        toBody written = .ok (ts.flatMap Token.coded)) ↔ ts.any Token.isWordList = false) ∧
      (ts.any Token.isWordList = true → ∃ e, (extract true [(language, [line])]).run.run log = (.error e, log) ∧
        (e = .disagreement .textBody ∨ e = .tooWide)) := by
  have hfault : ts.any Token.isWordList = true → ∃ e, (extract true [(language, [line])]).run.run log = (.error e, log) ∧
      (e = .disagreement .textBody ∨ e = .tooWide) := by
    intro hlist
    rw [extract_singleton]
    rcases cell_of_wordList hts hbreaks hlist htext with h | h
    · rw [h]
      exact ⟨_, rfl, .inr rfl⟩
    · rw [h]
      exact ⟨_, rfl, .inl rfl⟩
  refine ⟨⟨?_, fun hlist => ?_⟩, hfault⟩
  · rintro ⟨written, hrun, -⟩
    rw [Bool.eq_false_iff]
    intro hlist
    obtain ⟨e, he, -⟩ := hfault hlist
    rw [hrun] at he
    cases he
  · have hlists : ∀ t ∈ ts, t.isWordList = false := by simpa using hlist
    have hfaithful : Faithful ts := ⟨hts, hlists, isChain_apart hbreaks⟩
    refine ⟨render ts, ?_, hfaithful.toBody_render⟩
    rw [extract_singleton, Line.cell_of_faithful hfaithful htext, Line.written_of_text? hts htext]
    rfl

/-- A letter and an empty list of words. -/
def listedTokens : List Token :=
  [.literal 0x41, .wordList [10, 0]]

def listedLine : Line :=
  ⟨0, 0, somePrologue ++ listedTokens.flatMap Token.coded ++ [1, 0]⟩

theorem regular_listedTokens : ∀ t ∈ listedTokens, t.Regular := by
  simp only [listedTokens, List.forall_mem_cons]
  exact ⟨.literal ⟨by decide, by decide, by decide, by decide⟩, .wordList rfl, List.forall_mem_nil _⟩

theorem text?_listedLine : listedLine.text? = some (listedTokens.flatMap Token.coded ++ [1, 0]) := by
  decide

theorem extract_verifies_iff_listed :
    ((∃ written, (extract true [("EN", [listedLine])]).run.run "" = (.ok [[("EN", some written)]], "") ∧
        toBody written = .ok (listedTokens.flatMap Token.coded)) ↔ listedTokens.any Token.isWordList = false) ∧
      (listedTokens.any Token.isWordList = true →
        ∃ e, (extract true [("EN", [listedLine])]).run.run "" = (.error e, "") ∧
          (e = .disagreement .textBody ∨ e = .tooWide)) :=
  extract_verifies_iff regular_listedTokens (by decide) text?_listedLine "EN" ""

/-- The check rejects a text whose only code is a list of words. -/
theorem extract_rejects_listed :
    (extract true [("EN", [listedLine])]).run.run "" = (.error (.disagreement .textBody), "") := by
  have hnext : Markup.nextBreak? (Markup.markLines (render listedTokens)) =
      some ⟨[0x41] ++ Markup.escape [10, 0], 2, []⟩ := by
    decide
  have hresumed : Markup.resumed 0 0 [] = ((0, 10), []) := by
    decide
  have hback : toBody (render listedTokens) = .ok [0x41, 10, 0, 2, 0, 0, 10, 0] := by
    rw [Markup.toBody_eq, Markup.turned_of_some hnext hresumed, Markup.turned_of_none (by decide)]
    rfl
  rw [extract_singleton, Line.cell_of_text? regular_listedTokens text?_listedLine, hback]
  rfl

end Row

end AdventureKit
