import AdventureKit.Game.Texts
import AdventureKit.Proofs.Dialogue.SheetRows

/-!
# Sheets of a game

The sheet of any files, with the columns that the games have, is read as the rows that were written (`sheet_lossless`).
-/

namespace AdventureKit.Game

/-- A row that a sheet can hold: it has lines of the languages of a sheet only, and each line reads as a text that a cell
can hold.  Of an encoding that is no code page and not UTF-8 it is asked that it writes the text as the line was. -/
structure SheetRow (encodings : Encodings) (row : Row) : Prop where
  languages : ∀ language ∈ row.keys, language ∈ sheetLanguages
  lines : ∀ language line, row.get? language = some (some line) → ∃ encoding t,
    encodings.of language = .ok encoding ∧ encoding.decode line = .ok t ∧
      (encoding ∉ Encoding.codecs → encoding.encode t = .ok line) ∧ Sheet.Enterable t

section

variable {encodings : Encodings} {row : Row}

theorem SheetRow.showable (h : SheetRow encodings row) : Sheet.Showable encodings sheetLanguages row := by
  intro language _
  have hshown : ∃ t, Sheet.Shown encodings language (row.get? language).join t := by
    rcases hline : (row.get? language).join with _ | line
    · exact ⟨_, Sheet.shown_none encodings language⟩
    · obtain ⟨encoding, t, hof, hread, hinverts, ht⟩ := h.lines language line (Option.join_eq_some_iff.1 hline)
      have hwrite : encoding.encode t = .ok line := by
        by_cases hcodec : encoding ∈ Encoding.codecs
        · exact Encoding.encode_of_decode hcodec hread
        · exact hinverts hcodec
      exact ⟨t, Sheet.shown_some hof hread hwrite ht⟩
  obtain ⟨t, ht⟩ := hshown
  exact Sheet.shown_shownText ht

/-- A completed row has the lines of the row. -/
theorem SheetRow.join_get?_completedFor (h : SheetRow encodings row) (language : String) :
    ((Sheet.completedFor sheetLanguages row).get? language).join = (row.get? language).join := by
  by_cases hlanguage : language ∈ sheetLanguages
  · rw [Sheet.get?_completedFor hlanguage]
    rfl
  · have hrow : row.get? language = none := Table.get?_eq_none_iff.2 fun hkey => hlanguage (h.languages language hkey)
    have hcompleted : (Sheet.completedFor sheetLanguages row).get? language = none := by
      rw [Table.get?_eq_none_iff]
      intro hkey
      obtain ⟨item, hitem, rfl⟩ := List.mem_map.1 hkey
      obtain ⟨other, hother, rfl⟩ := List.mem_map.1 hitem
      exact hlanguage hother
    rw [hrow, hcompleted]

end

theorem plain_sheetLanguages : ∀ language ∈ sheetLanguages, Sheet.Plain (Text.ofString language) := by
  have hall : ∀ language ∈ sheetLanguages, Sheet.tab ∉ Text.ofString language ∧ Sheet.feed ∉ Text.ofString language ∧
      13 ∉ Text.ofString language ∧ (Text.ofString language).head? ≠ some Sheet.quote ∧
        (Text.ofString language).length ≤ Sheet.longestCell := by decide
  intro language hlanguage
  obtain ⟨htab, hfeed, hreturn, hquote, hlength⟩ := hall language hlanguage
  exact ⟨htab, hfeed, hreturn, hquote, hlength⟩

/-- The rows of files, one after the other. -/
def rowsOfFiles (files : List (String × List Row)) : List (String × Row) :=
  files.flatMap fun f => f.2.map fun row => (f.1, row)

theorem forall_mem_rowsOfFiles {files : List (String × List Row)} {P : String × Row → Prop}
    (h : ∀ f ∈ files, ∀ row ∈ f.2, P (f.1, row)) : ∀ p ∈ rowsOfFiles files, P p := by
  intro p hp
  obtain ⟨f, hf, hp⟩ := List.mem_flatMap.1 hp
  obtain ⟨row, hrow, rfl⟩ := List.mem_map.1 hp
  exact h f hf row hrow

/-- The text of the sheet of files. -/
def sheetText (encodings : Encodings) (files : List (String × List Row)) : Text :=
  Sheet.headingLine sheetLanguages ++
    (rowsOfFiles files).flatMap fun p => Sheet.rowLine encodings sheetLanguages p.1 p.2

theorem sheetText_eq (encodings : Encodings) (files : List (String × List Row)) :
    sheetText encodings files = Sheet.headingLine sheetLanguages ++
      files.flatMap fun f => f.2.flatMap (Sheet.rowLine encodings sheetLanguages f.1) := by
  rw [sheetText, rowsOfFiles, List.flatMap_assoc]
  simp only [List.flatMap_map]

/-- **Sheets are lossless.**  The lines of any files with plain names, whose rows a sheet can hold, are written without a
fault.  Behind the heading they are read as the same rows of the same files in the same order, where a row has an empty
cell for each language that it has no line of. -/
theorem sheet_lossless (encodings : Encodings) {files : List (String × List Row)}
    (hnames : ∀ f ∈ files, Sheet.Plain (Text.ofString f.1))
    (hrows : ∀ f ∈ files, ∀ row ∈ f.2, SheetRow encodings row) :
    (∀ f ∈ files, (Sheet.writeRows encodings sheetLanguages f.1 f.2).2 = .ok ()) ∧
    (∃ text, Utf8.decode (Sheet.heading sheetLanguages ++
        files.flatMap fun f => (Sheet.writeRows encodings sheetLanguages f.1 f.2).1) = .ok text ∧
      Sheet.rows encodings text =
        files.flatMap fun f => f.2.map fun row => .ok (f.1, Sheet.completedFor sheetLanguages row)) ∧
    ∀ f ∈ files, ∀ row ∈ f.2, ∀ language,
      ((Sheet.completedFor sheetLanguages row).get? language).join = (row.get? language).join := by
  have hwrite : ∀ f ∈ files, Sheet.writeRows encodings sheetLanguages f.1 f.2 =
      ((f.2.flatMap (Sheet.rowLine encodings sheetLanguages f.1)).flatMap Utf8.characterBytes, .ok ()) :=
    fun f hf => Sheet.writeRows_eq fun row hrow => (hrows f hf row hrow).showable
  have hshowable : ∀ p ∈ rowsOfFiles files, Sheet.Showable encodings sheetLanguages p.2 :=
    forall_mem_rowsOfFiles fun f hf row hrow => (hrows f hf row hrow).showable
  refine ⟨fun f hf => by rw [hwrite f hf], ⟨sheetText encodings files, ?_, ?_⟩,
    fun f hf row hrow => (hrows f hf row hrow).join_get?_completedFor⟩
  · have hbytes : Sheet.heading sheetLanguages ++
        files.flatMap (fun f => (Sheet.writeRows encodings sheetLanguages f.1 f.2).1) =
          (sheetText encodings files).flatMap Utf8.characterBytes := by
      rw [sheetText_eq, List.flatMap_append, ← Sheet.heading_eq, List.flatMap_assoc]
      exact congrArg _ (List.flatMap_congr fun f hf => congrArg Prod.fst (hwrite f hf))
    rw [hbytes]
    refine Utf8.decode_characters (List.forall_mem_append.2 ⟨?_, fun c hc => ?_⟩)
    · exact Sheet.isValidChar_headingLine sheetLanguages
    · obtain ⟨p, hp, hc⟩ := List.mem_flatMap.1 hc
      exact Sheet.isValidChar_rowLine (hshowable p hp) c hc
  · have hread := Sheet.rows_lines (by decide) (by decide) plain_sheetLanguages
      (forall_mem_rowsOfFiles fun f hf _ _ => hnames f hf) hshowable
    rw [sheetText, hread, rowsOfFiles, List.map_flatMap]
    simp only [List.map_map]
    rfl

/-- A row with quotes, a tab and a line feed in a text, with Hebrew and Korean, and without an English text. -/
def mixedRow : Row :=
  [("INT", some [0x22, 0x09, 0x0A, 0x82, 0x22]), ("ISR", some [0xE0, 0x22, 0xE1]), ("KOR", some [0xEA, 0xB0, 0x80]),
    ("ANG", none)]

theorem sheetRow_mixedRow : SheetRow (.standard false) mixedRow where
  languages := by decide
  lines := by
    intro language line hline
    have hmem : (language, some line) ∈ mixedRow := Table.mem_of_get? hline
    simp only [mixedRow, List.mem_cons, Prod.mk.injEq, Option.some.injEq, reduceCtorEq, and_false, List.not_mem_nil,
      or_false] at hmem
    rcases hmem with ⟨rfl, rfl⟩ | ⟨rfl, rfl⟩ | ⟨rfl, rfl⟩
    · exact ⟨.page .dosWestern, [0x22, 0x09, 0x0A, 0xE9, 0x22], rfl, rfl, fun h => absurd (by decide) h,
        by decide, by decide, by decide, by decide, by decide⟩
    · exact ⟨.page .windowsHebrew, [0x5D0, 0x22, 0x5D1], rfl, rfl, fun h => absurd (by decide) h,
        by decide, by decide, by decide, by decide, by decide⟩
    · exact ⟨.escapedUtf8, [0xAC00], rfl, rfl, fun h => absurd (by decide) h,
        by decide, by decide, by decide, by decide, by decide⟩

theorem sheet_lossless_mixedRow :
    ∃ text, Utf8.decode (Sheet.heading sheetLanguages ++
        ((Sheet.writeRows (.standard false) sheetLanguages "A.TOT" [mixedRow, []]).1 ++
          (Sheet.writeRows (.standard false) sheetLanguages "B.TOT" [mixedRow]).1)) = .ok text ∧
      Sheet.rows (.standard false) text =
        [.ok ("A.TOT", Sheet.completedFor sheetLanguages mixedRow), .ok ("A.TOT", sheetLanguages.map (·, none)),
          .ok ("B.TOT", Sheet.completedFor sheetLanguages mixedRow)] := by
  have hempty : SheetRow (.standard false) [] := ⟨fun _ hkey => (nomatch hkey), fun _ _ hline => (nomatch hline)⟩
  have hnames : ∀ f ∈ [("A.TOT", [mixedRow, []]), ("B.TOT", [mixedRow])], Sheet.Plain (Text.ofString f.1) :=
    List.forall_mem_cons.2 ⟨⟨by decide, by decide, by decide, by decide, by decide⟩,
      List.forall_mem_cons.2 ⟨⟨by decide, by decide, by decide, by decide, by decide⟩, nofun⟩⟩
  have hrows : ∀ f ∈ [("A.TOT", [mixedRow, []]), ("B.TOT", [mixedRow])], ∀ row ∈ f.2,
      SheetRow (.standard false) row := by
    refine List.forall_mem_cons.2 ⟨?_, List.forall_mem_cons.2 ⟨?_, nofun⟩⟩
    · exact List.forall_mem_cons.2 ⟨sheetRow_mixedRow, List.forall_mem_cons.2 ⟨hempty, nofun⟩⟩
    · exact List.forall_mem_cons.2 ⟨sheetRow_mixedRow, nofun⟩
  obtain ⟨-, ⟨text, hdecode, hread⟩, -⟩ := sheet_lossless (.standard false) hnames hrows
  exact ⟨text, hdecode, hread⟩

end AdventureKit.Game
