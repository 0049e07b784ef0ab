import AdventureKit.Proofs.Dialogue.SheetLines
import AdventureKit.Proofs.Table
import AdventureKit.Proofs.Text.Codecs

/-!
# Rows of sheets

A row whose lines can be shown in a sheet is written as one line of it, and that line is read as the same row with an
empty cell for each language that it lacks (`rows_lines`).
-/

namespace AdventureKit.Sheet

/-! ## Lines of a language -/

/-- A text that a cell can hold. -/
structure Enterable (t : Text) : Prop where
  present : t ≠ Text.ofString Encodings.absent
  noReturn : 13 ∉ t
  noPair : Sequence.occursIn [quote, quote] t = false
  length : t.length ≤ longestCell
  valid : ∀ c ∈ t, c.isValidChar

/-- A language's line, or that there is none, is shown as a text and can be told from it. -/
structure Shown (encodings : Encodings) (language : String) (line : Option Bytes) (t : Text) : Prop where
  read : encodings.read language line = .ok t
  write : encodings.write language (some t) = .ok line
  noReturn : 13 ∉ t
  noPair : Sequence.occursIn [quote, quote] t = false
  length : t.length ≤ longestCell
  valid : ∀ c ∈ t, c.isValidChar

theorem shown_none (encodings : Encodings) (language : String) :
    Shown encodings language none (Text.ofString Encodings.absent) where
  read := rfl
  write := rfl
  noReturn := by decide
  noPair := by decide
  length := by decide
  valid := by decide

theorem shown_some {encodings : Encodings} {language : String} {encoding : Encoding} {line : Bytes} {t : Text}
    (hof : encodings.of language = .ok encoding) (hread : encoding.decode line = .ok t)
    (hwrite : encoding.encode t = .ok line) (ht : Enterable t) : Shown encodings language (some line) t where
  read := bind_eq_ok.2 ⟨encoding, hof, hread⟩
  write := by
    unfold Encodings.write
    dsimp only
    rw [if_neg fun h => ht.present (beq_iff_eq.1 h)]
    exact bind_eq_ok.2 ⟨encoding, hof, bind_eq_ok.2 ⟨line, hwrite, rfl⟩⟩
  noReturn := ht.noReturn
  noPair := ht.noPair
  length := ht.length
  valid := ht.valid

/-- The text that is shown for a row's line. -/
def shownText (encodings : Encodings) (row : Row) (language : String) : Text :=
  ((encodings.read language (row.get? language).join).toOption).getD []

/-- Every line of a row can be shown. -/
def Showable (encodings : Encodings) (languages : List String) (row : Row) : Prop :=
  ∀ language ∈ languages, Shown encodings language (row.get? language).join (shownText encodings row language)

theorem shown_shownText {encodings : Encodings} {row : Row} {language : String} {t : Text}
    (h : Shown encodings language (row.get? language).join t) :
    Shown encodings language (row.get? language).join (shownText encodings row language) := by
  have ht : shownText encodings row language = t := by
    rw [shownText, h.read]
    rfl
  rwa [ht]

/-! ## Writing -/

/-- The text of a row's line. -/
def rowLine (encodings : Encodings) (languages : List String) (file : String) (row : Row) : Text :=
  lineText (Text.ofString file :: languages.map fun language => quotedCell (shownText encodings row language))

/-- The text of the line that names the columns. -/
def headingLine (languages : List String) : Text :=
  lineText ((fileColumn :: languages).map Text.ofString)

theorem writePieces_eq {pieces : List Text} (h : ∀ c ∈ pieces.flatten, c.isValidChar) :
    writePieces pieces = (pieces.flatten.flatMap Utf8.characterBytes, .ok ()) := by
  induction pieces with
  | nil => rfl
  | cons piece pieces ih =>
    rw [List.flatten_cons, List.forall_mem_append] at h
    rw [writePieces, Utf8.encode_characters h.1, ih h.2, List.flatten_cons, List.flatMap_append]

theorem forall_mem_lineText {P : Nat → Prop} (htab : P tab) (hfeed : P feed) {raws : List Text}
    (h : ∀ raw ∈ raws, ∀ c ∈ raw, P c) : ∀ c ∈ lineText raws, P c := by
  have hlast : ∀ c ∈ ([feed] : Text), P c := by
    intro c hc
    rwa [List.mem_singleton.1 hc]
  cases raws with
  | nil => exact hlast
  | cons raw raws =>
    obtain ⟨hraw, hraws⟩ := List.forall_mem_cons.1 h
    rw [lineText_cons, List.forall_mem_append, List.forall_mem_append]
    refine ⟨hraw, fun c hc => ?_, hlast⟩
    obtain ⟨raw, hmem, hc⟩ := List.mem_flatMap.1 hc
    rcases List.mem_cons.1 hc with rfl | hc
    · exact htab
    · exact hraws raw hmem c hc

theorem forall_mem_quotedCell {P : Nat → Prop} (hquote : P quote) {t : Text} (h : ∀ c ∈ t, P c) :
    ∀ c ∈ quotedCell t, P c := by
  intro c hc
  unfold quotedCell at hc
  simp only [List.cons_append, List.mem_cons, List.mem_append, List.mem_flatMap, List.not_mem_nil, or_false] at hc
  rcases hc with rfl | ⟨c', hc', hc⟩ | rfl
  · exact hquote
  · split at hc
    · simp only [List.mem_cons, List.not_mem_nil, or_false, or_self] at hc
      rwa [hc]
    · rw [List.mem_singleton.1 hc]
      exact h c' hc'
  · exact hquote

theorem isValidChar_ofString (s : String) : ∀ c ∈ Text.ofString s, c.isValidChar := by
  intro c hc
  obtain ⟨char, -, rfl⟩ := List.mem_map.1 hc
  exact char.valid

section Writing

variable {encodings : Encodings} {languages : List String} {file : String} {row : Row}

theorem forall_mem_rowLine {P : Nat → Prop} (htab : P tab) (hfeed : P feed) (hquote : P quote)
    (hfile : ∀ c ∈ Text.ofString file, P c)
    (h : ∀ language ∈ languages, ∀ c ∈ shownText encodings row language, P c) :
    ∀ c ∈ rowLine encodings languages file row, P c := by
  refine forall_mem_lineText htab hfeed (List.forall_mem_cons.2 ⟨hfile, fun raw hraw => ?_⟩)
  obtain ⟨language, hlanguage, rfl⟩ := List.mem_map.1 hraw
  exact forall_mem_quotedCell hquote (h language hlanguage)

theorem isValidChar_rowLine (h : Showable encodings languages row) :
    ∀ c ∈ rowLine encodings languages file row, c.isValidChar :=
  forall_mem_rowLine (by decide) (by decide) (by decide) (isValidChar_ofString file) fun language hlanguage =>
    (h language hlanguage).valid

theorem rowCells_eq (h : Showable encodings languages row) :
    rowCells encodings languages file row =
      .ok (Text.ofString file :: languages.map fun language => quotedCell (shownText encodings row language)) := by
  have hcells : ∀ language ∈ languages, (do cellOf (← encodings.read language (row.get? language).join)) =
      pure (quotedCell (shownText encodings row language)) := by
    intro language hlanguage
    rw [(h language hlanguage).read]
    exact cellOf_eq (h language hlanguage).noPair
  exact bind_eq_ok.2 ⟨_, mapM_eq_pure hcells, rfl⟩

/-- **Rows are written as their lines.** -/
theorem writeRows_eq {rows : List Row} (h : ∀ row ∈ rows, Showable encodings languages row) :
    writeRows encodings languages file rows =
      ((rows.flatMap (rowLine encodings languages file)).flatMap Utf8.characterBytes, .ok ()) := by
  induction rows with
  | nil => rfl
  | cons row rows ih =>
    obtain ⟨hrow, hrows⟩ := List.forall_mem_cons.1 h
    unfold writeRows
    rw [rowCells_eq hrow]
    dsimp only
    rw [writePieces_eq (isValidChar_rowLine hrow), ih hrows, List.flatMap_cons, List.flatMap_append]
    rfl

theorem isValidChar_headingLine (languages : List String) : ∀ c ∈ headingLine languages, c.isValidChar := by
  refine forall_mem_lineText (by decide) (by decide) fun raw hraw => ?_
  obtain ⟨name, -, rfl⟩ := List.mem_map.1 hraw
  exact isValidChar_ofString name

theorem heading_eq (languages : List String) :
    heading languages = (headingLine languages).flatMap Utf8.characterBytes := by
  unfold heading
  rw [writePieces_eq (isValidChar_headingLine languages)]
  rfl

end Writing

/-! ## Reading -/

theorem unifyFeeds_eq_self {t : Text} (h : 13 ∉ t) : unifyFeeds t = t := by
  induction t with
  | nil => rfl
  | cons c t ih =>
    rw [List.mem_cons, not_or] at h
    obtain ⟨hc, ht⟩ := h
    unfold unifyFeeds
    split
    · rename_i heq
      cases heq
    · rename_i heq
      cases heq
      exact absurd rfl hc
    · rename_i heq
      cases heq
      exact absurd rfl hc
    · rename_i heq
      cases heq
      rw [ih ht]

theorem ofList_map_ofString (s : String) : String.ofList ((Text.ofString s).map Char.ofNat) = s := by
  have hchars : (s.toList.map Char.toNat).map Char.ofNat = s.toList := by
    rw [List.map_map]
    exact (List.map_congr_left fun c _ => Char.ofNat_toNat c).trans (List.map_id _)
  rw [Text.ofString, hchars, String.ofList_toList]

section Reading

variable {encodings : Encodings} {languages : List String}

theorem recordsFrom_rowLine {file : String} {row : Row} (hfile : Plain (Text.ofString file))
    (hrow : Showable encodings languages row) (hsome : languages ≠ []) (rest : Text) :
    recordsFrom .lineStart [] 0 [] (rowLine encodings languages file row ++ rest) =
      .ok (Text.ofString file :: languages.map (shownText encodings row)) ::
        recordsFrom .lineStart [] 0 [] rest := by
  refine recordsFrom_line (reads_plain hfile) hfile.noFeed ?_ (.inr ?_) rest
  · rw [List.forall₂_map_left_iff, List.forall₂_map_right_iff, List.forall₂_same]
    exact fun language hlanguage => ⟨_, reads_quoted (hrow language hlanguage).length⟩
  · rwa [ne_eq, List.map_eq_nil_iff]

theorem recordsFrom_headingLine (hplain : ∀ language ∈ languages, Plain (Text.ofString language)) (rest : Text) :
    recordsFrom .lineStart [] 0 [] (headingLine languages ++ rest) =
      .ok ((fileColumn :: languages).map Text.ofString) :: recordsFrom .lineStart [] 0 [] rest := by
  have hfile : Plain (Text.ofString fileColumn) := ⟨by decide, by decide, by decide, by decide, by decide⟩
  refine recordsFrom_line (reads_plain hfile) hfile.noFeed ?_ (.inl (by decide)) rest
  rw [List.forall₂_map_left_iff, List.forall₂_map_right_iff, List.forall₂_same]
  exact fun language hlanguage => reads_plain (hplain language hlanguage)

/-- The lines of a sheet are read one after the other. -/
theorem recordsFrom_rowLines {items : List (String × Row)} (hfiles : ∀ p ∈ items, Plain (Text.ofString p.1))
    (hrows : ∀ p ∈ items, Showable encodings languages p.2) (hsome : languages ≠ []) :
    recordsFrom .lineStart [] 0 [] (items.flatMap fun p => rowLine encodings languages p.1 p.2) =
      items.map fun p => .ok (Text.ofString p.1 :: languages.map (shownText encodings p.2)) := by
  induction items with
  | nil => rfl
  | cons p items ih =>
    obtain ⟨hfile, hfiles⟩ := List.forall_mem_cons.1 hfiles
    obtain ⟨hrow, hrows⟩ := List.forall_mem_cons.1 hrows
    rw [List.flatMap_cons, recordsFrom_rowLine hfile hrow hsome, ih hfiles hrows, List.map_cons]

theorem ofCells_eq (hnodup : (fileColumn :: languages).Nodup) (file : Text) (text : String → Text) :
    Record.ofCells (fileColumn :: languages) (file :: languages.map text) =
      ⟨(fileColumn, some file) :: languages.map fun language => (language, some (text language)), false⟩ := by
  have hitems : ((fileColumn :: languages).mapIdx fun i column => (column, (file :: languages.map text)[i]?)) =
      (fileColumn, some file) :: languages.map fun language => (language, some (text language)) := by
    refine List.ext_getElem (by simp) fun i hi hi' => ?_
    cases i with
    | zero => simp
    | succ i =>
      have hlt : i < languages.length := by simpa using hi'
      simp [hlt]
  unfold Record.ofCells
  rw [hitems, Table.ofItems_eq_self]
  · simp
  · rwa [List.map_cons, List.map_map, show (Prod.fst ∘ fun language => (language, some (text language))) = id from rfl,
      List.map_id]

/-- A row with a cell for each language. -/
def completedFor (languages : List String) (row : Row) : Row :=
  languages.map fun language => (language, (row.get? language).join)

theorem get?_completedFor {row : Row} {language : String} (h : language ∈ languages) :
    (completedFor languages row).get? language = some (row.get? language).join := by
  unfold completedFor
  induction languages with
  | nil => cases h
  | cons first languages ih =>
    rw [List.map_cons, Table.get?, List.lookup_cons]
    by_cases hfirst : language = first
    · simp [hfirst]
    · rw [beq_eq_false_iff_ne.2 hfirst]
      exact ih ((List.mem_cons.1 h).resolve_left hfirst)

theorem toRow_ofCells {file : String} {row : Row} (hnodup : (fileColumn :: languages).Nodup)
    (hrow : Showable encodings languages row) :
    (Record.ofCells (fileColumn :: languages) (Text.ofString file :: languages.map (shownText encodings row))).toRow
      encodings = .ok (file, completedFor languages row) := by
  have hcell : Table.get? ((fileColumn, some (Text.ofString file)) ::
      languages.map fun language => (language, some (shownText encodings row language))) fileColumn =
        some (some (Text.ofString file)) := List.lookup_cons_self
  have herase : Table.erase ((fileColumn, some (Text.ofString file)) ::
      languages.map fun language => (language, some (shownText encodings row language))) fileColumn =
        languages.map fun language => (language, some (shownText encodings row language)) := by
    rw [Table.erase, List.filter_cons_of_neg (by simp), List.filter_eq_self]
    intro item hitem
    obtain ⟨language, hlanguage, rfl⟩ := List.mem_map.1 hitem
    have hne : language ≠ fileColumn := fun he => (List.nodup_cons.1 hnodup).1 (he ▸ hlanguage)
    simp [hne]
  rw [ofCells_eq hnodup]
  unfold Record.toRow
  dsimp only
  rw [hcell, herase]
  dsimp only
  refine bind_eq_ok.2 ⟨completedFor languages row, ?_, ?_⟩
  · rw [List.mapM_map]
    refine mapM_eq_pure fun language hlanguage => ?_
    show (encodings.write language (some (shownText encodings row language)) >>= fun line => pure (language, line)) = _
    rw [(hrow language hlanguage).write]
    rfl
  · rw [ofList_map_ofString]
    rfl

theorem ne_return_headingLine (hplain : ∀ language ∈ languages, Plain (Text.ofString language)) :
    ∀ c ∈ headingLine languages, c ≠ 13 := by
  refine forall_mem_lineText (by decide) (by decide) fun raw hraw c hc => ?_
  rintro rfl
  obtain ⟨name, hname, rfl⟩ := List.mem_map.1 hraw
  rcases List.mem_cons.1 hname with rfl | hname
  · exact absurd hc (by decide)
  · exact (hplain name hname).noReturn hc

theorem ne_return_rowLine {file : String} {row : Row} (hfile : Plain (Text.ofString file))
    (hrow : Showable encodings languages row) : ∀ c ∈ rowLine encodings languages file row, c ≠ 13 := by
  refine forall_mem_rowLine (by decide) (by decide) (by decide) (fun c hc => ?_) fun language hlanguage c hc => ?_
  · rintro rfl
    exact hfile.noReturn hc
  · rintro rfl
    exact (hrow language hlanguage).noReturn hc

/-- **The lines of a sheet are read as their rows.** -/
theorem rows_lines {items : List (String × Row)} (hnodup : (fileColumn :: languages).Nodup) (hsome : languages ≠ [])
    (hplain : ∀ language ∈ languages, Plain (Text.ofString language))
    (hfiles : ∀ p ∈ items, Plain (Text.ofString p.1)) (hrows : ∀ p ∈ items, Showable encodings languages p.2) :
    rows encodings (headingLine languages ++ items.flatMap fun p => rowLine encodings languages p.1 p.2) =
      items.map fun p => .ok (p.1, completedFor languages p.2) := by
  have hreturn : 13 ∉ headingLine languages ++ items.flatMap fun p => rowLine encodings languages p.1 p.2 := by
    intro hmem
    rcases List.mem_append.1 hmem with hmem | hmem
    · exact ne_return_headingLine hplain 13 hmem rfl
    · obtain ⟨p, hp, hmem⟩ := List.mem_flatMap.1 hmem
      exact ne_return_rowLine (hfiles p hp) (hrows p hp) 13 hmem rfl
  have hrecords := recordsFrom_headingLine hplain (items.flatMap fun p => rowLine encodings languages p.1 p.2)
  rw [recordsFrom_rowLines hfiles hrows hsome] at hrecords
  have hnames : ((fileColumn :: languages).map Text.ofString).map (fun name => String.ofList (name.map Char.ofNat)) =
      fileColumn :: languages := by
    rw [List.map_map]
    exact (List.map_congr_left fun name _ => ofList_map_ofString name).trans (List.map_id _)
  unfold rows named records
  rw [unifyFeeds_eq_self hreturn, hrecords]
  dsimp only
  rw [hnames, List.filter_eq_self.2, List.map_map, List.map_map]
  · refine List.map_congr_left fun p hp => ?_
    exact bind_eq_ok.2 ⟨_, rfl, toRow_ofCells hnodup (hrows p hp)⟩
  · intro line hline
    obtain ⟨p, -, rfl⟩ := List.mem_map.1 hline
    rfl

end Reading

end AdventureKit.Sheet
