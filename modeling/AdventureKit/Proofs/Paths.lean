import AdventureKit.Proofs.Archive.Names

/-!
# Paths and the texts that write them

A path with parts is what its text writes (`Path.ofString_toString`), so a name in a folder is written by the parts of
the folder and then the name (`Path.ofString_under`).
-/

namespace AdventureKit.Path

/-! ## Cutting at slashes -/

section

variable {part xs piece : List Char}

theorem slash_notMem_of_mem_splitFrom (hpart : '/' ∉ part) (h : piece ∈ Sequence.splitFrom ['/'] 0 part xs) :
    '/' ∉ piece := by
  induction xs generalizing part with
  | nil =>
    rw [Sequence.splitFrom, List.mem_singleton] at h
    rwa [h, List.mem_reverse]
  | cons x xs ih =>
    rw [Sequence.splitFrom] at h
    split at h
    · rcases List.mem_cons.1 h with rfl | h
      · rwa [List.mem_reverse]
      · exact ih List.not_mem_nil h
    · rename_i hx
      refine ih ?_ h
      rw [List.mem_cons, not_or]
      refine ⟨?_, hpart⟩
      rintro rfl
      exact hx (by simp [List.isPrefixOf])

/-- Cutting loses nothing but slashes. -/
theorem mem_splitFrom_iff {c : Char} (hc : c ≠ '/') :
    (∃ piece ∈ Sequence.splitFrom ['/'] 0 part xs, c ∈ piece) ↔ c ∈ part ∨ c ∈ xs := by
  induction xs generalizing part with
  | nil => simp [Sequence.splitFrom]
  | cons x xs ih =>
    rw [Sequence.splitFrom]
    split
    · rename_i hx
      have hslash : '/' = x := by simpa [List.isPrefixOf] using hx
      have hskip : ['/'].length - 1 = 0 := rfl
      simp only [hskip, List.mem_cons, exists_eq_or_imp, List.mem_reverse, ih, ← hslash, hc, false_or,
        List.not_mem_nil]
    · rw [ih]
      simp only [List.mem_cons]
      tauto

theorem splitFrom_folder (part : List Char) {folder : List Char} (hfolder : '/' ∉ folder) (name : List Char) :
    Sequence.splitFrom ['/'] 0 part (folder ++ '/' :: name) =
      (part.reverse ++ folder) :: Sequence.splitFrom ['/'] 0 [] name := by
  induction folder generalizing part with
  | nil => simp [Sequence.splitFrom, List.isPrefixOf]
  | cons x folder ih =>
    rw [List.mem_cons, not_or] at hfolder
    have hx : ['/'].isPrefixOf (x :: (folder ++ '/' :: name)) = false := by
      simp [List.isPrefixOf, hfolder.1]
    rw [List.cons_append, Sequence.splitFrom, hx, if_neg (by decide), ih _ hfolder.2, List.reverse_cons,
      List.append_assoc]
    rfl

end

section

variable {pieces : List (List Char)}

theorem splitFrom_intercalate (hne : pieces ≠ []) (h : ∀ piece ∈ pieces, '/' ∉ piece) :
    Sequence.splitFrom ['/'] 0 [] (['/'].intercalate pieces) = pieces := by
  induction pieces with
  | nil => exact absurd rfl hne
  | cons piece pieces ih =>
    obtain ⟨hpiece, hpieces⟩ := List.forall_mem_cons.1 h
    cases pieces with
    | nil =>
      rw [List.intercalate_singleton, Archive.splitFrom_of_notMem hpiece]
      rfl
    | cons next pieces =>
      rw [List.intercalate_cons_cons, List.append_assoc, List.singleton_append, splitFrom_folder [] hpiece,
        ih (List.cons_ne_nil _ _) hpieces]
      rfl

theorem mem_intercalate_iff {c : Char} (hc : c ≠ '/') :
    c ∈ ['/'].intercalate pieces ↔ ∃ piece ∈ pieces, c ∈ piece := by
  induction pieces with
  | nil => simp
  | cons piece pieces ih =>
    cases pieces with
    | nil => simp
    | cons next pieces =>
      rw [List.intercalate_cons_cons, List.append_assoc, List.mem_append, List.mem_append, ih]
      simp [hc]

/-- The text of parts starts with a part, and so with no slash. -/
theorem head?_intercalate (hne : pieces ≠ []) (h : ∀ piece ∈ pieces, '/' ∉ piece ∧ piece ≠ []) :
    ∃ c, (['/'].intercalate pieces).head? = some c ∧ c ≠ '/' := by
  obtain ⟨piece, more, rfl⟩ := List.exists_cons_of_ne_nil hne
  obtain ⟨hslash, hpiece⟩ := h piece List.mem_cons_self
  obtain ⟨c, rest, rfl⟩ := List.exists_cons_of_ne_nil hpiece
  refine ⟨c, ?_, fun hc => hslash (hc ▸ List.mem_cons_self)⟩
  cases more with
  | nil => rfl
  | cons next more =>
    rw [List.intercalate_cons_cons]
    rfl

end

/-! ## Parts -/

variable {s folder name : String}

/-- What can stand between slashes: a text without slashes that is not left out. -/
structure IsPart (part : String) : Prop where
  no_slash : '/' ∉ part.toList
  ne_empty : part ≠ ""
  ne_dot : part ≠ "."

theorem isPart_of_mem (h : name ∈ (ofString s).parts) : IsPart name := by
  obtain ⟨hmem, hkept⟩ := List.mem_filter.1 h
  obtain ⟨piece, hpiece, rfl⟩ := List.mem_map.1 hmem
  simp only [Bool.and_eq_true, bne_iff_ne, ne_eq] at hkept
  refine ⟨?_, hkept.1, hkept.2⟩
  rw [String.toList_ofList]
  exact slash_notMem_of_mem_splitFrom List.not_mem_nil hpiece

theorem slash_notMem_name (s : String) : '/' ∉ (ofString s).name.toList := by
  rw [Path.name, List.getLastD_eq_getLast?]
  cases hlast : (ofString s).parts.getLast? with
  | none => decide
  | some part => exact (isPart_of_mem (List.mem_of_getLast? hlast)).no_slash

theorem slash_notMem_stem (s : String) : '/' ∉ (ofString s).stem.toList := by
  have hname := slash_notMem_name s
  rw [stem, splitSuffix]
  split
  · rw [String.toList_ofList]
    exact fun h => hname (List.mem_of_mem_take h)
  · exact hname

/-! ## Roots -/

theorem root_ofString (s : String) : (ofString s).root ∈ ["", "/", "//"] := by
  unfold ofString
  dsimp only
  split
  · decide
  split
  · decide
  split
  · decide
  · decide

/-- A text with a root and then no slash starts with that root and no longer one. -/
theorem root_append (hs : ∃ c, s.toList.head? = some c ∧ c ≠ '/') {root : String} (hroot : root ∈ ["", "/", "//"]) :
    (ofString (root ++ s)).root = root := by
  obtain ⟨c, hhead, hc⟩ := hs
  obtain ⟨rest, hlist⟩ : ∃ rest, s.toList = c :: rest := List.head?_eq_some_iff.1 hhead
  have hstarts : ∀ pat : String, (root ++ s).startsWith pat = pat.toList.isPrefixOf (root.toList ++ c :: rest) := by
    intro pat
    rw [Bool.eq_iff_iff, String.startsWith_string_iff, List.isPrefixOf_iff_prefix, String.toList_append, hlist]
  unfold ofString
  dsimp only
  rw [hstarts, hstarts, hstarts]
  simp only [List.mem_cons, List.not_mem_nil, or_false] at hroot
  rcases hroot with rfl | rfl | rfl
  · simp [List.isPrefixOf, hc.symm]
  · simp [List.isPrefixOf, hc.symm]
  · simp [List.isPrefixOf, hc.symm]

/-! ## Writing a path -/

theorem toString_eq {p : Path} (hne : p.parts ≠ []) : p.toString = p.root ++ String.intercalate "/" p.parts := by
  have hparts : p.parts.isEmpty = false := by simpa using hne
  rw [toString, hparts, Bool.and_false, if_neg Bool.false_ne_true]

theorem toList_intercalate (parts : List String) :
    (String.intercalate "/" parts).toList = ['/'].intercalate (parts.map String.toList) :=
  String.toList_intercalate

/-- A root is cut into empty parts, and these are left out. -/
theorem splitFrom_root {root : String} (hroot : root ∈ ["", "/", "//"]) (xs : List Char) :
    ∃ blanks : List (List Char), (∀ blank ∈ blanks, blank = []) ∧
      Sequence.splitFrom ['/'] 0 [] (root.toList ++ xs) = blanks ++ Sequence.splitFrom ['/'] 0 [] xs := by
  simp only [List.mem_cons, List.not_mem_nil, or_false] at hroot
  rcases hroot with rfl | rfl | rfl
  · exact ⟨[], by simp, rfl⟩
  · exact ⟨[[]], by simp, rfl⟩
  · exact ⟨[[], []], by simp, rfl⟩

/-- A path with parts is what its text writes. -/
theorem ofString_toString {p : Path} (hroot : p.root ∈ ["", "/", "//"]) (hne : p.parts ≠ [])
    (hparts : ∀ part ∈ p.parts, IsPart part) : ofString p.toString = p := by
  have hpieces : ∀ piece ∈ p.parts.map String.toList, '/' ∉ piece ∧ piece ≠ [] := by
    intro piece hpiece
    obtain ⟨part, hpart, rfl⟩ := List.mem_map.1 hpiece
    exact ⟨(hparts part hpart).no_slash, fun h => (hparts part hpart).ne_empty (String.toList_eq_nil_iff.1 h)⟩
  have hsome : p.parts.map String.toList ≠ [] := by simpa using hne
  have hroots : (ofString p.toString).root = p.root := by
    rw [toString_eq hne]
    refine root_append ?_ hroot
    rw [toList_intercalate]
    exact head?_intercalate hsome hpieces
  have hcut : (ofString p.toString).parts = p.parts := by
    obtain ⟨blanks, hblanks, hsplit⟩ := splitFrom_root hroot (['/'].intercalate (p.parts.map String.toList))
    rw [splitFrom_intercalate hsome fun piece hpiece => (hpieces piece hpiece).1] at hsplit
    have hnone : ((blanks.map String.ofList).filter fun part => part != "" && part != ".") = [] := by
      rw [List.filter_eq_nil_iff]
      intro part hpart
      obtain ⟨blank, hblank, rfl⟩ := List.mem_map.1 hpart
      rw [hblanks blank hblank]
      decide
    have hall : (p.parts.filter fun part => part != "" && part != ".") = p.parts := by
      rw [List.filter_eq_self]
      intro part hpart
      simp [(hparts part hpart).ne_empty, (hparts part hpart).ne_dot]
    have hback : (p.parts.map String.toList).map String.ofList = p.parts := by simp
    show (components p.toString).filter _ = _
    rw [components, Sequence.splitAll, toString_eq hne, String.toList_append, toList_intercalate, hsplit,
      List.map_append, List.filter_append, hnone, hback, hall, List.nil_append]
  calc ofString p.toString = ⟨(ofString p.toString).root, (ofString p.toString).parts⟩ := rfl
    _ = p := by rw [hroots, hcut]

theorem ofString_of_isPart (h : IsPart name) : ofString name = ⟨"", [name]⟩ := by
  have htext : name = (⟨"", [name]⟩ : Path).toString := by
    rw [toString_eq (List.cons_ne_nil _ _)]
    simp
  rw [htext, ofString_toString (by simp) (List.cons_ne_nil _ _) (by simpa using h), ← htext]

theorem under_eq (h : IsPart name) :
    under folder name = (⟨(ofString folder).root, (ofString folder).parts ++ [name]⟩ : Path).toString := by
  rw [under, ofString_of_isPart h]
  rfl

/-- A name in a folder is written by the parts of the folder and then the name. -/
theorem ofString_under (h : IsPart name) :
    ofString (under folder name) = ⟨(ofString folder).root, (ofString folder).parts ++ [name]⟩ := by
  rw [under_eq h]
  refine ofString_toString (root_ofString folder) (by simp) fun part hpart => ?_
  rcases List.mem_append.1 hpart with hpart | hpart
  · exact isPart_of_mem hpart
  · rwa [List.mem_singleton.1 hpart]

/-- The text of a name in a folder has the characters of both. -/
theorem mem_under_iff (h : IsPart name) {c : Char} (hslash : c ≠ '/') (hdot : c ≠ '.') :
    c ∈ (under folder name).toList ↔ c ∈ folder.toList ∨ c ∈ name.toList := by
  have hroot : c ∉ (ofString folder).root.toList := by
    have hroots := root_ofString folder
    generalize (ofString folder).root = root at hroots
    simp only [List.mem_cons, List.not_mem_nil, or_false] at hroots
    rcases hroots with rfl | rfl | rfl
    · simp
    · simp [hslash]
    · simp [hslash]
  have hparts : (∃ part ∈ (ofString folder).parts, c ∈ part.toList) ↔ c ∈ folder.toList := by
    have hcut := @mem_splitFrom_iff [] folder.toList c hslash
    simp only [List.not_mem_nil, false_or] at hcut
    rw [← hcut]
    constructor
    · rintro ⟨part, hpart, hc⟩
      obtain ⟨piece, hpiece, rfl⟩ := List.mem_map.1 (List.mem_filter.1 hpart).1
      exact ⟨piece, hpiece, by rwa [String.toList_ofList] at hc⟩
    · rintro ⟨piece, hpiece, hc⟩
      -- a part with the character is not left out
      have hkept : ∀ blank : String, c ∉ blank.toList → String.ofList piece ≠ blank := by
        rintro blank hblank rfl
        exact hblank (String.toList_ofList.symm ▸ hc)
      refine ⟨String.ofList piece, List.mem_filter.2 ⟨List.mem_map_of_mem hpiece, ?_⟩, by rwa [String.toList_ofList]⟩
      simp [hkept "" (by simp), hkept "." (by simpa using hdot)]
  rw [under_eq h, toString_eq (by simp), String.toList_append, List.mem_append, toList_intercalate,
    mem_intercalate_iff hslash, ← hparts]
  simp [hroot]

end AdventureKit.Path
