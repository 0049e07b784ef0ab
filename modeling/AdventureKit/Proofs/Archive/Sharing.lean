import AdventureKit.Proofs.Archive.ReadBack

/-!
# Names that share an entry

A rebuild stores an entry once, for the first of its names, and gives the others the same stored bytes.
So the contents are as wanted exactly if the names of each entry agree on theirs; a patch for a name that
is not the first is lost.
-/

namespace AdventureKit.Archive

variable {data file : Bytes} {a : Archive} {now : Timestamp} {patches left : Table String Bytes}
  {force : Bool}

/-- Names that share an entry are to have the same content. -/
def Agree (a : Archive) (patches : Table String Bytes) : Prop :=
  ∀ p ∈ a.index, ∀ q ∈ a.index, p.2 = q.2 → a.wanted patches p.1 = a.wanted patches q.1

/-- **Names of one entry read alike.**  If all patches are for names of the archive, every name reads as
the first name of its entry was to read.  So a rebuilt archive has all contents as wanted exactly if
names that share an entry agree, except for a file that shows the mark of the later format. -/
theorem rebuild_reads_back_iff_agree (ha : ofBytes data = .ok a) (hv : a.version = .first)
    (hc : ∀ p ∈ a.index, p.2.compression ≠ chunked) (hold : ∀ name ∈ patches.keys, name ∈ a.names)
    (h : rebuild a now patches force = .ok (file, left)) :
    ((∃ b, ofBytes file = .ok b ∧ b.version = .first ∧
      ∀ name ∈ a.names, ∃ content, a.wanted patches name = .ok content ∧ b.read name = .ok content) ↔
      Agree a patches ∧ ¬ ShowsMark a.names) ∧
    ∀ b, ofBytes file = .ok b → b.version = .first → ∀ p ∈ a.index,
      ∃ first, a.index.find? (fun q => q.2 == p.2) = some (first, p.2) ∧
        b.read p.1 = a.wanted patches first := by
  obtain ⟨hleft, hdated, hfirst⟩ :=
    opened_of_rebuild ha hv hc (fun name hname hfresh => absurd (hold name hname) hfresh) h
  have hnone : left = [] := by
    rw [hleft]
    exact List.filter_eq_nil_iff.2 fun p hp => by simpa using hold p.1 (List.mem_map_of_mem hp)
  have hnames : a.names ++ left.keys = a.names := by
    rw [hnone]
    exact List.append_nil _
  rw [hnames] at hdated hfirst
  have hunmarked : ∀ b, ofBytes file = .ok b → b.version = .first → ¬ ShowsMark a.names := by
    intro b hb hbv hm
    rw [hdated hm b hb] at hbv
    cases hbv
  have hreads : ∀ b, ofBytes file = .ok b → b.version = .first → ∀ p ∈ a.index,
      ∃ first, a.index.find? (fun q => q.2 == p.2) = some (first, p.2) ∧
        b.read p.1 = a.wanted patches first := by
    intro b hb hbv p hp
    obtain ⟨b', hb', -, -, -, hread⟩ := hfirst (hunmarked b hb hbv)
    rw [hb] at hb'
    cases hb'
    obtain ⟨first, content, hfind, hcontent, hread⟩ := hread p hp
    exact ⟨first, hfind, hread.trans hcontent.symm⟩
  refine ⟨⟨?_, ?_⟩, hreads⟩
  · rintro ⟨b, hb, hbv, hall⟩
    have hwanted : ∀ p ∈ a.index, a.wanted patches p.1 = b.read p.1 := by
      intro p hp
      obtain ⟨content, hcontent, hread⟩ := hall p.1 (List.mem_map_of_mem hp)
      exact hcontent.trans hread.symm
    refine ⟨fun p hp q hq he => ?_, hunmarked b hb hbv⟩
    obtain ⟨first, hfind, hreadp⟩ := hreads b hb hbv p hp
    obtain ⟨first', hfind', hreadq⟩ := hreads b hb hbv q hq
    have hsame : first = first' := by
      rw [he, hfind'] at hfind
      cases hfind
      rfl
    calc a.wanted patches p.1 = b.read p.1 := hwanted p hp
      _ = a.wanted patches first := hreadp
      _ = b.read q.1 := by rw [hsame, hreadq]
      _ = a.wanted patches q.1 := (hwanted q hq).symm
  · rintro ⟨hagree, hm⟩
    obtain ⟨b, hb, hbv, -, -, hread⟩ := hfirst hm
    refine ⟨b, hb, hbv, fun name hname => ?_⟩
    obtain ⟨p, hp, rfl⟩ := List.mem_map.1 hname
    obtain ⟨first, content, hfind, hcontent, hread⟩ := hread p hp
    refine ⟨content, ?_, hread⟩
    rw [← hcontent]
    exact hagree p hp (first, p.2) (List.mem_of_find?_eq_some hfind) rfl

/-- An archive whose names `A` and `B` share an entry. -/
def sharedFiles : Bytes :=
  [2, 0] ++ (Bytes.padTo 13 [65] ++ [2, 0, 0, 0, 46, 0, 0, 0, 0]) ++
    (Bytes.padTo 13 [66] ++ [2, 0, 0, 0, 46, 0, 0, 0, 0]) ++ [1, 2]

/-- The archive of `sharedFiles`. -/
def sharedFilesOpened : Archive :=
  ⟨sharedFiles, .first, [("A", ⟨46, 2, 0, none⟩), ("B", ⟨46, 2, 0, none⟩)]⟩

theorem rebuild_reads_back_iff_agree_shared :
    ofBytes sharedFiles = .ok sharedFilesOpened ∧
    ∃ file b, rebuild sharedFilesOpened ⟨3, 2, 2001, 4, 5, 6⟩
        ([("A", [3, 4]), ("B", [3, 4])] : Table String Bytes) false = .ok (file, []) ∧
      ofBytes file = .ok b ∧ b.read "B" = .ok [3, 4] := by
  have ha : ofBytes sharedFiles = .ok sharedFilesOpened := by rfl
  have hr : ∃ file, rebuild sharedFilesOpened ⟨3, 2, 2001, 4, 5, 6⟩
      ([("A", [3, 4]), ("B", [3, 4])] : Table String Bytes) false = .ok (file, []) :=
    ⟨sharedFiles.take 46 ++ [3, 4], eq_ok_of_toOption (by decide +kernel)⟩
  obtain ⟨file, h⟩ := hr
  have hagree : Agree sharedFilesOpened [("A", [3, 4]), ("B", [3, 4])] := by
    intro p hp q hq _
    have hall : ∀ p ∈ sharedFilesOpened.index,
        sharedFilesOpened.wanted [("A", [3, 4]), ("B", [3, 4])] p.1 = .ok [3, 4] := by
      intro p hp
      obtain rfl | rfl : p = ("A", ⟨46, 2, 0, none⟩) ∨ p = ("B", ⟨46, 2, 0, none⟩) := by
        simpa [sharedFilesOpened] using hp
      · rfl
      · rfl
    rw [hall p hp, hall q hq]
  obtain ⟨b, hb, -, hread⟩ :=
    (rebuild_reads_back_iff_agree ha rfl (by decide) (by decide) h).1.2 ⟨hagree, by decide⟩
  obtain ⟨content, hcontent, hread⟩ := hread "B" (by decide)
  cases hcontent
  exact ⟨ha, file, b, h, hb, hread⟩

/-- **A patch for a shared entry may be lost.**  `A` comes first, so `B` keeps the content of `A`
although there is a patch for it. -/
theorem rebuild_loses_patch :
    ofBytes sharedFiles = .ok sharedFilesOpened ∧
    rebuild sharedFilesOpened ⟨3, 2, 2001, 4, 5, 6⟩ ([("B", [3])] : Table String Bytes) false =
      .ok (sharedFiles, []) ∧
    sharedFilesOpened.read "B" = .ok [1, 2] ∧ sharedFilesOpened.wanted [("B", [3])] "B" = .ok [3] :=
  ⟨by rfl, eq_ok_of_toOption (by decide +kernel), by rfl, by rfl⟩

end AdventureKit.Archive
