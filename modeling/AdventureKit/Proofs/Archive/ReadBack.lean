import AdventureKit.Proofs.Archive.Listing

/-!
# Reading a rebuilt archive

A rebuilt archive of the first format has the old names and then the new ones, and a new file reads as
it was given.  An old name reads as the first name of its entry was to read (`opened_of_rebuild`).  So
all contents are as wanted if no two names share an entry.

There is one exception: a file whose index happens to show the mark of the later format is taken for one
of that format.
-/

namespace AdventureKit.Archive

variable {data file : Bytes} {a : Archive} {now : Timestamp} {patches left : Table String Bytes}
  {force : Bool}

/-- Without packed chunks, new files read as they were given, and an old name as the first name of its
entry was to read. -/
theorem opened_of_rebuild (ha : ofBytes data = .ok a) (hv : a.version = .first)
    (hc : ∀ p ∈ a.index, p.2.compression ≠ chunked)
    (hnew : ∀ name ∈ patches.keys, name ∉ a.names → Storable name)
    (h : rebuild a now patches force = .ok (file, left)) :
    left = patches.without a.names ∧
    (ShowsMark (a.names ++ left.keys) → ∀ b, ofBytes file = .ok b → b.version = .dated) ∧
    (¬ ShowsMark (a.names ++ left.keys) → ∃ b, ofBytes file = .ok b ∧ b.version = .first ∧
      b.names = a.names ++ left.keys ∧ (∀ p ∈ left, b.read p.1 = .ok p.2) ∧
      ∀ p ∈ a.index, ∃ first content, a.index.find? (fun q => q.2 == p.2) = some (first, p.2) ∧
        a.wanted patches first = .ok content ∧ b.read p.1 = .ok content) := by
  have hreturns : ∀ p ∈ a.index, Returns a.index p := fun p hp hchunked => absurd hchunked (hc p hp)
  obtain ⟨hleft, hdated, hopened⟩ := opened_of_returns ha hv hreturns hnew h
  refine ⟨hleft, hdated, fun hm => ?_⟩
  obtain ⟨b, hb, hbv, hnames, hreadNew, hreadOld⟩ := hopened hm
  refine ⟨b, hb, hbv, hnames, hreadNew, fun p hp => ?_⟩
  obtain ⟨first, content, stored, hfirst, hmade, -, hread⟩ := hreadOld p hp
  rw [hmade.unpackStored_eq (hc p hp)] at hread
  exact ⟨first, content, hfirst, hmade.wanted_eq, hread⟩

/-- In a list without repeated entries, the first name of an entry is its only one. -/
theorem eq_of_find?_entry {index : List (String × Entry)} (hd : (index.map Prod.snd).Nodup) {name first : String}
    {e : Entry} (hmem : (name, e) ∈ index) (hfirst : index.find? (fun q => q.2 == e) = some (first, e)) :
    first = name := by
  rw [find?_entry_of_nodup hd hmem] at hfirst
  cases hfirst
  rfl

/-- **A rebuilt archive reads as it should.**  If no two names share an entry, then the rebuilt archive
has the old names and the new ones, each with its patch or else with its old content, and the patches of
new names are left over; the only exception is a file that shows the mark of the later format. -/
theorem rebuild_reads_back (ha : ofBytes data = .ok a) (hv : a.version = .first)
    (hc : ∀ p ∈ a.index, p.2.compression ≠ chunked) (hd : (a.index.map Prod.snd).Nodup)
    (hnew : ∀ name ∈ patches.keys, name ∉ a.names → Storable name)
    (h : rebuild a now patches force = .ok (file, left)) :
    left = patches.without a.names ∧
    ((∃ b, ofBytes file = .ok b ∧ b.version = .first ∧ b.names = a.names ++ left.keys ∧
      ∀ name ∈ b.names, ∃ content, a.wanted patches name = .ok content ∧ b.read name = .ok content) ↔
    ¬ ShowsMark (a.names ++ left.keys)) := by
  obtain ⟨hleft, hdated, hfirst⟩ := opened_of_rebuild ha hv hc hnew h
  refine ⟨hleft, ?_, fun hm => ?_⟩
  · rintro ⟨b, hb, hbv, -, -⟩ hm
    rw [hdated hm b hb] at hbv
    cases hbv
  · obtain ⟨b, hb, hbv, hnames, hreadNew, hreadOld⟩ := hfirst hm
    refine ⟨b, hb, hbv, hnames, fun name hname => ?_⟩
    rw [hnames] at hname
    rcases List.mem_append.1 hname with hname | hname
    · obtain ⟨⟨_, e⟩, hmem, rfl⟩ := List.mem_map.1 hname
      obtain ⟨first, content, hfind, hcontent, hread⟩ := hreadOld _ hmem
      rw [eq_of_find?_entry hd hmem hfind] at hcontent
      exact ⟨content, hcontent, hread⟩
    · obtain ⟨p, hp, rfl⟩ := List.mem_map.1 hname
      rw [hleft] at hp
      obtain ⟨hmem, hfresh⟩ := Table.mem_without.1 hp
      obtain ⟨content, hget⟩ := Table.exists_get?_of_mem_keys (List.mem_map_of_mem hmem)
      have hread : b.read p.1 = .ok content := by
        refine hreadNew (p.1, content) ?_
        rw [hleft]
        exact Table.mem_without.2 ⟨Table.mem_of_get? hget, hfresh⟩
      refine ⟨content, ?_, hread⟩
      rw [wanted, hget]

/-- An archive with the files `A` and `B`. -/
def twoFiles : Bytes :=
  [2, 0] ++ (Bytes.padTo 13 [65] ++ [2, 0, 0, 0, 46, 0, 0, 0, 0]) ++
    (Bytes.padTo 13 [66] ++ [1, 0, 0, 0, 48, 0, 0, 0, 0]) ++ [1, 2, 7]

/-- The archive of `twoFiles`. -/
def twoFilesOpened : Archive :=
  ⟨twoFiles, .first, [("A", ⟨46, 2, 0, none⟩), ("B", ⟨48, 1, 0, none⟩)]⟩

theorem rebuild_reads_back_two :
    ofBytes twoFiles = .ok twoFilesOpened ∧
    ∃ file b, rebuild twoFilesOpened ⟨3, 2, 2001, 4, 5, 6⟩ ([("C", [4]), ("B", [3])] : Table String Bytes)
        false = .ok (file, [("C", [4])]) ∧
      ofBytes file = .ok b ∧ b.names = ["A", "B", "C"] ∧
      b.read "A" = .ok [1, 2] ∧ b.read "B" = .ok [3] ∧ b.read "C" = .ok [4] := by
  have ha : ofBytes twoFiles = .ok twoFilesOpened := by rfl
  have hr : ∃ file, rebuild twoFilesOpened ⟨3, 2, 2001, 4, 5, 6⟩
      ([("C", [4]), ("B", [3])] : Table String Bytes) false = .ok (file, [("C", [4])]) :=
    ⟨[3, 0] ++ (Bytes.padTo 13 [65] ++ [2, 0, 0, 0, 68, 0, 0, 0, 0]) ++
      (Bytes.padTo 13 [66] ++ [1, 0, 0, 0, 70, 0, 0, 0, 0]) ++
      (Bytes.padTo 13 [67] ++ [1, 0, 0, 0, 72, 0, 0, 0, 0]) ++ [1, 2, 3, 0, 4, 0],
      eq_ok_of_toOption (by decide +kernel)⟩
  obtain ⟨file, h⟩ := hr
  have hnew : ∀ name ∈ Table.keys ([("C", [4]), ("B", [3])] : Table String Bytes),
      name ∉ twoFilesOpened.names → Storable name := by
    intro name hname _
    obtain rfl | rfl : name = "C" ∨ name = "B" := by simpa [Table.keys] using hname
    · decide
    · decide
  obtain ⟨b, hb, -, hnames, hread⟩ :=
    (rebuild_reads_back ha rfl (by decide) (by decide) hnew h).2.2 (by decide)
  have hgives : ∀ name content, name ∈ ["A", "B", "C"] →
      twoFilesOpened.wanted [("C", [4]), ("B", [3])] name = .ok content → b.read name = .ok content := by
    intro name content hname hwanted
    obtain ⟨got, hgot, hb⟩ := hread name (by rw [hnames]; exact hname)
    rw [hwanted] at hgot
    cases hgot
    exact hb
  exact ⟨ha, file, b, h, hb, hnames, hgives "A" _ (by decide) rfl, hgives "B" _ (by decide) rfl,
    hgives "C" _ (by decide) rfl⟩

/-! ### A file that is taken for one of the later format -/

/-- New files without content take no room. -/
theorem addNew_empty {last : Option (Entry × Nat)} {names : List String} {draft : Draft}
    (hv : a.version = .first) (hn : (draft.index.keys ++ names).Nodup) :
    draft.addNew a now last (names.map fun name => (name, .ok [])) =
      .ok ⟨draft.index ++ names.map fun name => (name, ⟨draft.contents.length, 0, 0, none⟩),
        draft.contents, draft.stored⟩ := by
  induction names generalizing draft with
  | nil =>
    simp only [List.map_nil, List.append_nil]
    rfl
  | cons name names ih =>
    have hfresh : name ∉ draft.index.keys := by
      rw [List.nodup_append] at hn
      exact fun hk => hn.2.2 name hk name List.mem_cons_self rfl
    have hhas : ¬ draft.index.has name = true := mt Table.has_iff.1 hfresh
    have hadd : draft.add .first name ⟨draft.contents.length, 0, 0, none⟩ [] =
        ⟨draft.index ++ [(name, ⟨draft.contents.length, 0, 0, none⟩)], draft.contents, draft.stored⟩ := by
      rw [Draft.add, Table.put_eq_append hfresh, padded, if_neg (by decide), List.append_nil]
    have hrest := @ih ⟨draft.index ++ [(name, ⟨draft.contents.length, 0, 0, none⟩)], draft.contents,
      draft.stored⟩ (by rw [Table.keys_append, List.append_assoc]; exact hn)
    rw [List.append_assoc] at hrest
    rw [List.map_cons, Draft.addNew]
    simp only [bind, Except.bind, if_neg hhas, newEntry, hv, List.length_nil, hadd]
    exact hrest

/-- The empty archive takes new files without content, if their names are ASCII and there are not too
many of them. -/
theorem rebuild_empty {names : List String} (hn : names.Nodup) (hlt : names.length < Bytes.limit 2)
    (hascii : ∀ name ∈ names, ∀ c ∈ name.toList, c.toNat < 128) :
    ∃ file, rebuild ⟨data, .first, []⟩ now (names.map fun name => (name, []) : Table String Bytes) force =
        .ok (file, names.map fun name => (name, [])) ∧
      firstFile (names.map fun name => (name, ⟨0, 0, 0, none⟩)) [] = .ok file := by
  have hfits : ∀ p ∈ names.map fun name => (name, (⟨0, 0, 0, none⟩ : Entry)),
      Written (indexEnd names.length) p.1 p.2 := by
    intro p hp
    obtain ⟨name, hname, rfl⟩ := List.mem_map.1 hp
    refine ⟨hascii name hname, (by decide : 0 < Bytes.limit 4), ?_, Nat.zero_lt_succ _⟩
    have hmany : names.length < 65536 := hlt
    show 22 * names.length + 2 + 0 < 4294967296
    omega
  have hcount : (names.map fun name => (name, (⟨0, 0, 0, none⟩ : Entry))).length < Bytes.limit 2 := by
    rwa [List.length_map]
  obtain ⟨file, hfile⟩ := firstFile_of_written hcount (by rw [List.length_map]; exact hfits) []
  have hitems : Patches.items (names.map fun name => (name, []) : Table String Bytes) =
      names.map fun name => (name, .ok []) := by
    show (names.map fun name => (name, ([] : Bytes))).map _ = _
    rw [List.map_map]
    rfl
  have hnew : Draft.addNew ⟨data, .first, []⟩ now none ⟨[], [], []⟩
      (Patches.items (names.map fun name => (name, []) : Table String Bytes)) =
      .ok ⟨names.map fun name => (name, ⟨0, 0, 0, none⟩), [], []⟩ := by
    rw [hitems]
    exact addNew_empty rfl hn
  exact ⟨file, bind_eq_ok.2 ⟨_, rfl, bind_eq_ok.2 ⟨_, hnew, bind_eq_ok.2 ⟨_, hfile, rfl⟩⟩⟩, hfile⟩

/-- A name of three characters for each number below 27000. -/
def shortName (i : Nat) : String :=
  String.ofList [Char.ofNat (48 + i / 900), Char.ofNat (48 + i / 30 % 30), Char.ofNat (48 + i % 30)]

theorem shortName_inj {i j : Nat} (hi : i < 27000) (hj : j < 27000) (h : shortName i = shortName j) : i = j := by
  have hcode : ∀ m n : Nat, m < 30 → n < 30 → Char.ofNat (48 + m) = Char.ofNat (48 + n) → m = n := by
    intro m n hm hn he
    have := congrArg Char.toNat he
    rw [toNat_ofNat_of_lt (by omega), toNat_ofNat_of_lt (by omega)] at this
    omega
  rw [shortName, shortName, String.ofList_inj] at h
  injection h with h1 h
  injection h with h2 h
  injection h with h3 _
  have e1 := hcode _ _ (by omega) (by omega) h1
  have e2 := hcode _ _ (by omega) (by omega) h2
  have e3 := hcode _ _ (by omega) (by omega) h3
  omega

theorem toNat_of_mem_shortName {i : Nat} (hi : i < 27000) {c : Char} (hc : c ∈ (shortName i).toList) :
    48 ≤ c.toNat ∧ c.toNat < 78 := by
  rw [shortName, String.toList_ofList] at hc
  simp only [List.mem_cons, List.not_mem_nil, or_false] at hc
  rcases hc with rfl | rfl | rfl
  · rw [toNat_ofNat_of_lt (by omega)]
    omega
  · rw [toNat_ofNat_of_lt (by omega)]
    omega
  · rw [toNat_ofNat_of_lt (by omega)]
    omega

theorem storable_shortName {i : Nat} (hi : i < 27000) : Storable (shortName i) := by
  have hcapital : ∀ c ∈ (shortName i).toList, Text.capital c.toNat = [c.toNat] := by
    intro c hc
    obtain ⟨h48, h78⟩ := toNat_of_mem_shortName hi hc
    rw [Text.capital, if_pos (by omega), if_neg (by simp; omega)]
  refine ⟨?_, ?_, ?_⟩
  · rw [shortName, String.length_ofList]
    exact Nat.le_of_ble_eq_true rfl
  · intro c hc
    have := toNat_of_mem_shortName hi hc
    omega
  · -- the ending alone is longer than the name
    rw [← Bool.not_eq_true]
    intro h
    have hlen := (List.isPrefixOf_iff_prefix.1 h).length_le
    rw [upperCase, String.toList_ofList, String.toList_ofList, List.length_reverse, List.length_reverse,
      List.length_map, List.length_flatMap] at hlen
    have hone : (shortName i).toList.map (fun c => (Text.capital c.toNat).length) =
        (shortName i).toList.map fun _ => 1 :=
      List.map_congr_left fun c hc => by rw [hcapital c hc]; rfl
    rw [hone, shortName, String.toList_ofList] at hlen
    exact absurd (show 4 ≤ 3 from hlen) (by decide)

/-- New files without content, as many as make the index show the mark of the later format. -/
def markNames : List String :=
  "K2.1" :: (List.range 0x5452).map shortName

theorem nodup_markNames : markNames.Nodup := by
  refine List.nodup_cons.2 ⟨fun hmem => ?_, ?_⟩
  · obtain ⟨i, hi, he⟩ := List.mem_map.1 hmem
    have hlen := congrArg String.length he
    rw [shortName, String.length_ofList] at hlen
    exact absurd (show 3 = 4 from hlen) (by decide)
  · refine List.Nodup.map_on (fun i hi j hj he => ?_) List.nodup_range
    rw [List.mem_range] at hi hj
    exact shortName_inj (by omega) (by omega) he

theorem length_markNames : markNames.length = 0x5453 := by
  rw [markNames, List.length_cons, List.length_map, List.length_range]

theorem storable_of_mem_markNames {name : String} (h : name ∈ markNames) :
    Storable name ∧ ∀ c ∈ name.toList, c.toNat < 128 := by
  rcases List.mem_cons.1 h with rfl | h
  · have hascii : ("K2.1".toList.all fun c => decide (c.toNat < 128)) = true := by decide
    exact ⟨by decide, fun c hc => of_decide_eq_true (List.all_eq_true.1 hascii c hc)⟩
  · obtain ⟨i, hi, rfl⟩ := List.mem_map.1 h
    rw [List.mem_range] at hi
    refine ⟨storable_shortName (by omega), fun c hc => ?_⟩
    have := toNat_of_mem_shortName (by omega) hc
    omega

/-- **A rebuilt archive may be taken for one of the later format.**  The empty archive with the files of
`markNames` is written, but what was written does not open as an archive of the first format. -/
theorem rebuild_shows_mark :
    ∃ a, ofBytes [0, 0] = .ok a ∧ a.version = .first ∧ (∀ p ∈ a.index, p.2.compression ≠ chunked) ∧
      (a.index.map Prod.snd).Nodup ∧
      (∀ name ∈ markNames, Storable name ∧ ∀ c ∈ name.toList, c.toNat < 128) ∧
      ∃ file left, rebuild a ⟨3, 2, 2001, 4, 5, 6⟩ (markNames.map fun name => (name, []) : Table String Bytes)
          false = .ok (file, left) ∧
        ∀ b, ofBytes file = .ok b → b.version ≠ .first := by
  refine ⟨⟨[0, 0], .first, []⟩, rfl, rfl, by simp, by simp, fun name h => storable_of_mem_markNames h, ?_⟩
  obtain ⟨file, hrebuild, hfile⟩ := rebuild_empty nodup_markNames (by rw [length_markNames]; decide)
    fun name h => (storable_of_mem_markNames h).2
  refine ⟨file, _, hrebuild, fun b hb hfirst => ?_⟩
  have hnames : (markNames.map fun name => (name, (⟨0, 0, 0, none⟩ : Entry))).map Prod.fst = markNames := by
    rw [List.map_map]
    exact List.map_id _
  have hshows : ShowsMark markNames := ⟨length_markNames, by rw [markNames]; decide⟩
  have hmark := (take_firstFile_eq_iff hfile ?_).2 (by rw [hnames]; exact hshows)
  · rw [version_of_datedMark hmark hb] at hfirst
    cases hfirst
  · intro p hp
    obtain ⟨name, hname, rfl⟩ := List.mem_map.1 hp
    exact (storable_of_mem_markNames hname).1

end AdventureKit.Archive
