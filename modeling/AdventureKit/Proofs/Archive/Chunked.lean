import AdventureKit.Proofs.Archive.Listing
import AdventureKit.Proofs.Lzss.Chunks

/-!
# Rebuilding archives with packed chunks

Entries of packed chunks are the ones for which the written name matters.  A rebuild without patches gives
back the names, kinds and contents exactly if all items return (`rebuild_unchanged_iff`); a second name of
such an entry loses its kind.  And where a content changes, it is stored packed but not in chunks, and so it
can no longer be read (`rebuild_changed_chunks`).
-/

namespace AdventureKit.Archive

variable {data file : Bytes} {a : Archive} {now : Timestamp} {patches left : Table String Bytes}
  {force : Bool}

/-! ### Rebuilding without patches -/

/-- A content that stays the same keeps its stored bytes, also as packed chunks. -/
theorem unpackStored_kept {e : Entry} {content stored : Bytes} (hold : e.content a.data = .ok content)
    (hs : storedFor a false e content content = .ok stored) :
    unpackStored e.compression stored = .ok content := by
  rw [storedFor, if_pos ⟨rfl, rfl⟩] at hs
  cases hs
  exact (Entry.content_eq_ok_iff.1 hold).1

/-- If a written draft lists as many names as the archive has, then no slot was overwritten and no two slots
are listed alike. -/
theorem index_eq_of_length {draft : Draft} (hsound : draft.Sound a patches force a.index) {base : Nat}
    (hcount : (Table.ofItems (draft.index.map (listedItem base))).length = a.index.length) :
    draft.index = a.index.map (fun p => (slotName a.index p, draft.placed p.2)) ∧
      Table.ofItems (draft.index.map (listedItem base)) = draft.index.map (listedItem base) := by
  have hslots : draft.index = a.index.map fun p => (slotName a.index p, draft.placed p.2) := by
    have hwritten := Table.length_ofItems_le (draft.index.map (listedItem base))
    rw [hcount, List.length_map] at hwritten
    rw [hsound.index_eq] at hwritten ⊢
    exact Table.ofItems_eq_self_of_length (by rwa [List.length_map])
  refine ⟨hslots, Table.ofItems_eq_self_of_length (Nat.le_of_eq ?_)⟩
  rw [hcount, List.length_map, hslots, List.length_map]

/-- If the rebuilt archive has the old names with their kinds and no others, all items return. -/
theorem returns_of_opened (ha : ofBytes data = .ok a) (hv : a.version = .first)
    (h : rebuild a now ([] : Table String Bytes) force = .ok (file, left)) {b : Archive}
    (hb : ofBytes file = .ok b) (hbv : b.version = .first) (hnames : b.names = a.names)
    (hkinds : ∀ p ∈ a.index, ∃ e, b.index.get? p.1 = some e ∧ e.compression = p.2.compression) :
    ∀ p ∈ a.index, Returns a.index p := by
  obtain ⟨rfl, draft, draft', hrebuilt⟩ := firstRebuilt_of_rebuild ha hv (by simp [Table.keys]) h
  have hsound := hrebuilt.sound
  obtain ⟨news, hindex, hkeys, -⟩ := hrebuilt.added.index_eq
  rw [List.map_eq_nil_iff.1 hkeys, List.append_nil] at hindex
  have hopened := eq_of_ofBytes_firstFile hrebuilt.written hrebuilt.fits hb hbv
  rw [hindex] at hopened
  subst hopened
  generalize indexEnd draft.index.length = base at hnames hkinds
  -- there are as many names as before, so none was lost on the way
  have hcount : (Table.ofItems (draft.index.map (listedItem base))).length = a.index.length := by
    have hlength := congrArg List.length hnames
    rwa [names, names, Table.keys, Table.keys, List.length_map, List.length_map] at hlength
  obtain ⟨hslots, hlisted⟩ := index_eq_of_length hsound hcount
  rw [hlisted] at hnames hkinds
  have hback : ∀ p ∈ a.index, listedName (slotName a.index p).toList = p.1 := by
    rw [names, names, Table.keys, Table.keys, hslots, List.map_map, List.map_map] at hnames
    exact List.map_inj_left.1 hnames
  have hnodup : (Table.keys (draft.index.map (listedItem base))).Nodup := by
    have hn := nodup_names_of_ofBytes ha
    rwa [← names, ← hnames] at hn
  intro p hp
  refine (listed_slotName_iff (listed_of_ofBytes ha hv p hp) (hrebuilt.ascii_slotName hp)).1 ⟨hback p hp, ?_⟩
  -- the kind with which the item is listed
  obtain ⟨m, hm⟩ := hsound.stored p hp
  obtain ⟨_, _, _, -, -, hmoved, -⟩ := hsound.keeps p.2 m hm
  have hmem : (p.1, (m.behind base).listedAs (slotName a.index p)) ∈ draft.index.map (listedItem base) := by
    refine List.mem_map.2 ⟨(slotName a.index p, m), ?_, by rw [listedItem, hback p hp]⟩
    rw [hslots]
    exact List.mem_map.2 ⟨p, hp, by rw [Draft.placed_eq hm]⟩
  obtain ⟨e, hget, hkind⟩ := hkinds p hp
  rw [Table.get?_of_mem hnodup hmem, Option.some.injEq] at hget
  rw [← hget, Entry.compression_listedAs, Entry.behind, hmoved] at hkind
  exact hkind

/-- **A rebuild without patches.**  The rebuilt archive has the same names, kinds and contents exactly if
all items return and the index does not show the mark of the later format. -/
theorem rebuild_unchanged_iff (ha : ofBytes data = .ok a) (hv : a.version = .first)
    (h : rebuild a now ([] : Table String Bytes) false = .ok (file, left)) :
    (∃ b, ofBytes file = .ok b ∧ b.version = .first ∧ b.names = a.names ∧
      ∀ p ∈ a.index, ∃ e content, b.index.get? p.1 = some e ∧ e.compression = p.2.compression ∧
        a.read p.1 = .ok content ∧ b.read p.1 = .ok content) ↔
      (∀ p ∈ a.index, Returns a.index p) ∧ ¬ ShowsMark a.names := by
  have hn := nodup_names_of_ofBytes ha
  have hnew : ∀ name ∈ Table.keys ([] : Table String Bytes), name ∉ a.names → Storable name := by
    simp [Table.keys]
  have hnone : a.names ++ (Table.without ([] : Table String Bytes) a.names).keys = a.names :=
    List.append_nil _
  constructor
  · rintro ⟨b, hb, hbv, hnames, hall⟩
    have hreturns : ∀ p ∈ a.index, Returns a.index p := by
      refine returns_of_opened ha hv h hb hbv hnames fun p hp => ?_
      obtain ⟨e, _, hget, hkind, -⟩ := hall p hp
      exact ⟨e, hget, hkind⟩
    obtain ⟨rfl, hdated, -⟩ := opened_of_returns ha hv hreturns hnew h
    refine ⟨hreturns, fun hm => ?_⟩
    rw [hdated (by rwa [hnone]) b hb] at hbv
    cases hbv
  · rintro ⟨hreturns, hm⟩
    obtain ⟨rfl, -, hopened⟩ := opened_of_returns ha hv hreturns hnew h
    obtain ⟨b, hb, hbv, hnames, -, hread⟩ := hopened (by rwa [hnone])
    refine ⟨b, hb, hbv, hnames.trans hnone, fun p hp => ?_⟩
    obtain ⟨first, content, stored, hfirst, hmade, ⟨e, hget, hkind⟩, hreadp⟩ := hread p hp
    -- the first name of the entry has no patch, so its content is the one of the entry
    have hcontent : p.2.content a.data = .ok content := by
      have hgetFirst := Table.get?_of_mem hn (List.mem_of_find?_eq_some hfirst)
      have hwanted := hmade.wanted_eq
      rw [wanted, show Table.get? ([] : Table String Bytes) first = none from rfl] at hwanted
      simpa only [Archive.read, hgetFirst] using hwanted
    obtain ⟨old, hold, hstored⟩ := hmade.storedFor_eq
    rw [hcontent, Except.ok.injEq] at hold
    subst hold
    refine ⟨e, content, hget, hkind, ?_, by rw [hreadp, unpackStored_kept hcontent hstored]⟩
    rw [Archive.read, Table.get?_of_mem hn hp]
    exact hcontent

/-- Two scripts, each in one chunk. -/
def scriptFiles : Bytes :=
  [2, 0] ++ (Bytes.padTo 13 (Bytes.ofAscii "A.0OT") ++ [11, 0, 0, 0, 46, 0, 0, 0, 0]) ++
    (Bytes.padTo 13 (Bytes.ofAscii "B.0OT") ++ [11, 0, 0, 0, 57, 0, 0, 0, 0]) ++
    [255, 255, 4, 0, 0, 0, 15, 97, 98, 99, 100] ++ [255, 255, 4, 0, 0, 0, 15, 101, 102, 103, 104]

/-- The archive of `scriptFiles`. -/
def scriptFilesOpened : Archive :=
  ⟨scriptFiles, .first, [("A.TOT", ⟨46, 11, chunked, none⟩), ("B.TOT", ⟨57, 11, chunked, none⟩)]⟩

theorem ofBytes_scriptFiles : ofBytes scriptFiles = .ok scriptFilesOpened :=
  eq_ok_of_toOption (by decide +kernel)

theorem scriptName_of_mem_scriptFiles : ∀ p ∈ scriptFilesOpened.index, ScriptName p.1 := by
  intro p hp
  obtain rfl | rfl : p = ("A.TOT", ⟨46, 11, chunked, none⟩) ∨ p = ("B.TOT", ⟨57, 11, chunked, none⟩) := by
    simpa [scriptFilesOpened] using hp
  · exact ⟨['A'], by decide, by decide, by decide⟩
  · exact ⟨['B'], by decide, by decide, by decide⟩

theorem rebuild_unchanged_iff_scripts :
    ofBytes scriptFiles = .ok scriptFilesOpened ∧
    ∃ file b, rebuild scriptFilesOpened ⟨3, 2, 2001, 4, 5, 6⟩ ([] : Table String Bytes) false = .ok (file, []) ∧
      ofBytes file = .ok b ∧ b.names = ["A.TOT", "B.TOT"] ∧ b.read "A.TOT" = .ok [97, 98, 99, 100] := by
  have hr : ∃ file, rebuild scriptFilesOpened ⟨3, 2, 2001, 4, 5, 6⟩ ([] : Table String Bytes) false =
      .ok (file, []) := exists_eq_ok_of_snd (by decide +kernel)
  obtain ⟨file, h⟩ := hr
  have hreturns : ∀ p ∈ scriptFilesOpened.index, Returns scriptFilesOpened.index p :=
    returns_of_nodup (by decide) fun p hp _ => scriptName_of_mem_scriptFiles p hp
  obtain ⟨b, hb, -, hnames, hall⟩ :=
    (rebuild_unchanged_iff ofBytes_scriptFiles rfl h).2 ⟨hreturns, by decide⟩
  obtain ⟨e, content, -, -, hold, hread⟩ := hall ("A.TOT", ⟨46, 11, chunked, none⟩) (by decide)
  have hcontent : scriptFilesOpened.read "A.TOT" = .ok [97, 98, 99, 100] := by decide +kernel
  rw [hcontent] at hold
  cases hold
  exact ⟨ofBytes_scriptFiles, file, b, h, hb, hnames, hread⟩

/-- An archive in which two names share an entry of packed chunks. -/
def sharedScripts : Bytes :=
  [2, 0] ++ (Bytes.padTo 13 (Bytes.ofAscii "A.0OT") ++ [11, 0, 0, 0, 46, 0, 0, 0, 0]) ++
    (Bytes.padTo 13 (Bytes.ofAscii "B.0OT") ++ [11, 0, 0, 0, 46, 0, 0, 0, 0]) ++
    [255, 255, 4, 0, 0, 0, 15, 97, 98, 99, 100]

/-- The archive of `sharedScripts`. -/
def sharedScriptsOpened : Archive :=
  ⟨sharedScripts, .first, [("A.TOT", ⟨46, 11, chunked, none⟩), ("B.TOT", ⟨46, 11, chunked, none⟩)]⟩

/-- What a rebuild makes of `sharedScripts`. -/
def sharedScriptsRebuilt : Bytes :=
  [2, 0] ++ (Bytes.padTo 13 (Bytes.ofAscii "A.0OT") ++ [11, 0, 0, 0, 46, 0, 0, 0, 2]) ++
    (Bytes.padTo 13 (Bytes.ofAscii "B.TOT") ++ [11, 0, 0, 0, 46, 0, 0, 0, 2]) ++
    [255, 255, 4, 0, 0, 0, 15, 97, 98, 99, 100, 0]

/-- **A second name of packed chunks loses its kind.**  Both names read alike, and nothing is patched; but
`B.TOT` is written as it is listed, so that its chunks are taken for packed content and cannot be read. -/
theorem rebuild_loses_kind :
    ofBytes sharedScripts = .ok sharedScriptsOpened ∧
    sharedScriptsOpened.read "B.TOT" = .ok [97, 98, 99, 100] ∧
    rebuild sharedScriptsOpened ⟨3, 2, 2001, 4, 5, 6⟩ ([] : Table String Bytes) false =
      .ok (sharedScriptsRebuilt, []) ∧
    ∃ b, ofBytes sharedScriptsRebuilt = .ok b ∧
      b.index = [("A.TOT", ⟨46, 11, chunked, none⟩), ("B.TOT", ⟨46, 11, 1, none⟩)] ∧
      b.read "B.TOT" = .error (.ended .group) := by
  refine ⟨eq_ok_of_toOption (by decide +kernel), eq_ok_of_toOption (by decide +kernel),
    eq_ok_of_toOption (by decide +kernel), ⟨sharedScriptsRebuilt, .first, _⟩,
    eq_ok_of_toOption (by decide +kernel), rfl, by decide +kernel⟩

/-! ### Changed contents -/

/-- What is stored for an entry of packed chunks: its old bytes if the content stays the same, and otherwise
the content packed as a whole. -/
theorem MadeFor.unpackStored_chunked {name : String} {e : Entry} {content stored : Bytes}
    (h : MadeFor a patches force name e content stored) (hc : e.compression = chunked) :
    ∃ old, e.content a.data = .ok old ∧
      (content = old ∧ force = false → unpackStored e.compression stored = .ok content) ∧
      (¬ (content = old ∧ force = false) → Lzss.pack content = .ok stored) := by
  obtain ⟨old, hold, hstored⟩ := h.storedFor_eq
  refine ⟨old, hold, ?_, fun hchanged => ?_⟩
  · rintro ⟨rfl, rfl⟩
    exact unpackStored_kept hold hstored
  · rw [storedFor, if_neg fun hsame => hchanged ⟨hsame.1.symm, hsame.2⟩, if_neg (by rw [hc]; decide)] at hstored
    exact hstored

-- The four bytes `wxyz`, packed as a whole, are no chunks.
example : (unpackStored chunked [4, 0, 0, 0, 15, 119, 120, 121, 122]).toOption = none := by decide +kernel

/-- **Changed packed chunks are lost.**  A rebuild lists such an entry under its name and with its kind, and
it keeps a content that stays the same.  A changed one is packed as a whole, and read as chunks; below 65536
bytes that is always refused. -/
theorem rebuild_changed_chunks (ha : ofBytes data = .ok a) (hv : a.version = .first)
    (hd : (a.index.map Prod.snd).Nodup)
    (hscripts : ∀ p ∈ a.index, p.2.compression = chunked → ScriptName p.1)
    (hnew : ∀ name ∈ patches.keys, name ∉ a.names → Storable name)
    (h : rebuild a now patches force = .ok (file, left)) (hm : ¬ ShowsMark (a.names ++ left.keys)) :
    ∃ b, ofBytes file = .ok b ∧ b.version = .first ∧ b.names = a.names ++ left.keys ∧
      ∀ p ∈ a.index, p.2.compression = chunked → ∃ old content e,
        a.read p.1 = .ok old ∧ a.wanted patches p.1 = .ok content ∧
        b.index.get? p.1 = some e ∧ e.compression = chunked ∧
        (content = old ∧ force = false → b.read p.1 = .ok content) ∧
        (¬ (content = old ∧ force = false) → ∃ packed, Lzss.pack content = .ok packed ∧
          b.read p.1 = (Lzss.unpackChunks packed).map Prod.fst ∧
          (content.length < 0x10000 → ∃ fault, b.read p.1 = .error fault)) := by
  obtain ⟨hleft, -, hopened⟩ := opened_of_returns ha hv (returns_of_nodup hd hscripts) hnew h
  obtain ⟨b, hb, hbv, hnames, -, hread⟩ := hopened hm
  refine ⟨b, hb, hbv, hnames, ?_⟩
  rintro ⟨name, old⟩ hp hc
  obtain ⟨_, content, stored, hfirst, hmade, ⟨e, hget, hkind⟩, hread⟩ := hread _ hp
  rw [find?_entry_of_nodup hd hp] at hfirst
  cases hfirst
  obtain ⟨before, hbefore, hkept, hchanged⟩ := hmade.unpackStored_chunked hc
  have hreadBefore : a.read name = .ok before := by
    rw [Archive.read, Table.get?_of_mem (nodup_names_of_ofBytes ha) hp]
    exact hbefore
  refine ⟨before, content, e, hreadBefore, hmade.wanted_eq, hget, hkind.trans hc, fun hsame => ?_,
    fun hdiff => ?_⟩
  · rw [hread, hkept hsame]
  · have hchunks : b.read name = (Lzss.unpackChunks stored).map Prod.fst := by
      rw [hread, hc]
      rfl
    refine ⟨stored, hchanged hdiff, hchunks, fun hlt => ?_⟩
    obtain ⟨fault, hfault⟩ := Lzss.unpackChunks_of_pack (hchanged hdiff) hlt
    rw [hchunks, hfault]
    exact ⟨fault, rfl⟩

/-- Storing an entry for the first time. -/
theorem addEntry_of_new {draft : Draft} {name written : String} {e : Entry} {old content stored : Bytes}
    (hold : e.content a.data = .ok old) (hcontent : (patches.get? name).getD old = content)
    (hstored : storedFor a force e old content = .ok stored) (hnew : draft.stored.get? e = none)
    (hwritten : writtenName name e = .ok written) :
    draft.addEntry a force patches name e =
      let moved := e.moved draft.contents.length stored e.compression content.length
      .ok (⟨draft.index.put written moved, draft.contents ++ padded a.version stored, draft.stored.put e moved⟩,
        patches.erase name, content.length) := by
  subst hcontent
  refine bind_eq_ok.2 ⟨old, hold, bind_eq_ok.2 ⟨(patches.get? name, patches.erase name), rfl,
    bind_eq_ok.2 ⟨stored, hstored, ?_⟩⟩⟩
  simp only [hnew]
  exact bind_eq_ok.2 ⟨written, hwritten, rfl⟩

/-- What a rebuild makes of `scriptFiles` if the content of the first script is to be `wxyz`. -/
def scriptFilesChanged : Bytes :=
  [2, 0] ++ (Bytes.padTo 13 (Bytes.ofAscii "A.0OT") ++ [9, 0, 0, 0, 46, 0, 0, 0, 2]) ++
    (Bytes.padTo 13 (Bytes.ofAscii "B.0OT") ++ [11, 0, 0, 0, 56, 0, 0, 0, 2]) ++
    [4, 0, 0, 0, 15, 119, 120, 121, 122, 0] ++ [255, 255, 4, 0, 0, 0, 15, 101, 102, 103, 104, 0]

theorem rebuild_scriptFiles :
    rebuild scriptFilesOpened ⟨3, 2, 2001, 4, 5, 6⟩ ([("A.TOT", [119, 120, 121, 122])] : Table String Bytes)
      false = .ok (scriptFilesChanged, []) := by
  have hpack : Lzss.pack [119, 120, 121, 122] = .ok [4, 0, 0, 0, 15, 119, 120, 121, 122] := by
    rw [Lzss.pack_of_nodup (by decide) (by decide) (by decide) (by decide),
      Lzss.encodeCommands_group (by decide) (by decide)]
    rfl
  have hstored : storedFor scriptFilesOpened false ⟨46, 11, chunked, none⟩ [97, 98, 99, 100]
      [119, 120, 121, 122] = .ok [4, 0, 0, 0, 15, 119, 120, 121, 122] := by
    rw [storedFor, if_neg (by decide), if_neg (by decide), hpack]
  have hkept : storedFor scriptFilesOpened false ⟨57, 11, chunked, none⟩ [101, 102, 103, 104]
      [101, 102, 103, 104] = .ok [255, 255, 4, 0, 0, 0, 15, 101, 102, 103, 104] := by decide +kernel
  have hfirst : writtenName "A.TOT" ⟨46, 11, chunked, none⟩ = .ok "A.0OT" := by decide +kernel
  have hsecond : writtenName "B.TOT" ⟨57, 11, chunked, none⟩ = .ok "B.0OT" := by decide +kernel
  refine bind_eq_ok.2 ⟨_, bind_eq_ok.2 ⟨_, addEntry_of_new ?_ ?_ hstored rfl hfirst,
    bind_eq_ok.2 ⟨_, addEntry_of_new ?_ rfl hkept ?_ hsecond, rfl⟩⟩, ?_⟩
  · decide +kernel
  · decide +kernel
  · decide +kernel
  · decide +kernel
  · exact eq_ok_of_toOption (by decide +kernel)

theorem rebuild_changed_chunks_scripts :
    ofBytes scriptFiles = .ok scriptFilesOpened ∧
    rebuild scriptFilesOpened ⟨3, 2, 2001, 4, 5, 6⟩ ([("A.TOT", [119, 120, 121, 122])] : Table String Bytes)
      false = .ok (scriptFilesChanged, []) ∧
    ∃ b fault, ofBytes scriptFilesChanged = .ok b ∧ b.names = ["A.TOT", "B.TOT"] ∧
      b.read "A.TOT" = .error fault ∧ b.read "B.TOT" = .ok [101, 102, 103, 104] := by
  obtain ⟨b, hb, -, hnames, hall⟩ := rebuild_changed_chunks ofBytes_scriptFiles rfl (by decide)
    (fun p hp _ => scriptName_of_mem_scriptFiles p hp) (by decide) rebuild_scriptFiles (by decide)
  have hread : scriptFilesOpened.read "A.TOT" = .ok [97, 98, 99, 100] ∧
      scriptFilesOpened.read "B.TOT" = .ok [101, 102, 103, 104] := by decide +kernel
  obtain ⟨old, content, -, hold, hwanted, -, -, -, hchanged⟩ :=
    hall ("A.TOT", ⟨46, 11, chunked, none⟩) (by decide) rfl
  obtain ⟨old', content', -, hold', hwanted', -, -, hkept, -⟩ :=
    hall ("B.TOT", ⟨57, 11, chunked, none⟩) (by decide) rfl
  rw [hread.1] at hold
  rw [hread.2] at hold'
  rw [show scriptFilesOpened.wanted _ "B.TOT" = scriptFilesOpened.read "B.TOT" from rfl, hread.2] at hwanted'
  cases hold
  cases hold'
  cases hwanted
  cases hwanted'
  obtain ⟨-, -, -, herror⟩ := hchanged (by decide)
  obtain ⟨fault, hfault⟩ := herror (by decide)
  exact ⟨ofBytes_scriptFiles, rebuild_scriptFiles, b, fault, hb, hnames, hfault, hkept ⟨rfl, rfl⟩⟩

/-- **A script that was changed can no longer be read.**  The content that is to be stored can be packed, and
the rebuilt archive lists the script as packed chunks; but what is stored for it are no chunks. -/
theorem rebuild_breaks_script :
    ofBytes scriptFiles = .ok scriptFilesOpened ∧
    scriptFilesOpened.wanted [("A.TOT", [119, 120, 121, 122])] "A.TOT" = .ok [119, 120, 121, 122] ∧
    rebuild scriptFilesOpened ⟨3, 2, 2001, 4, 5, 6⟩ ([("A.TOT", [119, 120, 121, 122])] : Table String Bytes)
      false = .ok (scriptFilesChanged, []) ∧
    ∃ b, ofBytes scriptFilesChanged = .ok b ∧
      b.index = [("A.TOT", ⟨46, 9, chunked, none⟩), ("B.TOT", ⟨56, 11, chunked, none⟩)] ∧
      b.read "A.TOT" = .error (.ended .group) := by
  refine ⟨ofBytes_scriptFiles, by decide +kernel, rebuild_scriptFiles, ⟨scriptFilesChanged, .first, _⟩, ?_, rfl, ?_⟩
  · exact eq_ok_of_toOption (by decide +kernel)
  · decide +kernel

end AdventureKit.Archive
