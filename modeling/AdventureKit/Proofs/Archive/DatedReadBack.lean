import AdventureKit.Proofs.Archive.DatedIndex
import AdventureKit.Proofs.Archive.Draft

/-!
# Reading a rebuilt archive of the later format

The later format records the length of every content, and a reader refuses a content of another length.  Old
entries get the lengths of their new contents, so that every name reads as it should and keeps its dates,
its creator and its kind (`rebuild_dated_reads_back`).  A new file gets the length of the content that was
stored last among the old ones: it can be read only if its own content has that length
(`rebuild_dated_new_files`).
-/

namespace AdventureKit.Archive

/-- Details whose parts have their usual lengths. -/
structure Details.Usual (d : Details) : Prop where
  unknown_length : d.unknown.length = 5
  modified_year : d.modified.FourDigitYear
  created_year : d.created.FourDigitYear

variable {data file : Bytes} {a : Archive} {now : Timestamp} {patches left : Table String Bytes}
  {force : Bool}

/-! ### What is recorded -/

/-- The details of an archive that was read can be written again. -/
theorem regular_of_ofBytes (ha : ofBytes data = .ok a) (hv : a.version = .dated)
    (husual : ∀ p ∈ a.index, ∀ d, p.2.details = some d → d.Usual) {p : String × Entry} (hp : p ∈ a.index) :
    (∀ c ∈ p.1.toList, c.toNat ≠ 0) ∧ ∃ d, p.2.details = some d ∧ d.Regular := by
  obtain ⟨hname, d, hd, hlength, hzero, hmodified, hcreated⟩ := datedListed_of_ofBytes ha hv p hp
  have hu := husual p hp d hd
  exact ⟨hname, d, hd, hlength, hzero, hu.unknown_length, hmodified, hu.modified_year, hcreated, hu.created_year⟩

theorem Details.Regular.withSize {d : Details} (h : d.Regular) (n : Nat) :
    Details.Regular { d with contentSize := n } :=
  ⟨h.creator_length, h.creator_zero, h.unknown_length, h.modified_valid, h.modified_year, h.created_valid,
    h.created_year⟩

/-- That a given text has no zero can be evaluated on its own characters. -/
theorem zero_notMem_of_all {s : String} (h : s.toList.all (fun c => c.toNat != 0) = true) :
    ∀ c ∈ s.toList, c.toNat ≠ 0 := by
  intro c hc
  simpa using List.all_eq_true.1 h c hc

/-- The details of a new file, which has the creator of all new files. -/
theorem Details.Regular.forNew {d : Details} (h : d.Regular) (hnow : now.isValid = true)
    (hyear : now.FourDigitYear) (n : Nat) :
    Details.Regular { d with contentSize := n, modified := now, creator := newCreator } where
  creator_length := (by decide : newCreator.length ≤ 8)
  creator_zero := zero_notMem_of_all (by decide : newCreator.toList.all (fun c => c.toNat != 0) = true)
  unknown_length := h.unknown_length
  modified_valid := hnow
  modified_year := hyear
  created_valid := h.created_valid
  created_year := h.created_year

/-- Stored bytes of a draft lie in the file that was written for it. -/
theorem Lies.in_datedFile {index : List (String × Entry)} {contents stored : Bytes} {m : Entry}
    (h : Lies contents m stored) (hfile : datedFile now index contents = .ok file) (hnow : now.isValid = true)
    (hyear : now.FourDigitYear) : Lies file (m.behind datedHeaderSize) stored := by
  obtain ⟨names, records, -, -, -, -, hparts⟩ := datedFile_eq_ok hfile
  have hlies := (h.append (Bytes.ofNatLE 4 index.length ++
    (Bytes.ofNatLE 4 (contents.length + datedHeaderSize + 8 + names.length) ++ (names ++ records)))).behind
      (datedHeader now (contents.length + datedHeaderSize))
  rwa [length_datedHeader hnow hyear, ← hparts] at hlies

/-- A content that is not packed has to have the recorded length. -/
theorem Lies.content_plain {stored : Bytes} {e : Entry} {d : Details} (h : Lies data e stored)
    (hzero : e.compression = 0) (hd : e.details = some d) :
    e.content data = if stored.length = d.contentSize then .ok stored
      else .error (.disagreement .entryLength) := by
  rw [Entry.content, h.stored_eq, hd, hzero, ← h.size_eq]
  rfl

/-- What is recorded of a new file: the length of the content that the last name of the archive has now. -/
theorem newDetails_eq_some {last : Option (Entry × Nat)} (hlast : IsLast a patches a.index last) {d : Details}
    (hd : newDetails a now last = some d) :
    ∃ name e content old, a.index.getLast? = some (name, e) ∧ a.wanted patches name = .ok content ∧
      e.details = some old ∧
      d = { old with contentSize := content.length, modified := now, creator := newCreator } := by
  unfold newDetails at hd
  split at hd
  · obtain ⟨name, content, hname, hwanted, rfl⟩ := hlast
    obtain ⟨old, hold, rfl⟩ := Option.map_eq_some_iff.1 hd
    exact ⟨name, _, content, old, hname, hwanted, hold, rfl⟩
  · cases hd

/-! ### The rebuilt archive -/

/-- A draft with the entries of the archive, one with the new files too, and the file that was written for
it. -/
structure DatedRebuilt (a : Archive) (now : Timestamp) (patches : Table String Bytes) (force : Bool)
    (left : Table String Bytes) (file : Bytes) (draft draft' : Draft) (last : Option (Entry × Nat)) : Prop where
  sound : draft.Sound a patches force a.index
  isLast : IsLast a patches a.index last
  added : draft.Added (newDetails a now last) left draft'
  written : datedFile now draft'.index draft'.contents = .ok file
  index_eq : draft.index = a.index.map fun p => (p.1, draft.placed p.2)
  keys_eq : draft'.index.keys = a.names ++ left.keys
  nodup : draft'.index.keys.Nodup

/-- The parts of a rebuild in the later format. -/
theorem datedRebuilt_of_rebuild (ha : ofBytes data = .ok a) (hv : a.version = .dated)
    (hc : ∀ p ∈ a.index, p.2.compression ≠ chunked) (h : rebuild a now patches force = .ok (file, left)) :
    left = patches.without a.names ∧
      ∃ draft draft' last, DatedRebuilt a now patches force left file draft draft' last := by
  have hn := nodup_names_of_ofBytes ha
  obtain ⟨hleft, draft, draft', last, hsound, hlast, hadded, hfile⟩ := draft_of_rebuild hn h
  simp only [hv] at hfile
  have hindex : draft.index = a.index.map fun p => (p.1, draft.placed p.2) := by
    have hslots : (a.index.map fun p => (slotName a.index p, draft.placed p.2)) =
        a.index.map fun p => (p.1, draft.placed p.2) :=
      List.map_congr_left fun p hp => by rw [slotName_eq (hc p hp)]
    rw [hsound.index_eq, hslots, Table.ofItems_eq_self]
    rwa [List.map_map]
  have hkeys : draft.index.keys = a.names := by
    rw [hindex, Table.keys, List.map_map]
    rfl
  obtain ⟨news, hnews, hnewKeys, -⟩ := hadded.index_eq
  refine ⟨hleft, draft, draft', last, hsound, hlast, hadded, hfile, hindex, ?_, hadded.nodup ?_⟩
  · rw [hnews, Table.keys_append, hkeys, hnewKeys]
  · rw [hkeys]
    exact hn

namespace DatedRebuilt

variable {draft draft' : Draft} {last : Option (Entry × Nat)}

/-- All entries of the draft can be written and read again. -/
theorem recordable (hb : DatedRebuilt a now patches force left file draft draft' last) (ha : ofBytes data = .ok a)
    (hv : a.version = .dated) (husual : ∀ p ∈ a.index, ∀ d, p.2.details = some d → d.Usual)
    (hnow : now.isValid = true) (hyear : now.FourDigitYear)
    (hnew : ∀ name ∈ left.keys, ∀ c ∈ name.toList, c.toNat ≠ 0) : ∀ p ∈ draft'.index, Recordable p.1 p.2 := by
  obtain ⟨news, hnews, hkeys, hall⟩ := hb.added.index_eq
  rw [hnews, hb.index_eq]
  refine List.forall_mem_append.2 ⟨?_, ?_⟩
  · rw [List.forall_mem_map]
    intro p hp
    obtain ⟨hname, d, hd, hregular⟩ := regular_of_ofBytes ha hv husual hp
    obtain ⟨m, hm⟩ := hb.sound.stored p hp
    obtain ⟨_, content, _, -, -, hmoved, -⟩ := hb.sound.keeps p.2 m hm
    refine ⟨hname, fun d' hd' => ?_⟩
    rw [Draft.placed_eq hm, hmoved, Entry.moved, hd] at hd'
    cases hd'
    exact hregular.withSize content.length
  · intro p hp
    refine ⟨hnew p.1 (hkeys ▸ List.mem_map_of_mem hp), fun d hd => ?_⟩
    rw [(hall p hp).2] at hd
    obtain ⟨name, e, content, old, hlast, -, hold, rfl⟩ := newDetails_eq_some hb.isLast hd
    obtain ⟨-, d, hd, hregular⟩ := regular_of_ofBytes ha hv husual (List.mem_of_getLast? hlast)
    rw [hold] at hd
    cases hd
    exact hregular.forNew hnow hyear content.length

/-- What is read under a name of the draft. -/
theorem read_opened (hb : DatedRebuilt a now patches force left file draft draft' last) {name : String}
    {m : Entry} (hmem : (name, m) ∈ draft'.index) :
    (openedDated file draft'.index).index.get? name = some (m.behind datedHeaderSize) ∧
      (openedDated file draft'.index).read name = (m.behind datedHeaderSize).content file := by
  have hget : (openedDated file draft'.index).index.get? name = some (m.behind datedHeaderSize) := by
    refine Table.get?_of_mem ?_ (List.mem_map.2 ⟨(name, m), hmem, rfl⟩)
    rw [← names, names_openedDated]
    exact hb.nodup
  exact ⟨hget, by rw [Archive.read, hget]; rfl⟩

/-- An old name reads as the first name of its entry was to read, and only the length of the content changes
in what is recorded. -/
theorem read_old (hb : DatedRebuilt a now patches force left file draft draft' last)
    (hc : ∀ p ∈ a.index, p.2.compression ≠ chunked) (hnow : now.isValid = true) (hyear : now.FourDigitYear)
    {p : String × Entry} (hp : p ∈ a.index) {d : Details} (hd : p.2.details = some d) :
    ∃ first content e, a.index.find? (fun q => q.2 == p.2) = some (first, p.2) ∧
      a.wanted patches first = .ok content ∧ (openedDated file draft'.index).read p.1 = .ok content ∧
      (openedDated file draft'.index).index.get? p.1 = some e ∧ e.compression = p.2.compression ∧
      e.details = some { d with contentSize := content.length } := by
  obtain ⟨m, hm⟩ := hb.sound.stored p hp
  obtain ⟨first, content, stored, hfirst, hmade, hmoved, hlies⟩ := hb.sound.keeps p.2 m hm
  obtain ⟨news, hnews, -, -⟩ := hb.added.index_eq
  obtain ⟨more, hmore⟩ := hb.added.contents_eq
  have hmem : (p.1, m) ∈ draft'.index := by
    rw [hnews, hb.index_eq]
    exact List.mem_append_left _ (List.mem_map.2 ⟨p, hp, by rw [Draft.placed_eq hm]⟩)
  have hdetails : m.details = some { d with contentSize := content.length } := by
    rw [hmoved, Entry.moved, hd]
    rfl
  have hkind : m.compression = p.2.compression := by rw [hmoved, Entry.moved]
  have hstored : Lies file (m.behind datedHeaderSize) stored := by
    refine Lies.in_datedFile ?_ hb.written hnow hyear
    rw [hmore]
    exact hlies.append more
  have hunpack : unpackStored m.compression stored = .ok content := by
    rw [hkind]
    exact hmade.unpackStored_eq (hc p hp)
  obtain ⟨hget, hread⟩ := hb.read_opened hmem
  refine ⟨first, content, m.behind datedHeaderSize, hfirst, hmade.wanted_eq, ?_, hget, hkind, hdetails⟩
  rw [hread]
  refine hstored.content_eq_ok hunpack fun d' hd' => ?_
  rw [← Option.some.inj (hdetails.symm.trans hd')]

/-- A new name can be read if its content is as long as the one of the last old name. -/
theorem read_new (hb : DatedRebuilt a now patches force left file draft draft' last) (hnow : now.isValid = true)
    (hyear : now.FourDigitYear) (hr : ∀ p ∈ draft'.index, Recordable p.1 p.2) {p : String × Bytes}
    (hp : p ∈ left) :
    ∃ name content, a.names.getLast? = some name ∧ a.wanted patches name = .ok content ∧
      (openedDated file draft'.index).read p.1 =
        if p.2.length = content.length then .ok p.2 else .error (.disagreement .entryLength) := by
  obtain ⟨m, hmem, hzero, hdetails, hlies⟩ := hb.added.lies p hp
  obtain ⟨_, _, hwritten, -⟩ := datedFile_eq_ok hb.written
  obtain ⟨d, hd⟩ := exists_details_of_datedIndex hwritten hr _ hmem
  obtain ⟨name, e, content, old, hname, hwanted, -, rfl⟩ := newDetails_eq_some hb.isLast (hdetails.symm.trans hd)
  refine ⟨name, content, ?_, hwanted, ?_⟩
  · rw [names, Table.keys, List.getLast?_map, hname]
    rfl
  · rw [(hb.read_opened hmem).2]
    exact (hlies.in_datedFile hb.written hnow hyear).content_plain hzero hd

end DatedRebuilt

/-- **A rebuilt archive of the later format reads as it should.**  If no two names share an entry and all
patches are for names of the archive, then the rebuilt archive has the same names, each with its patch or else
with its old content, and of what is recorded only the lengths of the contents change. -/
theorem rebuild_dated_reads_back (ha : ofBytes data = .ok a) (hv : a.version = .dated)
    (hc : ∀ p ∈ a.index, p.2.compression ≠ chunked) (hd : (a.index.map Prod.snd).Nodup)
    (husual : ∀ p ∈ a.index, ∀ d, p.2.details = some d → d.Usual) (hnow : now.isValid = true)
    (hyear : now.FourDigitYear) (hold : ∀ name ∈ patches.keys, name ∈ a.names)
    (h : rebuild a now patches force = .ok (file, left)) :
    left = [] ∧ ∃ b, ofBytes file = .ok b ∧ b.version = .dated ∧ b.names = a.names ∧
      ∀ p ∈ a.index, ∃ content d e, a.wanted patches p.1 = .ok content ∧ b.read p.1 = .ok content ∧
        p.2.details = some d ∧ b.index.get? p.1 = some e ∧ e.compression = p.2.compression ∧
        e.details = some { d with contentSize := content.length } := by
  obtain ⟨hleft, draft, draft', last, hb⟩ := datedRebuilt_of_rebuild ha hv hc h
  have hnone : left = [] := by
    rw [hleft]
    exact List.filter_eq_nil_iff.2 fun p hp => by simpa using hold p.1 (List.mem_map_of_mem hp)
  subst hnone
  have hr := hb.recordable ha hv husual hnow hyear (by simp [Table.keys])
  have hopened := ofBytes_datedFile hb.written hnow hyear hr hb.nodup
  refine ⟨rfl, _, hopened, rfl, ?_, ?_⟩
  · exact (names_openedDated file draft'.index).trans (hb.keys_eq.trans (List.append_nil _))
  · rintro ⟨name, old⟩ hp
    obtain ⟨-, d, hdetails, -⟩ := regular_of_ofBytes ha hv husual hp
    obtain ⟨first, content, e, hfirst, hwanted, hread, hget, hkind, he⟩ := hb.read_old hc hnow hyear hp hdetails
    rw [find?_entry_of_nodup hd hp] at hfirst
    cases hfirst
    exact ⟨content, d, e, hwanted, hread, hdetails, hget, hkind, he⟩

/-- An archive of the later format with the files `A` and `B`. -/
def datedFiles : Bytes :=
  Bytes.ofAscii "STK2.103022001040506Boozook" ++ [0, 35, 0, 0, 0] ++ [1, 2] ++ [3] ++ [2, 0, 0, 0, 47, 0, 0, 0] ++
    [65, 0, 66, 0] ++
    ([43, 0, 0, 0] ++ Bytes.ofAscii "0101200011223302022001040506Boozook" ++
      [0, 2, 0, 0, 0, 2, 0, 0, 0, 1, 2, 3, 4, 5, 32, 0, 0, 0, 0, 0, 0, 0]) ++
    ([45, 0, 0, 0] ++ Bytes.ofAscii "3112199923595929022000000000Boozook" ++
      [0, 1, 0, 0, 0, 1, 0, 0, 0, 5, 4, 3, 2, 1, 34, 0, 0, 0, 0, 0, 0, 0])

/-- The archive of `datedFiles`. -/
def datedFilesOpened : Archive :=
  ⟨datedFiles, .dated,
    [("A", ⟨32, 2, 0, some ⟨2, ⟨1, 1, 2000, 11, 22, 33⟩, ⟨2, 2, 2001, 4, 5, 6⟩, "Boozook", [1, 2, 3, 4, 5]⟩⟩),
      ("B", ⟨34, 1, 0, some ⟨1, ⟨31, 12, 1999, 23, 59, 59⟩, ⟨29, 2, 2000, 0, 0, 0⟩, "Boozook", [5, 4, 3, 2, 1]⟩⟩)]⟩

theorem ofBytes_datedFiles : ofBytes datedFiles = .ok datedFilesOpened :=
  eq_ok_of_toOption (by decide +kernel)

theorem usual_of_mem_datedFiles : ∀ p ∈ datedFilesOpened.index, ∀ d, p.2.details = some d → d.Usual := by
  intro p hp d hd
  rcases List.mem_cons.1 hp with rfl | hp
  · cases hd
    exact ⟨by decide, by decide, by decide⟩
  · rw [List.mem_singleton] at hp
    subst hp
    cases hd
    exact ⟨by decide, by decide, by decide⟩

theorem rebuild_dated_reads_back_two :
    ofBytes datedFiles = .ok datedFilesOpened ∧
    ∃ file b e, rebuild datedFilesOpened ⟨3, 2, 2001, 4, 5, 6⟩ ([("A", [7, 8, 9])] : Table String Bytes) false =
        .ok (file, []) ∧
      ofBytes file = .ok b ∧ b.names = ["A", "B"] ∧ b.read "A" = .ok [7, 8, 9] ∧ b.index.get? "A" = some e ∧
      e.details = some ⟨3, ⟨1, 1, 2000, 11, 22, 33⟩, ⟨2, 2, 2001, 4, 5, 6⟩, "Boozook", [1, 2, 3, 4, 5]⟩ := by
  have hr : ∃ file, rebuild datedFilesOpened ⟨3, 2, 2001, 4, 5, 6⟩ ([("A", [7, 8, 9])] : Table String Bytes)
      false = .ok (file, []) := exists_eq_ok_of_snd (by decide +kernel)
  obtain ⟨file, h⟩ := hr
  obtain ⟨-, b, hb, -, hnames, hall⟩ := rebuild_dated_reads_back ofBytes_datedFiles rfl (by decide) (by decide)
    usual_of_mem_datedFiles (by decide) (by decide) (by decide) h
  obtain ⟨content, d, e, hwanted, hread, hd, hget, -, he⟩ := hall _ List.mem_cons_self
  cases hwanted
  cases hd
  exact ⟨ofBytes_datedFiles, file, b, e, h, hb, hnames, hread, hget, he⟩

/-- **New files of the later format take the length of another content.**  The rebuilt archive has the old names
and then the new ones; a new name reads as it was given exactly if its content is as long as the one that the
last old name has now, and is refused otherwise. -/
theorem rebuild_dated_new_files (ha : ofBytes data = .ok a) (hv : a.version = .dated)
    (hc : ∀ p ∈ a.index, p.2.compression ≠ chunked)
    (husual : ∀ p ∈ a.index, ∀ d, p.2.details = some d → d.Usual) (hnow : now.isValid = true)
    (hyear : now.FourDigitYear) (hnew : ∀ name ∈ patches.keys, name ∉ a.names → ∀ c ∈ name.toList, c.toNat ≠ 0)
    (h : rebuild a now patches force = .ok (file, left)) :
    left = patches.without a.names ∧ ∃ b, ofBytes file = .ok b ∧ b.version = .dated ∧
      b.names = a.names ++ left.keys ∧
      ∀ p ∈ left, ∃ last content, a.names.getLast? = some last ∧ a.wanted patches last = .ok content ∧
        b.read p.1 = if p.2.length = content.length then .ok p.2 else .error (.disagreement .entryLength) := by
  obtain ⟨hleft, draft, draft', last, hb⟩ := datedRebuilt_of_rebuild ha hv hc h
  have hfresh : ∀ name ∈ left.keys, ∀ c ∈ name.toList, c.toNat ≠ 0 := by
    intro name hname
    rw [hleft] at hname
    obtain ⟨hmem, hnot⟩ := Table.mem_keys_without hname
    exact hnew name hmem hnot
  have hr := hb.recordable ha hv husual hnow hyear hfresh
  have hopened := ofBytes_datedFile hb.written hnow hyear hr hb.nodup
  refine ⟨hleft, _, hopened, rfl, ?_, fun p hp => hb.read_new hnow hyear hr hp⟩
  exact (names_openedDated file draft'.index).trans hb.keys_eq

theorem rebuild_dated_new_files_two :
    ofBytes datedFiles = .ok datedFilesOpened ∧
    ∃ file b, rebuild datedFilesOpened ⟨3, 2, 2001, 4, 5, 6⟩
        ([("C", [7]), ("D", [8, 9])] : Table String Bytes) false = .ok (file, [("C", [7]), ("D", [8, 9])]) ∧
      ofBytes file = .ok b ∧ b.names = ["A", "B", "C", "D"] ∧ b.read "C" = .ok [7] ∧
      b.read "D" = .error (.disagreement .entryLength) := by
  have hr : ∃ file, rebuild datedFilesOpened ⟨3, 2, 2001, 4, 5, 6⟩
      ([("C", [7]), ("D", [8, 9])] : Table String Bytes) false = .ok (file, [("C", [7]), ("D", [8, 9])]) :=
    exists_eq_ok_of_snd (by decide +kernel)
  obtain ⟨file, h⟩ := hr
  have hnew : ∀ name ∈ Table.keys ([("C", [7]), ("D", [8, 9])] : Table String Bytes),
      name.toList.all (fun c => c.toNat != 0) = true := by decide
  obtain ⟨-, b, hb, -, hnames, hall⟩ := rebuild_dated_new_files ofBytes_datedFiles rfl (by decide)
    usual_of_mem_datedFiles (by decide) (by decide)
    (fun name hname _ => zero_notMem_of_all (hnew name hname)) h
  obtain ⟨last, content, hlast, hwanted, hread⟩ := hall ("C", [7]) (by decide)
  obtain ⟨last', content', hlast', hwanted', hread'⟩ := hall ("D", [8, 9]) (by decide)
  cases hlast
  cases hlast'
  cases hwanted
  cases hwanted'
  exact ⟨ofBytes_datedFiles, file, b, h, hb, hnames, hread, hread'⟩

-- The usual lengths are needed.  Here the file ends inside the unknown part of `B`; new files take over that
-- part as it is, so that their records are not where a reader looks for them.
example : (ofBytes (datedFiles.take 159) >>= fun a => a.read "B") = .ok [83] := by decide +kernel

example : (ofBytes (datedFiles.take 159) >>= fun a => do
    let (file, _) ← rebuild a ⟨3, 2, 2001, 4, 5, 6⟩ ([("C", [7])] : Table String Bytes) false
    (← ofBytes file).read "C") = .error .notDate := by decide +kernel

/-- **A new file may be refused.**  The last old file has a content of one byte, so that a new one of two bytes
is stored but cannot be read. -/
theorem rebuild_dated_refuses_new_file :
    ofBytes datedFiles = .ok datedFilesOpened ∧
    ∃ file b, rebuild datedFilesOpened ⟨3, 2, 2001, 4, 5, 6⟩ ([("C", [7, 8])] : Table String Bytes) false =
        .ok (file, [("C", [7, 8])]) ∧
      ofBytes file = .ok b ∧ b.names = ["A", "B", "C"] ∧ b.read "C" = .error (.disagreement .entryLength) := by
  have hrun : ((rebuild datedFilesOpened ⟨3, 2, 2001, 4, 5, 6⟩ ([("C", [7, 8])] : Table String Bytes)
      false).toOption.bind fun p => (ofBytes p.1).toOption.map fun b => (p.2, b.names, b.read "C")) =
      some ([("C", [7, 8])], ["A", "B", "C"], .error (.disagreement .entryLength)) := by decide +kernel
  obtain ⟨⟨file, left⟩, hr, hopened⟩ := Option.bind_eq_some_iff.1 hrun
  obtain ⟨b, hb, hparts⟩ := Option.map_eq_some_iff.1 hopened
  rw [Prod.mk.injEq, Prod.mk.injEq] at hparts
  obtain ⟨rfl, hnames, hread⟩ := hparts
  exact ⟨ofBytes_datedFiles, file, b, eq_ok_of_toOption hr, eq_ok_of_toOption hb, hnames, hread⟩

end AdventureKit.Archive
