import AdventureKit.Proofs.Archive.Header
import AdventureKit.Proofs.Archive.Timestamp

/-!
# The index of the later format

A file of the later format has a header of 32 bytes, the contents, the number of entries and the place of
their records, the names, and the records.  What is written so is read again as the same entries, with
places counted from the start of the file (`ofBytes_datedFile`).  All places depend on the lengths of what
is before them, so the parts of a record have to have their usual lengths (`Details.Regular`).
-/

namespace AdventureKit.Archive

/-- Details that fill their fields and no more. -/
structure Details.Regular (d : Details) : Prop where
  creator_length : d.creator.length ≤ 8
  creator_zero : ∀ c ∈ d.creator.toList, c.toNat ≠ 0
  unknown_length : d.unknown.length = 5
  modified_valid : d.modified.isValid = true
  modified_year : d.modified.FourDigitYear
  created_valid : d.created.isValid = true
  created_year : d.created.FourDigitYear

/-- A name that ends with its zero, and the details of its entry. -/
structure Recordable (name : String) (e : Entry) : Prop where
  name_zero : ∀ c ∈ name.toList, c.toNat ≠ 0
  details : ∀ d, e.details = some d → d.Regular

/-! ### One record -/

/-- The fields of a record whose name is stored at `namePlace`. -/
def recordFields (namePlace : Nat) (e : Entry) (d : Details) : List Bytes :=
  [Bytes.ofNatLE 4 namePlace, Bytes.ofAscii d.modified.toString, Bytes.ofAscii d.created.toString,
    (Bytes.ofAscii d.creator).padTo 8, Bytes.ofNatLE 4 e.size, Bytes.ofNatLE 4 d.contentSize, d.unknown,
    Bytes.ofNatLE 4 (datedHeaderSize + e.offset), Bytes.ofNatLE 4 e.compression]

/-- What is known of a record that was written. -/
structure RecordWritten (namePlace : Nat) (e : Entry) (d : Details) : Prop where
  place_lt : namePlace < Bytes.limit 4
  creator_ascii : ∀ c ∈ d.creator.toList, c.toNat < 128
  size_lt : e.size < Bytes.limit 4
  contentSize_lt : d.contentSize < Bytes.limit 4
  offset_lt : datedHeaderSize + e.offset < Bytes.limit 4
  compression_lt : e.compression < Bytes.limit 4

section Record

variable {namePlace : Nat} {name : String} {e : Entry} {d : Details} {record : Bytes}

theorem datedRecord_eq_ok (h : datedRecord namePlace e d = .ok record) (hd : d.Regular) :
    RecordWritten namePlace e d ∧ record = (recordFields namePlace e d).flatten := by
  obtain ⟨place, hplace, h⟩ := bind_eq_ok.1 h
  obtain ⟨creator, hcreator, h⟩ := bind_eq_ok.1 h
  obtain ⟨size, hsize, h⟩ := bind_eq_ok.1 h
  obtain ⟨contentSize, hcontentSize, h⟩ := bind_eq_ok.1 h
  obtain ⟨offset, hoffset, h⟩ := bind_eq_ok.1 h
  obtain ⟨compression, hcompression, h⟩ := bind_eq_ok.1 h
  cases h
  obtain ⟨ascii, hascii, hpad⟩ := bind_eq_ok.1 hcreator
  obtain ⟨hall, rfl⟩ := asciiBytes_eq_ok hascii
  cases hpad
  have hsum : (e.offset : Int) + (datedHeaderSize : Int) = ((datedHeaderSize + e.offset : Nat) : Int) := by
    omega
  rw [hsum] at hoffset
  obtain ⟨hplace_lt, rfl⟩ := Bytes.putLE_eq_ok hplace
  obtain ⟨hsize_lt, rfl⟩ := Bytes.putLE_eq_ok hsize
  obtain ⟨hcontent_lt, rfl⟩ := Bytes.putLE_eq_ok hcontentSize
  obtain ⟨hoffset_lt, rfl⟩ := Bytes.putLE_eq_ok hoffset
  obtain ⟨hkind_lt, rfl⟩ := Bytes.putLE_eq_ok hcompression
  have hfield : ((Bytes.ofAscii d.creator).padTo 8).take 8 = (Bytes.ofAscii d.creator).padTo 8 := by
    refine List.take_of_length_le (Nat.le_of_eq (Bytes.length_padTo ?_))
    rw [Bytes.length_ofAscii]
    exact hd.creator_length
  refine ⟨⟨hplace_lt, hall, hsize_lt, hcontent_lt, hoffset_lt, hkind_lt⟩, ?_⟩
  rw [hfield, recordFields]
  simp only [List.flatten_cons, List.flatten_nil, List.append_nil, List.append_assoc]

/-- The lengths of the fields. -/
theorem Details.Regular.lengths (hd : d.Regular) (namePlace : Nat) (e : Entry) :
    (recordFields namePlace e d).map List.length = [4, 14, 14, 8, 4, 4, 5, 4, 4] := by
  have hcreator : (Bytes.padTo 8 (Bytes.ofAscii d.creator)).length = 8 := by
    refine Bytes.length_padTo ?_
    rw [Bytes.length_ofAscii]
    exact hd.creator_length
  simp only [recordFields, List.map_cons, List.map_nil, Bytes.length_ofNatLE, Bytes.length_ofAscii,
    Timestamp.length_toString hd.modified_valid hd.modified_year,
    Timestamp.length_toString hd.created_valid hd.created_year, hcreator, hd.unknown_length]

theorem length_recordFields (hd : d.Regular) : (recordFields namePlace e d).flatten.length = datedRecordSize := by
  rw [List.length_flatten, hd.lengths]
  rfl

/-- A field of a written record, by its number. -/
theorem slice_recordFields (hd : d.Regular) {i start length : Nat} {part : Bytes}
    (hi : (recordFields namePlace e d)[i]? = some part)
    (hstart : ([4, 14, 14, 8, 4, 4, 5, 4, 4].take i).foldr (· + ·) 0 = start)
    (hlength : ([4, 14, 14, 8, 4, 4, 5, 4, 4] : List Nat)[i]? = some length) (more : Bytes) :
    Bytes.slice start (start + length) ((recordFields namePlace e d).flatten ++ more) = part := by
  refine Bytes.slice_flatten hi ?_ ?_ more
  · rw [List.length_flatten, List.map_take, hd.lengths, List.sum_eq_foldr]
    exact hstart
  · rw [← hd.lengths namePlace e, List.getElem?_map, hi] at hlength
    exact Option.some.inj hlength

theorem dword_field {bs : Bytes} {n : Nat} (h : bs = Bytes.ofNatLE 4 n) (hn : n < Bytes.limit 4) :
    Bytes.dword bs = n := by
  rw [h, ← List.append_nil (Bytes.ofNatLE 4 n), Bytes.dword_ofNatLE hn]

/-- A written record is read again. -/
theorem readDatedRecord_eq {data more : Bytes} {place : Nat} (hw : RecordWritten namePlace e d) (hd : d.Regular)
    (hdetails : e.details = some d) (hrecord : data.drop place = (recordFields namePlace e d).flatten ++ more)
    (hascii : ∀ c ∈ name.toList, c.toNat < 128) (hzero : ∀ c ∈ name.toList, c.toNat ≠ 0) {others : Bytes}
    (hname : data.drop namePlace = Bytes.ofAscii name ++ 0 :: others) :
    readDatedRecord data place = .ok (name, e.behind datedHeaderSize) := by
  have hfield : ∀ (i start length : Nat) {part : Bytes}, (recordFields namePlace e d)[i]? = some part →
      ([4, 14, 14, 8, 4, 4, 5, 4, 4].take i).foldr (· + ·) 0 = start →
      ([4, 14, 14, 8, 4, 4, 5, 4, 4] : List Nat)[i]? = some length →
      Bytes.slice start (start + length) (data.drop place) = part := by
    intro i start length part hi hstart hlength
    rw [hrecord]
    exact slice_recordFields hd hi hstart hlength more
  have hplace : Bytes.dword (Bytes.slice 0 (0 + 4) (data.drop place)) = namePlace :=
    dword_field (hfield 0 0 4 rfl rfl rfl) hw.place_lt
  have hsize : Bytes.dword (Bytes.slice 40 (40 + 4) (data.drop place)) = e.size :=
    dword_field (hfield 4 40 4 rfl rfl rfl) hw.size_lt
  have hcontentSize : Bytes.dword (Bytes.slice 44 (44 + 4) (data.drop place)) = d.contentSize :=
    dword_field (hfield 5 44 4 rfl rfl rfl) hw.contentSize_lt
  have hoffset : Bytes.dword (Bytes.slice 53 (53 + 4) (data.drop place)) = datedHeaderSize + e.offset :=
    dword_field (hfield 7 53 4 rfl rfl rfl) hw.offset_lt
  have hcompression : Bytes.dword (Bytes.slice 57 (57 + 4) (data.drop place)) = e.compression :=
    dword_field (hfield 8 57 4 rfl rfl rfl) hw.compression_lt
  have hunknown : Bytes.slice 48 (48 + 5) (data.drop place) = d.unknown := hfield 6 48 5 rfl rfl rfl
  have hmodified : Utf8.decode (Bytes.slice 4 (4 + 14) (data.drop place)) =
      .ok (Timestamp.text d.modified.toString) := by
    rw [hfield 1 4 14 rfl rfl rfl]
    exact Utf8.decode_ofAscii (Timestamp.ascii_toString hd.modified_valid hd.modified_year)
  have hcreated : Utf8.decode (Bytes.slice 18 (18 + 14) (data.drop place)) =
      .ok (Timestamp.text d.created.toString) := by
    rw [hfield 2 18 14 rfl rfl rfl]
    exact Utf8.decode_ofAscii (Timestamp.ascii_toString hd.created_valid hd.created_year)
  have hcreator : Utf8.decodeString ((Bytes.slice 32 (32 + 8) (data.drop place)).takeWhile (· != 0)) =
      .ok d.creator := by
    rw [hfield 3 32 8 rfl rfl rfl, Bytes.takeWhile_padTo hw.creator_ascii hd.creator_zero]
    exact Utf8.decodeString_ofAscii hw.creator_ascii
  have hnameRead : Utf8.decodeString
      ((data.drop (Bytes.dword (Bytes.slice 0 (0 + 4) (data.drop place)))).takeWhile (· != 0)) = .ok name := by
    rw [hplace, hname, Bytes.takeWhile_ofAscii hascii hzero rfl]
    exact Utf8.decodeString_ofAscii hascii
  refine bind_eq_ok.2 ⟨_, hmodified, bind_eq_ok.2 ⟨d.modified, ?_, bind_eq_ok.2 ⟨_, hcreated,
    bind_eq_ok.2 ⟨d.created, ?_, bind_eq_ok.2 ⟨d.creator, hcreator, bind_eq_ok.2 ⟨name, hnameRead, ?_⟩⟩⟩⟩⟩⟩
  · exact Timestamp.ofText_toString hd.modified_valid hd.modified_year
  · exact Timestamp.ofText_toString hd.created_valid hd.created_year
  · dsimp only
    rw [hsize, hcontentSize, hoffset, hcompression, hunknown, Entry.behind, hdetails]
    rfl

end Record

/-! ### All records -/

/-- What is written for the first entry of an index, and for the others. -/
theorem datedIndex_cons_eq_ok {place : Nat} {name : String} {e : Entry} {index : List (String × Entry)}
    {names records : Bytes} (h : datedIndex place ((name, e) :: index) = .ok (names, records))
    (hd : ∀ d, e.details = some d → d.Regular) :
    ∃ d names' records', e.details = some d ∧ (∀ c ∈ name.toList, c.toNat < 128) ∧ RecordWritten place e d ∧
      datedIndex (place + name.length + 1) index = .ok (names', records') ∧
      names = Bytes.ofAscii name ++ 0 :: names' ∧ records = (recordFields place e d).flatten ++ records' := by
  obtain ⟨_, -, h⟩ := bind_eq_ok.1 h
  obtain ⟨written, hwritten, h⟩ := bind_eq_ok.1 h
  obtain ⟨hascii, rfl⟩ := asciiBytes_eq_ok hwritten
  cases hdetails : e.details with
  | none =>
    simp only [hdetails] at h
    cases h
  | some d =>
    simp only [hdetails] at h
    obtain ⟨record, hrecord, h⟩ := bind_eq_ok.1 h
    obtain ⟨⟨names', records'⟩, hindex, h⟩ := bind_eq_ok.1 h
    cases h
    obtain ⟨hw, rfl⟩ := datedRecord_eq_ok hrecord (hd d hdetails)
    exact ⟨d, names', records', rfl, hascii, hw, hindex, rfl, rfl⟩

/-- Entries that were written have details. -/
theorem exists_details_of_datedIndex {index : List (String × Entry)} {place : Nat} {written : Bytes × Bytes}
    (h : datedIndex place index = .ok written) (hr : ∀ p ∈ index, Recordable p.1 p.2) :
    ∀ p ∈ index, ∃ d, p.2.details = some d := by
  induction index generalizing place written with
  | nil => simp
  | cons p index ih =>
    rw [List.forall_mem_cons] at hr
    obtain ⟨d, _, _, hdetails, -, -, hindex, -, -⟩ := datedIndex_cons_eq_ok h hr.1.details
    exact List.forall_mem_cons.2 ⟨⟨d, hdetails⟩, ih hindex hr.2⟩

/-- Records that were written are read again, wherever they and their names are in the data. -/
theorem readDatedRecords_of_datedIndex {index : List (String × Entry)} {place : Nat} {names records : Bytes}
    (h : datedIndex place index = .ok (names, records)) (hr : ∀ p ∈ index, Recordable p.1 p.2)
    (front middle : Bytes) (hfront : front.length = place) :
    readDatedRecords (front ++ (names ++ (middle ++ records))) index.length
        (place + names.length + middle.length) =
      .ok (index.map fun p => (p.1, p.2.behind datedHeaderSize)) := by
  induction index generalizing place names records front middle with
  | nil => rfl
  | cons p index ih =>
    obtain ⟨name, e⟩ := p
    rw [List.forall_mem_cons] at hr
    obtain ⟨d, names', records', hdetails, hascii, hw, hindex, rfl, rfl⟩ := datedIndex_cons_eq_ok h hr.1.details
    have hd := hr.1.details d hdetails
    have hlength : (recordFields place e d).flatten.length = datedRecordSize := length_recordFields hd
    generalize hdata : front ++ (Bytes.ofAscii name ++ 0 :: names' ++
      (middle ++ ((recordFields place e d).flatten ++ records'))) = data
    have hrecord : data.drop (place + (Bytes.ofAscii name ++ 0 :: names').length + middle.length) =
        (recordFields place e d).flatten ++ records' := by
      rw [← hdata, ← List.append_assoc, ← List.append_assoc, List.drop_left']
      rw [List.length_append, List.length_append, hfront]
    have hname : data.drop place = Bytes.ofAscii name ++ 0 :: (names' ++
        (middle ++ ((recordFields place e d).flatten ++ records'))) := by
      rw [← hdata, List.drop_left' hfront, List.append_assoc]
      rfl
    have hone := readDatedRecord_eq hw hd hdetails hrecord hascii hr.1.name_zero hname
    -- the first name goes to what is before the names, and the first record to what is before the records
    have hrest := ih hindex hr.2 (front ++ (Bytes.ofAscii name ++ [0])) (middle ++ (recordFields place e d).flatten)
      (by rw [List.length_append, List.length_append, Bytes.length_ofAscii, hfront]; rfl)
    have hsame : front ++ (Bytes.ofAscii name ++ [0]) ++ (names' ++ (middle ++
        (recordFields place e d).flatten ++ records')) = data := by
      rw [← hdata]
      simp only [List.append_assoc, List.cons_append, List.nil_append]
    have hplace : place + name.length + 1 + names'.length + (middle ++ (recordFields place e d).flatten).length =
        place + (Bytes.ofAscii name ++ 0 :: names').length + middle.length + datedRecordSize := by
      rw [List.length_append, List.length_append, List.length_cons, Bytes.length_ofAscii, hlength]
      omega
    rw [hsame, hplace] at hrest
    exact bind_eq_ok.2 ⟨_, hone, bind_eq_ok.2 ⟨_, hrest, rfl⟩⟩

/-! ### The file -/

variable {now : Timestamp} {index : List (String × Entry)} {contents file : Bytes}

/-- What is before the contents in a file whose index is at `place`. -/
def datedHeader (now : Timestamp) (place : Nat) : Bytes :=
  datedMark ++ (Bytes.ofAscii now.toString ++ (Bytes.ofAscii newCreator).padTo 8) ++ Bytes.ofNatLE 4 place

theorem length_datedHeader (hnow : now.isValid = true) (hyear : now.FourDigitYear) (place : Nat) :
    (datedHeader now place).length = datedHeaderSize := by
  have hmark : datedMark.length = 6 := by decide
  have hcreator : (Bytes.padTo 8 (Bytes.ofAscii newCreator)).length = 8 := by decide
  rw [datedHeader, List.length_append, List.length_append, List.length_append, hmark, hcreator,
    Bytes.length_ofAscii, Timestamp.length_toString hnow hyear, Bytes.length_ofNatLE]
  rfl

/-- The parts of a file. -/
theorem datedFile_eq_ok (h : datedFile now index contents = .ok file) :
    ∃ names records, datedIndex (contents.length + datedHeaderSize + 8) index = .ok (names, records) ∧
      index.length < Bytes.limit 4 ∧ contents.length + datedHeaderSize < Bytes.limit 4 ∧
      contents.length + datedHeaderSize + 8 + names.length < Bytes.limit 4 ∧
      file = datedHeader now (contents.length + datedHeaderSize) ++ (contents ++
        (Bytes.ofNatLE 4 index.length ++ (Bytes.ofNatLE 4 (contents.length + datedHeaderSize + 8 + names.length) ++
          (names ++ records)))) := by
  obtain ⟨indexPlace, hindexPlace, h⟩ := bind_eq_ok.1 h
  obtain ⟨creator, hcreator, h⟩ := bind_eq_ok.1 h
  obtain ⟨⟨names, records⟩, hindex, h⟩ := bind_eq_ok.1 h
  obtain ⟨count, hcount, h⟩ := bind_eq_ok.1 h
  obtain ⟨recordsPlace, hrecordsPlace, h⟩ := bind_eq_ok.1 h
  cases h
  cases hcreator
  have hsum : ((contents.length + datedHeaderSize : Nat) : Int) + 8 + (names.length : Int) =
      ((contents.length + datedHeaderSize + 8 + names.length : Nat) : Int) := by omega
  rw [hsum] at hrecordsPlace
  obtain ⟨hplace_lt, rfl⟩ := Bytes.putLE_eq_ok hindexPlace
  obtain ⟨hcount_lt, rfl⟩ := Bytes.putLE_eq_ok hcount
  obtain ⟨hrecords_lt, rfl⟩ := Bytes.putLE_eq_ok hrecordsPlace
  refine ⟨names, records, hindex, hcount_lt, hplace_lt, hrecords_lt, ?_⟩
  have htake : ((Bytes.ofAscii newCreator).padTo 8).take 8 = (Bytes.ofAscii newCreator).padTo 8 := by decide
  rw [htake, datedHeader]
  simp only [List.append_assoc]

/-- The archive that a file with this index opens as. -/
def openedDated (file : Bytes) (index : List (String × Entry)) : Archive :=
  ⟨file, .dated, index.map fun p => (p.1, p.2.behind datedHeaderSize)⟩

theorem names_openedDated (file : Bytes) (index : List (String × Entry)) :
    (openedDated file index).names = index.map Prod.fst := by
  rw [names, openedDated, Table.keys, List.map_map]
  rfl

/-- **A file of the later format is read again** as the index that was written. -/
theorem ofBytes_datedFile (h : datedFile now index contents = .ok file) (hnow : now.isValid = true)
    (hyear : now.FourDigitYear) (hr : ∀ p ∈ index, Recordable p.1 p.2) (hn : (index.map Prod.fst).Nodup) :
    ofBytes file = .ok (openedDated file index) := by
  obtain ⟨names, records, hindex, hcount_lt, hplace_lt, hrecords_lt, hfile⟩ := datedFile_eq_ok h
  have hheader := length_datedHeader hnow hyear (contents.length + datedHeaderSize)
  have hmark : file.take 6 = datedMark := by
    rw [hfile, datedHeader, List.append_assoc, List.append_assoc, List.take_left' (by decide)]
  have hplace : Bytes.dword (file.drop 28) = contents.length + datedHeaderSize := by
    rw [hfile, datedHeader, List.append_assoc, List.drop_left', Bytes.dword_ofNatLE hplace_lt]
    rw [List.length_append, List.length_append, Bytes.length_ofAscii, Timestamp.length_toString hnow hyear]
    decide
  have hbehind : file.drop (contents.length + datedHeaderSize) = Bytes.ofNatLE 4 index.length ++
      (Bytes.ofNatLE 4 (contents.length + datedHeaderSize + 8 + names.length) ++ (names ++ records)) := by
    rw [hfile, ← List.append_assoc, List.drop_left']
    rw [List.length_append, hheader, Nat.add_comm]
  -- the names are behind all of this
  have hread := readDatedRecords_of_datedIndex hindex hr (datedHeader now (contents.length + datedHeaderSize) ++
    (contents ++ (Bytes.ofNatLE 4 index.length ++
      Bytes.ofNatLE 4 (contents.length + datedHeaderSize + 8 + names.length)))) [] (by
        simp only [List.length_append, hheader, Bytes.length_ofNatLE]
        omega)
  have hparts : datedHeader now (contents.length + datedHeaderSize) ++ (contents ++ (Bytes.ofNatLE 4 index.length ++
      Bytes.ofNatLE 4 (contents.length + datedHeaderSize + 8 + names.length))) ++ (names ++ ([] ++ records)) =
      file := by
    rw [hfile]
    simp only [List.append_assoc, List.nil_append]
  rw [hparts, List.length_nil, Nat.add_zero] at hread
  have hitems : Table.ofItems (index.map fun p => (p.1, p.2.behind datedHeaderSize)) =
      index.map fun p => (p.1, p.2.behind datedHeaderSize) := by
    refine Table.ofItems_eq_self ?_
    rwa [List.map_map]
  rw [ofBytes, if_pos hmark, hplace, hbehind]
  dsimp only
  rw [Bytes.dword_ofNatLE hcount_lt, List.drop_left' (Bytes.length_ofNatLE 4 _), Bytes.dword_ofNatLE hrecords_lt,
    hread]
  show Except.ok (⟨file, .dated, Table.ofItems _⟩ : Archive) = _
  rw [hitems, openedDated]

/-! ### Archives that were read -/

/-- What is known of an entry of the later format. -/
structure DatedListed (name : String) (e : Entry) : Prop where
  name_zero : ∀ c ∈ name.toList, c.toNat ≠ 0
  details : ∃ d, e.details = some d ∧ d.creator.length ≤ 8 ∧ (∀ c ∈ d.creator.toList, c.toNat ≠ 0) ∧
    d.modified.isValid = true ∧ d.created.isValid = true

theorem zero_notMem_takeWhile (bs : Bytes) : 0 ∉ bs.takeWhile (· != 0) := by
  intro h
  have hzero := List.all_eq_true.1 List.all_takeWhile 0 h
  exact absurd hzero (by decide)

theorem datedListed_of_readDatedRecord {data : Bytes} {place : Nat} {p : String × Entry}
    (h : readDatedRecord data place = .ok p) : DatedListed p.1 p.2 := by
  obtain ⟨_, -, h⟩ := bind_eq_ok.1 h
  obtain ⟨modified, hmodified, h⟩ := bind_eq_ok.1 h
  obtain ⟨_, -, h⟩ := bind_eq_ok.1 h
  obtain ⟨created, hcreated, h⟩ := bind_eq_ok.1 h
  obtain ⟨creator, hcreator, h⟩ := bind_eq_ok.1 h
  obtain ⟨name, hname, h⟩ := bind_eq_ok.1 h
  cases h
  obtain ⟨hlength, hzero⟩ := Utf8.decodeString_eq_ok hcreator
  refine ⟨(Utf8.decodeString_eq_ok hname).2 (zero_notMem_takeWhile _), _, rfl, ?_, hzero (zero_notMem_takeWhile _),
    Timestamp.isValid_of_ofText hmodified, Timestamp.isValid_of_ofText hcreated⟩
  refine Nat.le_trans hlength (Nat.le_trans (List.takeWhile_prefix _).length_le ?_)
  exact List.length_take_le 8 _

theorem datedListed_of_ofBytes {data : Bytes} {a : Archive} (ha : ofBytes data = .ok a)
    (hv : a.version = .dated) : ∀ p ∈ a.index, DatedListed p.1 p.2 := by
  rw [ofBytes] at ha
  split at ha
  · obtain ⟨items, hitems, ha⟩ := bind_eq_ok.1 ha
    cases ha
    have hlisted := forall_mem_of_readEach (P := fun p => DatedListed p.1 p.2)
      (fun _ _ => datedListed_of_readDatedRecord) hitems
    exact fun p hp => hlisted p (Table.mem_of_mem_ofItems hp)
  · obtain ⟨items, -, ha⟩ := bind_eq_ok.1 ha
    cases ha
    cases hv

end AdventureKit.Archive
