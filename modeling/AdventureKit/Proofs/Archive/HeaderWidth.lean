import AdventureKit.Proofs.Archive.Header
import AdventureKit.Proofs.Failing
import Mathlib.Algebra.Ring.Nat
import Mathlib.Data.List.Forall2

/-!
# The width of an index

An index of the first format announces records of one width: places are counted from where it ends if all
records are so wide.  A name that is too long for its field is written in full all the same.  So the index is as
long as announced, and is read again as the entries that were written, just if every name fits in its field
(`headerBytes_reads_back_iff`); it is longer by what the names are too long otherwise.
-/

namespace AdventureKit.Archive

/-- A record of an entry that is no packed chunks, under an ASCII name without zeros. -/
structure HeaderRecord.Plain (r : HeaderRecord) : Prop where
  ascii : ∀ c ∈ r.name.toList, c.toNat < 128
  no_zero : ∀ c ∈ r.name.toList, c.toNat ≠ 0
  not_chunked : isChunkedName r.name.toList = false
  kind : r.compression = 0 ∨ r.compression = 1

/-- The numbers of a record fit in their fields, in an index that ends at `base`. -/
structure HeaderRecord.InRange (base : Nat) (r : HeaderRecord) : Prop where
  size_nonneg : 0 ≤ r.size
  size_lt : r.size < Bytes.limit 4
  offset_nonneg : 0 ≤ r.offset + base
  offset_lt : r.offset + base < Bytes.limit 4

/-- An item is what was written as a record of an index that ends at `base`. -/
structure GivesBack (base : Nat) (r : HeaderRecord) (p : String × Entry) : Prop where
  name_eq : p.1 = r.name
  offset_eq : (p.2.offset : Int) = r.offset + base
  size_eq : (p.2.size : Int) = r.size
  compression_eq : (p.2.compression : Int) = r.compression

/-- The entry of a record of an index that ends at `base`. -/
def HeaderRecord.item (base : Nat) (r : HeaderRecord) : String × Entry :=
  (r.name, ⟨(r.offset + base).toNat, r.size.toNat, r.compression.toNat, none⟩)

/-! ### Records -/

theorem putLE_range {width : Nat} {n : Int} {bs : Bytes} (h : Bytes.putLE width n = .ok bs) :
    0 ≤ n ∧ n < Bytes.limit width := by
  rw [Bytes.putLE] at h
  split at h
  · assumption
  · cases h

variable {base : Nat} {r : HeaderRecord}

theorem HeaderRecord.inRange_of_bytes {bs : Bytes} (h : r.bytes base = .ok bs) : r.InRange base := by
  obtain ⟨_, -, h⟩ := bind_eq_ok.1 h
  obtain ⟨_, hsize, h⟩ := bind_eq_ok.1 h
  obtain ⟨_, hoffset, -⟩ := bind_eq_ok.1 h
  exact ⟨(putLE_range hsize).1, (putLE_range hsize).2, (putLE_range hoffset).1, (putLE_range hoffset).2⟩

theorem HeaderRecord.Plain.written (h : r.Plain) (hr : r.InRange base) : Written 0 (r.item base).1 (r.item base).2 := by
  obtain ⟨hsize, hsize_lt, hoffset, hoffset_lt⟩ := hr
  refine ⟨h.ascii, ?_, ?_, ?_⟩
  · show r.size.toNat < _
    omega
  · show 0 + (r.offset + base).toNat < _
    omega
  · show r.compression.toNat < 256
    rcases h.kind with hk | hk <;> omega

/-- A record whose numbers fit is written, however long its name is. -/
theorem HeaderRecord.Plain.bytes_eq (h : r.Plain) (hr : r.InRange base) :
    r.bytes base = .ok (recordBytes 0 (r.item base).1 (r.item base).2) := by
  have hsize : (r.size.toNat : Int) = r.size := Int.toNat_of_nonneg hr.size_nonneg
  have hoffset : (((r.offset + base).toNat : Nat) : Int) = r.offset + base := Int.toNat_of_nonneg hr.offset_nonneg
  have hkind : (r.compression.toNat : Int) = r.compression := by
    rcases h.kind with hk | hk <;> omega
  rw [← headerRecord_bytes_of_written (h.written hr)]
  simp only [HeaderRecord.bytes, HeaderRecord.item, hsize, hoffset, hkind, Int.natCast_zero, Int.add_zero]

theorem length_recordBytes_eq (base : Nat) (name : String) (e : Entry) :
    (recordBytes base name e).length = recordSize + (name.length - nameField) := by
  have hrest : recordSize = nameField + 9 := rfl
  simp only [recordBytes, Bytes.padTo, List.length_append, Bytes.length_ofAscii, List.length_replicate,
    Bytes.length_ofNatLE, List.length_singleton, hrest]
  omega

/-- A name of packed chunks apart, a name that fits is listed as it was written. -/
theorem HeaderRecord.Plain.givesBack (h : r.Plain) (hr : r.InRange base) :
    GivesBack base r (listedItem 0 (r.item base)) := by
  refine ⟨?_, ?_, ?_, ?_⟩
  · show listedName r.name.toList = r.name
    rw [listedName_of_not_chunked h.not_chunked fun c hc => .inl (h.ascii c hc), String.ofList_toList]
  · show ((0 + (r.offset + base).toNat : Nat) : Int) = _
    rw [Nat.zero_add]
    exact Int.toNat_of_nonneg hr.offset_nonneg
  · exact Int.toNat_of_nonneg hr.size_nonneg
  · have hkind : (listedItem 0 (r.item base)).2.compression = if r.compression.toNat = 0 then 0 else 1 := by
      show (((r.item base).2.behind 0).listedAs r.name).compression = _
      rw [Entry.compression_listedAs, h.not_chunked]
      rfl
    rw [hkind]
    rcases h.kind with hk | hk
    · rw [hk]
      rfl
    · rw [hk]
      rfl

/-! ### The index -/

variable {records : List HeaderRecord}

theorem length_recordsBytes_eq (base : Nat) (index : List (String × Entry)) :
    (recordsBytes base index).length =
      recordSize * index.length + (index.map fun p => p.1.length - nameField).sum := by
  induction index with
  | nil => rfl
  | cons p index ih =>
    rw [recordsBytes, List.flatMap_cons, List.length_append, length_recordBytes_eq, ← recordsBytes, ih,
      List.length_cons, List.map_cons, List.sum_cons, Nat.mul_succ]
    omega

theorem sum_tooLong_eq_zero_iff (records : List HeaderRecord) :
    (records.map fun r => r.name.length - nameField).sum = 0 ↔ ∀ r ∈ records, r.name.length ≤ nameField := by
  induction records with
  | nil => simp
  | cons r records ih =>
    rw [List.map_cons, List.sum_cons, List.forall_mem_cons, ← ih]
    omega

/-- An index of plain records is written just if its numbers fit in their fields. -/
theorem headerBytes_eq_ok_iff (h : ∀ r ∈ records, r.Plain) {header : Bytes} :
    headerBytes records = .ok header ↔
      (records.length < Bytes.limit 2 ∧ ∀ r ∈ records, r.InRange (indexEnd records.length)) ∧
        header = Bytes.ofNatLE 2 records.length ++
          recordsBytes 0 (records.map (HeaderRecord.item (indexEnd records.length))) := by
  have hparts : (∀ r ∈ records, r.InRange (indexEnd records.length)) →
      records.mapM (HeaderRecord.bytes (indexEnd records.length)) =
        .ok (records.map fun r => recordBytes 0 (r.item (indexEnd records.length)).1
          (r.item (indexEnd records.length)).2) :=
    fun hr => mapM_eq_pure fun r hmem => (h r hmem).bytes_eq (hr r hmem)
  have hflat : (records.map fun r => recordBytes 0 (r.item (indexEnd records.length)).1
      (r.item (indexEnd records.length)).2).flatten =
      recordsBytes 0 (records.map (HeaderRecord.item (indexEnd records.length))) := by
    rw [recordsBytes, List.flatMap_map]
    rfl
  constructor
  · intro hheader
    obtain ⟨count, hcount, hheader⟩ := bind_eq_ok.1 hheader
    obtain ⟨parts, hmap, hheader⟩ := bind_eq_ok.1 hheader
    obtain ⟨hlt, rfl⟩ := Bytes.putLE_eq_ok hcount
    have hrange : ∀ r ∈ records, r.InRange (indexEnd records.length) := by
      intro r hr
      cases hbytes : r.bytes (indexEnd records.length) with
      | ok bs => exact r.inRange_of_bytes hbytes
      | error e =>
        obtain ⟨e', he'⟩ := exists_mapM_eq_error hr hbytes
        cases hmap.symm.trans he'
    cases hmap.symm.trans (hparts hrange)
    cases hheader
    exact ⟨⟨hlt, hrange⟩, by rw [hflat]⟩
  · rintro ⟨⟨hlt, hrange⟩, rfl⟩
    rw [← hflat]
    exact bind_eq_ok.2 ⟨_, Bytes.putLE_of_lt hlt, bind_eq_ok.2 ⟨_, hparts hrange, rfl⟩⟩

/-- Plain records whose names fit are read again as what was written. -/
theorem readRecords_items (h : ∀ r ∈ records, r.Plain) (hrange : ∀ r ∈ records, r.InRange base)
    (hnames : ∀ r ∈ records, r.name.length ≤ nameField) :
    ∃ items, readRecords records.length (recordsBytes 0 (records.map (HeaderRecord.item base))) = .ok items ∧
      List.Forall₂ (GivesBack base) records items := by
  have hwritten : ∀ p ∈ records.map (HeaderRecord.item base), Written 0 p.1 p.2 := by
    intro p hp
    obtain ⟨r, hr, rfl⟩ := List.mem_map.1 hp
    exact (h r hr).written (hrange r hr)
  have hfits : ∀ p ∈ records.map (HeaderRecord.item base), Fits p.1 := by
    intro p hp
    obtain ⟨r, hr, rfl⟩ := List.mem_map.1 hp
    exact ⟨hnames r hr, (h r hr).no_zero⟩
  have hread := readRecords_recordsBytes hwritten hfits []
  rw [List.length_map, List.append_nil] at hread
  refine ⟨_, hread, ?_⟩
  rw [List.map_map, List.forall₂_map_right_iff, List.forall₂_same]
  exact fun r hr => (h r hr).givesBack (hrange r hr)

/-- **An index is right just if all names fit.**  An index of plain records is written if its numbers fit in
their fields, and it is longer than announced by what its names are too long for theirs.  So it has the announced
length, and is read again as the entries that were written, if and only if no name is too long. -/
theorem headerBytes_reads_back_iff (h : ∀ r ∈ records, r.Plain) :
    ((∃ header, headerBytes records = .ok header) ↔
      records.length < Bytes.limit 2 ∧ ∀ r ∈ records, r.InRange (indexEnd records.length)) ∧
    ∀ header, headerBytes records = .ok header →
      header.length = indexEnd records.length + (records.map fun r => r.name.length - nameField).sum ∧
      ((header.length = indexEnd records.length ∧ ∃ items,
          readRecords header.word (header.drop 2) = .ok items ∧
          List.Forall₂ (GivesBack (indexEnd records.length)) records items) ↔
        ∀ r ∈ records, r.name.length ≤ nameField) := by
  refine ⟨⟨fun ⟨header, hheader⟩ => ((headerBytes_eq_ok_iff h).1 hheader).1,
    fun hfits => ⟨_, (headerBytes_eq_ok_iff h).2 ⟨hfits, rfl⟩⟩⟩, fun header hheader => ?_⟩
  obtain ⟨⟨hlt, hrange⟩, hbytes⟩ := (headerBytes_eq_ok_iff h).1 hheader
  have htwo : (Bytes.ofNatLE 2 records.length).length = 2 := Bytes.length_ofNatLE 2 _
  have hlength : header.length = indexEnd records.length + (records.map fun r => r.name.length - nameField).sum := by
    rw [hbytes, List.length_append, htwo, length_recordsBytes_eq, List.length_map, List.map_map, indexEnd]
    show 2 + (recordSize * records.length + (records.map fun r => r.name.length - nameField).sum) = _
    omega
  refine ⟨hlength, fun hback => ?_, fun hnames => ⟨?_, ?_⟩⟩
  · rw [← sum_tooLong_eq_zero_iff]
    omega
  · rw [hlength, (sum_tooLong_eq_zero_iff records).2 hnames, Nat.add_zero]
  · rw [hbytes, Bytes.word_ofNatLE hlt, List.drop_left' htwo]
    exact readRecords_items h hrange hnames

/-- A short name, and one that fills its field; the second entry lies in the index itself. -/
def fittingRecords : List HeaderRecord :=
  [⟨"A.TXT", 0, 2, 0⟩, ⟨"ABCDEFGHI.TXT", -3, 3, 1⟩]

theorem headerBytes_reads_back_iff_fitting :
    (∀ r ∈ fittingRecords, r.Plain) ∧ ∃ header, headerBytes fittingRecords = .ok header ∧ header.length = 46 ∧
      ∃ items, readRecords header.word (header.drop 2) = .ok items ∧
        List.Forall₂ (GivesBack 46) fittingRecords items := by
  have hplain : ∀ r ∈ fittingRecords, r.Plain := by
    intro r hr
    simp only [fittingRecords, List.mem_cons, List.not_mem_nil, or_false] at hr
    rcases hr with rfl | rfl
    · exact ⟨by simp, by simp, by decide, .inl rfl⟩
    · exact ⟨by simp, by simp, by decide, .inr rfl⟩
  have hnames : ∀ r ∈ fittingRecords, r.name.length ≤ nameField := by decide
  obtain ⟨hwritten, hback⟩ := headerBytes_reads_back_iff hplain
  have hrange : ∀ r ∈ fittingRecords, r.InRange (indexEnd fittingRecords.length) := by
    intro r hr
    simp only [fittingRecords, List.mem_cons, List.not_mem_nil, or_false] at hr
    rcases hr with rfl | rfl
    · exact ⟨by decide, by decide, by decide, by decide⟩
    · exact ⟨by decide, by decide, by decide, by decide⟩
  obtain ⟨header, hheader⟩ := hwritten.2 ⟨by decide, hrange⟩
  obtain ⟨hlength, hitems⟩ := (hback header hheader).2.2 hnames
  exact ⟨hplain, header, hheader, hlength, hitems⟩

/-- One entry whose name has fourteen characters. -/
def longRecord : HeaderRecord := ⟨"ABCDEFGHIJ.TXT", 0, 1, 0⟩

/-- The index that is written for it. -/
def longIndex : Bytes :=
  [1, 0] ++ Bytes.ofAscii "ABCDEFGHIJ.TXT" ++ [1, 0, 0, 0, 24, 0, 0, 0, 0]

/-- **A long name shifts what follows it.**  The index is one byte longer than its own places presume; it is read
with the first thirteen characters of the name, and with the last one as part of the size. -/
theorem headerBytes_shifts_fields :
    longRecord.Plain ∧ headerBytes [longRecord] = .ok longIndex ∧ longIndex.length = indexEnd 1 + 1 ∧
      readRecords longIndex.word (longIndex.drop 2) = .ok [("ABCDEFGHIJ.TX", ⟨0x1800, 0x154, 0, none⟩)] := by
  have hplain : longRecord.Plain := ⟨by simp [longRecord], by simp [longRecord], by decide, .inl rfl⟩
  exact ⟨hplain, eq_ok_of_toOption (by decide), by decide, eq_ok_of_toOption (by decide)⟩

end AdventureKit.Archive
