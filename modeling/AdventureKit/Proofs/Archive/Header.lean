import AdventureKit.Proofs.Archive.Names
import AdventureKit.Proofs.Bytes
import AdventureKit.Proofs.Table

/-!
# The index of the first format

What is written as the index of a file of the first format is read again as the same entries, with places
counted from the start of the file, under the names that are listed for the written ones
(`ofBytes_firstFile`).  The names have to fit in their field (`Fits`), and the file as a whole must not
start with the mark of the later format (`ShowsMark`).  A name that does not look like one of packed chunks
is listed as it is (`Storable`).
-/

namespace AdventureKit.Archive

/-- A name that its field holds whole, once it is known to be ASCII. -/
structure Fits (name : String) : Prop where
  length_le : name.length ≤ nameField
  no_zero : ∀ c ∈ name.toList, c.toNat ≠ 0

/-- A name that a record of the first format gives back, once it is known to be ASCII. -/
structure Storable (name : String) : Prop where
  length_le : name.length ≤ nameField
  no_zero : ∀ c ∈ name.toList, c.toNat ≠ 0
  not_chunked : isChunkedName name.toList = false

instance (name : String) : Decidable (Storable name) :=
  decidable_of_iff (name.length ≤ nameField ∧ name.toList.all (fun c => c.toNat != 0) = true ∧
      isChunkedName name.toList = false)
    ⟨fun h => ⟨h.1, fun c hc => bne_iff_ne.1 (List.all_eq_true.1 h.2.1 c hc), h.2.2⟩,
      fun h => ⟨h.1, List.all_eq_true.2 fun c hc => bne_iff_ne.2 (h.2 c hc), h.3⟩⟩

theorem Storable.fits {name : String} (h : Storable name) : Fits name :=
  ⟨h.length_le, h.no_zero⟩

/-- What is known of an item that a record gave. -/
structure Listed (name : String) (e : Entry) : Prop where
  no_details : e.details = none
  kind : e.compression = chunked ∧ ChunkListed name ∨ e.compression ≤ 1 ∧ Storable name

/-- An index whose first six bytes are the mark of the later format: its number of names, in two bytes,
and the first name spell it. -/
def ShowsMark (names : List String) : Prop :=
  names.length = 0x5453 ∧ (names.headD "").toList.take 4 = "K2.1".toList

instance (names : List String) : Decidable (ShowsMark names) :=
  inferInstanceAs (Decidable (_ ∧ _))

/-- An entry behind `base` more bytes. -/
def Entry.behind (base : Nat) (e : Entry) : Entry :=
  { e with offset := base + e.offset }

/-- An entry as it is listed with its written name, which tells packed chunks. -/
def Entry.listedAs (name : String) (e : Entry) : Entry :=
  { e with
    compression := if isChunkedName name.toList then chunked else if e.compression = 0 then 0 else 1
    details := none }

@[simp] theorem Entry.offset_listedAs (name : String) (e : Entry) : (e.listedAs name).offset = e.offset := by
  rw [Entry.listedAs]

@[simp] theorem Entry.size_listedAs (name : String) (e : Entry) : (e.listedAs name).size = e.size := by
  rw [Entry.listedAs]

@[simp] theorem Entry.details_listedAs (name : String) (e : Entry) : (e.listedAs name).details = none := by
  rw [Entry.listedAs]

@[simp] theorem Entry.compression_listedAs (name : String) (e : Entry) :
    (e.listedAs name).compression =
      if isChunkedName name.toList then chunked else if e.compression = 0 then 0 else 1 := by
  rw [Entry.listedAs]

/-! ### Names -/

/-- The bytes of ASCII characters are read as these characters. -/
theorem decode_ascii {cs : List Char} (h : ∀ c ∈ cs, c.toNat < 128) :
    CodePage.dosLatin.decode (cs.map fun c => UInt8.ofNat c.toNat) = .ok (cs.map Char.toNat) := by
  induction cs with
  | nil => rfl
  | cons c cs ih =>
    have hc : c.toNat < 128 := h c List.mem_cons_self
    refine mapM_cons_eq_ok.2 ⟨c.toNat, cs.map Char.toNat, ?_,
      ih fun d hd => h d (List.mem_cons_of_mem _ hd), rfl⟩
    rw [CodePage.decodeByte, if_pos, Bytes.toNat_asciiByte hc]
    rw [UInt8.lt_iff_toNat_lt, Bytes.toNat_asciiByte hc]
    exact hc

/-- The code page has no control characters besides the ASCII ones, and no halves of pairs. -/
theorem range_of_decodeByte {b : UInt8} {c : Nat} (h : CodePage.dosLatin.decodeByte b = .ok c) :
    c < 0xD800 ∧ (c < 128 ∨ c ∈ CodePage.dosLatin.upper ∧ 160 ≤ c) ∧ (b ≠ 0 → c ≠ 0) := by
  have hall : ∀ c ∈ CodePage.dosLatin.upper, 160 ≤ c ∧ c < 0xD800 := by decide +kernel
  rw [CodePage.decodeByte] at h
  split at h
  · rename_i hb
    rw [UInt8.lt_iff_toNat_lt] at hb
    cases h
    have h128 : b.toNat < 128 := hb
    refine ⟨by omega, .inl h128, fun hne h0 => hne ?_⟩
    exact UInt8.toNat_inj.1 h0
  · split at h
    · rename_i code hcode
      cases h
      have hmem := List.mem_of_getElem? hcode
      have := hall _ hmem
      exact ⟨this.2, .inr ⟨hmem, this.1⟩, fun _ => by omega⟩
    · cases h

/-- The bytes of a text that was found to be ASCII. -/
theorem asciiBytes_eq_ok {s : String} {bs : Bytes} (h : asciiBytes s = .ok bs) :
    (∀ c ∈ s.toList, c.toNat < 128) ∧ bs = Bytes.ofAscii s := by
  rw [asciiBytes] at h
  split at h
  · rename_i hs
    cases h
    exact ⟨by simpa using hs, rfl⟩
  · cases h

theorem paddedAscii_of_ascii {s : String} (h : ∀ c ∈ s.toList, c.toNat < 128) (width : Nat) :
    paddedAscii width s = .ok ((Bytes.ofAscii s).padTo width) := by
  rw [paddedAscii, asciiBytes, if_pos (by simpa using h)]
  rfl

/-! ### Records -/

/-- The record of an entry in an index that ends at `base`. -/
def recordBytes (base : Nat) (name : String) (e : Entry) : Bytes :=
  (Bytes.ofAscii name).padTo nameField ++ Bytes.ofNatLE 4 e.size ++ Bytes.ofNatLE 4 (base + e.offset)
    ++ [UInt8.ofNat e.compression]

/-- What is known of an entry whose record was written. -/
structure Written (base : Nat) (name : String) (e : Entry) : Prop where
  ascii : ∀ c ∈ name.toList, c.toNat < 128
  size_lt : e.size < Bytes.limit 4
  offset_lt : base + e.offset < Bytes.limit 4
  compression_lt : e.compression < 256

theorem headerRecord_bytes_eq_ok {base : Nat} {name : String} {e : Entry} {bs : Bytes}
    (h : HeaderRecord.bytes base ⟨name, e.offset, e.size, e.compression⟩ = .ok bs) :
    Written base name e ∧ bs = recordBytes base name e := by
  obtain ⟨nameBytes, hname, h⟩ := bind_eq_ok.1 h
  obtain ⟨sizeBytes, hsize, h⟩ := bind_eq_ok.1 h
  obtain ⟨offsetBytes, hoffset, h⟩ := bind_eq_ok.1 h
  obtain ⟨flag, hflag, h⟩ := bind_eq_ok.1 h
  obtain ⟨ascii, hascii, hpad⟩ := bind_eq_ok.1 hname
  obtain ⟨hall, rfl⟩ := asciiBytes_eq_ok hascii
  have hsum : (e.offset : Int) + (base : Int) = ((base + e.offset : Nat) : Int) := by omega
  rw [hsum] at hoffset
  obtain ⟨hsize_lt, rfl⟩ := Bytes.putLE_eq_ok hsize
  obtain ⟨hoffset_lt, rfl⟩ := Bytes.putLE_eq_ok hoffset
  have hbyte : e.compression < 256 ∧ flag = UInt8.ofNat e.compression := by
    rw [Bytes.single] at hflag
    split at hflag
    · rename_i hc
      cases hflag
      exact ⟨Int.ofNat_lt.1 hc.2, by rw [Int.toNat_natCast]⟩
    · cases hflag
  cases hpad
  cases h
  exact ⟨⟨hall, hsize_lt, hoffset_lt, hbyte.1⟩, by rw [hbyte.2, recordBytes]⟩

theorem headerRecord_bytes_of_written {base : Nat} {name : String} {e : Entry} (hw : Written base name e) :
    HeaderRecord.bytes base ⟨name, e.offset, e.size, e.compression⟩ = .ok (recordBytes base name e) := by
  have hsize : Bytes.putLE 4 e.size = .ok (Bytes.ofNatLE 4 e.size) := Bytes.putLE_of_lt hw.size_lt
  have hsum : (e.offset : Int) + (base : Int) = ((base + e.offset : Nat) : Int) := by omega
  have hoffset : Bytes.putLE 4 (e.offset + base : Int) = .ok (Bytes.ofNatLE 4 (base + e.offset)) := by
    rw [hsum]
    exact Bytes.putLE_of_lt hw.offset_lt
  have hflag : Bytes.single e.compression = .ok (UInt8.ofNat e.compression) := by
    have hc := hw.compression_lt
    rw [Bytes.single, if_pos (by omega), Int.toNat_natCast]
  rw [HeaderRecord.bytes, paddedAscii_of_ascii hw.ascii, hsize, hoffset, hflag]
  rfl

theorem length_nameBytes {name : String} (h : name.length ≤ nameField) :
    ((Bytes.ofAscii name).padTo nameField).length = 13 :=
  Bytes.length_padTo (by rw [Bytes.length_ofAscii]; exact h)

theorem Fits.length_field {name : String} (hf : Fits name) :
    ((Bytes.ofAscii name).padTo nameField).length = 13 :=
  length_nameBytes hf.length_le

variable {base : Nat} {name : String} {e : Entry}

section Fields

variable (h : name.length ≤ nameField)
include h

theorem length_recordBytes_of_le : (recordBytes base name e).length = recordSize := by
  simp only [recordBytes, List.length_append, length_nameBytes h, Bytes.length_ofNatLE, List.length_singleton]
  rfl

theorem take_recordBytes : (recordBytes base name e).take nameField = (Bytes.ofAscii name).padTo nameField := by
  simp only [recordBytes, List.append_assoc]
  exact List.take_left' (length_nameBytes h)

theorem size_recordBytes (hw : Written base name e) : Bytes.dword ((recordBytes base name e).drop 13) = e.size := by
  simp only [recordBytes, List.append_assoc]
  rw [List.drop_left' (length_nameBytes h), Bytes.dword_ofNatLE hw.size_lt]

theorem offset_recordBytes (hw : Written base name e) :
    Bytes.dword ((recordBytes base name e).drop 17) = base + e.offset := by
  rw [recordBytes, List.append_assoc,
    List.drop_left' (by rw [List.length_append, length_nameBytes h, Bytes.length_ofNatLE]),
    Bytes.dword_ofNatLE hw.offset_lt]

end Fields

theorem length_recordBytes (hf : Fits name) : (recordBytes base name e).length = recordSize :=
  length_recordBytes_of_le hf.length_le

/-- A written record is read again. -/
theorem readRecord_recordBytes (hw : Written base name e) (hf : Fits name) :
    readRecord (recordBytes base name e) = .ok (listedName name.toList, (e.behind base).listedAs name) := by
  have hfour : ∀ n, (Bytes.ofNatLE 4 n).length = 4 := Bytes.length_ofNatLE 4
  have hraw : ((recordBytes base name e).take nameField).takeWhile (· != 0) = Bytes.ofAscii name := by
    rw [take_recordBytes hf.length_le]
    exact Bytes.takeWhile_padTo hw.ascii hf.no_zero nameField
  have hflag : (recordBytes base name e).drop 21 = [UInt8.ofNat e.compression] := by
    rw [recordBytes, List.drop_left']
    rw [List.length_append, List.length_append, hf.length_field, hfour, hfour]
  have hkind : (if ([UInt8.ofNat e.compression] : Bytes) == [0] then 0 else 1) =
      if e.compression = 0 then 0 else 1 := by
    have hzero : UInt8.ofNat e.compression = 0 ↔ e.compression = 0 := by
      have hlt := hw.compression_lt
      rw [← UInt8.toNat_inj, UInt8.toNat_ofNat']
      show e.compression % 2 ^ 8 = 0 ↔ _
      omega
    simp [hzero]
  have hchars : (name.toList.map Char.toNat).map Char.ofNat = name.toList := by
    rw [List.map_map]
    exact (List.map_congr_left fun c _ => Char.ofNat_toNat c).trans (List.map_id _)
  rw [readRecord, hraw, size_recordBytes hf.length_le hw, offset_recordBytes hf.length_le hw, hflag, Bytes.ofAscii,
    decode_ascii hw.ascii]
  simp only [bind, Except.bind, pure, Except.pure]
  rw [hchars, hkind]
  rfl

/-! ### The index -/

/-- Where an index of `count` records ends. -/
def indexEnd (count : Nat) : Nat :=
  recordSize * count + 2

/-- The records of an index one after the other. -/
def recordsBytes (base : Nat) (index : List (String × Entry)) : Bytes :=
  index.flatMap fun p => recordBytes base p.1 p.2

theorem length_recordsBytes {index : List (String × Entry)} (hf : ∀ p ∈ index, p.1.length ≤ nameField) :
    (recordsBytes base index).length = recordSize * index.length := by
  induction index with
  | nil => rfl
  | cons p index ih =>
    rw [List.forall_mem_cons] at hf
    have hrest := ih hf.2
    rw [recordsBytes] at hrest ⊢
    rw [List.flatMap_cons, List.length_append, length_recordBytes_of_le hf.1, hrest, List.length_cons,
      Nat.mul_succ, Nat.add_comm]

/-- An item as it is listed when it was written in an index that ends at `base`. -/
def listedItem (base : Nat) (p : String × Entry) : String × Entry :=
  (listedName p.1.toList, (p.2.behind base).listedAs p.1)

/-- Written records are read again, whatever follows them. -/
theorem readRecords_recordsBytes {index : List (String × Entry)} (hw : ∀ p ∈ index, Written base p.1 p.2)
    (hf : ∀ p ∈ index, Fits p.1) (tail : Bytes) :
    readRecords index.length (recordsBytes base index ++ tail) = .ok (index.map (listedItem base)) := by
  induction index with
  | nil => rfl
  | cons p index ih =>
    rw [List.forall_mem_cons] at hw hf
    have hlen : (recordBytes base p.1 p.2).length = recordSize := length_recordBytes hf.1
    have hsplit : recordsBytes base (p :: index) ++ tail =
        recordBytes base p.1 p.2 ++ (recordsBytes base index ++ tail) := by
      rw [recordsBytes, List.flatMap_cons, List.append_assoc]
      rfl
    have hrest := ih hw.2 hf.2
    rw [readRecords] at hrest ⊢
    rw [List.length_cons, readEach, hsplit, List.take_left' hlen, List.drop_left' hlen,
      readRecord_recordBytes hw.1 hf.1, hrest]
    rfl

theorem headerRecords_eq_ok {index : List (String × Entry)} {records : List Bytes}
    (h : (index.map fun p => (⟨p.1, p.2.offset, p.2.size, p.2.compression⟩ : HeaderRecord)).mapM
      (HeaderRecord.bytes base) = .ok records) :
    (∀ p ∈ index, Written base p.1 p.2) ∧ records.flatten = recordsBytes base index := by
  induction index generalizing records with
  | nil =>
    cases h
    exact ⟨by simp, rfl⟩
  | cons p index ih =>
    obtain ⟨record, rest, hrecord, hrest, rfl⟩ := mapM_cons_eq_ok.1 h
    obtain ⟨hw, rfl⟩ := headerRecord_bytes_eq_ok hrecord
    obtain ⟨hwrest, hflat⟩ := ih hrest
    refine ⟨List.forall_mem_cons.2 ⟨hw, hwrest⟩, ?_⟩
    rw [List.flatten_cons, hflat]
    rfl

/-- The file of an index that was written. -/
theorem firstFile_eq_ok {index : List (String × Entry)} {contents file : Bytes}
    (h : firstFile index contents = .ok file) :
    index.length < Bytes.limit 2 ∧ (∀ p ∈ index, Written (indexEnd index.length) p.1 p.2) ∧
      file = Bytes.ofNatLE 2 index.length ++ (recordsBytes (indexEnd index.length) index ++ contents) := by
  obtain ⟨header, hheader, h⟩ := bind_eq_ok.1 h
  obtain ⟨count, hcount, hheader⟩ := bind_eq_ok.1 hheader
  obtain ⟨records, hrecords, hheader⟩ := bind_eq_ok.1 hheader
  rw [List.length_map] at hcount hrecords
  obtain ⟨hlt, rfl⟩ := Bytes.putLE_eq_ok hcount
  cases hheader
  cases h
  obtain ⟨hw, hflat⟩ := headerRecords_eq_ok hrecords
  exact ⟨hlt, hw, by rw [hflat, List.append_assoc]; rfl⟩

theorem headerRecords_of_written {index : List (String × Entry)} (hw : ∀ p ∈ index, Written base p.1 p.2) :
    (index.map fun p => (⟨p.1, p.2.offset, p.2.size, p.2.compression⟩ : HeaderRecord)).mapM
      (HeaderRecord.bytes base) = .ok (index.map fun p => recordBytes base p.1 p.2) := by
  induction index with
  | nil => rfl
  | cons p index ih =>
    rw [List.forall_mem_cons] at hw
    exact mapM_cons_eq_ok.2 ⟨_, _, headerRecord_bytes_of_written hw.1, ih hw.2, rfl⟩

/-- An index whose numbers fit in their fields can be written. -/
theorem firstFile_of_written {index : List (String × Entry)} (hlt : index.length < Bytes.limit 2)
    (hw : ∀ p ∈ index, Written (indexEnd index.length) p.1 p.2) (contents : Bytes) : ∃ file, firstFile index contents = .ok file := by
  have hheader : headerBytes
      (index.map fun p => (⟨p.1, p.2.offset, p.2.size, p.2.compression⟩ : HeaderRecord)) =
      .ok (Bytes.ofNatLE 2 index.length ++
        (index.map fun p => recordBytes (indexEnd index.length) p.1 p.2).flatten) := by
    rw [headerBytes, List.length_map]
    exact bind_eq_ok.2 ⟨_, Bytes.putLE_of_lt hlt, bind_eq_ok.2 ⟨_, headerRecords_of_written hw, rfl⟩⟩
  exact ⟨_, bind_eq_ok.2 ⟨_, hheader, rfl⟩⟩

/-! ### The mark of the later format -/

/-- The first four bytes of a record are those of `K2.1` if its name starts so. -/
theorem take_recordBytes_eq_iff (hw : Written base name e) (hf : Fits name) :
    (recordBytes base name e).take 4 = Bytes.ofAscii "K2.1" ↔ name.toList.take 4 = "K2.1".toList := by
  have hlen : name.toList.length ≤ 13 := by
    rw [String.length_toList]
    exact hf.length_le
  have htake : (recordBytes base name e).take 4 =
      (name.toList.map (fun c : Char => UInt8.ofNat c.toNat) ++ List.replicate (13 - name.toList.length) 0).take 4 := by
    have h4 : 4 ≤ ((Bytes.ofAscii name).padTo nameField).length := by
      rw [hf.length_field]
      decide
    simp only [recordBytes, List.append_assoc]
    rw [List.take_append_of_le_length h4, Bytes.padTo, Bytes.length_ofAscii, String.length_toList]
    rfl
  have hback : ∀ cs : List Char, (∀ c ∈ cs, c.toNat < 128) →
      (cs.map fun c => UInt8.ofNat c.toNat).map (fun b => Char.ofNat b.toNat) = cs := by
    intro cs hcs
    rw [List.map_map]
    refine (List.map_congr_left fun c hc => ?_).trans (List.map_id _)
    show Char.ofNat (UInt8.ofNat c.toNat).toNat = c
    rw [Bytes.toNat_asciiByte (hcs c hc), Char.ofNat_toNat]
  rw [htake, List.take_append, List.length_map, ← List.map_take]
  constructor
  · intro h
    by_cases h4 : 4 ≤ name.toList.length
    · rw [Nat.sub_eq_zero_of_le h4, List.take_zero, List.append_nil] at h
      have := congrArg (List.map fun b : UInt8 => Char.ofNat b.toNat) h
      rwa [hback _ fun c hc => hw.ascii c (List.mem_of_mem_take hc)] at this
    · -- a shorter name is followed by a zero
      have hzero : (0 : UInt8) ∈ Bytes.ofAscii "K2.1" := by
        rw [← h, List.take_replicate]
        refine List.mem_append_right _ (List.mem_replicate.2 ⟨by omega, rfl⟩)
      exact absurd hzero (by decide)
  · intro h
    have h4 : 4 ≤ name.toList.length := by
      have := congrArg List.length h
      rw [List.length_take] at this
      have hfour : "K2.1".toList.length = 4 := by decide
      omega
    rw [h, Nat.sub_eq_zero_of_le h4, List.take_zero, List.append_nil]
    rfl

/-- Files of the first format that start with the mark of the later one. -/
theorem firstFile_showsMark_iff {index : List (String × Entry)} {contents file : Bytes}
    (h : firstFile index contents = .ok file) (hf : ∀ p ∈ index, Fits p.1) :
    file.take 6 = datedMark ↔ ShowsMark (index.map Prod.fst) := by
  obtain ⟨hlt, hw, rfl⟩ := firstFile_eq_ok h
  have hmark : datedMark = Bytes.ofNatLE 2 0x5453 ++ Bytes.ofAscii "K2.1" := by decide
  have htwo : ∀ n, (Bytes.ofNatLE 2 n).length = 2 := Bytes.length_ofNatLE 2
  have hcount : ∀ n < Bytes.limit 2, Bytes.ofNatLE 2 n = Bytes.ofNatLE 2 0x5453 ↔ n = 0x5453 := by
    intro n hn
    constructor
    · intro he
      have := congrArg Bytes.toNatLE he
      rwa [Bytes.toNatLE_ofNatLE hn, Bytes.toNatLE_ofNatLE (by decide)] at this
    · rintro rfl
      rfl
  cases index with
  | nil =>
    refine ⟨fun he => ?_, fun hm => absurd hm.1 (by decide)⟩
    exact absurd (congrArg List.head? he) (by simp [Bytes.ofNatLE, hmark])
  | cons p index =>
    rw [List.forall_mem_cons] at hw hf
    have hrecord : 4 ≤ (recordBytes (indexEnd (p :: index).length) p.1 p.2).length := by
      rw [length_recordBytes hf.1]
      decide
    have hsix : (Bytes.ofNatLE 2 (p :: index).length ++
        (recordsBytes (indexEnd (p :: index).length) (p :: index) ++ contents)).take 6 =
        Bytes.ofNatLE 2 (p :: index).length ++ (recordBytes (indexEnd (p :: index).length) p.1 p.2).take 4 := by
      rw [List.take_append, htwo, recordsBytes, List.flatMap_cons, List.append_assoc,
        List.take_append_of_le_length hrecord, List.take_of_length_le (by rw [htwo]; decide)]
    rw [hsix, hmark, ShowsMark, List.length_map, ← hcount _ hlt]
    show _ ↔ _ ∧ p.1.toList.take 4 = "K2.1".toList
    rw [← take_recordBytes_eq_iff hw.1 hf.1]
    exact ⟨fun he => List.append_inj he (by rw [htwo, htwo]), fun he => by rw [he.1, he.2]⟩

theorem take_firstFile_eq_iff {index : List (String × Entry)} {contents file : Bytes}
    (h : firstFile index contents = .ok file) (hs : ∀ p ∈ index, Storable p.1) :
    file.take 6 = datedMark ↔ ShowsMark (index.map Prod.fst) :=
  firstFile_showsMark_iff h fun p hp => (hs p hp).fits

/-- **What is written is read.** -/
theorem ofBytes_firstFile {index : List (String × Entry)} {contents file : Bytes}
    (h : firstFile index contents = .ok file) (hf : ∀ p ∈ index, Fits p.1)
    (hm : ¬ ShowsMark (index.map Prod.fst)) :
    ofBytes file = .ok ⟨file, .first, Table.ofItems (index.map (listedItem (indexEnd index.length)))⟩ := by
  have hsix := mt (firstFile_showsMark_iff h hf).1 hm
  obtain ⟨hlt, hw, hfile⟩ := firstFile_eq_ok h
  have htwo : (Bytes.ofNatLE 2 index.length).length = 2 := Bytes.length_ofNatLE 2 _
  have hword : Bytes.word file = index.length := by
    rw [hfile, Bytes.word, List.take_left' htwo, Bytes.toNatLE_ofNatLE hlt]
  have hrest : file.drop 2 = recordsBytes (indexEnd index.length) index ++ contents := by
    rw [hfile, List.drop_left' htwo]
  have hread := readRecords_recordsBytes hw hf contents
  rw [ofBytes, if_neg hsix, hword, hrest, hread]
  rfl

theorem version_of_datedMark {file : Bytes} (h : file.take 6 = datedMark) {b : Archive}
    (hb : ofBytes file = .ok b) : b.version = .dated := by
  rw [ofBytes, if_pos h] at hb
  obtain ⟨items, -, hb⟩ := bind_eq_ok.1 hb
  cases hb
  rfl

/-- A written file opens as what was written, if it opens in the first format at all. -/
theorem eq_of_ofBytes_firstFile {index : List (String × Entry)} {contents file : Bytes}
    (h : firstFile index contents = .ok file) (hf : ∀ p ∈ index, Fits p.1) {b : Archive}
    (hb : ofBytes file = .ok b) (hbv : b.version = .first) :
    b = ⟨file, .first, Table.ofItems (index.map (listedItem (indexEnd index.length)))⟩ := by
  have hm : ¬ ShowsMark (index.map Prod.fst) := by
    intro hm
    rw [version_of_datedMark ((firstFile_showsMark_iff h hf).2 hm) hb] at hbv
    cases hbv
  rw [ofBytes_firstFile h hf hm, Except.ok.injEq] at hb
  exact hb.symm

/-! ### Archives that were opened -/

/-- The characters of a name that was read in the code page. -/
theorem chars_of_decode {raw : Bytes} {codes : Text} (h : CodePage.dosLatin.decode raw = .ok codes)
    (hne : ∀ b ∈ raw, b ≠ 0) : ∀ c ∈ codes.map Char.ofNat,
      (c.toNat < 128 ∨ c.toNat ∈ CodePage.dosLatin.upper ∧ 160 ≤ c.toNat) ∧ c.toNat ≠ 0 := by
  have hcodes : ∀ c ∈ codes, c < 0xD800 ∧ (c < 128 ∨ c ∈ CodePage.dosLatin.upper ∧ 160 ≤ c) ∧ c ≠ 0 := by
    refine forall_of_mapM_eq_ok h fun b hb c hc => ?_
    obtain ⟨hlt, hrange, h0⟩ := range_of_decodeByte hc
    exact ⟨hlt, hrange, h0 (hne b hb)⟩
  intro c hc
  obtain ⟨n, hn, rfl⟩ := List.mem_map.1 hc
  rw [toNat_ofNat_of_lt (hcodes n hn).1]
  exact (hcodes n hn).2

theorem listed_of_readRecord {record : Bytes} {name : String} {e : Entry}
    (h : readRecord record = .ok (name, e)) : Listed name e := by
  obtain ⟨codes, hcodes, h⟩ := bind_eq_ok.1 h
  simp only [pure, Except.pure, Except.ok.injEq, Prod.mk.injEq] at h
  obtain ⟨hname, he⟩ := h
  have hkind : e.compression = if isChunkedName (codes.map Char.ofNat) then chunked
      else if record.drop 21 == [0] then 0 else 1 := by rw [← he]
  have hlen : (codes.map Char.ofNat).length ≤ nameField := by
    rw [List.length_map, length_of_mapM_eq_ok hcodes]
    exact Nat.le_trans (List.takeWhile_prefix _).length_le (List.length_take_le _ _)
  have hchars := chars_of_decode hcodes fun b hb => bne_iff_ne.1 (List.all_eq_true.1 List.all_takeWhile b hb)
  refine ⟨by rw [← he], ?_⟩
  rw [hkind, ← hname]
  by_cases hchunked : isChunkedName (codes.map Char.ofNat) = true
  · rw [if_pos hchunked]
    exact .inl ⟨rfl, chunkListed_listedName (fun c hc => (hchars c hc).1) (fun c hc => (hchars c hc).2) hlen
      hchunked⟩
  · rw [if_neg hchunked]
    rw [Bool.not_eq_true] at hchunked
    refine .inr ⟨by split <;> decide, ?_⟩
    rw [listedName_of_not_chunked hchunked fun c hc => (hchars c hc).1.imp_right And.right]
    refine ⟨?_, ?_, ?_⟩
    · rw [String.length_ofList]
      exact hlen
    · intro c hc
      rw [String.toList_ofList] at hc
      exact (hchars c hc).2
    · rw [String.toList_ofList]
      exact hchunked

/-- What holds of each record that is read holds of all of them. -/
theorem forall_mem_of_readEach {Place : Type} {read : Place → Except Fault (String × Entry)} {next : Place → Place}
    {P : String × Entry → Prop} (hread : ∀ place item, read place = .ok item → P item) {count : Nat} {place : Place}
    {items : List (String × Entry)} (h : readEach read next count place = .ok items) : ∀ item ∈ items, P item := by
  induction count generalizing place items with
  | zero =>
    cases h
    simp
  | succ count ih =>
    obtain ⟨item, hitem, h⟩ := bind_eq_ok.1 h
    obtain ⟨rest, hrest, h⟩ := bind_eq_ok.1 h
    cases h
    exact List.forall_mem_cons.2 ⟨hread place item hitem, ih hrest⟩

theorem nodup_names_of_ofBytes {data : Bytes} {a : Archive} (h : ofBytes data = .ok a) :
    a.index.keys.Nodup := by
  rw [ofBytes] at h
  split at h
  · obtain ⟨items, -, h⟩ := bind_eq_ok.1 h
    cases h
    exact Table.nodup_keys_ofItems items
  · obtain ⟨items, -, h⟩ := bind_eq_ok.1 h
    cases h
    exact Table.nodup_keys_ofItems items

/-- There are as many records as the count says. -/
theorem length_of_readEach {Place : Type} {read : Place → Except Fault (String × Entry)} {next : Place → Place}
    {count : Nat} {place : Place} {items : List (String × Entry)}
    (h : readEach read next count place = .ok items) : items.length = count := by
  induction count generalizing place items with
  | zero =>
    cases h
    rfl
  | succ count ih =>
    obtain ⟨item, -, h⟩ := bind_eq_ok.1 h
    obtain ⟨rest, hrest, h⟩ := bind_eq_ok.1 h
    cases h
    exact congrArg Nat.succ (ih hrest)

/-- What opening a file of the first format reads. -/
theorem records_of_ofBytes {data : Bytes} {a : Archive} (h : ofBytes data = .ok a) (hv : a.version = .first) :
    ∃ items, readRecords data.word (data.drop 2) = .ok items ∧ a.index = Table.ofItems items := by
  rw [ofBytes] at h
  split at h
  · obtain ⟨items, -, h⟩ := bind_eq_ok.1 h
    cases h
    cases hv
  · obtain ⟨items, hitems, h⟩ := bind_eq_ok.1 h
    cases h
    exact ⟨items, hitems, rfl⟩

/-- An archive of the first format that was opened. -/
theorem listed_of_ofBytes {data : Bytes} {a : Archive} (h : ofBytes data = .ok a) (hv : a.version = .first) :
    ∀ p ∈ a.index, Listed p.1 p.2 := by
  obtain ⟨items, hitems, hindex⟩ := records_of_ofBytes h hv
  rw [hindex]
  have hlisted := forall_mem_of_readEach (P := fun p => Listed p.1 p.2) (fun _ _ => listed_of_readRecord) hitems
  exact fun p hp => hlisted p (Table.mem_of_mem_ofItems hp)

theorem length_index_lt {data : Bytes} {a : Archive} (h : ofBytes data = .ok a) (hv : a.version = .first) :
    a.index.length < Bytes.limit 2 := by
  obtain ⟨items, hitems, hindex⟩ := records_of_ofBytes h hv
  have hle := Table.length_ofItems_le items
  rw [length_of_readEach hitems] at hle
  rw [hindex]
  exact Nat.lt_of_le_of_lt hle (Bytes.word_lt data)

end AdventureKit.Archive
