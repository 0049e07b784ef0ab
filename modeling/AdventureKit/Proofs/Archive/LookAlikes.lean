import AdventureKit.Proofs.Archive.Unpatched
import AdventureKit.Proofs.Sequence
import Mathlib.Data.List.Forall2

/-!
# Names with Cyrillic capitals

Some archives write names with the bytes of Cyrillic capitals that look like Latin ones.  The code page shows these
bytes as accented letters and ligatures, and the letters that are replaced in a listed name are control characters,
which the code page does not have.  So nothing is replaced: names are listed as the code page shows them, they are
ASCII just if their bytes are (`ascii_shownName_iff`), and an archive with such a name is not rebuilt
(`names_keep_lookAlikes`).
-/

namespace AdventureKit.Archive

/-- The bytes of the Cyrillic capitals, with the characters that the code page shows and the Latin capitals. -/
def lookAlikeBytes : List (UInt8 × Char × Char) :=
  [(0x85, 'à', 'E'), (0x8A, 'è', 'K'), (0x8E, 'Ä', 'O'), (0x91, 'æ', 'C'), (0x92, 'Æ', 'T')]

/-- How the code page shows ASCII and the bytes of the Cyrillic capitals. -/
def shownAs (b : UInt8) : Char :=
  ((lookAlikeBytes.lookup b).map Prod.fst).getD (Char.ofNat b.toNat)

/-- The Latin capital in place of a character that stands for a Cyrillic one. -/
def capitalFor (c : Char) : Char :=
  ((lookAlikeBytes.map Prod.snd).lookup c).getD c

/-- A written name holds nothing but ASCII and bytes of the Cyrillic capitals. -/
def Capitals (raw : Bytes) : Prop :=
  ∀ b ∈ raw, b < 128 ∨ b ∈ lookAlikeBytes.map Prod.fst

/-- A written name is ASCII. -/
def AsciiBytes (raw : Bytes) : Prop :=
  ∀ b ∈ raw, b < 128

/-- The bytes of the name of a record. -/
def rawName (record : Bytes) : Bytes :=
  (record.take nameField).takeWhile (· != 0)

/-- The bytes of the names of a file of the first format. -/
def rawNames (data : Bytes) : List Bytes :=
  (List.range data.word).map fun i => rawName (data.drop (2 + recordSize * i))

/-- A name as the code page shows it, under the ending for listed names. -/
def shownName (raw : Bytes) : String :=
  String.ofList (if isChunkedName (raw.map shownAs) then
    Sequence.replaceAll chunkedEnding scriptEnding (raw.map shownAs) else raw.map shownAs)

/-! ### Bytes and characters -/

section Characters

variable {b : UInt8} {raw : Bytes}

theorem shownAs_of_lt (h : b < 128) : shownAs b = Char.ofNat b.toNat := by
  have hkeys : ∀ p ∈ lookAlikeBytes, ¬ p.1 < 128 := by decide
  have hnone : lookAlikeBytes.lookup b = none := by
    rw [List.lookup_eq_none_iff]
    intro p hp
    rw [bne_iff_ne]
    rintro rfl
    exact hkeys p hp h
  rw [shownAs, hnone]
  rfl

theorem toNat_shownAs_of_lt (h : b < 128) : (shownAs b).toNat = b.toNat := by
  have hlt : b.toNat < 128 := UInt8.lt_iff_toNat_lt.1 h
  rw [shownAs_of_lt h, toNat_ofNat_of_lt (by omega)]

/-- The characters of the Cyrillic capitals are none of those that are replaced. -/
theorem decodeByte_eq (h : b < 128 ∨ b ∈ lookAlikeBytes.map Prod.fst) :
    CodePage.dosLatin.decodeByte b = .ok (shownAs b).toNat := by
  rcases h with h | h
  · rw [CodePage.decodeByte, if_pos h, toNat_shownAs_of_lt h]
  · have hall : ∀ b ∈ lookAlikeBytes.map Prod.fst, CodePage.dosLatin.decodeByte b = .ok (shownAs b).toNat := by
      decide +kernel
    exact hall b h

theorem decode_eq (h : Capitals raw) :
    (CodePage.dosLatin.decode raw).map (List.map Char.ofNat) = .ok (raw.map shownAs) := by
  have hdecode : CodePage.dosLatin.decode raw = .ok (raw.map fun b => (shownAs b).toNat) :=
    mapM_eq_pure fun b hb => decodeByte_eq (h b hb)
  rw [hdecode, Except.map, List.map_map]
  refine congrArg Except.ok (List.map_congr_left fun b _ => ?_)
  exact Char.ofNat_toNat (shownAs b)

/-- A byte is ASCII just if it is shown so. -/
theorem shownAs_lt_iff (h : b < 128 ∨ b ∈ lookAlikeBytes.map Prod.fst) :
    (shownAs b).toNat < 128 ↔ b < 128 := by
  constructor
  · intro hshown
    rcases h with h | h
    · exact h
    · have hall : ∀ b ∈ lookAlikeBytes.map Prod.fst, ¬ (shownAs b).toNat < 128 := by decide +kernel
      exact absurd hshown (hall b h)
  · intro hb
    rw [toNat_shownAs_of_lt hb]
    exact UInt8.lt_iff_toNat_lt.1 hb

end Characters

/-! ### Names -/

section Names

variable {raw : Bytes} {c : Char}

/-- A character that is not replaced stays. -/
theorem mem_replaceFrom {old new xs : List Char} (hold : old ≠ []) (hc : c ∉ old) (h : c ∈ xs) :
    c ∈ Sequence.replaceFrom old new 0 xs := by
  -- a hit skips all of `old`, so the induction is on the length
  induction hn : xs.length using Nat.strong_induction_on generalizing xs with
  | _ n ih =>
    cases xs with
    | nil => cases h
    | cons x xs =>
      by_cases hp : old.isPrefixOf (x :: xs) = true
      · obtain ⟨rest, hrest⟩ := List.isPrefixOf_iff_prefix.1 hp
        have hlength := congrArg List.length hrest
        rw [List.length_append] at hlength
        have hpos := List.length_pos_iff.2 hold
        rw [← hrest, List.mem_append] at h
        rw [← hrest, Sequence.replaceFrom_of_hit hold]
        exact List.mem_append_right _ (ih rest.length (by omega) (h.resolve_left hc) rfl)
      · rw [Bool.not_eq_true] at hp
        rw [Sequence.replaceFrom_of_miss hp]
        rcases List.mem_cons.1 h with rfl | h
        · exact List.mem_cons_self
        · exact List.mem_cons_of_mem _ (ih xs.length (by rw [← hn]; exact Nat.lt_succ_self _) h rfl)

theorem shownName_of_chunked (h : isChunkedName (raw.map shownAs) = true) :
    (shownName raw).toList = Sequence.replaceFrom chunkedEnding scriptEnding 0 (raw.map shownAs) := by
  rw [shownName, if_pos h, String.toList_ofList]
  rfl

theorem shownName_of_not_chunked (h : ¬ isChunkedName (raw.map shownAs) = true) :
    (shownName raw).toList = raw.map shownAs := by
  rw [shownName, if_neg h, String.toList_ofList]

/-- Only the ending adds characters to a name. -/
theorem mem_of_mem_shownName (h : c ∈ (shownName raw).toList) : c ∈ scriptEnding ∨ ∃ b ∈ raw, shownAs b = c := by
  by_cases hchunked : isChunkedName (raw.map shownAs) = true
  · rw [shownName_of_chunked hchunked] at h
    exact (mem_of_mem_replaceFrom h).imp_right List.mem_map.1
  · rw [shownName_of_not_chunked hchunked] at h
    exact .inr (List.mem_map.1 h)

/-- A listed name is ASCII just if it is written so. -/
theorem ascii_shownName_iff (h : Capitals raw) :
    (∀ c ∈ (shownName raw).toList, c.toNat < 128) ↔ AsciiBytes raw := by
  constructor
  · intro hall b hb
    rw [← shownAs_lt_iff (h b hb)]
    by_contra hbig
    refine hbig (hall (shownAs b) ?_)
    have hmem : shownAs b ∈ raw.map shownAs := List.mem_map_of_mem hb
    by_cases hchunked : isChunkedName (raw.map shownAs) = true
    · rw [shownName_of_chunked hchunked]
      exact mem_replaceFrom (by decide) (fun hc => hbig (chars_chunkedEnding _ hc).1) hmem
    · rwa [shownName_of_not_chunked hchunked]
  · intro hall c hc
    rcases mem_of_mem_shownName hc with hc | ⟨b, hb, rfl⟩
    · exact (chars_scriptEnding c hc).1
    · exact (shownAs_lt_iff (h b hb)).2 (hall b hb)

/-- A listed name would be another one with Latin capitals, unless it is ASCII. -/
theorem map_capitalFor_eq_iff (h : Capitals raw) :
    (shownName raw).toList.map capitalFor = (shownName raw).toList ↔ AsciiBytes raw := by
  have hkeys : ∀ p ∈ lookAlikeBytes.map Prod.snd, ¬ p.1.toNat < 128 := by decide +kernel
  have hshown : ∀ b ∈ lookAlikeBytes.map Prod.fst, capitalFor (shownAs b) ≠ shownAs b := by decide +kernel
  rw [← ascii_shownName_iff h]
  constructor
  · intro hsame c hc
    have hfixed : capitalFor c = c :=
      List.map_inj_left.1 (hsame.trans (List.map_id _).symm) c hc
    rcases mem_of_mem_shownName hc with hc | ⟨b, hb, rfl⟩
    · exact (chars_scriptEnding c hc).1
    · rcases h b hb with hlt | hmem
      · exact (shownAs_lt_iff (.inl hlt)).2 hlt
      · exact absurd hfixed (hshown b hmem)
  · intro hascii
    refine (List.map_congr_left fun c hc => ?_).trans (List.map_id _)
    have hnone : (lookAlikeBytes.map Prod.snd).lookup c = none := by
      rw [List.lookup_eq_none_iff]
      intro p hp
      rw [bne_iff_ne]
      rintro rfl
      exact hkeys p hp (hascii _ hc)
    rw [capitalFor, hnone]
    rfl

/-- No slash is shown for another byte. -/
theorem slash_notMem_shownName (h : Capitals raw) (hslash : 0x2F ∉ raw) : '/' ∉ (shownName raw).toList := by
  have hshown : ∀ b ∈ lookAlikeBytes.map Prod.fst, shownAs b ≠ '/' := by decide +kernel
  intro hmem
  rcases mem_of_mem_shownName hmem with hmem | ⟨b, hb, hchar⟩
  · exact absurd hmem (by decide)
  · rcases h b hb with hlt | hother
    · have hcode := toNat_shownAs_of_lt hlt
      rw [hchar] at hcode
      have hsame : b = 0x2F := UInt8.toNat_inj.1 hcode.symm
      exact hslash (hsame ▸ hb)
    · exact hshown b hother hchar

end Names

/-! ### Records -/

/-- What is listed for a written name. -/
structure Shows (raw : Bytes) (p : String × Entry) : Prop where
  name_eq : p.1 = shownName raw
  chunked_iff : p.2.compression = chunked ↔ isChunkedName (raw.map shownAs) = true

theorem shows_of_readRecord {record : Bytes} {p : String × Entry} (hraw : Capitals (rawName record))
    (h : readRecord record = .ok p) : Shows (rawName record) p := by
  obtain ⟨name, e⟩ := p
  obtain ⟨codes, hcodes, h⟩ := bind_eq_ok.1 h
  simp only [pure, Except.pure, Except.ok.injEq, Prod.mk.injEq] at h
  obtain ⟨hname, he⟩ := h
  have hchars := chars_of_decode hcodes fun b hb => bne_iff_ne.1 (List.all_eq_true.1 List.all_takeWhile b hb)
  have hshown : codes.map Char.ofNat = (rawName record).map shownAs := by
    have hdecode := decode_eq hraw
    rw [rawName, hcodes] at hdecode
    exact Except.ok.inj hdecode
  refine ⟨?_, ?_⟩
  · show name = _
    rw [← hname, listedName_eq fun c hc => (hchars c hc).1.imp_right And.right, hshown, shownName]
  · show e.compression = chunked ↔ _
    have hkind : e.compression = if isChunkedName (codes.map Char.ofNat) then chunked
        else if record.drop 21 == [0] then 0 else 1 := by rw [← he]
    rw [hkind, ← hshown]
    by_cases hchunked : isChunkedName (codes.map Char.ofNat) = true
    · rw [if_pos hchunked]
      exact ⟨fun _ => hchunked, fun _ => rfl⟩
    · rw [if_neg hchunked]
      refine ⟨fun hc => ?_, fun hc => absurd hc hchunked⟩
      split at hc <;> cases hc

/-- The written names show what is listed, one after the other. -/
theorem shows_of_readRecords {count : Nat} {data : Bytes} {items : List (String × Entry)}
    (hraw : ∀ i < count, Capitals (rawName (data.drop (recordSize * i))))
    (h : readRecords count data = .ok items) :
    List.Forall₂ Shows ((List.range count).map fun i => rawName (data.drop (recordSize * i))) items := by
  induction count generalizing data items with
  | zero =>
    cases h
    exact .nil
  | succ count ih =>
    obtain ⟨item, hitem, h⟩ := bind_eq_ok.1 h
    obtain ⟨rest, hrest, h⟩ := bind_eq_ok.1 h
    cases h
    have hrecord : rawName (data.take recordSize) = rawName data := by
      rw [rawName, rawName, List.take_take]
      rfl
    have hlater : ∀ i, (data.drop recordSize).drop (recordSize * i) = data.drop (recordSize * (i + 1)) := by
      intro i
      rw [List.drop_drop, Nat.mul_succ, Nat.add_comm]
    have hfirst : Capitals (rawName data) := hraw 0 (Nat.succ_pos count)
    rw [List.range_succ_eq_map, List.map_cons, List.map_map]
    refine .cons ?_ ?_
    · rw [← hrecord] at hfirst
      have hshows := shows_of_readRecord hfirst hitem
      rwa [hrecord] at hshows
    · have hnext := ih (fun i hi => by rw [hlater]; exact hraw (i + 1) (Nat.succ_lt_succ hi)) hrest
      simp only [hlater] at hnext
      exact hnext

/-! ### Written names -/

section Written

variable {raw : Bytes} {index : List (String × Entry)} {p : String × Entry}

/-- The written name of an entry of packed chunks holds characters of its listed name, and the ending. -/
theorem ascii_slotName_of_ascii (hl : Listed p.1 p.2) (h : ∀ c ∈ p.1.toList, c.toNat < 128) :
    ∀ c ∈ (slotName index p).toList, c.toNat < 128 := by
  rcases hl.kind with ⟨hc, hlisted⟩ | ⟨hc, -⟩
  · by_cases hfirst : index.find? (fun q => q.2 == p.2) = some p
    · obtain ⟨folder, q, x, y, z, hname, -, -, -, hw⟩ := hlisted.writtenName_parts hc
      rw [slotName_of_first hfirst hw, String.toList_ofList]
      rw [hname] at h
      intro c hmem
      rcases List.mem_append.1 hmem with hmem | hmem
      · refine h c ?_
        split at hmem
        · exact List.mem_append_right _ hmem
        · exact List.mem_append_left _ (List.mem_append_right _ hmem)
      · exact (chars_chunkedEnding c hmem).1
    · rwa [slotName, if_neg hfirst]
  · rwa [slotName_eq (by rw [chunked]; omega)]

/-- A name without folders of an entry of packed chunks ends in ASCII characters, and all that comes before is
written again. -/
theorem Shows.mem_written (hshows : Shows raw p) (hraw : Capitals raw) (hlisted : ChunkListed p.1)
    (hc : p.2.compression = chunked) (hslash : 0x2F ∉ raw) {written : String}
    (hw : writtenName p.1 p.2 = .ok written) {c : Char} (hmem : c ∈ p.1.toList) :
    c ∈ written.toList ∨ c.toNat < 128 := by
  have hendings : ∀ ending ∈ listedEndings, ∀ c ∈ '.' :: ending, c.toNat < 128 := by simp [listedEndings]
  have hpage : ∀ c ∈ raw.map shownAs, c.toNat < 128 ∨ c.toNat ∈ CodePage.dosLatin.upper := by
    intro c hc
    obtain ⟨b, hb, rfl⟩ := List.mem_map.1 hc
    exact (range_of_decodeByte (decodeByte_eq (hraw b hb))).2.1.imp_right And.left
  obtain ⟨folder, q, x, y, z, hname, hfolder, -, -, hparts⟩ := hlisted.writtenName_parts hc
  rw [hw] at hparts
  cases hparts
  have hchunked := hshows.chunked_iff.1 hc
  obtain ⟨front, x', y', z', hfront, hending⟩ := ending_of_replaced hpage hchunked
  rw [← shownName_of_chunked hchunked, ← hshows.name_eq, hname] at hfront
  obtain ⟨-, hsame⟩ := List.append_inj' hfront rfl
  -- without a slash there is no folder that the written name could lose
  have hnil : folder = [] := by
    rcases hfolder with hnil | ⟨f, rfl⟩
    · exact hnil
    · refine absurd ?_ (slash_notMem_shownName hraw hslash)
      rw [← hshows.name_eq, hname]
      simp
  rw [hname, hnil, List.nil_append, List.mem_append] at hmem
  rcases hmem with hmem | hmem
  · left
    have hne : q ≠ [] := List.ne_nil_of_mem hmem
    rw [String.toList_ofList, if_neg hne]
    exact List.mem_append_left _ hmem
  · right
    cases hsame
    exact hendings _ hending c hmem

/-- Without folders a name is written in ASCII only if it is listed so. -/
theorem Shows.ascii_of_slotName (hshows : Shows raw p) (hraw : Capitals raw) (hl : Listed p.1 p.2)
    (hslash : 0x2F ∉ raw) (h : ∀ c ∈ (slotName index p).toList, c.toNat < 128) :
    ∀ c ∈ p.1.toList, c.toNat < 128 := by
  rcases hl.kind with ⟨hc, hlisted⟩ | ⟨hc, -⟩
  · by_cases hfirst : index.find? (fun q => q.2 == p.2) = some p
    · obtain ⟨written, hw⟩ := hl.exists_writtenName
      rw [slotName_of_first hfirst hw] at h
      intro c hmem
      rcases hshows.mem_written hraw hlisted hc hslash hw hmem with hmem | hlt
      · exact h c hmem
      · exact hlt
    · rwa [slotName, if_neg hfirst] at h
  · rwa [slotName_eq (by rw [chunked]; omega)] at h

end Written

/-! ### Archives -/

section Archives

variable {data : Bytes} {a : Archive}

/-- What is listed for the written names of a file. -/
theorem shows_of_ofBytes (ha : ofBytes data = .ok a) (hv : a.version = .first)
    (hraw : ∀ raw ∈ rawNames data, Capitals raw) :
    ∃ items, readRecords data.word (data.drop 2) = .ok items ∧ a.index = Table.ofItems items ∧
      List.Forall₂ Shows (rawNames data) items := by
  obtain ⟨items, hitems, hindex⟩ := records_of_ofBytes ha hv
  refine ⟨items, hitems, hindex, ?_⟩
  have hrecord : ∀ i, (data.drop 2).drop (recordSize * i) = data.drop (2 + recordSize * i) :=
    fun i => List.drop_drop
  have hshows := shows_of_readRecords (fun i hi => by
    rw [hrecord]
    exact hraw _ (List.mem_map.2 ⟨i, List.mem_range.2 hi, rfl⟩)) hitems
  simp only [hrecord] at hshows
  exact hshows

theorem names_of_shows {raws : List Bytes} {items : List (String × Entry)} (h : List.Forall₂ Shows raws items) :
    items.map Prod.fst = raws.map shownName := by
  induction h with
  | nil => rfl
  | cons hshows _ ih => rw [List.map_cons, List.map_cons, ih, hshows.name_eq]

theorem exists_shows_of_mem {raws : List Bytes} {items : List (String × Entry)}
    (h : List.Forall₂ Shows raws items) : ∀ p ∈ items, ∃ raw ∈ raws, Shows raw p := by
  induction h with
  | nil => simp
  | @cons raw p raws items hshows _ ih =>
    refine List.forall_mem_cons.2 ⟨⟨raw, List.mem_cons_self, hshows⟩, fun q hq => ?_⟩
    obtain ⟨raw', hraw', hshows'⟩ := ih q hq
    exact ⟨raw', List.mem_cons_of_mem _ hraw', hshows'⟩

/-- Every name of the archive is shown for a written name. -/
theorem exists_shows_of_mem_index (ha : ofBytes data = .ok a) (hv : a.version = .first)
    (hraw : ∀ raw ∈ rawNames data, Capitals raw) : ∀ p ∈ a.index, ∃ raw ∈ rawNames data, Shows raw p := by
  obtain ⟨items, -, hindex, hshows⟩ := shows_of_ofBytes ha hv hraw
  rw [hindex]
  exact fun p hp => exists_shows_of_mem hshows p (Table.mem_of_mem_ofItems hp)

/-- All names are ASCII just if they are written so. -/
theorem ascii_names_iff (ha : ofBytes data = .ok a) (hv : a.version = .first)
    (hraw : ∀ raw ∈ rawNames data, Capitals raw) :
    (∀ name ∈ a.names, ∀ c ∈ name.toList, c.toNat < 128) ↔ ∀ raw ∈ rawNames data, AsciiBytes raw := by
  constructor
  · intro hnames raw hmem
    obtain ⟨items, -, hindex, hshows⟩ := shows_of_ofBytes ha hv hraw
    have hlisted : shownName raw ∈ items.map Prod.fst := by
      rw [names_of_shows hshows]
      exact List.mem_map_of_mem hmem
    obtain ⟨p, hp, hname⟩ := List.mem_map.1 hlisted
    have hkey : p.1 ∈ a.names := by
      rw [names, hindex]
      exact Table.mem_keys_ofItems hp
    rw [← ascii_shownName_iff (hraw raw hmem), ← hname]
    exact hnames p.1 hkey
  · intro hascii name hname
    obtain ⟨p, hp, rfl⟩ := List.mem_map.1 hname
    obtain ⟨raw, hmem, hshows⟩ := exists_shows_of_mem_index ha hv hraw p hp
    rw [hshows.name_eq, ascii_shownName_iff (hraw raw hmem)]
    exact hascii raw hmem

theorem writesAscii_of_ascii (ha : ofBytes data = .ok a) (hv : a.version = .first)
    (h : ∀ name ∈ a.names, ∀ c ∈ name.toList, c.toNat < 128) : a.WritesAscii :=
  fun p hp => ascii_slotName_of_ascii (listed_of_ofBytes ha hv p hp) (h p.1 (List.mem_map_of_mem hp))

/-- If no name is in a folder, then what is written in ASCII is listed so. -/
theorem ascii_of_writesAscii (ha : ofBytes data = .ok a) (hv : a.version = .first)
    (hraw : ∀ raw ∈ rawNames data, Capitals raw) (hslash : ∀ raw ∈ rawNames data, 0x2F ∉ raw)
    (h : a.WritesAscii) : ∀ name ∈ a.names, ∀ c ∈ name.toList, c.toNat < 128 := by
  intro name hname
  obtain ⟨p, hp, rfl⟩ := List.mem_map.1 hname
  obtain ⟨raw, hmem, hshows⟩ := exists_shows_of_mem_index ha hv hraw p hp
  exact hshows.ascii_of_slotName (hraw raw hmem) (listed_of_ofBytes ha hv p hp) (hslash raw hmem) (h p hp)

end Archives

/-- **Look-alikes are not replaced.**  Where all names are written with ASCII and bytes of Cyrillic capitals, they
are listed as the code page shows them.  The name with Latin capitals would be another one, and is not ASCII, just if
it holds such a byte.  A rebuild without patches gives a file only if the names that it writes are ASCII, and if the
numbers fit in their fields then it fails at a name just if one of them is not.  These are the listed names, apart
from the folder of a name of packed chunks. -/
theorem names_keep_lookAlikes {data : Bytes} {a : Archive} (ha : ofBytes data = .ok a) (hv : a.version = .first)
    (hraw : ∀ raw ∈ rawNames data, Capitals raw) :
    (∃ items, readRecords data.word (data.drop 2) = .ok items ∧ a.index = Table.ofItems items ∧
      items.map Prod.fst = (rawNames data).map shownName) ∧
    (∀ raw ∈ rawNames data,
      (shownName raw).toList.map capitalFor = (shownName raw).toList ↔ AsciiBytes raw) ∧
    ((∀ name ∈ a.names, ∀ c ∈ name.toList, c.toNat < 128) ↔ ∀ raw ∈ rawNames data, AsciiBytes raw) ∧
    ((∀ raw ∈ rawNames data, AsciiBytes raw) → a.WritesAscii) ∧
    ((∀ raw ∈ rawNames data, 0x2F ∉ raw) → a.WritesAscii → ∀ raw ∈ rawNames data, AsciiBytes raw) ∧
    (∀ now force file left,
      rebuild a now ([] : Table String Bytes) force = .ok (file, left) → a.WritesAscii) ∧
    (a.Readable → ∀ now,
      (∀ force, rebuild a now ([] : Table String Bytes) force = .error .unencodable → ¬ a.WritesAscii) ∧
      (indexEnd a.index.length + storedTotal a a.index < Bytes.limit 4 →
        (rebuild a now ([] : Table String Bytes) false = .error .unencodable ↔ ¬ a.WritesAscii))) := by
  have hnames := ascii_names_iff ha hv hraw
  refine ⟨?_, fun raw hmem => map_capitalFor_eq_iff (hraw raw hmem), hnames, fun hascii => ?_,
    fun hslash hwrites => ?_, fun now force file left h => writesAscii_of_rebuild ha hv h,
    fun hread now => ⟨fun force => not_writesAscii_of_unencodable ha hv hread, rebuild_unencodable_iff ha hv hread⟩⟩
  · obtain ⟨items, hitems, hindex, hshows⟩ := shows_of_ofBytes ha hv hraw
    exact ⟨items, hitems, hindex, names_of_shows hshows⟩
  · exact writesAscii_of_ascii ha hv (hnames.2 hascii)
  · exact hnames.1 (ascii_of_writesAscii ha hv hraw hslash hwrites)

/-- Two files, the second under the Cyrillic form of `KOT.TXT`. -/
def cyrillicFiles : Bytes :=
  [2, 0] ++ (Bytes.padTo 13 (Bytes.ofAscii "A.TXT") ++ [1, 0, 0, 0, 46, 0, 0, 0, 0]) ++
    (Bytes.padTo 13 ([0x8A, 0x8E, 0x92] ++ Bytes.ofAscii ".TXT") ++ [1, 0, 0, 0, 47, 0, 0, 0, 0]) ++ [97, 98]

/-- The archive in it. -/
def cyrillicArchive : Archive :=
  ⟨cyrillicFiles, .first, [("A.TXT", ⟨46, 1, 0, none⟩), ("èÄÆ.TXT", ⟨47, 1, 0, none⟩)]⟩

theorem names_keep_lookAlikes_cyrillic :
    ofBytes cyrillicFiles = .ok cyrillicArchive ∧ (∀ raw ∈ rawNames cyrillicFiles, Capitals raw) ∧
    cyrillicArchive.Readable ∧
    ∀ now, rebuild cyrillicArchive now ([] : Table String Bytes) false = .error .unencodable := by
  have hopened : ofBytes cyrillicFiles = .ok cyrillicArchive := eq_ok_of_toOption (by decide +kernel)
  have hraw : ∀ raw ∈ rawNames cyrillicFiles, Capitals raw := by
    unfold Capitals
    decide +kernel
  have hslash : ∀ raw ∈ rawNames cyrillicFiles, 0x2F ∉ raw := by decide +kernel
  have hbyte : ¬ ∀ raw ∈ rawNames cyrillicFiles, AsciiBytes raw := by
    unfold AsciiBytes
    decide +kernel
  have hread : cyrillicArchive.Readable := by
    intro name hname
    have hall : ∀ name ∈ cyrillicArchive.names, (cyrillicArchive.read name).toOption.isSome = true := by
      decide +kernel
    obtain ⟨content, hcontent⟩ := Option.isSome_iff_exists.1 (hall name hname)
    exact ⟨content, eq_ok_of_toOption hcontent⟩
  obtain ⟨-, -, -, -, hwrites, -, hrebuild⟩ := names_keep_lookAlikes hopened rfl hraw
  exact ⟨hopened, hraw, hread, fun now =>
    ((hrebuild hread now).2 (by decide +kernel)).2 fun hascii => hbyte (hwrites hslash hascii)⟩

/-- One file under the byte of the Cyrillic `E`. -/
def lookAlikeFile : Bytes :=
  [1, 0] ++ (Bytes.padTo 13 [0x85] ++ [1, 0, 0, 0, 24, 0, 0, 0, 0]) ++ [1]

/-- **No letter is replaced.**  The name is listed as the code page shows it, and the archive is not rebuilt. -/
theorem lookAlike_not_replaced :
    (ofBytes lookAlikeFile).map names = .ok ["à"] ∧
    (ofBytes lookAlikeFile).bind (fun a => a.read "à") = .ok [1] ∧
    (ofBytes lookAlikeFile).bind (fun a => rebuild a ⟨3, 2, 2001, 4, 5, 6⟩ ([] : Table String Bytes) false) =
      .error .unencodable := by
  decide +kernel

end AdventureKit.Archive
