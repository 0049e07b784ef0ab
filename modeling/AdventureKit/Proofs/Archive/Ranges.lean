import AdventureKit.Proofs.Archive.Sharing

/-!
# Where a rebuilt archive puts its entries

In a rebuilt file of the first format, every record of the index tells a range of bytes that starts at an even
place behind the index and does not leave the file.  The ranges of two records have no byte in common, or they are
one range: then the two names are those of names of the archive that share an entry (`rebuild_spreads_entries`).

`Draft.Spread` is what holds of a draft while the entries of an archive are stored in it, and `Draft.LaidOut` what
holds of its index after that, while new files are added.  Both are kept because what is stored next begins where
the contents end, and they end at an even place.
-/

namespace AdventureKit.Archive

/-! ### Ranges -/

/-- Bytes of a file that follow each other. -/
structure Range where
  offset : Nat
  size : Nat
  deriving DecidableEq, Repr

/-- The place behind a range. -/
def Range.stop (r : Range) : Nat :=
  r.offset + r.size

/-- One of two ranges ends before the other one begins. -/
def Range.Apart (r s : Range) : Prop :=
  r.stop ≤ s.offset ∨ s.stop ≤ r.offset

/-- A range that begins at an even place and does not leave `length` bytes. -/
structure Range.Within (length : Nat) (r : Range) : Prop where
  even : r.offset % 2 = 0
  stop_le : r.stop ≤ length

theorem Range.Within.mono {m n : Nat} {r : Range} (h : r.Within m) (hmn : m ≤ n) : r.Within n :=
  ⟨h.even, Nat.le_trans h.stop_le hmn⟩

/-- The range of an entry. -/
def Entry.range (e : Entry) : Range :=
  ⟨e.offset, e.size⟩

theorem even_length_padded (stored : Bytes) : (padded .first stored).length % 2 = 0 := by
  rw [padded]
  split
  · rw [List.length_append, List.length_singleton]
    omega
  · rename_i h
    have hodd : ¬ stored.length % 2 = 1 := fun hodd => h ⟨rfl, hodd⟩
    omega

theorem length_le_padded (version : Version) (stored : Bytes) : stored.length ≤ (padded version stored).length := by
  obtain ⟨filler, hfiller⟩ := exists_padded_eq version stored
  rw [hfiller, List.length_append]
  exact Nat.le_add_right _ _

/-- Stored bytes that are put at the end of contents of even length. -/
theorem within_at_end {contents stored : Bytes} {m : Entry} (heven : contents.length % 2 = 0)
    (hoffset : m.offset = contents.length) (hsize : m.size = stored.length) :
    m.range.Within (contents ++ padded .first stored).length := by
  have hle := length_le_padded .first stored
  refine ⟨?_, ?_⟩
  · show m.offset % 2 = 0
    rw [hoffset, heven]
  · show m.offset + m.size ≤ _
    rw [List.length_append]
    omega

/-! ### Entries of the archive -/

/-- What holds of a draft for the first format that has stored the items `done` of an index. -/
structure Draft.Spread (index done : List (String × Entry)) (draft : Draft) : Prop where
  even : draft.contents.length % 2 = 0
  nodup : draft.index.keys.Nodup
  known : ∀ e, e ∈ draft.stored.keys ↔ e ∈ done.map Prod.snd
  within : ∀ {e m}, draft.stored.get? e = some m → m.range.Within draft.contents.length
  apart : ∀ {e e' m m'}, draft.stored.get? e = some m → draft.stored.get? e' = some m' → e ≠ e' →
    m.range.Apart m'.range
  named : ∀ p ∈ draft.index, ∃ q ∈ done, slotName index q = p.1 ∧ draft.stored.get? q.2 = some p.2

theorem Draft.spread_start (index : List (String × Entry)) : Draft.Spread index [] ⟨[], [], []⟩ where
  even := rfl
  nodup := List.nodup_nil
  known := by simp [Table.keys]
  within := by simp [Table.get?]
  apart := by simp [Table.get?]
  named := by simp

section Entries

variable {index done items : List (String × Entry)} {draft : Draft} {name : String} {e : Entry}

/-- One more name for stored bytes that the draft has. -/
theorem Draft.Spread.share (h : draft.Spread index done) (hsplit : index = done ++ (name, e) :: items)
    (hname : name ∉ done.map Prod.fst) {m : Entry} (hm : draft.stored.get? e = some m) :
    Draft.Spread index (done ++ [(name, e)]) { draft with index := draft.index.put name m } where
  even := h.even
  nodup := Table.nodup_keys_put h.nodup name m
  known := by
    intro e'
    rw [List.map_append, List.map_singleton, List.mem_append, List.mem_singleton, ← h.known]
    refine ⟨.inl, fun he => he.elim id ?_⟩
    rintro rfl
    exact List.mem_map_of_mem (Table.mem_of_get? hm)
  within := h.within
  apart := h.apart
  named := by
    intro p hp
    rcases Table.mem_put hp with rfl | hp
    · have hdone := (h.known e).1 (List.mem_map_of_mem (Table.mem_of_get? hm))
      obtain ⟨q, hq, he⟩ := List.mem_map.1 hdone
      exact ⟨(name, e), by simp, slotName_of_done hsplit hname hq he, hm⟩
    · obtain ⟨q, hq, hslot, hstored⟩ := h.named p hp
      exact ⟨q, List.mem_append_left _ hq, hslot, hstored⟩

/-- An entry that is stored now, behind all that is stored already. -/
theorem Draft.Spread.store (h : draft.Spread index done) (hsplit : index = done ++ (name, e) :: items)
    (hnew : draft.stored.get? e = none) {written : String} (hwritten : writtenName name e = .ok written)
    {stored : Bytes} {m : Entry} (hoffset : m.offset = draft.contents.length) (hsize : m.size = stored.length) :
    Draft.Spread index (done ++ [(name, e)])
      ⟨draft.index.put written m, draft.contents ++ padded .first stored, draft.stored.put e m⟩ where
  even := by
    have heven := h.even
    have hpadded := even_length_padded stored
    rw [List.length_append]
    omega
  nodup := Table.nodup_keys_put h.nodup written m
  known := by
    intro e'
    rw [Table.mem_keys_put, List.map_append, List.map_singleton, List.mem_append, List.mem_singleton, h.known,
      or_comm]
  within := by
    intro e' m' hm'
    rcases Table.get?_put_cases hm' with ⟨rfl, rfl⟩ | ⟨-, hold⟩
    · exact within_at_end h.even hoffset hsize
    · refine (h.within hold).mono ?_
      rw [List.length_append]
      exact Nat.le_add_right _ _
  apart := by
    -- an old range ends where the contents ended
    have hbehind : ∀ {e' m'}, draft.stored.get? e' = some m' → m'.range.stop ≤ m.range.offset :=
      fun hold => Nat.le_trans (h.within hold).stop_le (Nat.le_of_eq hoffset.symm)
    intro e₁ e₂ m₁ m₂ h₁ h₂ hne
    rcases Table.get?_put_cases h₁ with ⟨rfl, rfl⟩ | ⟨-, hold₁⟩
    · rcases Table.get?_put_cases h₂ with ⟨rfl, -⟩ | ⟨-, hold₂⟩
      · exact absurd rfl hne
      · exact .inr (hbehind hold₂)
    · rcases Table.get?_put_cases h₂ with ⟨rfl, rfl⟩ | ⟨-, hold₂⟩
      · exact .inl (hbehind hold₁)
      · exact h.apart hold₁ hold₂ hne
  named := by
    -- no name before this one has the entry
    have hfresh : e ∉ done.map Prod.snd := mt (h.known e).2 (Table.get?_eq_none_iff.1 hnew)
    have hnone : done.find? (fun p => p.2 == e) = none := by
      rw [List.find?_eq_none]
      intro p hp heq
      exact hfresh (beq_iff_eq.1 heq ▸ List.mem_map_of_mem hp)
    intro p hp
    rcases Table.mem_put hp with rfl | hp
    · exact ⟨(name, e), by simp, slotName_of_new hsplit hnone hwritten, Table.get?_put_self _ _ _⟩
    · obtain ⟨q, hq, hslot, hstored⟩ := h.named p hp
      have hne : q.2 ≠ e := fun he => hfresh (he ▸ List.mem_map_of_mem hq)
      exact ⟨q, List.mem_append_left _ hq, hslot, by rwa [Table.get?_put_of_ne _ hne]⟩

end Entries

section Patched

variable {π : Type} [Patches π] {a : Archive} {force : Bool} {patches patches' : π} {draft draft' : Draft}

theorem Draft.Spread.addEntry {done items : List (String × Entry)} {name : String} {e : Entry} {n : Nat}
    (h : draft.Spread a.index done) (hv : a.version = .first) (hsplit : a.index = done ++ (name, e) :: items)
    (hname : name ∉ done.map Prod.fst) (hadd : draft.addEntry a force patches name e = .ok (draft', patches', n)) :
    draft'.Spread a.index (done ++ [(name, e)]) := by
  obtain ⟨old, patch, stored, -, -, -, -, hdraft⟩ := addEntry_cases hadd
  rcases hdraft with ⟨shared, hshared, rfl⟩ | ⟨hnew, written, hwritten, rfl⟩
  · exact h.share hsplit hname hshared
  · rw [hv]
    exact h.store hsplit hnew hwritten rfl rfl

theorem Draft.Spread.addEntries {items done : List (String × Entry)} {last last' : Option (Entry × Nat)}
    (hn : a.index.keys.Nodup) (hv : a.version = .first) (hsplit : a.index = done ++ items)
    (h : draft.Spread a.index done)
    (hadd : draft.addEntries a force patches last items = .ok (draft', patches', last')) :
    draft'.Spread a.index a.index := by
  induction items generalizing done draft patches last with
  | nil =>
    rw [List.append_nil] at hsplit
    cases hadd
    rwa [← hsplit] at h
  | cons p items ih =>
    obtain ⟨name, e⟩ := p
    obtain ⟨⟨draft₁, patches₁, n⟩, hone, hrest⟩ := bind_eq_ok.1 hadd
    exact ih (by rw [hsplit]; simp) (h.addEntry hv hsplit (name_notMem_done hsplit hn) hone) hrest

end Patched

/-! ### New files -/

/-- Two names that are written for names of an index which share an entry. -/
def ShareEntry (index : List (String × Entry)) (name name' : String) : Prop :=
  ∃ p ∈ index, ∃ q ∈ index, p ≠ q ∧ p.2 = q.2 ∧ slotName index p = name ∧ slotName index q = name'

/-- What holds of the index of a draft that has stored all entries of an old index. -/
structure Draft.LaidOut (index : List (String × Entry)) (draft : Draft) : Prop where
  even : draft.contents.length % 2 = 0
  nodup : draft.index.keys.Nodup
  short : ∀ p ∈ draft.index, p.1.length ≤ nameField
  within : ∀ p ∈ draft.index, p.2.range.Within draft.contents.length
  apart : ∀ p ∈ draft.index, ∀ q ∈ draft.index, p.1 ≠ q.1 →
    p.2.range.Apart q.2.range ∨ p.2.range = q.2.range ∧ ShareEntry index p.1 q.1

section News

variable {index : List (String × Entry)} {draft draft' : Draft}

theorem Draft.Spread.laidOut (h : draft.Spread index index)
    (hshort : ∀ p ∈ index, (slotName index p).length ≤ nameField) : draft.LaidOut index where
  even := h.even
  nodup := h.nodup
  short := by
    intro p hp
    obtain ⟨q, hq, hslot, -⟩ := h.named p hp
    exact hslot ▸ hshort q hq
  within := by
    intro p hp
    obtain ⟨q, -, -, hstored⟩ := h.named p hp
    exact h.within hstored
  apart := by
    intro p hp q hq hne
    obtain ⟨p', hp', hslot, hstored⟩ := h.named p hp
    obtain ⟨q', hq', hslot', hstored'⟩ := h.named q hq
    by_cases he : p'.2 = q'.2
    · rw [he, hstored', Option.some.injEq] at hstored
      refine .inr ⟨by rw [hstored], p', hp', q', hq', fun hpq => hne ?_, he, hslot, hslot'⟩
      rw [← hslot, ← hslot', hpq]
    · exact .inl (h.apart hstored hstored' he)

/-- A new file behind all that is stored already. -/
theorem Draft.LaidOut.add (h : draft.LaidOut index) {name : String} (hname : name ∉ draft.index.keys)
    (hshort : name.length ≤ nameField) {content : Bytes} {m : Entry} (hoffset : m.offset = draft.contents.length)
    (hsize : m.size = content.length) : (draft.add .first name m content).LaidOut index := by
  have hbehind : ∀ p ∈ draft.index, p.2.range.stop ≤ m.range.offset :=
    fun p hp => Nat.le_trans (h.within p hp).stop_le (Nat.le_of_eq hoffset.symm)
  rw [Draft.add, Table.put_eq_append hname]
  refine ⟨?_, ?_, ?_, ?_, ?_⟩
  · have heven := h.even
    have hpadded := even_length_padded content
    rw [List.length_append]
    omega
  · rw [← Table.put_eq_append hname]
    exact Table.nodup_keys_put h.nodup name m
  · intro p hp
    rcases List.mem_append.1 hp with hp | hp
    · exact h.short p hp
    · rw [List.mem_singleton.1 hp]
      exact hshort
  · intro p hp
    rcases List.mem_append.1 hp with hp | hp
    · refine (h.within p hp).mono ?_
      rw [List.length_append]
      exact Nat.le_add_right _ _
    · rw [List.mem_singleton.1 hp]
      exact within_at_end h.even hoffset hsize
  · intro p hp q hq hne
    rcases List.mem_append.1 hp with hp | hp
    · rcases List.mem_append.1 hq with hq | hq
      · exact h.apart p hp q hq hne
      · rw [List.mem_singleton.1 hq]
        exact .inl (.inl (hbehind p hp))
    · rw [List.mem_singleton.1 hp] at hne ⊢
      rcases List.mem_append.1 hq with hq | hq
      · exact .inl (.inr (hbehind q hq))
      · rw [List.mem_singleton.1 hq] at hne
        exact absurd rfl hne

theorem Draft.LaidOut.addNew {a : Archive} {now : Timestamp} {last : Option (Entry × Nat)}
    {items : List (String × Except Fault Bytes)} (h : draft.LaidOut index) (hv : a.version = .first)
    (hshort : ∀ p ∈ items, p.1.length ≤ nameField) (hadd : draft.addNew a now last items = .ok draft') :
    draft'.LaidOut index := by
  induction items generalizing draft with
  | nil =>
    cases hadd
    exact h
  | cons p items ih =>
    obtain ⟨name, content⟩ := p
    rw [List.forall_mem_cons] at hshort
    obtain ⟨content, -, hadd⟩ := bind_eq_ok.1 hadd
    by_cases hhas : draft.index.has name = true
    · simp only [if_pos hhas] at hadd
      cases hadd
    · simp only [if_neg hhas] at hadd
      obtain ⟨m, hm, hadd⟩ := bind_eq_ok.1 hadd
      cases newEntry_eq_ok hm
      rw [hv] at hadd
      exact ih (h.add (mt Table.has_iff.2 hhas) hshort.1 rfl rfl) hshort.2 hadd

end News

/-! ### The written file -/

/-- Record number `i` of the index of a file of the first format. -/
def recordAt (file : Bytes) (i : Nat) : Bytes :=
  Bytes.slice (recordSize * i) (recordSize * i + recordSize) (file.drop 2)

/-- The name field of a record. -/
def nameAt (file : Bytes) (i : Nat) : Bytes :=
  (recordAt file i).take nameField

/-- The range that a record tells. -/
def rangeAt (file : Bytes) (i : Nat) : Range :=
  ⟨Bytes.dword ((recordAt file i).drop 17), Bytes.dword ((recordAt file i).drop 13)⟩

section File

variable {index : List (String × Entry)} {contents file : Bytes} (h : firstFile index contents = .ok file)
include h

theorem word_firstFile : file.word = index.length := by
  obtain ⟨hlt, -, rfl⟩ := firstFile_eq_ok h
  exact Bytes.word_ofNatLE hlt _

variable (hshort : ∀ p ∈ index, p.1.length ≤ nameField)
include hshort

theorem length_firstFile : file.length = indexEnd index.length + contents.length := by
  obtain ⟨-, -, rfl⟩ := firstFile_eq_ok h
  rw [List.length_append, List.length_append, Bytes.length_ofNatLE, length_recordsBytes hshort, indexEnd]
  omega

variable {i : Nat} (hi : i < index.length)

/-- A written record stands where its number says. -/
theorem recordAt_firstFile : recordAt file i = recordBytes (indexEnd index.length) index[i].1 index[i].2 := by
  obtain ⟨-, -, rfl⟩ := firstFile_eq_ok h
  have hbefore : ((index.map fun p => recordBytes (indexEnd index.length) p.1 p.2).take i).flatten.length =
      recordSize * i := by
    rw [← List.map_take, ← List.flatMap_def]
    refine (length_recordsBytes fun p hp => hshort p (List.mem_of_mem_take hp)).trans ?_
    rw [List.length_take_of_le (Nat.le_of_lt hi)]
  rw [recordAt, List.drop_left' (Bytes.length_ofNatLE 2 _), recordsBytes, List.flatMap_def]
  refine Bytes.slice_flatten ?_ hbefore (length_recordBytes_of_le (hshort _ (List.getElem_mem hi))) contents
  rw [List.getElem?_map, List.getElem?_eq_getElem hi]
  rfl

theorem nameAt_firstFile : nameAt file i = (Bytes.ofAscii index[i].1).padTo nameField := by
  rw [nameAt, recordAt_firstFile h hshort hi, take_recordBytes (hshort _ (List.getElem_mem hi))]

theorem rangeAt_firstFile : rangeAt file i = (index[i].2.behind (indexEnd index.length)).range := by
  have hmem := List.getElem_mem hi
  have hw := (firstFile_eq_ok h).2.1 _ hmem
  rw [rangeAt, recordAt_firstFile h hshort hi, size_recordBytes (hshort _ hmem) hw,
    offset_recordBytes (hshort _ hmem) hw]
  rfl

end File

/-- A range behind `base` more bytes. -/
theorem Range.Apart.behind {m n : Entry} (h : m.range.Apart n.range) (base : Nat) :
    (m.behind base).range.Apart (n.behind base).range := by
  simp only [Range.Apart, Range.stop, Entry.range, Entry.behind] at h ⊢
  omega

/-- The parts of a rebuild in the first format. -/
theorem laidOut_of_rebuild {π : Type} [Patches π] {data file : Bytes} {a : Archive} {now : Timestamp}
    {patches left : π} {force : Bool} (ha : ofBytes data = .ok a) (hv : a.version = .first)
    (hnew : ∀ p ∈ Patches.items left, p.1.length ≤ nameField)
    (h : rebuild a now patches force = .ok (file, left)) :
    ∃ draft : Draft, draft.LaidOut a.index ∧ firstFile draft.index draft.contents = .ok file := by
  obtain ⟨⟨draft, patches', last⟩, hentries, h⟩ := bind_eq_ok.1 h
  obtain ⟨draft', hnews, h⟩ := bind_eq_ok.1 h
  simp only [hv] at h
  obtain ⟨file', hfile, h⟩ := bind_eq_ok.1 h
  cases h
  have hspread := (Draft.spread_start a.index).addEntries (nodup_names_of_ofBytes ha) hv rfl hentries
  have hlaid := hspread.laidOut fun p hp => (fits_slotName (listed_of_ofBytes ha hv p hp)).length_le
  exact ⟨draft', hlaid.addNew hv hnew hnews, hfile⟩

/-- **Entries of a rebuilt archive do not overlap.**  The names of an archive that was opened fit in their fields,
so the names of new files have to, too.  Then every record of the written file tells a range that begins at an even
place, not before the end of the index, and ends within the file.  The ranges of two records are apart, or they are
the same and the records are written for two names of the archive that share an entry. -/
theorem rebuild_spreads_entries {π : Type} [Patches π] {data file : Bytes} {a : Archive} {now : Timestamp}
    {patches left : π} {force : Bool} (ha : ofBytes data = .ok a) (hv : a.version = .first)
    (hnew : ∀ p ∈ Patches.items left, p.1.length ≤ nameField)
    (h : rebuild a now patches force = .ok (file, left)) :
    (∀ i < file.word, (rangeAt file i).offset % 2 = 0 ∧ 2 + 22 * file.word ≤ (rangeAt file i).offset ∧
      (rangeAt file i).stop ≤ file.length) ∧
    ∀ i < file.word, ∀ j < file.word, i ≠ j → (rangeAt file i).Apart (rangeAt file j) ∨
      rangeAt file i = rangeAt file j ∧ ∃ name name', ShareEntry a.index name name' ∧
        nameAt file i = (Bytes.ofAscii name).padTo nameField ∧
        nameAt file j = (Bytes.ofAscii name').padTo nameField := by
  obtain ⟨draft, hlaid, hfile⟩ := laidOut_of_rebuild ha hv hnew h
  have hword := word_firstFile hfile
  have hlength := length_firstFile hfile hlaid.short
  have hend : indexEnd draft.index.length = 22 * draft.index.length + 2 := rfl
  constructor
  · intro i hi
    rw [hword] at hi ⊢
    obtain ⟨heven, hstop⟩ := hlaid.within _ (List.getElem_mem hi)
    rw [rangeAt_firstFile hfile hlaid.short hi, hlength]
    simp only [Range.stop, Entry.range, Entry.behind] at heven hstop ⊢
    omega
  · intro i hi j hj hij
    rw [hword] at hi hj
    have hne : draft.index[i].1 ≠ draft.index[j].1 := by
      intro he
      have hsame := List.inj_on_of_nodup_map hlaid.nodup (List.getElem_mem hi) (List.getElem_mem hj) he
      exact hij ((hlaid.nodup.of_map Prod.fst).getElem_inj_iff.1 hsame)
    rw [rangeAt_firstFile hfile hlaid.short hi, rangeAt_firstFile hfile hlaid.short hj]
    rcases hlaid.apart _ (List.getElem_mem hi) _ (List.getElem_mem hj) hne with hapart | ⟨hsame, hshare⟩
    · exact .inl (hapart.behind _)
    · refine .inr ⟨?_, _, _, hshare, nameAt_firstFile hfile hlaid.short hi, nameAt_firstFile hfile hlaid.short hj⟩
      simp only [Entry.range, Entry.behind, Range.mk.injEq] at hsame ⊢
      omega

/-- The archive of `sharedFiles` with a new file `C` of one byte. -/
def spreadFile : Bytes :=
  [3, 0] ++ (Bytes.padTo 13 [65] ++ [2, 0, 0, 0, 68, 0, 0, 0, 0]) ++
    (Bytes.padTo 13 [66] ++ [2, 0, 0, 0, 68, 0, 0, 0, 0]) ++
    (Bytes.padTo 13 [67] ++ [1, 0, 0, 0, 70, 0, 0, 0, 0]) ++ [1, 2, 9, 0]

theorem rebuild_spreads_entries_shared :
    ofBytes sharedFiles = .ok sharedFilesOpened ∧
    rebuild sharedFilesOpened ⟨3, 2, 2001, 4, 5, 6⟩ ([("C", [9])] : Table String Bytes) false =
      .ok (spreadFile, [("C", [9])]) ∧
    (∀ i < 3, (rangeAt spreadFile i).offset % 2 = 0 ∧ 68 ≤ (rangeAt spreadFile i).offset ∧
      (rangeAt spreadFile i).stop ≤ 72) ∧
    rangeAt spreadFile 0 = rangeAt spreadFile 1 := by
  have ha : ofBytes sharedFiles = .ok sharedFilesOpened := by rfl
  have hr : rebuild sharedFilesOpened ⟨3, 2, 2001, 4, 5, 6⟩ ([("C", [9])] : Table String Bytes) false =
      .ok (spreadFile, [("C", [9])]) := eq_ok_of_toOption (by decide +kernel)
  have hnew : ∀ p ∈ Patches.items ([("C", [9])] : Table String Bytes), p.1.length ≤ nameField := by
    intro p hp
    rw [List.mem_singleton.1 hp]
    decide
  exact ⟨ha, hr, (rebuild_spreads_entries ha rfl hnew hr).1, by decide⟩

end AdventureKit.Archive
