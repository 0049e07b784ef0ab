import AdventureKit.Proofs.Archive.Listing
import AdventureKit.Proofs.Failing
import AdventureKit.Proofs.Lzss.PackedForm
import Mathlib.Algebra.Ring.Nat

/-!
# Rebuilding an archive without patches

An archive of the first format whose entries can be read is rebuilt into a draft, unless its contents are packed
anew (`rebuild_unpatched_cases`).  So only its names and the sizes of its numbers decide on the file: no file is
made if a name that is written is not ASCII (`writesAscii_of_rebuild`), and if all numbers fit in their fields then
this is what goes wrong (`rebuild_unencodable_iff`).
-/

namespace AdventureKit.Archive

/-- All entries can be read. -/
def Readable (a : Archive) : Prop :=
  ∀ name ∈ a.names, ∃ content, a.read name = .ok content

/-- The names of all items are ASCII as they are written. -/
def WritesAscii (a : Archive) : Prop :=
  ∀ p ∈ a.index, ∀ c ∈ (slotName a.index p).toList, c.toNat < 128

/-- How much the stored bytes of the items fill of a file, if each is stored once for every name. -/
def storedTotal (a : Archive) (items : List (String × Entry)) : Nat :=
  (items.map fun p => (padded a.version (p.2.stored a.data)).length).sum

theorem storedTotal_cons (a : Archive) (p : String × Entry) (items : List (String × Entry)) :
    storedTotal a (p :: items) = (padded a.version (p.2.stored a.data)).length + storedTotal a items := by
  rw [storedTotal, List.map_cons, List.sum_cons, storedTotal]

/-- The numbers of an entry fit in their fields, in an index that ends at `base`. -/
structure NumbersFit (base : Nat) (e : Entry) : Prop where
  size_lt : e.size < Bytes.limit 4
  offset_lt : base + e.offset < Bytes.limit 4
  compression_lt : e.compression < 256

/-! ### Names in an index -/

section Names

variable {base : Nat} {name : String} {e : Entry} {index : List (String × Entry)} {contents : Bytes}

theorem paddedAscii_of_not_ascii (h : ¬ ∀ c ∈ name.toList, c.toNat < 128) (width : Nat) :
    paddedAscii width name = .error .unencodable := by
  rw [paddedAscii, asciiBytes, if_neg (by simpa using h)]
  rfl

/-- The name of a record comes first, so a name that is not ASCII is what its record fails with. -/
theorem headerRecord_bytes_of_not_ascii (h : ¬ ∀ c ∈ name.toList, c.toNat < 128) :
    HeaderRecord.bytes base ⟨name, e.offset, e.size, e.compression⟩ = .error .unencodable := by
  rw [HeaderRecord.bytes, paddedAscii_of_not_ascii h]
  rfl

theorem failsOnly_headerRecord (h : ∀ c ∈ name.toList, c.toNat < 128) :
    FailsOnly (· ≠ .unencodable) (HeaderRecord.bytes base ⟨name, e.offset, e.size, e.compression⟩) := by
  rw [HeaderRecord.bytes, paddedAscii_of_ascii h]
  refine (failsOnly_ok _).bind fun _ _ => (failsOnly_putLE (by simp) _ _).bind fun _ _ =>
    (failsOnly_putLE (by simp) _ _).bind fun _ _ => FailsOnly.bind ?_ fun _ _ => failsOnly_ok _
  rw [Bytes.single]
  split
  · exact failsOnly_ok _
  · exact failsOnly_error (by simp)

/-- With ASCII names an index may be too large, but its names are written. -/
theorem failsOnly_firstFile (h : ∀ p ∈ index, ∀ c ∈ p.1.toList, c.toNat < 128) :
    FailsOnly (· ≠ .unencodable) (firstFile index contents) := by
  refine FailsOnly.bind ((failsOnly_putLE (by simp) _ _).bind fun _ _ => FailsOnly.bind (failsOnly_mapM ?_) fun _ _ =>
    failsOnly_ok _) fun _ _ => failsOnly_ok _
  intro r hr
  obtain ⟨p, hp, rfl⟩ := List.mem_map.1 hr
  exact failsOnly_headerRecord (h p hp)

/-- If all numbers fit in their fields, only names can keep an index from being written. -/
theorem firstFile_of_not_ascii (hlt : index.length < Bytes.limit 2)
    (hfit : ∀ p ∈ index, NumbersFit (indexEnd index.length) p.2)
    (h : ¬ ∀ p ∈ index, ∀ c ∈ p.1.toList, c.toNat < 128) : firstFile index contents = .error .unencodable := by
  push Not at h
  obtain ⟨p, hp, c, hc, hascii⟩ := h
  have hbad : ¬ ∀ c ∈ p.1.toList, c.toNat < 128 := fun hall => absurd (hall c hc) (by omega)
  -- no record fails in another way, so it does not matter which one fails first
  have honly : FailsOnly (· = .unencodable)
      ((index.map fun p => (⟨p.1, p.2.offset, p.2.size, p.2.compression⟩ : HeaderRecord)).mapM
        (HeaderRecord.bytes (indexEnd index.length))) := by
    refine failsOnly_mapM fun r hr => ?_
    obtain ⟨q, hq, rfl⟩ := List.mem_map.1 hr
    by_cases hq' : ∀ c ∈ q.1.toList, c.toNat < 128
    · obtain ⟨hsize, hoffset, hcompression⟩ := hfit q hq
      rw [headerRecord_bytes_of_written ⟨hq', hsize, hoffset, hcompression⟩]
      exact failsOnly_ok _
    · rw [headerRecord_bytes_of_not_ascii hq']
      exact failsOnly_error rfl
  have hmem : (⟨p.1, p.2.offset, p.2.size, p.2.compression⟩ : HeaderRecord) ∈
      index.map fun p => (⟨p.1, p.2.offset, p.2.size, p.2.compression⟩ : HeaderRecord) := List.mem_map.2 ⟨p, hp, rfl⟩
  obtain ⟨fault, hfault⟩ := exists_mapM_eq_error hmem (headerRecord_bytes_of_not_ascii hbad)
  rw [honly fault hfault] at hfault
  rw [firstFile, headerBytes, List.length_map, Bytes.putLE_of_lt hlt]
  simp only [bind, Except.bind]
  rw [show recordSize * index.length + 2 = indexEnd index.length from rfl, hfault]

end Names

/-! ### One entry -/

section Entries

variable {a : Archive} {force : Bool} {draft draft' : Draft} {patches' : Table String Bytes}
  {name : String} {e : Entry} {n : Nat} {items : List (String × Entry)} {last last' : Option (Entry × Nat)}

theorem Listed.exists_writtenName (h : Listed name e) : ∃ written, writtenName name e = .ok written := by
  rcases h.kind with ⟨hc, hlisted⟩ | ⟨hc, -⟩
  · obtain ⟨stem, hwritten, -⟩ := hlisted.writtenName_eq hc
    exact ⟨_, hwritten⟩
  · exact ⟨name, if_neg (by rw [chunked]; omega)⟩

/-- An entry that can be read is stored as it is, unless it is packed anew. -/
theorem failsOnly_addEntry (hl : Listed name e) (hread : ∃ content, e.content a.data = .ok content) :
    FailsOnly (fun fault => force = true ∧ fault ∈ Lzss.packFaults)
      (draft.addEntry a force ([] : Table String Bytes) name e) := by
  obtain ⟨old, hold⟩ := hread
  obtain ⟨written, hwritten⟩ := hl.exists_writtenName
  have hstored : FailsOnly (fun fault => force = true ∧ fault ∈ Lzss.packFaults) (storedFor a force e old old) := by
    cases force with
    | false =>
      rw [storedFor, if_pos ⟨rfl, rfl⟩]
      exact failsOnly_ok _
    | true =>
      rw [storedFor, if_neg (by simp)]
      split
      · exact failsOnly_ok _
      · obtain ⟨fault, hfault, hpack⟩ | ⟨_, _, _, _, _, _, hpack⟩ := Lzss.pack_cases old
        · rw [hpack]
          exact failsOnly_error ⟨rfl, hfault⟩
        · rw [hpack]
          exact failsOnly_ok _
  rw [Draft.addEntry, hold]
  refine (failsOnly_ok _).bind fun _ h => ?_
  cases h
  refine FailsOnly.bind (failsOnly_ok (none, [])) fun _ h => ?_
  cases h
  refine hstored.bind fun stored _ => ?_
  cases draft.stored.get? e with
  | some shared => exact failsOnly_ok _
  | none =>
    simp only [hwritten]
    exact failsOnly_ok _

/-- An entry that is kept takes no more room than its stored bytes. -/
theorem length_contents_addEntry (h : draft.addEntry a force ([] : Table String Bytes) name e = .ok (draft', patches', n)) :
    patches' = [] ∧ (force = false → draft'.contents.length ≤
      draft.contents.length + (padded a.version (e.stored a.data)).length) := by
  obtain ⟨old, patch, stored, -, htake, hstored, -, hdraft⟩ := addEntry_cases h
  cases htake
  refine ⟨rfl, fun hforce => ?_⟩
  rw [storedFor, if_pos ⟨rfl, hforce⟩] at hstored
  cases hstored
  rcases hdraft with ⟨shared, -, rfl⟩ | ⟨-, written, -, rfl⟩
  · exact Nat.le_add_right _ _
  · exact Nat.le_of_eq List.length_append

/-! ### All entries -/

theorem failsOnly_addEntries
    (h : ∀ p ∈ items, Listed p.1 p.2 ∧ ∃ content, p.2.content a.data = .ok content) :
    FailsOnly (fun fault => force = true ∧ fault ∈ Lzss.packFaults)
      (draft.addEntries a force ([] : Table String Bytes) last items) := by
  induction items generalizing draft last with
  | nil => exact failsOnly_ok _
  | cons p items ih =>
    obtain ⟨name, e⟩ := p
    obtain ⟨⟨hlisted, hread⟩, hitems⟩ := List.forall_mem_cons.1 h
    refine (failsOnly_addEntry hlisted hread).bind fun r hr => ?_
    obtain ⟨draft₁, patches₁, n⟩ := r
    obtain ⟨rfl, -⟩ := length_contents_addEntry hr
    exact ih hitems

theorem length_contents_addEntries
    (h : draft.addEntries a false ([] : Table String Bytes) last items = .ok (draft', patches', last')) :
    draft'.contents.length ≤ draft.contents.length + storedTotal a items := by
  induction items generalizing draft last with
  | nil =>
    cases h
    exact Nat.le_add_right _ _
  | cons p items ih =>
    obtain ⟨name, e⟩ := p
    obtain ⟨⟨draft₁, patches₁, n⟩, hone, hrest⟩ := bind_eq_ok.1 h
    obtain ⟨rfl, hle⟩ := length_contents_addEntry hone
    have hlater := ih hrest
    have hnow := hle rfl
    have htotal : storedTotal a ((name, e) :: items) =
        (padded a.version (e.stored a.data)).length + storedTotal a items := storedTotal_cons a (name, e) items
    omega

end Entries

/-! ### A whole rebuild -/

variable {data : Bytes} {a : Archive} {now : Timestamp} {force : Bool} {draft : Draft}

theorem ok_bind {α β : Type} (x : α) (f : α → Except Fault β) : (Except.ok x >>= f) = f x := rfl

/-- A rebuild that has used up all patches. -/
theorem rebuild_of_addEntries {patches : Table String Bytes} {last : Option (Entry × Nat)} (hv : a.version = .first)
    (h : Draft.addEntries a force ⟨[], [], []⟩ patches none a.index = .ok (draft, ([] : Table String Bytes), last))
    (now : Timestamp) :
    rebuild a now patches force = (firstFile draft.index draft.contents).map fun file => (file, []) := by
  have hnew : draft.addNew a now last (Patches.items ([] : Table String Bytes)) = .ok draft := rfl
  rw [rebuild, h, ok_bind]
  dsimp only
  rw [hnew, ok_bind]
  simp only [hv]
  generalize firstFile draft.index draft.contents = written
  cases written with
  | error fault => rfl
  | ok file => rfl

/-- Without patches a readable archive gives a draft that is written as it is, or its contents cannot be packed
anew. -/
theorem rebuild_unpatched_cases (ha : ofBytes data = .ok a) (hv : a.version = .first) (hread : a.Readable)
    (now : Timestamp) (force : Bool) :
    (∃ fault ∈ Lzss.packFaults, force = true ∧ rebuild a now ([] : Table String Bytes) force = .error fault) ∨
      ∃ draft : Draft, draft.Sound a [] force a.index ∧
        (force = false → draft.contents.length ≤ storedTotal a a.index) ∧
        rebuild a now ([] : Table String Bytes) force =
          (firstFile draft.index draft.contents).map fun file => (file, []) := by
  have hn := nodup_names_of_ofBytes ha
  have hitems : ∀ p ∈ a.index, Listed p.1 p.2 ∧ ∃ content, p.2.content a.data = .ok content := by
    intro p hp
    obtain ⟨content, hcontent⟩ := hread p.1 (List.mem_map_of_mem hp)
    rw [Archive.read, Table.get?_of_mem hn hp] at hcontent
    exact ⟨listed_of_ofBytes ha hv p hp, content, hcontent⟩
  cases hadd : Draft.addEntries a force ⟨[], [], []⟩ ([] : Table String Bytes) none a.index with
  | error fault =>
    obtain ⟨hforce, hfault⟩ := failsOnly_addEntries hitems fault hadd
    refine .inl ⟨fault, hfault, hforce, ?_⟩
    rw [rebuild, hadd]
    rfl
  | ok r =>
    obtain ⟨draft, patches', last⟩ := r
    have hnone : IsLast a [] [] none := rfl
    have hstart : Table.without ([] : Table String Bytes) (([] : List (String × Entry)).map Prod.fst) = [] :=
      Table.without_nil []
    have hrun := hadd
    rw [← hstart] at hrun
    obtain ⟨hsound, hleft, -⟩ := (Draft.sound_start a [] force).addEntries hn rfl hnone hrun
    have hnil : patches' = [] := by
      rw [hleft, Table.without, List.filter_nil]
    subst hnil
    refine .inr ⟨draft, hsound, fun hforce => ?_, rebuild_of_addEntries hv hadd now⟩
    subst hforce
    have hle := length_contents_addEntries hadd
    rwa [List.length_nil, Nat.zero_add] at hle

/-- The names of a draft are those that the items are written under. -/
theorem Draft.Sound.ascii_iff (h : draft.Sound a [] force a.index) :
    (∀ q ∈ draft.index, ∀ c ∈ q.1.toList, c.toNat < 128) ↔ a.WritesAscii := by
  constructor
  · intro hall p hp
    have hkey : slotName a.index p ∈ draft.index.keys := by
      rw [h.index_eq]
      exact Table.mem_keys_ofItems
        (List.mem_map_of_mem (f := fun p => (slotName a.index p, draft.placed p.2)) hp)
    obtain ⟨q, hq, hname⟩ := List.mem_map.1 hkey
    rw [← hname]
    exact hall q hq
  · intro hall q hq
    rw [h.index_eq] at hq
    obtain ⟨p, hp, rfl⟩ := List.mem_map.1 (Table.mem_of_mem_ofItems hq)
    exact hall p hp

/-- The numbers of a draft fit in their fields if its contents are small enough. -/
theorem Draft.Sound.numbersFit (h : draft.Sound a [] force a.index) (hl : ∀ p ∈ a.index, Listed p.1 p.2)
    (hsmall : indexEnd a.index.length + draft.contents.length < Bytes.limit 4) :
    ∀ q ∈ draft.index, NumbersFit (indexEnd draft.index.length) q.2 := by
  have hcount : draft.index.length ≤ a.index.length := by
    rw [h.index_eq]
    exact Nat.le_trans (Table.length_ofItems_le _) (Nat.le_of_eq (List.length_map _))
  intro q hq
  rw [h.index_eq] at hq
  obtain ⟨p, hp, rfl⟩ := List.mem_map.1 (Table.mem_of_mem_ofItems hq)
  obtain ⟨m, hm⟩ := h.stored p hp
  obtain ⟨first, content, stored, -, -, hmoved, hlies⟩ := h.keeps p.2 m hm
  have hinside := hlies.inside
  have hkind : m.compression = p.2.compression := by
    rw [hmoved]
    rfl
  have hcompression : p.2.compression ≤ 2 := by
    rcases (hl p hp).kind with ⟨hc, -⟩ | ⟨hc, -⟩
    · exact Nat.le_of_eq hc
    · omega
  have hend : indexEnd draft.index.length ≤ indexEnd a.index.length :=
    Nat.add_le_add_right (Nat.mul_le_mul_left _ hcount) 2
  rw [Draft.placed_eq hm]
  refine ⟨?_, ?_, ?_⟩
  · show m.size < _
    omega
  · show _ + m.offset < _
    omega
  · show m.compression < _
    omega

/-- Rebuilding with ASCII names may fail, but not at a name. -/
theorem not_writesAscii_of_unencodable (ha : ofBytes data = .ok a) (hv : a.version = .first) (hread : a.Readable)
    (h : rebuild a now ([] : Table String Bytes) force = .error .unencodable) : ¬ a.WritesAscii := by
  intro hascii
  obtain ⟨fault, hfault, -, hrebuild⟩ | ⟨draft, hsound, -, hrebuild⟩ :=
    rebuild_unpatched_cases ha hv hread now force
  · rw [h] at hrebuild
    cases hrebuild
    exact absurd hfault (by decide)
  · cases hfile : firstFile draft.index draft.contents with
    | ok file =>
      rw [h, hfile] at hrebuild
      cases hrebuild
    | error fault =>
      rw [h, hfile] at hrebuild
      cases hrebuild
      exact failsOnly_firstFile (hsound.ascii_iff.2 hascii) _ hfile rfl

/-- Every name in a rebuilt file is ASCII. -/
theorem writesAscii_of_rebuild (ha : ofBytes data = .ok a) (hv : a.version = .first) {file : Bytes}
    {left : Table String Bytes} (h : rebuild a now ([] : Table String Bytes) force = .ok (file, left)) :
    a.WritesAscii := by
  obtain ⟨-, draft, draft', hrebuilt⟩ := firstRebuilt_of_rebuild ha hv (by simp [Table.keys]) h
  exact fun p hp => hrebuilt.ascii_slotName hp

/-- If all numbers fit in their fields, rebuilding fails at a name just if one of them is not ASCII. -/
theorem rebuild_unencodable_iff (ha : ofBytes data = .ok a) (hv : a.version = .first) (hread : a.Readable)
    (hsmall : indexEnd a.index.length + storedTotal a a.index < Bytes.limit 4) :
    rebuild a now ([] : Table String Bytes) false = .error .unencodable ↔ ¬ a.WritesAscii := by
  refine ⟨not_writesAscii_of_unencodable ha hv hread, fun hascii => ?_⟩
  obtain ⟨_, _, hforce, _⟩ | ⟨draft, hsound, hle, hrebuild⟩ := rebuild_unpatched_cases ha hv hread now false
  · cases hforce
  · have hcount : draft.index.length < Bytes.limit 2 := by
      rw [hsound.index_eq]
      refine Nat.lt_of_le_of_lt (Table.length_ofItems_le _) ?_
      rw [List.length_map]
      exact length_index_lt ha hv
    have hfit := hsound.numbersFit (listed_of_ofBytes ha hv)
      (Nat.lt_of_le_of_lt (Nat.add_le_add_left (hle rfl) _) hsmall)
    rw [hrebuild, firstFile_of_not_ascii hcount hfit (mt hsound.ascii_iff.1 hascii)]
    rfl

end AdventureKit.Archive
