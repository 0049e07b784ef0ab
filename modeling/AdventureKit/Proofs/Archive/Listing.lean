import AdventureKit.Proofs.Archive.Draft

/-!
# How a rebuilt archive lists its names

An archive of the first format tells packed chunks by the name.  So an item is listed again as it was, under
its name and with its kind, exactly if it `Returns`: the first name of an entry of packed chunks has to be a
script name, and its other names have to show the ending that such entries are written with.

If all items return, then the rebuilt archive has the old names and then the new ones, and an old name reads
as the stored bytes of the first name of its entry (`opened_of_returns`).
-/

namespace AdventureKit.Archive

/-- The item is listed again under its name and with its kind. -/
def Returns (index : List (String × Entry)) (p : String × Entry) : Prop :=
  p.2.compression = chunked →
    if index.find? (fun q => q.2 == p.2) = some p then ScriptName p.1 else isChunkedName p.1.toList = true

/-- If no two names share an entry, scripts return. -/
theorem returns_of_nodup {index : List (String × Entry)} (hd : (index.map Prod.snd).Nodup)
    (hs : ∀ p ∈ index, p.2.compression = chunked → ScriptName p.1) : ∀ p ∈ index, Returns index p := by
  intro p hp hc
  rw [if_pos (find?_entry_of_nodup hd hp)]
  exact hs p hp hc

section Slots

variable {index : List (String × Entry)} {p : String × Entry}

theorem fits_slotName (h : Listed p.1 p.2) : Fits (slotName index p) := by
  rcases h.kind with ⟨hc, hlisted⟩ | ⟨hc, hs⟩
  · by_cases hfirst : index.find? (fun q => q.2 == p.2) = some p
    · obtain ⟨stem, hw, -, -, hlen, hzero, -⟩ := hlisted.writtenName_eq hc
      rw [slotName_of_first hfirst hw]
      refine ⟨?_, ?_⟩
      · rw [String.length_ofList, List.length_append]
        exact hlen
      · intro c hmem
        rw [String.toList_ofList] at hmem
        rcases List.mem_append.1 hmem with hmem | hmem
        · exact hzero c hmem
        · exact (chars_chunkedEnding c hmem).2
    · rw [slotName, if_neg hfirst]
      exact ⟨hlisted.length_le, hlisted.no_zero⟩
  · rw [slotName_eq (by rw [chunked]; omega)]
    exact hs.fits

/-- What it means that an item is listed again as it was. -/
theorem listed_slotName_iff (h : Listed p.1 p.2) (hascii : ∀ c ∈ (slotName index p).toList, c.toNat < 128) :
    listedName (slotName index p).toList = p.1 ∧
      (if isChunkedName (slotName index p).toList then chunked else if p.2.compression = 0 then 0 else 1) =
        p.2.compression ↔ Returns index p := by
  rcases h.kind with ⟨hc, hlisted⟩ | ⟨hc, hs⟩
  · have hkind : ∀ b : Bool, (if b then chunked else if p.2.compression = 0 then 0 else 1) = p.2.compression ↔
        b = true := by
      intro b
      rw [hc]
      cases b <;> decide
    rw [hkind, Returns]
    by_cases hfirst : index.find? (fun q => q.2 == p.2) = some p
    · obtain ⟨stem, hw, -⟩ := hlisted.writtenName_eq hc
      rw [slotName_of_first hfirst hw] at hascii ⊢
      obtain ⟨hchunked, hiff⟩ := hlisted.listedName_written_iff hc hw hascii
      rw [if_pos hfirst, hiff]
      exact ⟨fun hback _ => hback.1, fun hback => ⟨hback hc, hchunked⟩⟩
    · rw [slotName, if_neg hfirst] at hascii ⊢
      rw [if_neg hfirst]
      exact ⟨fun hback _ => hback.2, fun hback => ⟨hlisted.listedName_eq hascii, hback hc⟩⟩
  · have hne : p.2.compression ≠ chunked := by
      rw [chunked]
      omega
    rw [slotName_eq hne] at hascii ⊢
    have hname : listedName p.1.toList = p.1 := by
      rw [listedName_of_not_chunked hs.not_chunked fun c hc => .inl (hascii c hc), String.ofList_toList]
    have hkind : (if p.2.compression = 0 then 0 else 1) = p.2.compression := by
      split <;> omega
    rw [hname, hs.not_chunked, if_neg (by decide), hkind]
    exact ⟨fun _ hc => absurd hc hne, fun _ => ⟨rfl, rfl⟩⟩

end Slots

variable {data file : Bytes} {a : Archive} {now : Timestamp} {patches left : Table String Bytes}
  {force : Bool}

/-! ### The mark and the written names -/

/-- The ending of a script plays no part in the mark of the later format. -/
theorem take_four_eq_mark_iff {stem rest : List Char} {x : Char} (hne : stem ≠ []) (hx : x ≠ '1') :
    (stem ++ '.' :: x :: rest).take 4 = ['K', '2', '.', '1'] ↔
      (stem ++ ['.']).take 4 = ['K', '2', '.', '1'] := by
  match stem with
  | [] => exact absurd rfl hne
  | [a] => simp
  | [a, b] => simp [hx]
  | [a, b, c] => simp
  | a :: b :: c :: d :: stem => simp

/-- The first item shows the mark with its written name exactly if it does with its listed name. -/
theorem take_slotName_eq_mark_iff {p : String × Entry} {index : List (String × Entry)} (hl : Listed p.1 p.2)
    (hr : Returns (p :: index) p) :
    (slotName (p :: index) p).toList.take 4 = "K2.1".toList ↔ p.1.toList.take 4 = "K2.1".toList := by
  have hmark : "K2.1".toList = ['K', '2', '.', '1'] := by decide
  have hfirst : (p :: index).find? (fun q => q.2 == p.2) = some p := by simp
  rcases hl.kind with ⟨hc, hlisted⟩ | ⟨hc, -⟩
  · obtain ⟨stem, hw, hne, -, -, -, hscript⟩ := hlisted.writtenName_eq hc
    have hname := hr hc
    rw [if_pos hfirst] at hname
    rw [slotName_of_first hfirst hw, String.toList_ofList, hscript hname, chunkedEnding_eq, scriptEnding_eq,
      hmark, take_four_eq_mark_iff hne (by decide), take_four_eq_mark_iff hne (by decide)]
  · rw [slotName_eq (by rw [chunked]; omega)]

theorem showsMark_slotNames_iff (ha : ofBytes data = .ok a) (hv : a.version = .first)
    (hreturns : ∀ p ∈ a.index, Returns a.index p) (more : List String) :
    ShowsMark (a.index.map (slotName a.index) ++ more) ↔ ShowsMark (a.names ++ more) := by
  have hlisted := listed_of_ofBytes ha hv
  rw [names, Table.keys, ShowsMark, ShowsMark]
  cases hindex : a.index with
  | nil => exact Iff.rfl
  | cons p index =>
    rw [hindex] at hlisted hreturns
    have hp : p ∈ p :: index := List.mem_cons_self
    have hhead := take_slotName_eq_mark_iff (hlisted p hp) (hreturns p hp)
    simp only [List.length_append, List.length_map, List.length_cons, List.map_cons, List.cons_append,
      List.headD_cons, hhead]

/-! ### The written file -/

/-- Stored bytes of a draft lie in the file that was written for it. -/
theorem Lies.in_firstFile {index : List (String × Entry)} {contents stored : Bytes} {m : Entry}
    (h : Lies contents m stored) (hfile : firstFile index contents = .ok file) (hf : ∀ p ∈ index, Fits p.1) :
    Lies file (m.behind (indexEnd index.length)) stored := by
  obtain ⟨-, -, hparts⟩ := firstFile_eq_ok hfile
  have hfront : (Bytes.ofNatLE 2 index.length ++ recordsBytes (indexEnd index.length) index).length =
      indexEnd index.length := by
    rw [List.length_append, Bytes.length_ofNatLE, length_recordsBytes fun p hp => (hf p hp).length_le, indexEnd,
      Nat.add_comm]
  have hlies := h.behind (Bytes.ofNatLE 2 index.length ++ recordsBytes (indexEnd index.length) index)
  rwa [hfront, List.append_assoc, ← hparts] at hlies

/-- How an entry is listed changes neither its place nor its size. -/
theorem Lies.listedAs {stored : Bytes} {e : Entry} (h : Lies file e stored) (name : String) :
    Lies file (e.listedAs name) stored := by
  refine ⟨?_, ?_⟩
  · rw [Entry.offset_listedAs, Entry.size_listedAs]
    exact h.inside
  · rw [Entry.stored, Entry.offset_listedAs, Entry.size_listedAs]
    exact h.stored_eq

/-- A draft with the entries of the archive, one with the new files too, and the file that was written for it. -/
structure FirstRebuilt (a : Archive) (patches : Table String Bytes) (force : Bool) (left : Table String Bytes)
    (file : Bytes) (draft draft' : Draft) : Prop where
  sound : draft.Sound a patches force a.index
  added : draft.Added none left draft'
  written : firstFile draft'.index draft'.contents = .ok file
  fits : ∀ p ∈ draft'.index, Fits p.1

/-- The parts of a rebuild in the first format. -/
theorem firstRebuilt_of_rebuild (ha : ofBytes data = .ok a) (hv : a.version = .first)
    (hnew : ∀ name ∈ patches.keys, name ∉ a.names → Storable name)
    (h : rebuild a now patches force = .ok (file, left)) :
    left = patches.without a.names ∧ ∃ draft draft', FirstRebuilt a patches force left file draft draft' := by
  obtain ⟨hleft, draft, draft', last, hsound, -, hadded, hfile⟩ :=
    draft_of_rebuild (nodup_names_of_ofBytes ha) h
  have hnone : newDetails a now last = none := by
    simp only [newDetails, hv]
  rw [hnone] at hadded
  simp only [hv] at hfile
  refine ⟨hleft, draft, draft', hsound, hadded, hfile, fun p hp => ?_⟩
  obtain ⟨news, hindex, hkeys, -⟩ := hadded.index_eq
  rw [hindex] at hp
  rcases List.mem_append.1 hp with hp | hp
  · rw [hsound.index_eq] at hp
    obtain ⟨q, hq, rfl⟩ := List.mem_map.1 (Table.mem_of_mem_ofItems hp)
    exact fits_slotName (listed_of_ofBytes ha hv q hq)
  · have hk : p.1 ∈ left.keys := by
      rw [← hkeys]
      exact List.mem_map_of_mem hp
    rw [hleft] at hk
    exact (hnew _ (Table.mem_keys_without hk).1 (Table.mem_keys_without hk).2).fits

section Rebuilt

variable {draft draft' : Draft}

/-- The names of a file that was written are ASCII. -/
theorem FirstRebuilt.ascii (h : FirstRebuilt a patches force left file draft draft') :
    ∀ q ∈ draft'.index, ∀ c ∈ q.1.toList, c.toNat < 128 :=
  fun q hq => ((firstFile_eq_ok h.written).2.1 q hq).ascii

theorem FirstRebuilt.ascii_slotName (h : FirstRebuilt a patches force left file draft draft')
    {p : String × Entry} (hp : p ∈ a.index) : ∀ c ∈ (slotName a.index p).toList, c.toNat < 128 := by
  obtain ⟨news, hindex, -, -⟩ := h.added.index_eq
  have hslot : slotName a.index p ∈ draft.index.keys := by
    rw [h.sound.index_eq]
    exact Table.mem_keys_ofItems
      (List.mem_map_of_mem (f := fun p => (slotName a.index p, draft.placed p.2)) hp)
  obtain ⟨q, hq, hqp⟩ := List.mem_map.1 hslot
  rw [← hqp]
  exact h.ascii q (by rw [hindex]; exact List.mem_append_left _ hq)

/-- If all items return, then no two of them have the same slot. -/
theorem nodup_slotNames (hn : a.index.keys.Nodup)
    (hback : ∀ p ∈ a.index, listedName (slotName a.index p).toList = p.1) :
    (a.index.map (slotName a.index)).Nodup := by
  have hnames : (a.index.map (slotName a.index)).map (fun s => listedName s.toList) = a.index.keys := by
    rw [List.map_map]
    exact List.map_congr_left hback
  rw [← hnames] at hn
  exact List.Nodup.of_map _ hn

/-- What is read under the listed name of an item. -/
theorem read_listedItem {index : List (String × Entry)} {contents stored : Bytes} {name : String} {m : Entry}
    (hfile : firstFile index contents = .ok file) (hf : ∀ p ∈ index, Fits p.1)
    (hk : ((index.map (listedItem (indexEnd index.length))).map Prod.fst).Nodup) (hmem : (name, m) ∈ index)
    (hlies : Lies contents m stored) :
    ∃ e, Table.get? (index.map (listedItem (indexEnd index.length))) (listedName name.toList) = some e ∧
      e.compression = (m.listedAs name).compression ∧
      Archive.read ⟨file, .first, index.map (listedItem (indexEnd index.length))⟩ (listedName name.toList) =
        unpackStored (m.listedAs name).compression stored := by
  have hitem : (listedName name.toList, (m.behind (indexEnd index.length)).listedAs name) ∈
      index.map (listedItem (indexEnd index.length)) := List.mem_map.2 ⟨(name, m), hmem, rfl⟩
  have hget := Table.get?_of_mem hk hitem
  have hkind : ((m.behind (indexEnd index.length)).listedAs name).compression = (m.listedAs name).compression := by
    rw [Entry.compression_listedAs, Entry.compression_listedAs, Entry.behind]
  have hcontent := ((hlies.in_firstFile hfile hf).listedAs name).content_eq (Entry.details_listedAs _ _)
  rw [hkind] at hcontent
  refine ⟨_, hget, hkind, ?_⟩
  rw [Archive.read, hget]
  exact hcontent

/-- A rebuilt file that lists the old names as they were: every old item is listed again under its name and with its
kind, and the new names can be stored and are no old ones. -/
structure Relisted (a : Archive) (patches : Table String Bytes) (force : Bool) (left : Table String Bytes)
    (file : Bytes) (draft draft' : Draft) : Prop extends FirstRebuilt a patches force left file draft draft' where
  nodup_names : a.names.Nodup
  name_eq : ∀ p ∈ a.index, listedName (slotName a.index p).toList = p.1
  kind_eq : ∀ p ∈ a.index,
    (if isChunkedName (slotName a.index p).toList then chunked else if p.2.compression = 0 then 0 else 1) =
      p.2.compression
  storable : ∀ name ∈ left.keys, Storable name
  new : ∀ name ∈ left.keys, name ∉ a.names

/-- If all items return, the file lists them as they were. -/
theorem relisted_of_rebuild (ha : ofBytes data = .ok a) (hv : a.version = .first)
    (hreturns : ∀ p ∈ a.index, Returns a.index p)
    (hnew : ∀ name ∈ patches.keys, name ∉ a.names → Storable name)
    (h : rebuild a now patches force = .ok (file, left)) :
    left = patches.without a.names ∧ ∃ draft draft', Relisted a patches force left file draft draft' := by
  obtain ⟨rfl, draft, draft', hrebuilt⟩ := firstRebuilt_of_rebuild ha hv hnew h
  have hback : ∀ p ∈ a.index, _ := fun p hp =>
    (listed_slotName_iff (listed_of_ofBytes ha hv p hp) (hrebuilt.ascii_slotName hp)).2 (hreturns p hp)
  exact ⟨rfl, draft, draft', hrebuilt, nodup_names_of_ofBytes ha, fun p hp => (hback p hp).1,
    fun p hp => (hback p hp).2,
    fun name hname => hnew name (Table.mem_keys_without hname).1 (Table.mem_keys_without hname).2,
    fun name hname => (Table.mem_keys_without hname).2⟩

/-! ### What the file lists -/

namespace Relisted

/-- No slot of the draft was overwritten. -/
theorem index_eq (h : Relisted a patches force left file draft draft') :
    draft.index = a.index.map fun p => (slotName a.index p, draft.placed p.2) := by
  rw [h.sound.index_eq, Table.ofItems_eq_self]
  simpa [Function.comp_def] using nodup_slotNames h.nodup_names h.name_eq

theorem slots_eq (h : Relisted a patches force left file draft draft') :
    draft'.index.map Prod.fst = a.index.map (slotName a.index) ++ left.keys := by
  obtain ⟨news, hindex, hkeys, -⟩ := h.added.index_eq
  rw [hindex, List.map_append, ← hkeys, h.index_eq, List.map_map]
  rfl

/-- A new name is listed as it was given. -/
theorem listedName_new (h : Relisted a patches force left file draft draft') {q : String × Entry}
    (hq : q ∈ draft'.index) (hk : q.1 ∈ left.keys) : listedName q.1.toList = q.1 := by
  rw [listedName_of_not_chunked (h.storable _ hk).not_chunked fun c hc => .inl (h.ascii q hq c hc),
    String.ofList_toList]

/-- The old names are listed, and then the new ones. -/
theorem listed_eq (h : Relisted a patches force left file draft draft') (base : Nat) :
    (draft'.index.map (listedItem base)).map Prod.fst = a.names ++ left.keys := by
  obtain ⟨news, hindex, hkeys, -⟩ := h.added.index_eq
  have hold : (draft.index.map (listedItem base)).map Prod.fst = a.names := by
    rw [h.index_eq, List.map_map, List.map_map]
    exact List.map_congr_left h.name_eq
  have hnews : (news.map (listedItem base)).map Prod.fst = left.keys := by
    rw [← hkeys, List.map_map]
    refine List.map_congr_left fun q hq => h.listedName_new ?_ ?_
    · rw [hindex]
      exact List.mem_append_right _ hq
    · rw [← hkeys]
      exact List.mem_map_of_mem hq
  rw [← hold, ← hnews, ← List.map_append, ← List.map_append, ← hindex]

theorem nodup_listed (h : Relisted a patches force left file draft draft') (base : Nat) :
    ((draft'.index.map (listedItem base)).map Prod.fst).Nodup := by
  obtain ⟨news, hindex, hkeys, -⟩ := h.added.index_eq
  have hall : draft'.index.keys.Nodup := h.added.nodup (by
    rw [h.index_eq, Table.keys, List.map_map]
    exact nodup_slotNames h.nodup_names h.name_eq)
  rw [hindex, Table.keys_append, List.nodup_append, hkeys] at hall
  rw [h.listed_eq, List.nodup_append]
  refine ⟨h.nodup_names, hall.2.1, ?_⟩
  rintro name hold _ hk rfl
  exact h.new name hk hold

/-- A file that does not show the mark of the later format is opened with what it lists. -/
theorem ofBytes_eq (h : Relisted a patches force left file draft draft')
    (hm : ¬ ShowsMark (draft'.index.map Prod.fst)) :
    ofBytes file = .ok ⟨file, .first, draft'.index.map (listedItem (indexEnd draft'.index.length))⟩ := by
  rw [ofBytes_firstFile h.written h.fits hm, Table.ofItems_eq_self (h.nodup_listed _)]

theorem read_new (h : Relisted a patches force left file draft draft') {p : String × Bytes} (hp : p ∈ left) :
    Archive.read ⟨file, .first, draft'.index.map (listedItem (indexEnd draft'.index.length))⟩ p.1 = .ok p.2 := by
  obtain ⟨m, hmem, hzero, -, hlies⟩ := h.added.lies p hp
  have hk : p.1 ∈ left.keys := List.mem_map_of_mem hp
  obtain ⟨e, -, -, hread⟩ := read_listedItem h.written h.fits (h.nodup_listed _) hmem hlies
  rw [h.listedName_new hmem hk] at hread
  rw [hread, Entry.compression_listedAs, (h.storable _ hk).not_chunked, hzero]
  rfl

/-- An old name has the stored bytes that were made for the first name of its entry. -/
theorem read_old (h : Relisted a patches force left file draft draft') {p : String × Entry} (hp : p ∈ a.index) :
    ∃ first content stored e, a.index.find? (fun q => q.2 == p.2) = some (first, p.2) ∧
      MadeFor a patches force first p.2 content stored ∧
      Table.get? (draft'.index.map (listedItem (indexEnd draft'.index.length))) p.1 = some e ∧
      e.compression = p.2.compression ∧
      Archive.read ⟨file, .first, draft'.index.map (listedItem (indexEnd draft'.index.length))⟩ p.1 =
        unpackStored p.2.compression stored := by
  obtain ⟨m, hm⟩ := h.sound.stored p hp
  obtain ⟨first, content, stored, hfirst, hmade, hmoved, hlies⟩ := h.sound.keeps p.2 m hm
  obtain ⟨news, hindex, -, -⟩ := h.added.index_eq
  obtain ⟨more, hmore⟩ := h.added.contents_eq
  have hmem : (slotName a.index p, m) ∈ draft'.index := by
    rw [hindex, h.index_eq]
    refine List.mem_append_left _ (List.mem_map.2 ⟨p, hp, ?_⟩)
    rw [Draft.placed_eq hm]
  have hlies' : Lies draft'.contents m stored := by
    rw [hmore]
    exact hlies.append more
  have hkind : (m.listedAs (slotName a.index p)).compression = p.2.compression := by
    rw [Entry.compression_listedAs, hmoved]
    exact h.kind_eq p hp
  obtain ⟨e, hget, hcompression, hread⟩ := read_listedItem h.written h.fits (h.nodup_listed _) hmem hlies'
  rw [h.name_eq p hp, hkind] at hread
  rw [h.name_eq p hp] at hget
  exact ⟨first, content, stored, e, hfirst, hmade, hget, hcompression.trans hkind, hread⟩

end Relisted

end Rebuilt

/-- **What a rebuilt archive gives.**  If all items return, the names are the old ones and then the new
ones, new files read as they were given, and an old name has the stored bytes of the first name of its
entry; but a file that shows the mark of the later format is taken for one of that format. -/
theorem opened_of_returns (ha : ofBytes data = .ok a) (hv : a.version = .first)
    (hreturns : ∀ p ∈ a.index, Returns a.index p)
    (hnew : ∀ name ∈ patches.keys, name ∉ a.names → Storable name)
    (h : rebuild a now patches force = .ok (file, left)) :
    left = patches.without a.names ∧
    (ShowsMark (a.names ++ left.keys) → ∀ b, ofBytes file = .ok b → b.version = .dated) ∧
    (¬ ShowsMark (a.names ++ left.keys) → ∃ b, ofBytes file = .ok b ∧ b.version = .first ∧
      b.names = a.names ++ left.keys ∧ (∀ p ∈ left, b.read p.1 = .ok p.2) ∧
      ∀ p ∈ a.index, ∃ first content stored, a.index.find? (fun q => q.2 == p.2) = some (first, p.2) ∧
        MadeFor a patches force first p.2 content stored ∧
        (∃ e, b.index.get? p.1 = some e ∧ e.compression = p.2.compression) ∧
        b.read p.1 = unpackStored p.2.compression stored) := by
  obtain ⟨hleft, draft, draft', hlisted⟩ := relisted_of_rebuild ha hv hreturns hnew h
  rw [← showsMark_slotNames_iff ha hv hreturns, ← hlisted.slots_eq]
  refine ⟨hleft, fun hm b hb => ?_, fun hm => ⟨_, hlisted.ofBytes_eq hm, rfl, hlisted.listed_eq _, ?_, ?_⟩⟩
  · exact version_of_datedMark ((firstFile_showsMark_iff hlisted.written hlisted.fits).2 hm) hb
  · exact fun p hp => hlisted.read_new hp
  · intro p hp
    obtain ⟨first, content, stored, e, hfirst, hmade, hget, hkind, hread⟩ := hlisted.read_old hp
    exact ⟨first, content, stored, hfirst, hmade, ⟨e, hget, hkind⟩, hread⟩

end AdventureKit.Archive
