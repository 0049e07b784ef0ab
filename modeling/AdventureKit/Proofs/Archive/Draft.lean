import AdventureKit.Proofs.Archive.Header
import AdventureKit.Proofs.Lzss.RoundTrip
import Mathlib.Data.List.Nodup

/-!
# Contents while an archive is rebuilt

A rebuild puts one entry after the other into a draft.  `addEntry_cases` says what one entry does to it,
`Draft.Sound` what holds after a part of the archive, and `Sound.addEntries` that it holds to the end:
every name has the stored bytes that were made for the first name of its entry, out of the content which
this first name was to have.  `Draft.Added` says what new files do to a draft.
-/

namespace AdventureKit.Archive

/-- The content that a name is to have after a rebuild. -/
def wanted (a : Archive) (patches : Table String Bytes) (name : String) : Except Fault Bytes :=
  match patches.get? name with
  | some content => .ok content
  | none => a.read name

/-! ### Stored bytes in growing files -/

/-- The stored bytes lie in the data where the entry says. -/
structure Lies (data : Bytes) (e : Entry) (stored : Bytes) : Prop where
  inside : e.offset + e.size ≤ data.length
  stored_eq : e.stored data = stored

section Lies

variable {data stored content : Bytes} {e : Entry}

theorem Lies.size_eq (h : Lies data e stored) : e.size = stored.length := by
  have hinside := h.inside
  rw [← h.stored_eq, Entry.stored, Bytes.slice, List.length_take, List.length_drop]
  omega

theorem Lies.append (h : Lies data e stored) (more : Bytes) : Lies (data ++ more) e stored := by
  refine ⟨?_, (Bytes.slice_append h.inside more).trans h.stored_eq⟩
  rw [List.length_append]
  exact Nat.le_add_right_of_le h.inside

theorem Lies.behind (h : Lies data e stored) (front : Bytes) :
    Lies (front ++ data) (e.behind front.length) stored := by
  have hinside := h.inside
  refine ⟨?_, ?_⟩
  · rw [List.length_append]
    show front.length + e.offset + e.size ≤ _
    omega
  · rw [← h.stored_eq, Entry.stored, Entry.stored, Entry.behind]
    simp only [Nat.add_assoc]
    exact Bytes.slice_behind front data e.offset (e.offset + e.size)

theorem exists_padded_eq (version : Version) (stored : Bytes) :
    ∃ filler, padded version stored = stored ++ filler := by
  rw [padded]
  split
  · exact ⟨[0], rfl⟩
  · exact ⟨[], (List.append_nil _).symm⟩

/-- Stored bytes that were put at the end of the data. -/
theorem lies_at_end {version : Version} (hoffset : e.offset = data.length) (hsize : e.size = stored.length) :
    Lies (data ++ padded version stored) e stored := by
  obtain ⟨filler, hfiller⟩ := exists_padded_eq version stored
  have hnow : Lies (data ++ stored) e stored := by
    refine ⟨?_, ?_⟩
    · have hlen : (data ++ stored).length = data.length + stored.length := List.length_append
      omega
    · rw [Entry.stored, hoffset, hsize]
      simp [Bytes.slice]
  rw [hfiller, ← List.append_assoc]
  exact hnow.append filler

/-- What it means that an entry can be read. -/
theorem Entry.content_eq_ok_iff :
    e.content data = .ok content ↔ unpackStored e.compression (e.stored data) = .ok content ∧
      ∀ d, e.details = some d → (if e.compression = 0 then e.size else content.length) = d.contentSize := by
  rw [Entry.content, bind_eq_ok]
  cases hd : e.details with
  | none =>
    constructor
    · rintro ⟨got, hgot, h⟩
      cases h
      exact ⟨hgot, by simp⟩
    · rintro ⟨hgot, -⟩
      exact ⟨content, hgot, rfl⟩
  | some d =>
    constructor
    · rintro ⟨got, hgot, h⟩
      by_cases hl : (if e.compression = 0 then e.size else got.length) = d.contentSize
      · simp only [if_pos hl] at h
        cases h
        refine ⟨hgot, fun d' hd' => ?_⟩
        cases hd'
        exact hl
      · simp only [if_neg hl] at h
        cases h
    · rintro ⟨hgot, hl⟩
      refine ⟨content, hgot, ?_⟩
      simp only [if_pos (hl d rfl)]
      rfl

/-- In the first format nothing but the stored bytes decides on the content. -/
theorem Lies.content_eq (h : Lies data e stored) (hd : e.details = none) :
    e.content data = unpackStored e.compression stored := by
  rw [Entry.content, h.stored_eq, hd]
  cases unpackStored e.compression stored with
  | error fault => rfl
  | ok content => rfl

/-- Stored bytes give the content that they stand for, if its length is the one that is recorded. -/
theorem Lies.content_eq_ok (h : Lies data e stored) (hu : unpackStored e.compression stored = .ok content)
    (hd : ∀ d, e.details = some d → d.contentSize = content.length) : e.content data = .ok content := by
  refine Entry.content_eq_ok_iff.2 ⟨by rw [h.stored_eq, hu], fun d hdetails => ?_⟩
  rw [hd d hdetails]
  split
  · rename_i h0
    rw [unpackStored, if_pos h0] at hu
    cases hu
    exact h.size_eq
  · rfl

end Lies

/-! ### Stored forms -/

/-- The stored form of a content stands for it, whichever way it was made. -/
theorem unpackStored_storedFor {a : Archive} {force : Bool} {e : Entry} {old content stored : Bytes}
    (hold : e.content a.data = .ok old) (hs : storedFor a force e old content = .ok stored)
    (hc : e.compression ≠ chunked) : unpackStored e.compression stored = .ok content := by
  rw [storedFor] at hs
  by_cases hkeep : old = content ∧ force = false
  · -- the bytes of the old entry
    rw [if_pos hkeep] at hs
    cases hs
    rw [(Entry.content_eq_ok_iff.1 hold).1, hkeep.1]
  · rw [if_neg hkeep] at hs
    by_cases h0 : e.compression = 0
    · rw [if_pos h0] at hs
      cases hs
      rw [unpackStored, if_pos h0]
    · rw [if_neg h0] at hs
      obtain ⟨rest, hrest⟩ := Lzss.unpackSized_of_pack hs
      rw [unpackStored, if_neg h0, if_neg hc, hrest]
      rfl

/-- The stored bytes that are made for a name of an entry, out of the content which it is to have. -/
structure MadeFor (a : Archive) (patches : Table String Bytes) (force : Bool) (name : String) (e : Entry)
    (content stored : Bytes) : Prop where
  wanted_eq : a.wanted patches name = .ok content
  storedFor_eq : ∃ old, e.content a.data = .ok old ∧ storedFor a force e old content = .ok stored

theorem MadeFor.unpackStored_eq {a : Archive} {patches : Table String Bytes} {force : Bool} {name : String}
    {e : Entry} {content stored : Bytes} (h : MadeFor a patches force name e content stored)
    (hc : e.compression ≠ chunked) : unpackStored e.compression stored = .ok content := by
  obtain ⟨old, hold, hstored⟩ := h.storedFor_eq
  exact unpackStored_storedFor hold hstored hc

/-! ### One entry -/

/-- What storing an entry does: the old content has to be there, a patch is used up, and the draft gets
a name for stored bytes that it has, or stored bytes of its own. -/
theorem addEntry_cases {π : Type} [Patches π] {a : Archive} {force : Bool} {draft draft' : Draft}
    {patches patches' : π} {name : String} {e : Entry} {n : Nat}
    (h : draft.addEntry a force patches name e = .ok (draft', patches', n)) :
    ∃ old patch stored, e.content a.data = .ok old ∧ Patches.take patches name = .ok (patch, patches') ∧
      storedFor a force e old (patch.getD old) = .ok stored ∧ n = (patch.getD old).length ∧
      ((∃ shared, draft.stored.get? e = some shared ∧
          draft' = { draft with index := draft.index.put name shared }) ∨
        (draft.stored.get? e = none ∧ ∃ written, writtenName name e = .ok written ∧
          draft' =
            let moved := e.moved draft.contents.length stored e.compression (patch.getD old).length
            ⟨draft.index.put written moved, draft.contents ++ padded a.version stored,
              draft.stored.put e moved⟩)) := by
  obtain ⟨old, hold, h⟩ := bind_eq_ok.1 h
  obtain ⟨⟨patch, rest⟩, htake, h⟩ := bind_eq_ok.1 h
  obtain ⟨stored, hstored, h⟩ := bind_eq_ok.1 h
  cases hshared : draft.stored.get? e with
  | some shared =>
    simp only [hshared] at h
    cases h
    exact ⟨old, patch, stored, hold, htake, hstored, rfl, .inl ⟨shared, rfl, rfl⟩⟩
  | none =>
    simp only [hshared] at h
    obtain ⟨written, hwritten, h⟩ := bind_eq_ok.1 h
    cases h
    exact ⟨old, patch, stored, hold, htake, hstored, rfl, .inr ⟨rfl, written, hwritten, rfl⟩⟩

/-- The name under which an item of an index is put into a draft.  The first name of an entry is the one
that its kind asks for; the other names of the entry stay as they are listed. -/
def slotName (index : List (String × Entry)) (p : String × Entry) : String :=
  if index.find? (fun q => q.2 == p.2) = some p then (writtenName p.1 p.2).toOption.getD p.1 else p.1

theorem slotName_eq {index : List (String × Entry)} {p : String × Entry} (hc : p.2.compression ≠ chunked) :
    slotName index p = p.1 := by
  rw [slotName, writtenName, if_neg hc]
  exact ite_self p.1

theorem slotName_of_first {index : List (String × Entry)} {p : String × Entry}
    (hfirst : index.find? (fun q => q.2 == p.2) = some p) {written : String}
    (hw : writtenName p.1 p.2 = .ok written) : slotName index p = written := by
  rw [slotName, if_pos hfirst, hw]
  rfl

section Slot

variable {index : Table String Entry} {done items : List (String × Entry)} {name : String} {e : Entry}
  (hsplit : index = done ++ (name, e) :: items)
include hsplit

theorem name_notMem_done (hn : index.keys.Nodup) : name ∉ done.map Prod.fst := by
  rw [hsplit, Table.keys, List.map_append, List.nodup_append] at hn
  exact fun hmem => hn.2.2 name hmem name (by simp) rfl

/-- A name stays as it is if an earlier one has its entry. -/
theorem slotName_of_done (hname : name ∉ done.map Prod.fst) {p : String × Entry} (hp : p ∈ done) (he : p.2 = e) :
    slotName index (name, e) = name := by
  have hsome : (done.find? fun q => q.2 == e).isSome = true :=
    List.find?_isSome.2 ⟨p, hp, beq_iff_eq.2 he⟩
  obtain ⟨first, hfirst⟩ := Option.isSome_iff_exists.1 hsome
  rw [slotName, hsplit, List.find?_append, hfirst]
  refine if_neg fun heq => hname ?_
  cases heq
  exact List.mem_map_of_mem (List.mem_of_find?_eq_some hfirst)

/-- The first name of an entry gets the name that its kind asks for. -/
theorem slotName_of_new (hnone : done.find? (fun q => q.2 == e) = none) {written : String}
    (hw : writtenName name e = .ok written) : slotName index (name, e) = written := by
  refine slotName_of_first ?_ hw
  rw [hsplit, List.find?_append, hnone]
  simp

end Slot

/-- In a list without repeated entries, every name is the first one of its entry. -/
theorem find?_entry_of_nodup {index : List (String × Entry)} (hd : (index.map Prod.snd).Nodup)
    {p : String × Entry} (hp : p ∈ index) : index.find? (fun q => q.2 == p.2) = some p := by
  have hsome : (index.find? fun q => q.2 == p.2).isSome = true :=
    List.find?_isSome.2 ⟨p, hp, beq_self_eq_true p.2⟩
  obtain ⟨q, hq⟩ := Option.isSome_iff_exists.1 hsome
  have hsame := List.find?_some hq
  have heq : q.2 = p.2 := beq_iff_eq.1 hsame
  rw [hq, List.inj_on_of_nodup_map hd (List.mem_of_find?_eq_some hq) hp heq]

/-- Where the stored bytes of an entry are in a draft. -/
def Draft.placed (draft : Draft) (e : Entry) : Entry :=
  (draft.stored.get? e).getD e

theorem Draft.placed_eq {draft : Draft} {e m : Entry} (h : draft.stored.get? e = some m) : draft.placed e = m := by
  rw [Draft.placed, h]
  rfl

/-- What was stored for an entry: the bytes that were made for the first name of the entry. -/
def Keeps (a : Archive) (patches : Table String Bytes) (force : Bool) (done : List (String × Entry))
    (contents : Bytes) (e m : Entry) : Prop :=
  ∃ first content stored, done.find? (fun p => p.2 == e) = some (first, e) ∧
    MadeFor a patches force first e content stored ∧
    m = e.moved m.offset stored e.compression content.length ∧ Lies contents m stored

theorem Keeps.later {a : Archive} {patches : Table String Bytes} {force : Bool} {done : List (String × Entry)}
    {contents : Bytes} {e m : Entry} (h : Keeps a patches force done contents e m) (p : String × Entry)
    (more : Bytes) : Keeps a patches force (done ++ [p]) (contents ++ more) e m := by
  obtain ⟨first, content, stored, hfirst, hmade, hm, hlies⟩ := h
  refine ⟨first, content, stored, ?_, hmade, hm, hlies.append more⟩
  rw [List.find?_append, hfirst]
  rfl

/-- A draft that has stored the items of `done`. -/
structure Draft.Sound (a : Archive) (patches : Table String Bytes) (force : Bool) (done : List (String × Entry))
    (draft : Draft) : Prop where
  index_eq : draft.index = Table.ofItems (done.map fun p => (slotName a.index p, draft.placed p.2))
  stored : ∀ p ∈ done, ∃ m, draft.stored.get? p.2 = some m
  keeps : ∀ e m, draft.stored.get? e = some m → Keeps a patches force done draft.contents e m

theorem Draft.sound_start (a : Archive) (patches : Table String Bytes) (force : Bool) :
    Draft.Sound a patches force [] ⟨[], [], []⟩ where
  index_eq := rfl
  stored := by simp
  keeps := by simp [Table.get?]

section Step

variable {a : Archive} {patches : Table String Bytes} {force : Bool} {done : List (String × Entry)}
  {draft : Draft} {name : String} {e : Entry}

/-- One more name in the index, whose stored bytes are among those of before or new ones. -/
theorem Draft.Sound.extend (h : draft.Sound a patches force done) {slot : String} {m : Entry}
    {contents : Bytes} {stored : Table Entry Entry} (hslot : slotName a.index (name, e) = slot)
    (hstored : ∀ e' m', draft.stored.get? e' = some m' → stored.get? e' = some m')
    (hm : stored.get? e = some m)
    (hkeeps : ∀ e' m', stored.get? e' = some m' →
      Keeps a patches force (done ++ [(name, e)]) contents e' m') :
    Draft.Sound a patches force (done ++ [(name, e)]) ⟨draft.index.put slot m, contents, stored⟩ := by
  refine ⟨?_, ?_, hkeeps⟩
  · have hdone : (done.map fun p => (slotName a.index p,
        (⟨draft.index.put slot m, contents, stored⟩ : Draft).placed p.2)) =
        done.map fun p => (slotName a.index p, draft.placed p.2) := by
      refine List.map_congr_left fun p hp => ?_
      obtain ⟨m', hm'⟩ := h.stored p hp
      rw [Draft.placed_eq hm', Draft.placed_eq (hstored _ _ hm')]
    rw [List.map_append, hdone, List.map_singleton, Table.ofItems_concat, ← h.index_eq, hslot,
      Draft.placed_eq hm]
  · intro p hp
    rcases List.mem_append.1 hp with hp | hp
    · obtain ⟨m', hm'⟩ := h.stored p hp
      exact ⟨m', hstored _ _ hm'⟩
    · rw [List.mem_singleton.1 hp]
      exact ⟨m, hm⟩

/-- The name of an entry that is stored already. -/
theorem Draft.Sound.share (h : draft.Sound a patches force done) {items : List (String × Entry)}
    (hsplit : a.index = done ++ (name, e) :: items) (hname : name ∉ done.map Prod.fst) {m : Entry}
    (hm : draft.stored.get? e = some m) :
    Draft.Sound a patches force (done ++ [(name, e)]) { draft with index := draft.index.put name m } := by
  obtain ⟨first, _, _, hfirst, -⟩ := h.keeps e m hm
  have hslot : slotName a.index (name, e) = name :=
    slotName_of_done hsplit hname (List.mem_of_find?_eq_some hfirst) rfl
  refine h.extend hslot (fun _ _ hs => hs) hm fun e' m' hm' => ?_
  have := (h.keeps e' m' hm').later (name, e) []
  rwa [List.append_nil] at this

/-- The name of an entry that is stored now. -/
theorem Draft.Sound.store (h : draft.Sound a patches force done) {items : List (String × Entry)}
    (hsplit : a.index = done ++ (name, e) :: items) (hnew : draft.stored.get? e = none) {written : String}
    (hwritten : writtenName name e = .ok written) {content stored more : Bytes} {m : Entry}
    (hmade : MadeFor a patches force name e content stored)
    (hm : m = e.moved m.offset stored e.compression content.length)
    (hlies : Lies (draft.contents ++ more) m stored) :
    Draft.Sound a patches force (done ++ [(name, e)])
      ⟨draft.index.put written m, draft.contents ++ more, draft.stored.put e m⟩ := by
  -- no name before this one has the entry
  have hnone : done.find? (fun p => p.2 == e) = none := by
    rw [List.find?_eq_none]
    intro p hp heq
    obtain ⟨m', hstored⟩ := h.stored p hp
    rw [beq_iff_eq.1 heq, hnew] at hstored
    cases hstored
  have hslot : slotName a.index (name, e) = written := slotName_of_new hsplit hnone hwritten
  have hfresh : e ∉ draft.stored.keys := Table.get?_eq_none_iff.1 hnew
  rw [Table.put_eq_append hfresh]
  refine h.extend hslot (fun _ _ hs => Table.get?_append_left hs _) (Table.get?_append_self hfresh)
    fun e' m' hm' => ?_
  by_cases he : e' = e
  · subst he
    rw [Table.get?_append_self hfresh, Option.some.injEq] at hm'
    subst hm'
    refine ⟨name, content, stored, ?_, hmade, hm, hlies⟩
    rw [List.find?_append, hnone]
    simp
  · have hold : draft.stored.get? e' = some m' := by
      have hne : Table.get? [(e, m)] e' = none := by
        rw [Table.get?_eq_none_iff]
        simpa [Table.keys] using he
      rwa [Table.get?_append, hne, Option.or_none] at hm'
    exact (h.keeps e' m' hold).later (name, e) more

theorem Draft.Sound.addEntry {draft' : Draft} {patches' : Table String Bytes} {n : Nat}
    {items : List (String × Entry)} (h : draft.Sound a patches force done)
    (hsplit : a.index = done ++ (name, e) :: items) (hname : name ∉ done.map Prod.fst)
    (he : a.index.get? name = some e)
    (hadd : draft.addEntry a force (patches.without (done.map Prod.fst)) name e = .ok (draft', patches', n)) :
    draft'.Sound a patches force (done ++ [(name, e)]) ∧
      patches' = patches.without ((done ++ [(name, e)]).map Prod.fst) ∧
      ∃ content, a.wanted patches name = .ok content ∧ content.length = n := by
  obtain ⟨old, patch, stored, hold, htake, hstored, rfl, hdraft⟩ := addEntry_cases hadd
  cases htake
  have hcontent : a.wanted patches name = .ok ((patches.get? name).getD old) := by
    rw [wanted]
    cases patches.get? name with
    | some content => rfl
    | none =>
      simp only [Archive.read, he]
      exact hold
  rw [Table.get?_without patches hname] at hstored hdraft ⊢
  refine ⟨?_, by rw [Table.erase_without, List.map_append]; rfl, _, hcontent, rfl⟩
  rcases hdraft with ⟨shared, hshared, rfl⟩ | ⟨hnew, written, hwritten, rfl⟩
  · exact h.share hsplit hname hshared
  · exact h.store hsplit hnew hwritten ⟨hcontent, old, hold, hstored⟩ rfl (lies_at_end rfl rfl)

end Step

/-! ### All entries -/

/-- The last of the items and the length of the content that its name is to have. -/
def IsLast (a : Archive) (patches : Table String Bytes) (done : List (String × Entry)) :
    Option (Entry × Nat) → Prop
  | none => done = []
  | some (e, n) => ∃ name content, done.getLast? = some (name, e) ∧ a.wanted patches name = .ok content ∧
      content.length = n

theorem Draft.Sound.addEntries {a : Archive} {patches : Table String Bytes} {force : Bool}
    {items : List (String × Entry)} {done : List (String × Entry)} {draft draft' : Draft}
    {patches' : Table String Bytes} {last last' : Option (Entry × Nat)} (hn : a.index.keys.Nodup)
    (hsplit : a.index = done ++ items) (h : draft.Sound a patches force done) (hlast : IsLast a patches done last)
    (hadd : draft.addEntries a force (patches.without (done.map Prod.fst)) last items =
      .ok (draft', patches', last')) :
    draft'.Sound a patches force a.index ∧ patches' = patches.without a.names ∧
      IsLast a patches a.index last' := by
  induction items generalizing done draft last with
  | nil =>
    rw [List.append_nil] at hsplit
    cases hadd
    exact ⟨hsplit ▸ h, by rw [Archive.names, Table.keys, hsplit], hsplit ▸ hlast⟩
  | cons p items ih =>
    obtain ⟨name, e⟩ := p
    obtain ⟨⟨draft₁, patches₁, n⟩, hone, hrest⟩ := bind_eq_ok.1 hadd
    have hmem : (name, e) ∈ a.index := by
      rw [hsplit]
      simp
    have hname := name_notMem_done hsplit hn
    obtain ⟨hsound, rfl, content, hcontent, hlength⟩ :=
      h.addEntry hsplit hname (Table.get?_of_mem hn hmem) hone
    have hnext : IsLast a patches (done ++ [(name, e)]) (some (e, n)) :=
      ⟨name, content, List.getLast?_concat, hcontent, hlength⟩
    exact ih (by rw [hsplit]; simp) hsound hnext hrest

/-! ### New files -/

/-- What the later format records of a new file: most of it is taken from the last entry. -/
def newDetails (a : Archive) (now : Timestamp) (last : Option (Entry × Nat)) : Option Details :=
  match a.version, last with
  | .dated, some (e, length) =>
    e.details.map fun d => { d with contentSize := length, modified := now, creator := newCreator }
  | _, _ => none

theorem newEntry_eq_ok {a : Archive} {now : Timestamp} {last : Option (Entry × Nat)} {place : Nat}
    {content : Bytes} {e : Entry} (h : newEntry a now last place content = .ok e) :
    e = ⟨place, content.length, 0, newDetails a now last⟩ := by
  obtain ⟨data, version, index⟩ := a
  cases version with
  | first =>
    cases h
    rfl
  | dated =>
    cases last with
    | none => cases h
    | some p =>
      cases h
      rfl

/-- A draft with new files. -/
structure Draft.Added (draft : Draft) (details : Option Details) (items : Table String Bytes) (draft' : Draft) :
    Prop where
  index_eq : ∃ news : Table String Entry, draft'.index = draft.index ++ news ∧ news.keys = items.keys ∧
    ∀ q ∈ news, q.2.compression = 0 ∧ q.2.details = details
  contents_eq : ∃ more, draft'.contents = draft.contents ++ more
  nodup : draft.index.keys.Nodup → draft'.index.keys.Nodup
  lies : ∀ p ∈ items, ∃ m, (p.1, m) ∈ draft'.index ∧ m.compression = 0 ∧ m.details = details ∧
    Lies draft'.contents m p.2

theorem Draft.added_one {draft : Draft} {name : String} (hname : name ∉ draft.index.keys) (version : Version)
    (details : Option Details) (content : Bytes) :
    draft.Added details [(name, content)]
      (draft.add version name ⟨draft.contents.length, content.length, 0, details⟩ content) := by
  have hput := Table.put_eq_append hname (⟨draft.contents.length, content.length, 0, details⟩ : Entry)
  rw [Draft.add, hput]
  refine ⟨⟨_, rfl, rfl, by simp⟩, ⟨_, rfl⟩, ?_, ?_⟩
  · intro hn
    rw [← hput]
    exact Table.nodup_keys_put hn name _
  · intro p hp
    rw [List.mem_singleton.1 hp]
    exact ⟨_, List.mem_append_right _ (List.mem_singleton.2 rfl), rfl, rfl, lies_at_end rfl rfl⟩

theorem Draft.Added.trans {draft draft₁ draft₂ : Draft} {details : Option Details}
    {items more : Table String Bytes} (h : draft.Added details items draft₁)
    (h' : draft₁.Added details more draft₂) : draft.Added details (items ++ more) draft₂ := by
  obtain ⟨news, hindex, hkeys, hnews⟩ := h.index_eq
  obtain ⟨news', hindex', hkeys', hnews'⟩ := h'.index_eq
  obtain ⟨tail, htail⟩ := h.contents_eq
  obtain ⟨tail', htail'⟩ := h'.contents_eq
  refine ⟨⟨news ++ news', ?_, ?_, ?_⟩, ⟨tail ++ tail', ?_⟩, fun hn => h'.nodup (h.nodup hn), ?_⟩
  · rw [hindex', hindex, List.append_assoc]
  · rw [Table.keys_append, Table.keys_append, hkeys, hkeys']
  · exact List.forall_mem_append.2 ⟨hnews, hnews'⟩
  · rw [htail', htail, List.append_assoc]
  · intro p hp
    rcases List.mem_append.1 hp with hp | hp
    · obtain ⟨m, hmem, hkind, hdetails, hlies⟩ := h.lies p hp
      refine ⟨m, ?_, hkind, hdetails, ?_⟩
      · rw [hindex']
        exact List.mem_append_left _ hmem
      · rw [htail']
        exact hlies.append tail'
    · exact h'.lies p hp

theorem Draft.added_addNew {a : Archive} {now : Timestamp} {last : Option (Entry × Nat)}
    {items : Table String Bytes} {draft draft' : Draft}
    (h : draft.addNew a now last (Patches.items items) = .ok draft') :
    draft.Added (newDetails a now last) items draft' := by
  induction items generalizing draft with
  | nil =>
    cases h
    exact ⟨⟨[], (List.append_nil _).symm, rfl, by simp⟩, ⟨[], (List.append_nil _).symm⟩, fun hn => hn, by simp⟩
  | cons p items ih =>
    obtain ⟨name, content⟩ := p
    obtain ⟨_, hcontent, h⟩ := bind_eq_ok.1 h
    cases hcontent
    by_cases hhas : draft.index.has name = true
    · simp only [if_pos hhas] at h
      cases h
    · simp only [if_neg hhas] at h
      obtain ⟨e, he, h⟩ := bind_eq_ok.1 h
      cases newEntry_eq_ok he
      have hone := Draft.added_one (mt Table.has_iff.2 hhas) a.version (newDetails a now last) content
      exact hone.trans (ih h)

/-! ### A whole rebuild -/

/-- The parts of a rebuild. -/
theorem draft_of_rebuild {a : Archive} {now : Timestamp} {patches left : Table String Bytes} {force : Bool}
    {file : Bytes} (hn : a.index.keys.Nodup) (h : rebuild a now patches force = .ok (file, left)) :
    left = patches.without a.names ∧ ∃ (draft draft' : Draft) (last : Option (Entry × Nat)),
      draft.Sound a patches force a.index ∧ IsLast a patches a.index last ∧
      draft.Added (newDetails a now last) left draft' ∧
      (match a.version with
        | .first => firstFile draft'.index draft'.contents
        | .dated => datedFile now draft'.index draft'.contents) = .ok file := by
  obtain ⟨⟨draft, patches', last⟩, hentries, h⟩ := bind_eq_ok.1 h
  obtain ⟨draft', hnew, h⟩ := bind_eq_ok.1 h
  have hfile : left = patches' ∧ (match a.version with
      | .first => firstFile draft'.index draft'.contents
      | .dated => datedFile now draft'.index draft'.contents) = .ok file := by
    cases hv : a.version with
    | first =>
      simp only [hv] at h
      obtain ⟨file', hfile, h⟩ := bind_eq_ok.1 h
      cases h
      exact ⟨rfl, hfile⟩
    | dated =>
      simp only [hv] at h
      obtain ⟨file', hfile, h⟩ := bind_eq_ok.1 h
      cases h
      exact ⟨rfl, hfile⟩
  obtain ⟨rfl, hfile⟩ := hfile
  have hstart : patches.without (([] : List (String × Entry)).map Prod.fst) = patches :=
    Table.without_nil patches
  rw [← hstart] at hentries
  have hnone : IsLast a patches [] none := rfl
  obtain ⟨hsound, hleft, hlast⟩ := (Draft.sound_start a patches force).addEntries hn rfl hnone hentries
  exact ⟨hleft, draft, draft', last, hsound, hlast, Draft.added_addNew hnew, hfile⟩

end AdventureKit.Archive
