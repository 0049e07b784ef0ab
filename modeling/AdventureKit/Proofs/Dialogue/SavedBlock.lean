import AdventureKit.Proofs.Bytes
import AdventureKit.Proofs.Dialogue.Placement
import AdventureKit.Proofs.Fault
import Mathlib.Algebra.Ring.Nat

/-!
# Reading a saved text block

A saved block reads as its lines if no body is recorded before its place, none is recorded at the place
that stands for no body, and no line without a body has a record that shows bytes of the block
(`Untangled`).  For lines that do not share places this always holds, and a block whose bodies already
stand in order is saved as it is.
-/

namespace AdventureKit.TextBlock

variable {lines new : List Line} {block : Bytes} {line : Line}

/-! ## The bytes of a saved block -/

/-- The numbers of a record fit its fields. -/
def Recordable (line : Line) : Prop :=
  0 ≤ line.place ∧ line.place < 65536 ∧ 0 ≤ line.size ∧ line.size < 65536

instance : DecidablePred Recordable := fun line =>
  inferInstanceAs (Decidable (0 ≤ line.place ∧ line.place < 65536 ∧ 0 ≤ line.size ∧ line.size < 65536))

def recordFields (line : Line) : Bytes :=
  Bytes.ofNatLE 2 line.place.toNat ++ Bytes.ofNatLE 2 line.size.toNat

theorem length_recordFields (line : Line) : (recordFields line).length = 4 := by
  simp [recordFields, Bytes.length_ofNatLE]

theorem length_flatMap_recordFields (lines : List Line) :
    (lines.flatMap recordFields).length = 4 * lines.length := by
  induction lines with
  | nil => rfl
  | cons line lines ih =>
    simp only [List.flatMap_cons, List.length_append, length_recordFields, ih, List.length_cons]
    omega

theorem mapM_recordBytes {index : List Bytes} :
    lines.mapM recordBytes = .ok index ↔
      (∀ line ∈ lines, Recordable line) ∧ index = lines.map recordFields := by
  induction lines generalizing index with
  | nil =>
    constructor
    · intro h
      cases h
      exact ⟨by simp, rfl⟩
    · rintro ⟨-, rfl⟩
      rfl
  | cons line lines ih =>
    rw [mapM_cons_eq_ok]
    constructor
    · rintro ⟨bs, rest, hbs, hrest, rfl⟩
      unfold recordBytes at hbs
      split at hbs
      · rename_i hfits
        cases hbs
        obtain ⟨hall, rfl⟩ := ih.1 hrest
        exact ⟨List.forall_mem_cons.2 ⟨hfits, hall⟩, rfl⟩
      · cases hbs
    · rintro ⟨hall, rfl⟩
      obtain ⟨hfits, hall⟩ := List.forall_mem_cons.1 hall
      exact ⟨recordFields line, lines.map recordFields, if_pos hfits, ih.2 ⟨hall, rfl⟩, rfl⟩

/-- The block that saving writes. -/
def blockOf (lines : List Line) : Bytes :=
  Bytes.ofNatLE 2 lines.length ++ (replaced lines).flatMap recordFields ++ bodies (ordered lines)

theorem save_eq_ok_iff : save lines = .ok (block, new) ↔
    lines.length < 65536 ∧ (∀ line ∈ replaced lines, Recordable line) ∧ block = blockOf lines ∧
      new = replaced lines := by
  have hlimit : Bytes.limit 2 = 65536 := rfl
  constructor
  · intro h
    obtain ⟨count, hcount, h⟩ := bind_eq_ok.1 h
    obtain ⟨index, hindex, h⟩ := bind_eq_ok.1 h
    obtain ⟨hlength, rfl⟩ := Bytes.putLE_eq_ok hcount
    obtain ⟨hall, rfl⟩ := mapM_recordBytes.1 hindex
    cases h
    exact ⟨hlimit ▸ hlength, hall, rfl, rfl⟩
  · rintro ⟨hlength, hall, rfl, rfl⟩
    refine bind_eq_ok.2 ⟨_, Bytes.putLE_of_lt (hlimit ▸ hlength), ?_⟩
    exact bind_eq_ok.2 ⟨_, mapM_recordBytes.2 ⟨hall, rfl⟩, rfl⟩

theorem length_header (lines : List Line) :
    (Bytes.ofNatLE 2 lines.length ++ (replaced lines).flatMap recordFields).length = 2 + 4 * lines.length := by
  rw [List.length_append, Bytes.length_ofNatLE, length_flatMap_recordFields, length_replaced]

/-- The body of a line stands behind the bodies of the lines before it. -/
theorem take_body {before after : List (Nat × Line)} {i : Nat}
    (h : ordered lines = before ++ (i, line) :: after) :
    ((blockOf lines).drop (2 + 4 * lines.length + (bodies before).length)).take line.body.length =
      line.body := by
  rw [← List.drop_drop, blockOf, List.drop_left' (length_header lines), h, bodies_append, bodies_cons,
    List.drop_left, List.take_left]

/-! ## Reading it -/

theorem records_flatMap (h : ∀ line ∈ lines, Recordable line) (more : Bytes) :
    records lines.length (lines.flatMap recordFields ++ more) =
      lines.map fun line => (line.place.toNat, line.size.toNat) := by
  induction lines with
  | nil => rfl
  | cons line lines ih =>
    obtain ⟨⟨hp, hplace, hs, hsize⟩, hall⟩ := List.forall_mem_cons.1 h
    have hlimit : Bytes.limit 2 = 65536 := rfl
    have hplace : line.place.toNat < Bytes.limit 2 := by omega
    have hsize : line.size.toNat < Bytes.limit 2 := by omega
    simp only [List.flatMap_cons, recordFields, List.append_assoc, List.length_cons, records, List.map_cons]
    rw [Bytes.word_ofNatLE hplace, List.drop_left' (Bytes.length_ofNatLE 2 _), Bytes.word_ofNatLE hsize]
    rw [← List.append_assoc, List.drop_left' (by simp [Bytes.length_ofNatLE]), ih hall]

/-- The block shows the line at its record. -/
def Shows (block : Bytes) (line : Line) : Prop :=
  lineAt block line.place.toNat line.size.toNat = line

theorem read_blockOf_append (hn : lines.length < 1024) (h : ∀ line ∈ replaced lines, Recordable line) (trail : Bytes) :
    read (blockOf lines ++ trail) =
      (replaced lines).map fun line => lineAt (blockOf lines ++ trail) line.place.toNat line.size.toNat := by
  have hsplit : blockOf lines ++ trail =
      Bytes.ofNatLE 2 lines.length ++ ((replaced lines).flatMap recordFields ++ (bodies (ordered lines) ++ trail)) := by
    rw [blockOf, List.append_assoc, List.append_assoc]
  have hcount : (blockOf lines ++ trail).word = lines.length := by
    rw [hsplit]
    exact Bytes.word_ofNatLE (Nat.lt_trans hn (by decide)) _
  have hrest : (blockOf lines ++ trail).drop 2 =
      (replaced lines).flatMap recordFields ++ (bodies (ordered lines) ++ trail) := by
    rw [hsplit]
    exact List.drop_left' (Bytes.length_ofNatLE 2 _)
  have hrecords := records_flatMap h (bodies (ordered lines) ++ trail)
  rw [length_replaced] at hrecords
  rw [read, hcount, hrest, Nat.mod_eq_of_lt hn, hrecords, List.map_map]
  rfl

theorem read_blockOf (hn : lines.length < 1024) (h : ∀ line ∈ replaced lines, Recordable line) :
    read (blockOf lines) =
      (replaced lines).map fun line => lineAt (blockOf lines) line.place.toNat line.size.toNat := by
  have hread := read_blockOf_append hn h []
  rwa [List.append_nil] at hread

theorem read_blockOf_eq_iff (hn : lines.length < 1024) (h : ∀ line ∈ replaced lines, Recordable line) :
    read (blockOf lines) = replaced lines ↔ ∀ line ∈ replaced lines, Shows (blockOf lines) line := by
  have hmap := List.map_inj_left (l := replaced lines) (g := id)
    (f := fun line => lineAt (blockOf lines) line.place.toNat line.size.toNat)
  rw [List.map_id] at hmap
  rw [read_blockOf hn h, hmap]
  rfl

theorem shows_of_empty (h : Recordable line) (hb : line.body = []) :
    Shows block line ↔ line.place = nowhere ∨ line.size = 0 ∨ (block.length : Int) ≤ line.place := by
  obtain ⟨hp, -, hs, -⟩ := h
  obtain ⟨place, size, body⟩ := line
  lift place to Nat using hp
  lift size to Nat using hs
  simp only at hb
  subst hb
  simp only [Shows, lineAt, Int.toNat_natCast, Line.mk.injEq, true_and]
  split
  · rename_i h
    rcases h with rfl | rfl
    · simp
    · simp
  · rename_i h
    simp only [not_or] at h
    rw [List.take_eq_nil_iff, List.drop_eq_nil_iff]
    constructor
    · rintro (h0 | hle)
      · exact absurd h0 h.2
      · exact .inr (.inr (by omega))
    · rintro (hw | h0 | hle)
      · exact absurd (by exact_mod_cast hw) h.1
      · exact absurd (by exact_mod_cast h0) h.2
      · exact .inr (by omega)

theorem shows_of_body {place : Nat} {body : Bytes} (hb : body ≠ []) :
    Shows block ⟨place, body.length, body⟩ ↔
      place ≠ nowhere ∧ (block.drop place).take body.length = body := by
  have hlength : body.length ≠ 0 := by simpa using hb
  simp only [Shows, lineAt, Int.toNat_natCast, Line.mk.injEq, true_and, hlength, or_false]
  split
  · rename_i h
    simp [h, hb.symm]
  · rename_i h
    simp [h]

/-! ## When all lines read back -/

/-- The length of the block that saving writes. -/
def blockSize (lines : List Line) : Nat :=
  2 + 4 * lines.length + (lines.map fun line => line.body.length).sum

theorem length_bodies (items : List (Nat × Line)) :
    (bodies items).length = (items.map fun item => item.2.body.length).sum := by
  simp [bodies, List.length_flatMap]

theorem length_bodies_ordered (lines : List Line) :
    (bodies (ordered lines)).length = (lines.map fun line => line.body.length).sum := by
  rw [length_bodies, ← ((map_snd_ordered_perm lines).map _).sum_nat, List.map_map]
  rfl

theorem length_blockOf (lines : List Line) : (blockOf lines).length = blockSize lines := by
  rw [blockOf, List.length_append, length_header, length_bodies_ordered, blockSize]

/-- What lines have to be like for the saved block to read back, whatever their bodies hold. -/
structure Untangled (lines : List Line) : Prop where
  /-- Of the lines with a body, all but the last in order have places of their own. -/
  apart : (bodyPlaces (ordered lines)).dropLast.Nodup
  /-- No body comes to the place that stands for no body. -/
  clear : ∀ before item after, ordered lines = before ++ item :: after → item.2.body ≠ [] →
    2 + 4 * lines.length + (bodies before).length ≠ nowhere
  /-- The record of a line without a body shows none, or lies beyond the block. -/
  blank : ∀ line ∈ lines, line.body = [] →
    line.place = nowhere ∨ line.size = 0 ∨ (blockSize lines : Int) ≤ line.place

/-- The bodies before a body have places of their own, if all but the last have. -/
theorem nodup_dropLast_bodyPlaces (items : List (Nat × Line)) :
    (bodyPlaces items).dropLast.Nodup ↔ ∀ before item after, items = before ++ item :: after →
      item.2.body ≠ [] → (bodyPlaces before).Nodup := by
  constructor
  · rintro h before item after rfl hb
    rw [bodyPlaces_append, bodyPlaces_of_body hb, List.dropLast_append_of_ne_nil (by simp)] at h
    exact (List.nodup_append.1 h).1
  · intro h
    -- from the end: lines without a body do not count, and the first line with one is the last body
    induction items using List.reverseRecOn with
    | nil => simp
    | append_singleton items item ih =>
      by_cases hb : item.2.body = []
      · rw [bodyPlaces_append, bodyPlaces_of_empty hb, bodyPlaces_nil, List.append_nil]
        refine ih fun before i after hsplit => h before i (after ++ [item]) ?_
        simp [hsplit]
      · rw [bodyPlaces_append, bodyPlaces_of_body hb, bodyPlaces_nil, List.dropLast_concat]
        exact h items item [] rfl hb

theorem Untangled.next_eq (h : Untangled lines) {before after : List (Nat × Line)} {item : Nat × Line}
    (hsplit : ordered lines = before ++ item :: after) (hb : item.2.body ≠ []) :
    (cursorAt lines before).next = 2 + 4 * lines.length + (bodies before).length :=
  (settled_cursorAt hsplit).eq_written_iff.2 ((nodup_dropLast_bodyPlaces _).1 h.apart before item after hsplit hb)

theorem Untangled.shows (h : Untangled lines) (hr : ∀ line ∈ replaced lines, Recordable line) :
    ∀ line ∈ replaced lines, Shows (blockOf lines) line := by
  intro new hnew
  have hfits := hr new hnew
  obtain ⟨before, i, line, after, hsplit, rfl⟩ := mem_replaced.1 hnew
  by_cases hb : line.body = []
  · rw [Cursor.moved_of_empty hb] at hfits ⊢
    have hline : line ∈ lines := List.mem_of_getElem? (getElem?_of_split hsplit)
    rw [shows_of_empty hfits hb, length_blockOf]
    exact h.blank line hline hb
  · rw [Cursor.moved_of_body hb, shows_of_body hb, h.next_eq hsplit hb]
    exact ⟨h.clear before (i, line) after hsplit hb, take_body hsplit⟩

theorem Untangled.read_eq (h : Untangled lines) (hn : lines.length < 1024)
    (hr : ∀ line ∈ replaced lines, Recordable line) : read (blockOf lines) = replaced lines :=
  (read_blockOf_eq_iff hn hr).2 (h.shows hr)

/-! ## Lines that do not share places -/

theorem withBody_ordered_perm (lines : List Line) :
    (withBody ((ordered lines).map Prod.snd)).Perm (withBody lines) :=
  (map_snd_ordered_perm lines).filter _

theorem length_bodies_le {before after : List (Nat × Line)} {item : Nat × Line}
    (h : ordered lines = before ++ item :: after) :
    2 + 4 * lines.length + (bodies before).length + item.2.body.length ≤ blockSize lines := by
  have hlength := length_bodies_ordered lines
  rw [h, bodies_append, bodies_cons, List.length_append, List.length_append] at hlength
  unfold blockSize
  omega

/-- A block of less than 65535 bytes whose bodies have places of their own. -/
theorem untangled_of_lt (hapart : ((withBody lines).map Line.place).Nodup)
    (hblank : ∀ line ∈ lines, line.body = [] → line.place = nowhere ∨ line.size = 0)
    (hsize : blockSize lines < nowhere) : Untangled lines where
  apart := ((((withBody_ordered_perm lines).map _).nodup_iff).2 hapart).sublist (List.dropLast_sublist _)
  clear before item after hsplit hb := by
    have hle := length_bodies_le hsplit
    omega
  blank line hline hb := (hblank line hline hb).imp_right .inl

theorem Untangled.recordable (h : Untangled lines) (hlines : ∀ line ∈ lines, Recordable line)
    (hsize : blockSize lines < nowhere) : ∀ line ∈ replaced lines, Recordable line := by
  intro new hnew
  obtain ⟨before, i, line, after, hsplit, rfl⟩ := mem_replaced.1 hnew
  by_cases hb : line.body = []
  · rw [Cursor.moved_of_empty hb]
    exact hlines line (List.mem_of_getElem? (getElem?_of_split hsplit))
  · rw [Cursor.moved_of_body hb, h.next_eq hsplit hb]
    have hle := length_bodies_le hsplit
    simp only [nowhere] at hsize
    simp only at hle
    refine ⟨?_, ?_, ?_, ?_⟩ <;> simp only <;> omega

/-! ## Blocks that are already in order -/

/-- The bodies of the lines stand one after the other from `start` to `stop`. -/
def Abut : (start : Nat) → List Line → (stop : Nat) → Prop
  | start, [], stop => start = stop
  | start, line :: rest, stop => line.place = start ∧ Abut (start + line.size.toNat) rest stop

/-- A block that holds its lines, and behind the records nothing but their bodies, in order. -/
structure BackToBack (block : Bytes) : Prop where
  count_lt : block.word < 1024
  abut : ∃ sorted, sorted.Perm (withBody (read block)) ∧
    Abut (2 + 4 * block.word) sorted block.length

theorem Abut.append {a b : List Line} {start stop : Nat} (h : Abut start (a ++ b) stop) :
    ∃ middle, Abut start a middle ∧ Abut middle b stop := by
  induction a generalizing start with
  | nil => exact ⟨start, rfl, h⟩
  | cons line a ih =>
    obtain ⟨hplace, h⟩ := h
    obtain ⟨middle, ha, hb⟩ := ih h
    exact ⟨middle, ⟨hplace, ha⟩, hb⟩

theorem Abut.le {a : List Line} {start stop : Nat} (h : Abut start a stop) : start ≤ stop := by
  induction a generalizing start with
  | nil => exact Nat.le_of_eq h
  | cons line a ih =>
    have hle := ih h.2
    omega

/-- Places grow along lines that have bodies. -/
theorem Abut.pairwise {a : List Line} {start stop : Nat} (h : Abut start a stop)
    (hpos : ∀ line ∈ a, 0 < line.size) :
    (∀ line ∈ a, (start : Int) ≤ line.place) ∧ a.Pairwise fun x y => x.place < y.place := by
  induction a generalizing start with
  | nil => simp
  | cons line a ih =>
    obtain ⟨hplace, h⟩ := h
    obtain ⟨hsize, hpos⟩ := List.forall_mem_cons.1 hpos
    obtain ⟨hle, hpair⟩ := ih h hpos
    refine ⟨List.forall_mem_cons.2 ⟨by omega, fun x hx => ?_⟩, List.pairwise_cons.2 ⟨fun x hx => ?_, hpair⟩⟩
    · have hx := hle x hx
      omega
    · have hx := hle x hx
      omega

theorem mem_records {n : Nat} {bs : Bytes} {p : Nat × Nat} (h : p ∈ records n bs) :
    p.1 < 65536 ∧ p.2 < 65536 := by
  induction n generalizing bs with
  | zero => simp [records] at h
  | succ n ih =>
    rcases List.mem_cons.1 h with rfl | h
    · exact ⟨Bytes.word_lt bs, Bytes.word_lt (bs.drop 2)⟩
    · exact ih h

theorem length_records (n : Nat) (bs : Bytes) : (records n bs).length = n := by
  induction n generalizing bs with
  | zero => rfl
  | succ n ih => simp [records, ih]

theorem length_read (block : Bytes) : (read block).length = block.word % 1024 := by
  simp [read, length_records]

theorem mem_read (h : line ∈ read block) :
    Recordable line ∧ Shows block line := by
  obtain ⟨⟨place, size⟩, hr, rfl⟩ := List.mem_map.1 h
  obtain ⟨hplace, hsize⟩ := mem_records hr
  simp only at hplace hsize
  refine ⟨⟨?_, ?_, ?_, ?_⟩, rfl⟩ <;> simp only [lineAt] <;> omega

/-- The record of a line with a body that lies in the block. -/
theorem Shows.body_eq (h : Shows block line) (hb : line.body ≠ []) :
    line.place.toNat ≠ nowhere ∧ line.body = (block.drop line.place.toNat).take line.size.toNat := by
  have hbody := congrArg Line.body h
  simp only [lineAt] at hbody
  split at hbody
  · exact absurd hbody.symm hb
  · rename_i hne
    exact ⟨fun he => hne (.inl he), hbody.symm⟩

/-- Bodies that stand one after the other are a part of the block. -/
theorem bodies_of_abut {items : List (Nat × Line)} {start stop : Nat} (hread : ∀ item ∈ items, Shows block item.2)
    (h : Abut start (withBody (items.map Prod.snd)) stop) :
    bodies items = (block.drop start).take (stop - start) := by
  induction items generalizing start with
  | nil =>
    have hstop : start = stop := h
    simp [hstop]
  | cons item items ih =>
    obtain ⟨hitem, hread⟩ := List.forall_mem_cons.1 hread
    by_cases hb : item.2.body = []
    · rw [List.map_cons, withBody_of_empty hb] at h
      rw [bodies_cons, hb, List.nil_append, ih hread h]
    · rw [List.map_cons, withBody_of_body hb] at h
      obtain ⟨hplace, h⟩ := h
      have hle := h.le
      have hsplit : stop - start = item.2.size.toNat + (stop - (start + item.2.size.toNat)) := by omega
      rw [bodies_cons, ih hread h, (hitem.body_eq hb).2, hplace, Int.toNat_natCast, hsplit, List.take_add,
        List.drop_drop]

theorem flatMap_records {n : Nat} {bs : Bytes} (h : 4 * n ≤ bs.length) :
    (records n bs).flatMap (fun p => Bytes.ofNatLE 2 p.1 ++ Bytes.ofNatLE 2 p.2) = bs.take (4 * n) := by
  induction n generalizing bs with
  | zero => simp [records]
  | succ n ih =>
    have hrest : 4 * n ≤ (bs.drop 4).length := by
      rw [List.length_drop]
      omega
    have hsplit : 4 * (n + 1) = 2 + (2 + 4 * n) := by omega
    rw [records, List.flatMap_cons, ih hrest, Bytes.ofNatLE_word (by omega),
      Bytes.ofNatLE_word (by rw [List.length_drop]; omega), hsplit, List.take_add, List.take_add, List.drop_drop,
      List.append_assoc]

theorem flatMap_recordFields_read (h : 2 + 4 * (block.word % 1024) ≤ block.length) :
    (read block).flatMap recordFields = (block.drop 2).take (4 * (block.word % 1024)) := by
  rw [← flatMap_records (by rw [List.length_drop]; omega), read, List.flatMap_map]
  rfl

theorem BackToBack.sorted (h : BackToBack block) :
    (bodyPlaces (ordered (read block))).Nodup ∧
      Abut (2 + 4 * block.word) (withBody ((ordered (read block)).map Prod.snd)) block.length := by
  obtain ⟨sorted, hperm, habut⟩ := h.abut
  have hpos : ∀ line ∈ sorted, 0 < line.size := by
    intro line hline
    obtain ⟨hline, hb⟩ := mem_withBody.1 (hperm.mem_iff.1 hline)
    obtain ⟨⟨-, -, hsize, -⟩, hshows⟩ := mem_read hline
    have hbody := (hshows.body_eq hb).2
    have hne : line.size.toNat ≠ 0 := by
      intro hzero
      rw [hzero, List.take_zero] at hbody
      exact hb hbody
    omega
  have hpair := (habut.pairwise hpos).2
  have hplaces : (sorted.map Line.place).Nodup :=
    List.pairwise_map.2 (hpair.imp fun hlt => Int.ne_of_lt hlt)
  -- two orders by place of the same lines, of which no two have the same place
  have heq : withBody ((ordered (read block)).map Prod.snd) = sorted := by
    have hsame := (withBody_ordered_perm (read block)).trans hperm.symm
    have hordered : ((ordered (read block)).map Prod.snd).Pairwise fun x y => x.place ≤ y.place :=
      List.pairwise_map.2 (pairwise_ordered (read block))
    refine List.Perm.eq_of_pairwise (fun a b ha hb hab hba => ?_) (hordered.filter _)
      (hpair.imp fun hlt => Int.le_of_lt hlt) hsame
    exact List.inj_on_of_nodup_map hplaces (hsame.mem_iff.1 ha) hb (Int.le_antisymm hab hba)
  rw [bodyPlaces, heq]
  exact ⟨hplaces, habut⟩

/-- Every line of such a block gets the record that it has. -/
theorem BackToBack.moved_eq (h : BackToBack block) {before after : List (Nat × Line)} {i : Nat}
    (hsplit : ordered (read block) = before ++ (i, line) :: after) :
    (cursorAt (read block) before).moved line = line := by
  by_cases hb : line.body = []
  · exact Cursor.moved_of_empty hb _
  obtain ⟨hplaces, habut⟩ := h.sorted
  have hread : ∀ item ∈ ordered (read block), Shows block item.2 ∧ Recordable item.2 := by
    intro item hitem
    have hmem := mem_read (List.mem_of_getElem? (mem_ordered.1 hitem))
    exact hmem.symm
  have hlength : (read block).length = block.word := by
    rw [length_read, Nat.mod_eq_of_lt h.count_lt]
  have hsorted : withBody ((ordered (read block)).map Prod.snd) =
      withBody (before.map Prod.snd) ++ line :: withBody (after.map Prod.snd) := by
    rw [hsplit, List.map_append, List.map_cons, withBody_append, withBody_of_body hb]
  rw [hsorted] at habut
  obtain ⟨middle, hbefore, hplace, hafter⟩ := habut.append
  obtain ⟨hshows, hfits⟩ : Shows block line ∧ Recordable line := hread (i, line) (by simp [hsplit])
  have hwritten : bodies before = (block.drop (2 + 4 * block.word)).take (middle - (2 + 4 * block.word)) :=
    bodies_of_abut (fun item hitem => (hread item (by simp [hsplit, hitem])).1) hbefore
  have hnext : (cursorAt (read block) before).next = middle := by
    rw [hsplit, bodyPlaces_append, List.nodup_append] at hplaces
    rw [(settled_cursorAt hsplit).eq_written_iff.2 hplaces.1, hwritten, hlength, List.length_take, List.length_drop]
    have hlow := hbefore.le
    have hhigh := hafter.le
    omega
  have hsize : (line.body.length : Int) = line.size := by
    have hbody := congrArg List.length (hshows.body_eq hb).2
    have hhigh := hafter.le
    have hnonneg := hfits.2.2.1
    rw [List.length_take, List.length_drop, hplace, Int.toNat_natCast, Nat.min_eq_left (by omega)] at hbody
    omega
  rw [Cursor.moved_of_body hb, hnext, ← hplace, hsize]

theorem BackToBack.save_read (h : BackToBack block) : save (read block) = .ok (block, read block) := by
  have hlength : (read block).length = block.word := by
    rw [length_read, Nat.mod_eq_of_lt h.count_lt]
  have hsame : replaced (read block) = read block :=
    replaced_eq_self fun before i line after hsplit => h.moved_eq hsplit
  have hle : 2 + 4 * block.word ≤ block.length := h.sorted.2.le
  rw [save_eq_ok_iff, hsame]
  refine ⟨by have := h.count_lt; omega, fun line hline => (mem_read hline).1, ?_, rfl⟩
  have hwritten : bodies (ordered (read block)) = block.drop (2 + 4 * block.word) := by
    rw [bodies_of_abut (fun item hitem => (mem_read (List.mem_of_getElem? (mem_ordered.1 hitem))).2) h.sorted.2,
      List.take_of_length_le (Nat.le_of_eq List.length_drop)]
  have hindex : (read block).flatMap recordFields = (block.drop 2).take (4 * block.word) := by
    have hmod := Nat.mod_eq_of_lt h.count_lt
    rw [flatMap_recordFields_read (by rw [hmod]; exact hle), hmod]
  rw [blockOf, hsame, hwritten, hlength, hindex, Bytes.ofNatLE_word (by omega), ← List.take_add, List.take_append_drop]

/-- **Blocks whose lines share no places.**  Lines whose bodies have different old places can be saved, if
the block stays below 65535 bytes, and read back as they were saved.  A block whose bodies stand in the
order of their places, with nothing between them and nothing behind, is saved byte for byte. -/
theorem block_reads_back_and_saves_back :
    (∀ lines : List Line, lines.length ≤ 1023 → (∀ line ∈ lines, Recordable line) →
      ((withBody lines).map Line.place).Nodup →
      (∀ line ∈ lines, line.body = [] → line.place = nowhere ∨ line.size = 0) →
      blockSize lines < 65535 →
      ∃ block new, save lines = .ok (block, new) ∧ new.map Line.body = lines.map Line.body ∧
        read block = new) ∧
    ∀ block : Bytes, BackToBack block → save (read block) = .ok (block, read block) := by
  refine ⟨fun lines hlength hlines hapart hblank hsize => ?_, fun block h => h.save_read⟩
  have h : Untangled lines := untangled_of_lt hapart hblank hsize
  have hr := h.recordable hlines hsize
  refine ⟨blockOf lines, replaced lines, save_eq_ok_iff.2 ⟨by omega, hr, rfl, rfl⟩, body_replaced lines, ?_⟩
  exact h.read_eq (by omega) hr

/-- Three lines, of which the last has the first place and the second has no body. -/
def crossedLines : List Line :=
  [⟨20, 1, [97, 98]⟩, ⟨0xFFFF, 7, []⟩, ⟨10, 5, [99]⟩]

/-- Two lines whose bodies stand in the other order. -/
def crossedBlock : Bytes :=
  [2, 0, 11, 0, 2, 0, 10, 0, 1, 0, 99, 97, 98]

theorem block_reads_back_and_saves_back_crossed :
    (∃ block new, save crossedLines = .ok (block, new) ∧
      new.map Line.body = crossedLines.map Line.body ∧ read block = new) ∧
    BackToBack crossedBlock ∧ save (read crossedBlock) = .ok (crossedBlock, read crossedBlock) := by
  have hblock : BackToBack crossedBlock :=
    ⟨by decide, [⟨10, 1, [99]⟩, ⟨11, 2, [97, 98]⟩], by decide, rfl, rfl, rfl⟩
  exact ⟨block_reads_back_and_saves_back.1 crossedLines (by decide) (by decide) (by decide) (by decide) (by decide),
    hblock, block_reads_back_and_saves_back.2 crossedBlock hblock⟩

end AdventureKit.TextBlock
