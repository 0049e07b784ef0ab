import Mathlib.Algebra.Ring.Nat
import AdventureKit.Proofs.Bytes
import AdventureKit.Proofs.Effects
import AdventureKit.Proofs.Fault
import AdventureKit.Resource.Item

/-!
# Tables of resources

The records that come out of a table fit into its fields again (`readTable_eq_ok`), and a table that was written of
such records gives them back (`readTable_fields`).  A table that is all there is what its records are written as
(`readTable_whole`).
-/

namespace AdventureKit

namespace Bytes

theorem limit_eq_pow (width : Nat) : limit width = 256 ^ width := by
  induction width with
  | zero => rfl
  | succ width ih => rw [limit, ih, Nat.pow_succ, Nat.mul_comm]

theorem limit_mono {m n : Nat} (h : m ≤ n) : limit m ≤ limit n := by
  induction h with
  | refl => exact Nat.le_refl _
  | step _ ih => exact Nat.le_trans ih (Nat.le_mul_of_pos_left _ (by decide))

theorem toNatLE_lt_limit {bs : Bytes} {width : Nat} (h : bs.length ≤ width) : toNatLE bs < limit width :=
  Nat.lt_of_lt_of_le (toNatLE_lt bs) (limit_mono h)

theorem toIntLE_range {bs : Bytes} {width : Nat} (h : bs.length ≤ width) :
    -(limit width : Int) ≤ 2 * toIntLE bs ∧ 2 * toIntLE bs < limit width := by
  have hmono := limit_mono h
  have hlt := toNatLE_lt bs
  unfold toIntLE
  dsimp only
  split
  · omega
  · omega

/-- The bytes of a number in two's complement. -/
def ofIntLE (width : Nat) (n : Int) : Bytes :=
  ofNatLE width (if n < 0 then n + limit width else n).toNat

theorem length_ofIntLE (width : Nat) (n : Int) : (ofIntLE width n).length = width :=
  length_ofNatLE width _

theorem putSignedLE_of_range {width : Nat} {n : Int} (hlow : -(limit width : Int) ≤ 2 * n)
    (hhigh : 2 * n < limit width) :
    putSignedLE width n = .ok (ofIntLE width n) := by
  rw [putSignedLE, if_pos ⟨hlow, hhigh⟩, ofIntLE]

theorem toIntLE_ofIntLE {width : Nat} {n : Int} (hlow : -(limit width : Int) ≤ 2 * n) (hhigh : 2 * n < limit width) :
    toIntLE (ofIntLE width n) = n := by
  have hvalue : toNatLE (ofIntLE width n) = (if n < 0 then n + limit width else n).toNat := by
    refine toNatLE_ofNatLE ?_
    split
    · omega
    · omega
  unfold toIntLE
  rw [hvalue, length_ofIntLE]
  dsimp only
  split
  · split
    · omega
    · omega
  · split
    · omega
    · omega

theorem ofIntLE_toIntLE (bs : Bytes) : ofIntLE bs.length (toIntLE bs) = bs := by
  have hlt := toNatLE_lt bs
  have hvalue : (if toIntLE bs < 0 then toIntLE bs + limit bs.length else toIntLE bs).toNat = toNatLE bs := by
    unfold toIntLE
    dsimp only
    by_cases hsmall : 2 * toNatLE bs < limit bs.length
    · rw [if_pos hsmall, if_neg (by omega), Int.toNat_natCast]
    · rw [if_neg hsmall, if_pos (by omega)]
      omega
  rw [ofIntLE, hvalue, ofNatLE_toNatLE]

end Bytes

namespace Resource

/-! ## Records -/

namespace Item

/-- The fields of a record have room for the item. -/
structure Fits (item : Item) : Prop where
  offset : -0x80000000 ≤ item.offset ∧ item.offset < 0x80000000
  size : item.size < 0x10000
  width : item.width < 0x8000
  height : item.height < 0x10000

instance (item : Item) : Decidable item.Fits :=
  decidable_of_iff ((-0x80000000 ≤ item.offset ∧ item.offset < 0x80000000) ∧ item.size < 0x10000 ∧
      item.width < 0x8000 ∧ item.height < 0x10000)
    ⟨fun ⟨hoffset, hsize, hwidth, hheight⟩ => ⟨hoffset, hsize, hwidth, hheight⟩,
      fun h => ⟨h.offset, h.size, h.width, h.height⟩⟩

/-- The number in the third field. -/
def widthField (item : Item) : Nat :=
  item.width + if item.packed then packedBit else 0

/-- The fields of a record. -/
def fields (item : Item) : Bytes :=
  Bytes.ofIntLE 4 item.offset ++ (Bytes.ofNatLE 2 item.size ++
    (Bytes.ofNatLE 2 item.widthField ++ Bytes.ofNatLE 2 item.height))

variable {item : Item}

theorem length_fields (item : Item) : item.fields.length = 10 := by
  simp only [fields, List.length_append, Bytes.length_ofIntLE, Bytes.length_ofNatLE]

theorem Fits.widthField_lt (h : item.Fits) : item.widthField < Bytes.limit 2 := by
  have hwidth := h.width
  rw [widthField, packedBit, Bytes.limit_eq_pow]
  split
  · omega
  · omega

theorem Fits.offset_range (h : item.Fits) :
    -(Bytes.limit 4 : Int) ≤ 2 * item.offset ∧ 2 * item.offset < Bytes.limit 4 := by
  have hoffset := h.offset
  rw [Bytes.limit_eq_pow]
  omega

theorem Fits.bytes_eq (h : item.Fits) : item.bytes = .ok item.fields := by
  have hoffset := Bytes.putSignedLE_of_range h.offset_range.1 h.offset_range.2
  have hsize := Bytes.putLE_of_lt (Nat.lt_of_lt_of_eq h.size (Bytes.limit_eq_pow 2).symm)
  have hwidth := Bytes.putLE_of_lt h.widthField_lt
  have hheight := Bytes.putLE_of_lt (Nat.lt_of_lt_of_eq h.height (Bytes.limit_eq_pow 2).symm)
  rw [widthField, Int.natCast_add] at hwidth
  unfold bytes
  rw [hoffset, hsize, hwidth, hheight, fields, widthField, ← List.append_assoc, ← List.append_assoc]
  rfl

/-- A size that its field has no room for is refused. -/
theorem bytes_of_large (h : 0x10000 ≤ item.size) : ∃ e, item.bytes = .error e := by
  have hsize : Bytes.putLE 2 item.size = .error .tooWide := by
    rw [Bytes.putLE, Bytes.limit_eq_pow, if_neg]
    omega
  unfold bytes
  rw [hsize]
  cases Bytes.putSignedLE 4 item.offset with
  | error e => exact ⟨e, rfl⟩
  | ok offset => exact ⟨_, rfl⟩

theorem read_eq (c : Cursor) :
    read.run.run c =
      (.ok ⟨(c.next 4).toIntLE, ((c.took 4).next 2).toNatLE, (((c.took 4).took 2).next 2).toNatLE % packedBit,
          ((((c.took 4).took 2).took 2).next 2).toNatLE, packedBit ≤ (((c.took 4).took 2).next 2).toNatLE⟩,
        (((c.took 4).took 2).took 2).took 2) := rfl

theorem fits_of_fields {offset : Int} {size width height : Nat} {packed : Bool}
    (hoffset : -0x80000000 ≤ offset ∧ offset < 0x80000000) (hsize : size < 0x10000) (hheight : height < 0x10000) :
    Fits ⟨offset, size, width % packedBit, height, packed⟩ :=
  ⟨hoffset, hsize, Nat.mod_lt width (by decide), hheight⟩

/-- A record comes out of every place, at the end of the data with zeros. -/
theorem exists_read {c : Cursor} (hc : c.pos ≤ c.data.size) :
    ∃ item c', read.run.run c = (.ok item, c') ∧ item.Fits ∧ c'.data = c.data ∧ c'.pos ≤ c'.data.size := by
  have hword : ∀ c : Cursor, (c.next 2).toNatLE < 0x10000 := by
    intro c
    exact Nat.lt_of_lt_of_eq (Bytes.toNatLE_lt_limit (c.length_next_le 2)) (Bytes.limit_eq_pow 2)
  have hoffset := Bytes.toIntLE_range (c.length_next_le 4)
  rw [Bytes.limit_eq_pow] at hoffset
  refine ⟨_, _, read_eq c, ?_, ?_, ?_⟩
  · exact fits_of_fields (by omega) (hword _) (hword _)
  · simp only [Cursor.data_took]
  · exact Cursor.pos_took_le (Cursor.pos_took_le (Cursor.pos_took_le (Cursor.pos_took_le hc 4) 2) 2) 2

theorem Fits.widthField_mod (h : item.Fits) : item.widthField % packedBit = item.width := by
  have hwidth := h.width
  rw [widthField, packedBit]
  split
  · omega
  · omega

theorem Fits.packedBit_le (h : item.Fits) : decide (packedBit ≤ item.widthField) = item.packed := by
  have hwidth := h.width
  rw [widthField, packedBit]
  cases item.packed with
  | false => simpa using hwidth
  | true => simp

theorem read_fields (h : item.Fits) {c : Cursor} {more : Bytes} (hc : c.rest = item.fields ++ more) :
    read.run.run c = (.ok item, c.took 10) ∧ (c.took 10).rest = more := by
  refine ⟨?_, Cursor.rest_took hc item.length_fields⟩
  rw [Cursor.took_of_rest hc item.length_fields]
  rw [fields, List.append_assoc, List.append_assoc, List.append_assoc] at hc
  have hoffset := Bytes.length_ofIntLE 4 item.offset
  have hsize := Bytes.length_ofNatLE 2 item.size
  have hwidth := Bytes.length_ofNatLE 2 item.widthField
  have hheight := Bytes.length_ofNatLE 2 item.height
  -- the rest of the data before each field
  have hc₁ := Cursor.rest_took hc hoffset
  have hc₂ := Cursor.rest_took hc₁ hsize
  have hc₃ := Cursor.rest_took hc₂ hwidth
  rw [read_eq, Cursor.next_of_rest hc hoffset, Cursor.next_of_rest hc₁ hsize, Cursor.next_of_rest hc₂ hwidth,
    Cursor.next_of_rest hc₃ hheight, Cursor.took_of_rest hc₃ hheight, Cursor.took_of_rest hc₂ hwidth,
    Cursor.took_of_rest hc₁ hsize, Cursor.took_of_rest hc hoffset,
    Bytes.toIntLE_ofIntLE h.offset_range.1 h.offset_range.2,
    Bytes.toNatLE_ofNatLE (Nat.lt_of_lt_of_eq h.size (Bytes.limit_eq_pow 2).symm),
    Bytes.toNatLE_ofNatLE h.widthField_lt,
    Bytes.toNatLE_ofNatLE (Nat.lt_of_lt_of_eq h.height (Bytes.limit_eq_pow 2).symm), h.widthField_mod, h.packedBit_le]

theorem widthField_of_read {w : Nat} (h : w < 0x10000) (offset : Int) (size height : Nat) :
    widthField ⟨offset, size, w % packedBit, height, packedBit ≤ w⟩ = w := by
  unfold widthField packedBit
  dsimp only
  by_cases hw : 0x8000 ≤ w
  · rw [decide_eq_true hw, if_pos rfl]
    omega
  · rw [decide_eq_false hw, if_neg (by decide)]
    omega

/-- The record that ten bytes are read as is written as these bytes. -/
theorem exists_read_fields {c : Cursor} {front more : Bytes} (hc : c.rest = front ++ more) (hfront : front.length = 10) :
    ∃ item, read.run.run c = (.ok item, c.took 10) ∧ item.fields = front := by
  obtain ⟨offset, rest₁, rfl, hoffset⟩ := Bytes.exists_split front 4 (by omega)
  rw [List.length_append] at hfront
  obtain ⟨size, rest₂, rfl, hsize⟩ := Bytes.exists_split rest₁ 2 (by omega)
  rw [List.length_append] at hfront
  obtain ⟨width, height, rfl, hwidth⟩ := Bytes.exists_split rest₂ 2 (by omega)
  rw [List.length_append] at hfront
  have hheight : height.length = 2 := by omega
  rw [Cursor.took_of_rest hc (by simp only [List.length_append]; omega)]
  rw [List.append_assoc, List.append_assoc, List.append_assoc] at hc
  have hc₁ := Cursor.rest_took hc hoffset
  have hc₂ := Cursor.rest_took hc₁ hsize
  have hc₃ := Cursor.rest_took hc₂ hwidth
  have hread := read_eq c
  rw [Cursor.next_of_rest hc hoffset, Cursor.next_of_rest hc₁ hsize, Cursor.next_of_rest hc₂ hwidth,
    Cursor.next_of_rest hc₃ hheight, Cursor.took_of_rest hc₃ hheight, Cursor.took_of_rest hc₂ hwidth,
    Cursor.took_of_rest hc₁ hsize, Cursor.took_of_rest hc hoffset] at hread
  refine ⟨_, hread, ?_⟩
  have hback := Bytes.ofIntLE_toIntLE offset
  have hsizeBack := Bytes.ofNatLE_toNatLE size
  have hwidthBack := Bytes.ofNatLE_toNatLE width
  have hheightBack := Bytes.ofNatLE_toNatLE height
  rw [hoffset] at hback
  rw [hsize] at hsizeBack
  rw [hwidth] at hwidthBack
  rw [hheight] at hheightBack
  have hlt : Bytes.toNatLE width < 0x10000 :=
    Nat.lt_of_lt_of_eq (Bytes.toNatLE_lt_limit (Nat.le_of_eq hwidth)) (Bytes.limit_eq_pow 2)
  rw [fields, widthField_of_read hlt, hback, hsizeBack, hwidthBack, hheightBack]

end Item

/-! ## Tables -/

theorem length_flatMap_fields (items : List Item) : (items.flatMap Item.fields).length = 10 * items.length := by
  induction items with
  | nil => rfl
  | cons item items ih =>
    rw [List.flatMap_cons, List.length_append, ih, Item.length_fields, List.length_cons]
    omega

theorem exists_readTimes {c : Cursor} (hc : c.pos ≤ c.data.size) (n : Nat) :
    ∃ items c', (readTimes Item.read n).run.run c = (.ok items, c') ∧ items.length = n ∧
      (∀ item ∈ items, item.Fits) ∧ c'.data = c.data ∧ c'.pos ≤ c'.data.size := by
  induction n generalizing c with
  | zero => exact ⟨[], c, rfl, rfl, List.forall_mem_nil _, rfl, hc⟩
  | succ n ih =>
    obtain ⟨item, c₁, hitem, hfits, hdata, hpos⟩ := Item.exists_read hc
    obtain ⟨items, c₂, hitems, hlength, hall, hdata', hpos'⟩ := ih hpos
    refine ⟨item :: items, c₂, ?_, congrArg Nat.succ hlength, List.forall_mem_cons.2 ⟨hfits, hall⟩,
      hdata'.trans hdata, hpos'⟩
    rw [readTimes, run_bind_of_ok hitem, run_bind_of_ok hitems]
    rfl

theorem readTimes_fields {items : List Item} (h : ∀ item ∈ items, item.Fits) {c : Cursor} {more : Bytes}
    (hc : c.rest = items.flatMap Item.fields ++ more) :
    (readTimes Item.read items.length).run.run c = (.ok items, ⟨c.data, c.pos + 10 * items.length⟩) := by
  induction items generalizing c with
  | nil => rfl
  | cons item items ih =>
    obtain ⟨hitem, hitems⟩ := List.forall_mem_cons.1 h
    rw [List.flatMap_cons, List.append_assoc] at hc
    obtain ⟨hread, hrest⟩ := Item.read_fields hitem hc
    have hpos : c.pos + 10 * (items.length + 1) = c.pos + 10 + 10 * items.length := by omega
    rw [List.length_cons, readTimes, run_bind_of_ok hread, run_bind_of_ok (ih hitems hrest), hpos,
      Cursor.took_of_rest hc item.length_fields]
    rfl

theorem exists_readTimes_fields {c : Cursor} {front more : Bytes} {n : Nat} (hc : c.rest = front ++ more)
    (hfront : front.length = 10 * n) :
    ∃ items, (readTimes Item.read n).run.run c = (.ok items, ⟨c.data, c.pos + 10 * n⟩) ∧ items.length = n ∧
      items.flatMap Item.fields = front := by
  induction n generalizing c front with
  | zero => exact ⟨[], rfl, rfl, (List.eq_nil_of_length_eq_zero hfront).symm⟩
  | succ n ih =>
    obtain ⟨record, records, rfl, hrecord⟩ := Bytes.exists_split front 10 (by omega)
    rw [List.length_append] at hfront
    rw [List.append_assoc] at hc
    obtain ⟨item, hitem, hfields⟩ := Item.exists_read_fields hc hrecord
    obtain ⟨items, hitems, hlength, hall⟩ := ih (Cursor.rest_took hc hrecord) (by omega)
    refine ⟨item :: items, ?_, congrArg Nat.succ hlength, ?_⟩
    · have hpos : c.pos + 10 * (n + 1) = c.pos + 10 + 10 * n := by omega
      rw [readTimes, run_bind_of_ok hitem, run_bind_of_ok hitems, hpos, Cursor.took_of_rest hc hrecord]
      rfl
    · rw [List.flatMap_cons, hfields, hall]

/-- The number of records that the start of a file announces. -/
def announced (file : Bytes) : Int :=
  Bytes.toIntLE (file.take 2)

theorem announced_le (file : Bytes) : announced file ≤ 0x7FFF := by
  have h := (Bytes.toIntLE_range (List.length_take_le 2 file)).2
  rw [Bytes.limit_eq_pow] at h
  rw [announced]
  omega

section File

variable {file : Bytes}

theorem run_signedWord (file : Bytes) :
    (Reading.signedWord : Reading Cursor Int).run.run (Cursor.ofBytes file) =
      (.ok (announced file), (Cursor.ofBytes file).took 2) := by
  have hnext : (Cursor.ofBytes file).next 2 = file.take 2 := by
    rw [Cursor.next_eq_take, Cursor.data_ofBytes]
    rfl
  rw [announced, ← hnext]
  rfl

theorem readTable_of_short (h : file.length < 3) :
    ∃ c, readTable.run.run (Cursor.ofBytes file) = (.error (.ended .byte), c) := by
  have hnone : ((Cursor.ofBytes file).took 2).next 1 = [] := by
    have hlength : ((Cursor.ofBytes file).next 2).length = file.length := by
      rw [Cursor.next_eq_take, Cursor.data_ofBytes, Cursor.pos_ofBytes, List.drop_zero,
        List.take_of_length_le (by omega)]
    rw [Cursor.next_eq_take, Cursor.took, hlength, Cursor.data_ofBytes, List.drop_eq_nil_of_le, List.take_nil]
    exact Nat.le_add_left _ _
  rw [readTable, run_bind_of_ok (run_signedWord file)]
  exact ⟨_, run_bind_of_error (Cursor.run_byte_of_nil hnone)⟩

theorem readTable_of_long (h : 3 ≤ file.length) :
    readTable.run.run (Cursor.ofBytes file) =
      if announced file ≤ 0 then (.error (.disagreement .resourceCount), ⟨file.toArray, 3⟩)
      else (readTimes Item.read (announced file).toNat).run.run ⟨file.toArray, 3⟩ := by
  have hsplit : (Cursor.ofBytes file).rest = file.take 2 ++ file.drop 2 := by
    rw [Cursor.rest_ofBytes, List.take_append_drop]
  have htwo : (file.take 2).length = 2 := List.length_take_of_le (by omega)
  obtain ⟨b, more, hmore⟩ := List.exists_cons_of_length_pos (l := file.drop 2) (by rw [List.length_drop]; omega)
  have hrest : ((Cursor.ofBytes file).took 2).rest = [b] ++ more := (Cursor.rest_took hsplit htwo).trans hmore
  have hone : [b].length = 1 := rfl
  rw [readTable, run_bind_of_ok (run_signedWord file),
    run_bind_of_ok (Cursor.run_byte_of_cons (Cursor.next_of_rest hrest hone)), Cursor.took_of_rest hrest hone,
    Cursor.took_of_rest hsplit htwo]
  split
  · rfl
  · rfl

theorem readTable_eq_ok {items : List Item} {c : Cursor}
    (h : readTable.run.run (Cursor.ofBytes file) = (.ok items, c)) :
    3 ≤ file.length ∧ (items.length : Int) = announced file ∧ items ≠ [] ∧ (∀ item ∈ items, item.Fits) ∧
      c.data = file.toArray ∧ c.pos ≤ file.length := by
  rcases Nat.lt_or_ge file.length 3 with hshort | hlong
  · obtain ⟨c', hfail⟩ := readTable_of_short hshort
    rw [hfail] at h
    cases h
  · rw [readTable_of_long hlong] at h
    split at h
    · cases h
    · rename_i hcount
      obtain ⟨items', c', hread, hlength, hfits, hdata, hpos⟩ :=
        exists_readTimes (c := ⟨file.toArray, 3⟩) hlong (announced file).toNat
      rw [hread] at h
      cases h
      rw [hdata] at hpos
      refine ⟨hlong, by omega, ?_, hfits, hdata, hpos⟩
      rintro rfl
      rw [List.length_nil] at hlength
      omega

/-- A table that is all there is made of the fields of its records. -/
theorem readTable_whole {items : List Item} {c : Cursor}
    (h : readTable.run.run (Cursor.ofBytes file) = (.ok items, c)) (hwhole : 3 + 10 * items.length ≤ file.length) :
    c.pos = 3 + 10 * items.length ∧ file = file.take 3 ++ (items.flatMap Item.fields ++ file.drop c.pos) := by
  obtain ⟨hlong, hannounced, hne, -, -, -⟩ := readTable_eq_ok h
  have hpos : 0 < items.length := List.length_pos_iff.2 hne
  rw [readTable_of_long hlong, if_neg (by omega), ← hannounced, Int.toNat_natCast] at h
  obtain ⟨front, behind, hsplit, hfront⟩ := Bytes.exists_split (file.drop 3) (10 * items.length)
    (by rw [List.length_drop]; omega)
  have hrest : (⟨file.toArray, 3⟩ : Cursor).rest = front ++ behind := by
    rw [Cursor.rest_eq_drop]
    exact hsplit
  obtain ⟨items', hread, -, hfields⟩ := exists_readTimes_fields hrest hfront
  rw [hread] at h
  cases h
  refine ⟨rfl, ?_⟩
  have hbehind : file.drop (3 + 10 * items.length) = behind := by
    rw [← List.drop_drop, hsplit, List.drop_left' hfront]
  rw [hfields, hbehind, ← hsplit, List.take_append_drop]

end File

/-- A table that was written gives its records back. -/
theorem readTable_fields {head : Bytes} {items : List Item} (hhead : head.length = 3)
    (hcount : (items.length : Int) = announced head) (hne : items ≠ []) (h : ∀ item ∈ items, item.Fits)
    (more : Bytes) :
    readTable.run.run (Cursor.ofBytes (head ++ (items.flatMap Item.fields ++ more))) =
      (.ok items, ⟨(head ++ (items.flatMap Item.fields ++ more)).toArray, 3 + 10 * items.length⟩) := by
  have hpos : 0 < items.length := List.length_pos_iff.2 hne
  have hannounced : announced (head ++ (items.flatMap Item.fields ++ more)) = items.length := by
    rw [hcount, announced, announced, List.take_append_of_le_length (by omega)]
  have hlong : 3 ≤ (head ++ (items.flatMap Item.fields ++ more)).length := by
    rw [List.length_append]
    omega
  rw [readTable_of_long hlong, hannounced, if_neg (by omega), Int.toNat_natCast]
  have hrest : (⟨(head ++ (items.flatMap Item.fields ++ more)).toArray, 3⟩ : Cursor).rest =
      items.flatMap Item.fields ++ more := by
    rw [Cursor.rest_eq_drop]
    exact List.drop_left' hhead
  exact readTimes_fields h hrest

end Resource

end AdventureKit
