import AdventureKit.Proofs.Dialogue.CatalogueColumns
import AdventureKit.Proofs.Dialogue.SheetRows
import AdventureKit.Proofs.Dialogue.UneditedRows

/-!
# Catalogues that nobody edited

A catalogue lists its messages language by language, its rows list them message by message.  If no message has the byte
in it that is written for zeros, the rows that were read of a catalogue are written back to the same bytes, with zeros
for messages that were cut off (`write_completed`).
-/

namespace AdventureKit

/-- Filled up parts make up the filled up whole. -/
theorem Bytes.padTo_take_add (a b : Nat) (bs : Bytes) :
    Bytes.padTo (a + b) (bs.take (a + b)) = Bytes.padTo a (bs.take a) ++ Bytes.padTo b ((bs.drop a).take b) := by
  unfold Bytes.padTo
  rw [List.take_add]
  by_cases hlong : a ≤ bs.length
  · have ha : (bs.take a).length = a := List.length_take_of_le hlong
    rw [ha, Nat.sub_self, List.replicate_zero, List.append_nil, List.length_append, ha, Nat.add_sub_add_left,
      List.append_assoc]
  · have hshort : bs.length ≤ a := Nat.le_of_lt (Nat.lt_of_not_le hlong)
    rw [List.drop_eq_nil_of_le hshort, List.take_nil, List.append_nil, List.nil_append, List.length_nil, Nat.sub_zero,
      List.take_of_length_le hshort, List.append_assoc, List.replicate_append_replicate]
    congr 2
    omega

/-- Cutting a list into equal parts and putting them together gives it back. -/
theorem flatMap_slices {α : Type} (size count : Nat) (xs : List α) :
    (List.range count).flatMap (fun k => (xs.drop (k * size)).take size) = xs.take (count * size) := by
  induction count with
  | zero => simp
  | succ count ih =>
    rw [List.range_succ, List.flatMap_append, ih, Nat.succ_mul, List.take_add]
    simp

namespace Catalogue

/-! ## Messages -/

theorem length_messages (n : Nat) (data : Bytes) : (messages n data).length = n := by
  induction n generalizing data with
  | zero => rfl
  | succ n ih => rw [messages, List.length_cons, ih]

/-- A message is a part of what was read. -/
theorem sublist_of_mem_messages {n : Nat} {data message : Bytes} (h : some message ∈ messages n data) :
    message.length ≤ messageSize ∧ message.Sublist (data.take (messageSize * n)) := by
  induction n generalizing data with
  | zero => cases h
  | succ n ih =>
    rw [Nat.mul_succ, Nat.add_comm, List.take_add]
    obtain h | h := List.mem_cons.1 h
    · split at h
      · cases h
      · cases h
        exact ⟨List.length_take_le _ _, List.sublist_append_left _ _⟩
    · obtain ⟨hlength, hsublist⟩ := ih h
      exact ⟨hlength, hsublist.trans (List.sublist_append_right _ _)⟩

/-- A message filled up with zeros; one that was cut off is all zeros. -/
def padded (message : Option Bytes) : Bytes :=
  Bytes.padTo messageSize (message.getD [])

theorem flatMap_padded_messages (n : Nat) (data : Bytes) :
    (messages n data).flatMap padded = Bytes.padTo (messageSize * n) (data.take (messageSize * n)) := by
  induction n generalizing data with
  | zero => rfl
  | succ n ih =>
    have hfirst : padded (if (data.take messageSize).isEmpty then none else some (data.take messageSize)) =
        Bytes.padTo messageSize (data.take messageSize) := by
      split
      · rename_i hempty
        rw [List.isEmpty_iff.1 hempty]
        rfl
      · rfl
    rw [messages, List.flatMap_cons, hfirst, ih, Nat.mul_succ, Nat.add_comm, Bytes.padTo_take_add]

/-! ## Cells -/

/-- A message with its zeros written as fillers. -/
def shown (message : Bytes) : Bytes :=
  message.map fun b => if b = 0 then filler else b

theorem show?_eq {message : Bytes} (h : filler ∉ message) : show? message = .ok (shown message) := by
  rw [show?, if_neg (by simpa using h)]
  rfl

/-- What is shown of a message is taken back to that message. -/
theorem messageOf_shown {message : Option Bytes} (hlength : ∀ bytes ∈ message, bytes.length ≤ messageSize)
    (hfree : ∀ bytes ∈ message, filler ∉ bytes) : messageOf (message.map shown) = .ok (padded message) := by
  cases message with
  | none => rfl
  | some bytes =>
    have hback : (shown bytes).map (fun b => if b = filler then 0 else b) = bytes := by
      rw [shown, List.map_map]
      refine (List.map_congr_left fun b hb => ?_).trans (List.map_id bytes)
      have hb' : b ≠ filler := fun h => hfree bytes rfl (h ▸ hb)
      by_cases hzero : b = 0
      · simp [hzero]
      · simp [hzero, hb']
    have hpadded : (padded (some bytes)).length = messageSize := Bytes.length_padTo (hlength bytes rfl)
    rw [Option.map_some, messageOf, message?, hback]
    show (if ((padded (some bytes)).drop messageSize).any (· != 0) then _ else
      Except.ok ((padded (some bytes)).take messageSize)) = _
    rw [List.drop_eq_nil_of_le (Nat.le_of_eq hpadded), List.take_of_length_le (Nat.le_of_eq hpadded)]
    rfl

/-! ## Rows -/

/-- The row with a cell for each language, empty where it had none. -/
def completed (row : Row) : Row :=
  Sheet.completedFor languages row

theorem cell_completed (row : Row) {language : String} (h : language ∈ languages) :
    Row.cell (completed row) language = .ok (row.get? language).join := by
  rw [Row.cell, completed, Sheet.get?_completedFor h]

theorem mem_of_mem_filterMap_mapIdx {β : Type} {keys : List String} {f : Nat → Option β} {p : String × β}
    (h : p ∈ (keys.mapIdx fun k key => (f k).map fun v => (key, v)).filterMap id) : p.1 ∈ keys := by
  obtain ⟨item, hitem, hp⟩ := List.mem_filterMap.1 h
  obtain ⟨k, hk, rfl⟩ := List.mem_mapIdx.1 hitem
  obtain ⟨v, -, rfl⟩ := Option.map_eq_some_iff.1 hp
  exact List.getElem_mem hk

/-- Keys that are all different find the items at their places. -/
theorem lookup_filterMap_mapIdx {β : Type} {keys : List String} (hkeys : keys.Nodup) (f : Nat → Option β) {k : Nat}
    {key : String} (hk : keys[k]? = some key) :
    ((keys.mapIdx fun k key => (f k).map fun v => (key, v)).filterMap id).lookup key = f k := by
  induction keys generalizing f k with
  | nil => cases hk
  | cons first keys ih =>
    obtain ⟨hfirst, hkeys⟩ := List.nodup_cons.1 hkeys
    rw [List.mapIdx_cons]
    cases k with
    | zero =>
      obtain rfl : first = key := Option.some.inj hk
      cases hf : f 0 with
      | some v => simp
      | none =>
        refine List.lookup_eq_none_iff.2 fun p hp => ?_
        have hmem : p.1 ∈ keys := mem_of_mem_filterMap_mapIdx (f := fun i => f (i + 1)) hp
        exact bne_iff_ne.2 fun h => hfirst (h ▸ hmem)
    | succ k =>
      have hrest := ih hkeys (fun i => f (i + 1)) (k := k) hk
      have hne : key ≠ first := fun h => hfirst (h ▸ List.mem_of_getElem? hk)
      cases hf : f 0 with
      | some v =>
        show ((first, v) :: _).lookup key = _
        rw [List.lookup_cons, beq_eq_false_iff_ne.2 hne]
        exact hrest
      | none => exact hrest

theorem nodup_languages : languages.Nodup := by decide

/-- The cell of a language in a row is the one at the place that language and message give. -/
theorem cell_rowOf {count k : Nat} (cells : List (Option Bytes)) (i : Nat) {language : String}
    (hk : languages[k]? = some language) :
    Row.cell (completed (rowOf count cells i)) language = .ok (cells[k * count + i]?).join := by
  have hget : (rowOf count cells i).get? language = ((cells[k * count + i]?).join.map some) := by
    have hmap : rowOf count cells i = (languages.mapIdx fun k language =>
        ((cells[k * count + i]?).join.map some).map fun cell => (language, cell)).filterMap id := by
      unfold rowOf
      simp only [Option.map_map]
      rfl
    rw [hmap]
    exact lookup_filterMap_mapIdx nodup_languages (fun k => (cells[k * count + i]?).join.map some) hk
  rw [cell_completed _ (List.mem_of_getElem? hk), hget]
  cases (cells[k * count + i]?).join with
  | none => rfl
  | some cell => rfl

/-! ## Columns -/

section Columns

variable {count : Nat} {all : List (Option Bytes)}

/-- Messages that can be shown and taken back. -/
def Plain (all : List (Option Bytes)) : Prop :=
  ∀ message ∈ all, ∀ bytes ∈ message, bytes.length ≤ messageSize ∧ filler ∉ bytes

theorem Plain.mapM_show? (h : Plain all) :
    all.mapM (fun message => message.mapM show?) = .ok (all.map (Option.map shown)) := by
  refine mapM_eq_pure fun message hmessage => ?_
  cases message with
  | none => rfl
  | some bytes =>
    show (show? bytes >>= fun cell => pure (some cell)) = _
    rw [show?_eq (h _ hmessage bytes rfl).2]
    rfl

/-- The rows of messages, with a cell for each language. -/
def completedRows (count : Nat) (all : List (Option Bytes)) : List Row :=
  (List.range count).map fun i => completed (rowOf count (all.map (Option.map shown)) i)

theorem messageOf_rowOf (h : Plain all) {k : Nat} {language : String} (hk : languages[k]? = some language) (i : Nat) :
    (Row.cell (completed (rowOf count (all.map (Option.map shown)) i)) language >>= messageOf) =
      .ok (padded (all[k * count + i]?).join) := by
  have hjoin : ((all.map (Option.map shown))[k * count + i]?).join = (all[k * count + i]?).join.map shown := by
    rw [List.getElem?_map]
    cases all[k * count + i]? with
    | none => rfl
    | some message => rfl
  have hmem : ∀ bytes ∈ (all[k * count + i]?).join, some bytes ∈ all := by
    intro bytes hbytes
    exact List.mem_of_getElem? (Option.join_eq_some_iff.1 hbytes)
  rw [cell_rowOf _ i hk, hjoin]
  exact messageOf_shown (fun bytes hbytes => (h _ (hmem bytes hbytes) bytes rfl).1)
    fun bytes hbytes => (h _ (hmem bytes hbytes) bytes rfl).2

theorem map_getElem?_join {s : Nat} (hlength : s + count ≤ all.length) :
    (List.range count).map (fun i => (all[s + i]?).join) = (all.drop s).take count := by
  refine List.ext_getElem ?_ fun i hi hi' => ?_
  · rw [List.length_map, List.length_range, List.length_take, List.length_drop]
    omega
  · rw [List.length_map, List.length_range] at hi
    rw [List.getElem_map, List.getElem_range, List.getElem_take, List.getElem_drop,
      List.getElem?_eq_getElem (by omega)]
    rfl

theorem Plain.column_eq (h : Plain all) {k : Nat} {language : String} (hk : languages[k]? = some language)
    (hlength : k * count + count ≤ all.length) :
    column (completedRows count all) language = .ok (((all.drop (k * count)).take count).flatMap padded) := by
  have hcells : (completedRows count all).mapM (fun row => Row.cell row language >>= messageOf) =
      .ok ((List.range count).map fun i => padded (all[k * count + i]?).join) := by
    rw [completedRows, List.mapM_map]
    exact mapM_eq_pure fun i _ => messageOf_rowOf h hk i
  unfold column
  rw [hcells, ← map_getElem?_join hlength, List.flatMap_map, List.flatMap_def]
  rfl

theorem columnsFrom_eq {rows : List Row} (part : Nat → Bytes) (hrows : rows.length = count) :
    ∀ {ls : List String} {done : Nat},
      (∀ k language, ls[k]? = some language → column rows language = .ok (part (done + k))) →
      columnsFrom count rows done ls = .ok ((List.range ls.length).flatMap fun k => part (done + k))
  | [], _, _ => rfl
  | language :: rest, done, h => by
    have hrest : columnsFrom count rows (done + 1) rest =
        .ok ((List.range rest.length).flatMap fun k => part (done + 1 + k)) := by
      refine columnsFrom_eq part hrows fun k language hk => ?_
      rw [h (k + 1) language hk, Nat.add_assoc, Nat.add_comm 1 k]
    unfold columnsFrom
    rw [hrows, if_neg (by simp), h 0 language rfl, hrest, List.length_cons, List.range_succ_eq_map, List.flatMap_cons,
      List.flatMap_map]
    simp only [Nat.succ_eq_add_one, Nat.add_assoc, Nat.add_comm 1]
    rfl

end Columns

/-! ## Files -/

theorem plain_messages {n : Nat} {data : Bytes} (hfree : filler ∉ data.take (messageSize * n)) :
    Plain (messages n data) := by
  intro message hmessage bytes hbytes
  cases hbytes
  obtain ⟨hlength, hsublist⟩ := sublist_of_mem_messages hmessage
  exact ⟨hlength, fun hmem => hfree (hsublist.subset hmem)⟩

/-- The messages of all languages. -/
theorem messageSize_mul (n : Nat) : messageSize * (languages.length * n) = 400 * n := by
  show 40 * (10 * n) = 400 * n
  omega

/-- The columns of all languages are all messages. -/
theorem columnsFrom_languages {count : Nat} {all : List (Option Bytes)} (h : Plain all)
    (hlength : all.length = languages.length * count) :
    columnsFrom count (completedRows count all) 0 languages = .ok (all.flatMap padded) := by
  have hrows : (completedRows count all).length = count := by
    rw [completedRows, List.length_map, List.length_range]
  rw [columnsFrom_eq (fun k => ((all.drop (k * count)).take count).flatMap padded) hrows]
  · have hslices := flatMap_slices count languages.length all
    rw [← hlength, List.take_length] at hslices
    simp only [Nat.zero_add]
    rw [← List.flatMap_assoc, hslices]
  · intro k language hk
    rw [Nat.zero_add]
    refine h.column_eq hk ?_
    obtain ⟨hlt, -⟩ := List.getElem?_eq_some_iff.1 hk
    rw [hlength, ← Nat.succ_mul]
    exact Nat.mul_le_mul_right _ hlt

/-- The rows that are read of a catalogue are written back to the catalogue, with zeros for what was cut off. -/
theorem write_completed {file : Bytes} {n : UInt8} (hlong : headerSize ≤ file.length) (hn : file[4]? = some n)
    (hfree : filler ∉ (file.drop headerSize).take (400 * n.toNat)) :
    ∃ rows, read file = .ok rows ∧ rows.length = n.toNat ∧
      write file (rows.map completed) =
        .ok (Bytes.padTo (headerSize + 400 * n.toNat) (file.take (headerSize + 400 * n.toNat))) := by
  have hcount := messageCount_take hn
  have hplain : Plain (messages (languages.length * n.toNat) (file.drop headerSize)) :=
    plain_messages (by rwa [messageSize_mul])
  have hcolumns := columnsFrom_languages hplain (length_messages _ _)
  rw [flatMap_padded_messages, messageSize_mul] at hcolumns
  refine ⟨(List.range n.toNat).map (rowOf n.toNat
    ((messages (languages.length * n.toNat) (file.drop headerSize)).map (Option.map shown))), ?_, ?_, ?_⟩
  · refine bind_eq_ok.2 ⟨_, hcount, bind_eq_ok.2 ⟨_, hplain.mapM_show?, rfl⟩⟩
  · rw [List.length_map, List.length_range]
  · have hheader : Bytes.padTo headerSize (file.take headerSize) = file.take headerSize := by
      rw [Bytes.padTo, List.length_take_of_le hlong, Nat.sub_self, List.replicate_zero, List.append_nil]
    rw [Bytes.padTo_take_add, hheader, List.map_map, write_eq]
    exact bind_eq_ok.2 ⟨_, hcount, bind_eq_ok.2 ⟨_, hcolumns, rfl⟩⟩

end Catalogue

end AdventureKit
