import AdventureKit.Dialogue.Catalogue
import AdventureKit.Proofs.Bytes
import AdventureKit.Proofs.Failing
import AdventureKit.Proofs.Stream.Output

/-!
# Catalogues by columns

A catalogue is written cell by cell, with steps over the empty ones.  What comes out is the header and, for each
language, the messages of the rows one after the other, zeros for empty cells (`write_eq`).

The writing succeeds just if there are as many rows as the header counts messages and every cell fits in its message
(`write_eq_ok_iff`), and each message then stands at its place (`take_drop_storedColumn`).
-/

namespace AdventureKit

/-- The length of parts of one size. -/
theorem length_flatten_of_equal {α : Type} {size : Nat} {parts : List (List α)} (hsize : ∀ p ∈ parts, p.length = size) :
    parts.flatten.length = parts.length * size := by
  rw [List.length_flatten, List.map_congr_left hsize, List.map_const', List.sum_replicate_nat]

/-- Equal parts one after the other: a part stands behind those before it. -/
theorem exists_drop_flatten {α : Type} {size k : Nat} {parts : List (List α)} {part : List α}
    (hsize : ∀ p ∈ parts, p.length = size) (hk : parts[k]? = some part) :
    ∃ behind, parts.flatten.drop (k * size) = part ++ behind := by
  induction parts generalizing k with
  | nil => cases hk
  | cons first parts ih =>
    obtain ⟨hfirst, hparts⟩ := List.forall_mem_cons.1 hsize
    cases k with
    | zero =>
      obtain rfl : first = part := Option.some.inj hk
      exact ⟨parts.flatten, by rw [Nat.zero_mul, List.drop_zero, List.flatten_cons]⟩
    | succ k =>
      obtain ⟨behind, h⟩ := ih hparts hk
      refine ⟨behind, ?_⟩
      rw [List.flatten_cons, Nat.succ_mul, Nat.add_comm, ← List.drop_drop, List.drop_left' hfirst, h]

/-- Values by a condition and a function of each element. -/
theorem mapM_eq_ok_iff {α β : Type} {f : α → Except Fault β} {P : α → Prop} {g : α → β} {xs : List α} {ys : List β}
    (h : ∀ x ∈ xs, ∀ y, f x = .ok y ↔ P x ∧ y = g x) : xs.mapM f = .ok ys ↔ (∀ x ∈ xs, P x) ∧ ys = xs.map g := by
  induction xs generalizing ys with
  | nil =>
    rw [List.mapM_nil]
    constructor
    · intro hys
      cases hys
      exact ⟨nofun, rfl⟩
    · rintro ⟨-, rfl⟩
      rfl
  | cons x xs ih =>
    obtain ⟨hx, hxs⟩ := List.forall_mem_cons.1 h
    rw [mapM_cons_eq_ok, List.forall_mem_cons]
    constructor
    · rintro ⟨y, rest, hy, hrest, rfl⟩
      obtain ⟨hP, rfl⟩ := (hx y).1 hy
      obtain ⟨hPs, rfl⟩ := (ih hxs).1 hrest
      exact ⟨⟨hP, hPs⟩, rfl⟩
    · rintro ⟨⟨hP, hPs⟩, rfl⟩
      exact ⟨g x, xs.map g, (hx _).2 ⟨hP, rfl⟩, (ih hxs).2 ⟨hPs, rfl⟩, rfl⟩

namespace Catalogue

open Output (Adds Behind)

/-! ## The messages of columns -/

/-- The message of a cell, zeros if it is empty. -/
def messageOf : Option Bytes → Except Fault Bytes
  | none => .ok (List.replicate messageSize 0)
  | some cell => message? cell

/-- The messages of a language. -/
def column (rows : List Row) (language : String) : Except Fault Bytes := do
  return (← rows.mapM fun row => do messageOf (← Row.cell row language)).flatten

/-- The messages of languages that follow the first `done` ones.  Each language starts where the number of messages
puts it. -/
def columnsFrom (count : Nat) (rows : List Row) : (done : Nat) → List String → Except Fault Bytes
  | _, [] => .ok []
  | done, language :: rest => do
    if done * rows.length ≠ done * count then throw (.disagreement .languagePlace)
    let here ← column rows language
    return here ++ (← columnsFrom count rows (done + 1) rest)

theorem column_cons (row : Row) (rows : List Row) (language : String) :
    column (row :: rows) language = do
      return (← (do messageOf (← Row.cell row language))) ++ (← column rows language) := by
  unfold column
  rw [List.mapM_cons]
  simp only [bind_assoc, pure_bind, List.flatten_cons]

theorem length_message? {cell message : Bytes} (h : message? cell = .ok message) : message.length = messageSize := by
  unfold message? at h
  dsimp only at h
  split at h
  · cases h
  · cases h
    rw [List.length_take, Bytes.padTo, List.length_append, List.length_replicate]
    omega

theorem length_messageOf {cell : Option Bytes} {message : Bytes} (h : messageOf cell = .ok message) :
    message.length = messageSize := by
  cases cell with
  | none =>
    cases h
    exact List.length_replicate
  | some cell => exact length_message? h

theorem length_column {rows : List Row} {language : String} {bs : Bytes} (h : column rows language = .ok bs) :
    bs.length = rows.length * messageSize := by
  obtain ⟨messages, hmessages, h⟩ := bind_eq_ok.1 h
  cases h
  have hsize : ∀ message ∈ messages, message.length = messageSize := by
    refine forall_of_mapM_eq_ok hmessages fun row _ message hmessage => ?_
    obtain ⟨cell, -, hmessage⟩ := bind_eq_ok.1 hmessage
    exact length_messageOf hmessage
  rw [length_flatten_of_equal hsize, length_of_mapM_eq_ok hmessages]

/-! ## Writing cell by cell -/

variable {out : Output} {bs : Bytes} {rows : List Row}

theorem adds_writeCell (h : out.Behind bs) (cell : Option Bytes) : Adds bs (writeCell out cell) (messageOf cell) := by
  cases cell with
  | none => exact .inl ⟨_, _, rfl, rfl, h.skip messageSize⟩
  | some cell =>
    rw [writeCell, messageOf]
    cases hmessage : message? cell with
    | error e => exact Adds.fault bs e
    | ok message => exact .inl ⟨_, message, rfl, rfl, h.write message⟩

theorem adds_writeRow (h : out.Behind bs) (row : Row) (language : String) :
    Adds bs (Row.cell row language >>= writeCell out) (Row.cell row language >>= messageOf) := by
  cases Row.cell row language with
  | error e => exact Adds.fault bs e
  | ok cell => exact adds_writeCell h cell

theorem adds_foldlM_writeCell (h : out.Behind bs) (rows : List Row) (language : String) :
    Adds bs (rows.foldlM (fun out row => do writeCell out (← Row.cell row language)) out) (column rows language) := by
  induction rows generalizing out bs with
  | nil => exact Adds.nothing h
  | cons row rows ih =>
    rw [List.foldlM_cons, column_cons]
    exact (adds_writeRow h row language).append fun o new _ ho => ih ho

/-- Languages are written to their places just if the rows before them were as many as counted. -/
theorem adds_writeLanguages {start count done : Nat} (h : out.Behind bs)
    (hlength : bs.length = start + done * rows.length * messageSize) (ls : List String) :
    Adds bs (writeLanguages start count rows done ls out) (columnsFrom count rows done ls) := by
  induction ls generalizing out bs done with
  | nil => exact Adds.nothing h
  | cons language ls ih =>
    have hplace : out.pos ≠ start + done * count * messageSize ↔ done * rows.length ≠ done * count := by
      rw [← h.length_eq, hlength]
      show start + done * rows.length * 40 ≠ start + done * count * 40 ↔ _
      omega
    unfold writeLanguages columnsFrom writeLanguage
    by_cases hcount : done * rows.length ≠ done * count
    · rw [if_pos hcount, if_pos (hplace.2 hcount)]
      exact Adds.fault bs _
    · rw [if_neg hcount, if_neg (mt hplace.1 hcount)]
      refine (adds_foldlM_writeCell h rows language).append fun o new hnew ho => ih ho ?_
      rw [List.length_append, hlength, length_column hnew, Nat.succ_mul, Nat.add_mul, Nat.add_assoc]

/-- **A catalogue is its header and its columns.** -/
theorem write_eq (file : Bytes) (rows : List Row) :
    write file rows = do
      let count ← messageCount (file.take headerSize)
      return file.take headerSize ++ (← columnsFrom count rows 0 languages) := by
  have hstart : (Output.empty.write (file.take headerSize)).Behind (file.take headerSize) :=
    Output.behind_empty.write _
  unfold write
  dsimp only
  refine bind_congr fun count => ?_
  have hadds : Adds (file.take headerSize) (writeLanguages (file.take headerSize).length count rows 0 languages
      (Output.empty.write (file.take headerSize))) (columnsFrom count rows 0 languages) :=
    adds_writeLanguages hstart (by simp) languages
  rcases hadds with ⟨o, body, hwritten, hbody, ho⟩ | ⟨e, hwritten, hbody⟩
  · rw [hwritten, hbody]
    show Except.ok ((o.write [0]).bytes.dropLast) = Except.ok (file.take headerSize ++ body)
    rw [ho.bytes_write (by simp), List.dropLast_concat]
  · rw [hwritten, hbody]
    rfl

/-! ## Rows that fit -/

/-- A cell that fits in a message: all that is too much of it stands for zeros. -/
def Fits (cell : Option Bytes) : Prop :=
  ∀ text ∈ cell, ∀ b ∈ text.drop messageSize, b = 0 ∨ b = filler

instance (cell : Option Bytes) : Decidable (Fits cell) :=
  inferInstanceAs (Decidable (∀ text ∈ cell, ∀ b ∈ text.drop messageSize, b = 0 ∨ b = filler))

/-- The message of a cell: zeros for fillers, cut or filled up to its length. -/
def stored (cell : Option Bytes) : Bytes :=
  (Bytes.padTo messageSize ((cell.getD []).map fun b => if b = filler then 0 else b)).take messageSize

theorem length_stored (cell : Option Bytes) : (stored cell).length = messageSize := by
  rw [stored, List.length_take, Bytes.padTo, List.length_append, List.length_replicate]
  omega

/-- What is too much of a cell is too much of its message. -/
theorem any_drop_padTo_eq_false_iff (text : Bytes) :
    ((Bytes.padTo messageSize (text.map fun b => if b = filler then 0 else b)).drop messageSize).any (· != 0) = false ↔
      Fits (some text) := by
  have hdrop : (Bytes.padTo messageSize (text.map fun b => if b = filler then 0 else b)).drop messageSize =
      (text.drop messageSize).map fun b => if b = filler then 0 else b := by
    have hnone : (List.replicate (messageSize - text.length) (0 : UInt8)).drop (messageSize - text.length) = [] :=
      List.drop_eq_nil_of_le (Nat.le_of_eq List.length_replicate)
    rw [Bytes.padTo, List.length_map, List.drop_append, List.length_map, hnone, List.append_nil, List.map_drop]
  rw [hdrop, List.any_map, List.any_eq_false]
  unfold Fits
  simp only [Option.mem_some_iff, forall_eq', Function.comp_apply, bne_iff_ne, ne_eq]
  refine forall_congr' fun b => imp_congr_right fun _ => ?_
  by_cases hb : b = filler
  · simp [hb]
  · simp [hb]

theorem messageOf_eq_ok_iff {cell : Option Bytes} {message : Bytes} :
    messageOf cell = .ok message ↔ Fits cell ∧ message = stored cell := by
  cases cell with
  | none =>
    constructor
    · intro h
      cases h
      exact ⟨nofun, rfl⟩
    · rintro ⟨-, rfl⟩
      rfl
  | some text =>
    have hiff := any_drop_padTo_eq_false_iff text
    rw [messageOf, message?]
    split
    next hlong => exact iff_of_false nofun fun h => by simp [hiff.2 h.1] at hlong
    next hshort =>
      constructor
      · intro h
        cases h
        exact ⟨hiff.1 (Bool.eq_false_iff.2 hshort), rfl⟩
      · rintro ⟨-, rfl⟩
        rfl

/-- How writing a catalogue fails. -/
def IsMisfit (e : Fault) : Prop :=
  e = .disagreement .languagePlace ∨ e = .report "Non-null characters after 40 characters limit"

theorem failsOnly_messageOf (cell : Option Bytes) : FailsOnly IsMisfit (messageOf cell) := by
  cases cell with
  | none => exact failsOnly_ok _
  | some text =>
    rw [messageOf, message?]
    split
    · exact failsOnly_error (.inr rfl)
    · exact failsOnly_ok _

/-- Every row has a cell for each language. -/
def Complete (rows : List Row) : Prop :=
  ∀ row ∈ rows, ∀ language ∈ languages, (row.get? language).isSome

instance (rows : List Row) : Decidable (Complete rows) :=
  inferInstanceAs (Decidable (∀ row ∈ rows, ∀ language ∈ languages, (row.get? language).isSome))

theorem cell_of_complete (hrows : Complete rows) {row : Row} (hrow : row ∈ rows) {language : String}
    (hlanguage : language ∈ languages) : Row.cell row language = .ok (row.get? language).join := by
  obtain ⟨cell, hcell⟩ := Option.isSome_iff_exists.1 (hrows row hrow language hlanguage)
  rw [Row.cell, hcell]
  rfl

/-- The messages of a language for rows that fit. -/
def storedColumn (rows : List Row) (language : String) : Bytes :=
  (rows.map fun row => stored (row.get? language).join).flatten

theorem column_eq_ok_iff (hrows : Complete rows) {language : String} (hlanguage : language ∈ languages) {bs : Bytes} :
    column rows language = .ok bs ↔
      (∀ row ∈ rows, Fits (row.get? language).join) ∧ bs = storedColumn rows language := by
  have hcells : ∀ row ∈ rows, ∀ message, (Row.cell row language >>= messageOf) = .ok message ↔
      Fits (row.get? language).join ∧ message = stored (row.get? language).join := by
    intro row hrow message
    rw [cell_of_complete hrows hrow hlanguage]
    exact messageOf_eq_ok_iff
  unfold column
  rw [bind_eq_ok]
  constructor
  · rintro ⟨messages, hmessages, h⟩
    cases h
    obtain ⟨hfits, rfl⟩ := (mapM_eq_ok_iff hcells).1 hmessages
    exact ⟨hfits, rfl⟩
  · rintro ⟨hfits, rfl⟩
    exact ⟨_, (mapM_eq_ok_iff hcells).2 ⟨hfits, rfl⟩, rfl⟩

theorem columnsFrom_eq_ok_iff {count done : Nat} (hrows : Complete rows) {ls : List String}
    (hls : ∀ language ∈ ls, language ∈ languages) {bs : Bytes} :
    columnsFrom count rows done ls = .ok bs ↔
      (∀ k, done ≤ k → k < done + ls.length → k * rows.length = k * count) ∧
        (∀ language ∈ ls, ∀ row ∈ rows, Fits (row.get? language).join) ∧ bs = (ls.map (storedColumn rows)).flatten := by
  induction ls generalizing done bs with
  | nil =>
    rw [columnsFrom]
    constructor
    · intro h
      cases h
      exact ⟨fun k hk hlt => absurd hlt (Nat.not_lt.2 hk), nofun, rfl⟩
    · rintro ⟨-, -, rfl⟩
      rfl
  | cons language ls ih =>
    obtain ⟨hlanguage, hls⟩ := List.forall_mem_cons.1 hls
    rw [columnsFrom]
    by_cases hplace : done * rows.length ≠ done * count
    · rw [if_pos hplace]
      refine iff_of_false nofun fun h => hplace (h.1 done (Nat.le_refl _) ?_)
      exact Nat.lt_add_of_pos_right (Nat.succ_pos _)
    · rw [if_neg hplace]
      have hshift : (∀ k, done ≤ k → k < done + (ls.length + 1) → k * rows.length = k * count) ↔
          ∀ k, done + 1 ≤ k → k < done + 1 + ls.length → k * rows.length = k * count := by
        refine ⟨fun h k hk hlt => h k (by omega) (by omega), fun h k hk hlt => ?_⟩
        rcases Nat.eq_or_lt_of_le hk with rfl | hk
        · exact Decidable.not_not.1 hplace
        · exact h k hk (by omega)
      rw [List.length_cons, hshift, List.forall_mem_cons, List.map_cons, List.flatten_cons]
      constructor
      · intro h
        obtain ⟨here, hhere, h⟩ := bind_eq_ok.1 h
        obtain ⟨rest, hrest, h⟩ := bind_eq_ok.1 h
        cases h
        obtain ⟨hfits, rfl⟩ := (column_eq_ok_iff hrows hlanguage).1 hhere
        obtain ⟨hplaces, hothers, rfl⟩ := (ih hls).1 hrest
        exact ⟨hplaces, ⟨hfits, hothers⟩, rfl⟩
      · rintro ⟨hplaces, ⟨hfits, hothers⟩, rfl⟩
        exact bind_eq_ok.2 ⟨_, (column_eq_ok_iff hrows hlanguage).2 ⟨hfits, rfl⟩,
          bind_eq_ok.2 ⟨_, (ih hls).2 ⟨hplaces, hothers, rfl⟩, rfl⟩⟩

theorem failsOnly_columnsFrom (hrows : Complete rows) (count : Nat) {done : Nat} {ls : List String}
    (hls : ∀ language ∈ ls, language ∈ languages) : FailsOnly IsMisfit (columnsFrom count rows done ls) := by
  induction ls generalizing done with
  | nil => exact failsOnly_ok []
  | cons language ls ih =>
    obtain ⟨hlanguage, hls⟩ := List.forall_mem_cons.1 hls
    have hcolumn : FailsOnly IsMisfit (column rows language) := by
      refine (failsOnly_mapM fun row hrow => ?_).bind fun _ _ => failsOnly_ok _
      rw [cell_of_complete hrows hrow hlanguage]
      exact failsOnly_messageOf _
    rw [columnsFrom]
    split
    · exact failsOnly_error (.inl rfl)
    · exact hcolumn.bind fun _ _ => (ih hls).bind fun _ _ => failsOnly_ok _

/-! ## Whole catalogues -/

theorem messageCount_take {file : Bytes} {n : UInt8} (hn : file[4]? = some n) :
    messageCount (file.take headerSize) = .ok n.toNat := by
  have hget : (file.take headerSize)[4]? = some n := by
    rw [List.getElem?_take_of_lt (by decide), hn]
  rw [messageCount, hget]

variable {file new : Bytes} {n : UInt8}

/-- There is a row for each message, and every cell fits. -/
structure Placeable (count : Nat) (rows : List Row) : Prop where
  length_eq : rows.length = count
  fits : ∀ row ∈ rows, ∀ language ∈ languages, Fits (row.get? language).join

/-- A catalogue is written just if its rows have their places in it. -/
theorem write_eq_ok_iff (hrows : Complete rows) (hn : file[4]? = some n) :
    write file rows = .ok new ↔
      Placeable n.toNat rows ∧ new = file.take headerSize ++ (languages.map (storedColumn rows)).flatten := by
  have hcolumns := @columnsFrom_eq_ok_iff rows n.toNat 0 hrows languages fun _ h => h
  have hcount : (∀ k, 0 ≤ k → k < 0 + languages.length → k * rows.length = k * n.toNat) ↔ rows.length = n.toNat := by
    refine ⟨fun h => ?_, fun h k _ _ => by rw [h]⟩
    -- the second language has its place behind as many messages as counted
    have hone := h 1 (Nat.zero_le _) (by decide)
    rwa [Nat.one_mul, Nat.one_mul] at hone
  rw [write_eq, messageCount_take hn]
  show (columnsFrom n.toNat rows 0 languages >>= fun body => pure (file.take headerSize ++ body)) = .ok new ↔ _
  rw [bind_eq_ok]
  constructor
  · rintro ⟨body, hbody, h⟩
    cases h
    obtain ⟨hplaces, hfits, rfl⟩ := hcolumns.1 hbody
    exact ⟨⟨hcount.1 hplaces, fun row hrow language hlanguage => hfits language hlanguage row hrow⟩, rfl⟩
  · rintro ⟨⟨hlength, hfits⟩, rfl⟩
    exact ⟨_, hcolumns.2 ⟨hcount.2 hlength, fun language hlanguage row hrow => hfits row hrow language hlanguage, rfl⟩,
      rfl⟩

theorem failsOnly_write (hrows : Complete rows) (hn : file[4]? = some n) : FailsOnly IsMisfit (write file rows) := by
  rw [write_eq, messageCount_take hn]
  exact (failsOnly_columnsFrom hrows n.toNat fun _ h => h).bind fun _ _ => failsOnly_ok _

theorem length_of_mem_map_stored (rows : List Row) (language : String) :
    ∀ message ∈ rows.map fun row => stored (row.get? language).join, message.length = messageSize := by
  intro message hmessage
  obtain ⟨row, -, rfl⟩ := List.mem_map.1 hmessage
  exact length_stored _

theorem length_storedColumn (rows : List Row) (language : String) :
    (storedColumn rows language).length = rows.length * messageSize := by
  rw [storedColumn, length_flatten_of_equal (length_of_mem_map_stored rows language), List.length_map]

theorem length_of_mem_map_storedColumn (rows : List Row) :
    ∀ column ∈ languages.map (storedColumn rows), column.length = rows.length * messageSize := by
  intro column hcolumn
  obtain ⟨language, -, rfl⟩ := List.mem_map.1 hcolumn
  exact length_storedColumn rows language

/-- The body of a catalogue has all messages of all languages. -/
theorem length_flatten_storedColumn (rows : List Row) :
    ((languages.map (storedColumn rows)).flatten).length = 400 * rows.length := by
  rw [length_flatten_of_equal (length_of_mem_map_storedColumn rows), List.length_map]
  show 10 * (rows.length * 40) = 400 * rows.length
  omega

/-- Each message stands behind those of the languages before its own and of the rows before its own. -/
theorem take_drop_storedColumn {k i : Nat} {language : String} {row : Row} (hk : languages[k]? = some language)
    (hi : rows[i]? = some row) :
    ((languages.map (storedColumn rows)).flatten.drop ((k * rows.length + i) * messageSize)).take messageSize =
      stored (row.get? language).join := by
  obtain ⟨others, hcolumn⟩ := exists_drop_flatten (length_of_mem_map_storedColumn rows)
    (by rw [List.getElem?_map, hk]; rfl)
  obtain ⟨later, hmessage⟩ := exists_drop_flatten (length_of_mem_map_stored rows language)
    (by rw [List.getElem?_map, hi]; rfl)
  have hplace : (k * rows.length + i) * messageSize = k * (rows.length * messageSize) + i * messageSize := by
    rw [Nat.add_mul, Nat.mul_assoc]
  have hinside : i * messageSize ≤ (storedColumn rows language).length := by
    rw [length_storedColumn]
    exact Nat.mul_le_mul_right _ (Nat.le_of_lt (List.getElem?_eq_some_iff.1 hi).1)
  rw [hplace, ← List.drop_drop, hcolumn, List.drop_append_of_le_length hinside, storedColumn, hmessage,
    List.append_assoc, List.take_left' (length_stored _)]

end Catalogue

end AdventureKit
