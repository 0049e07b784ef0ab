import AdventureKit.Lzss.Writer
import AdventureKit.Proofs.Lzss.Replay

/-!
# The writer keeps within its buffer

While a group is collected, its bytes stand in the buffer behind the cell of the flag byte (`Writer.Collects`).  Seven
commands take fourteen cells at most, so that there is room for one more (`Writer.put_eq_ok`).  What goes out are the
commands in groups of eight, each behind its flag byte, and no cell outside of the buffer is written
(`Writer.write_eq_encode`).
-/

namespace AdventureKit.Lzss

/-! ### Numbers of flags and bytes -/

theorem kindNumber_lt (group : List Command) : kindNumber group < 1 <<< group.length := by
  induction group with
  | nil => exact Nat.one_pos
  | cons c group ih =>
    have hc : (if c.isLiteral then 1 else 0) ≤ 1 := by split <;> simp
    rw [List.length_cons, Nat.shiftLeft_succ]
    show 2 * kindNumber group + (if c.isLiteral then 1 else 0) < _
    omega

theorem kindNumber_concat (group : List Command) (c : Command) :
    kindNumber (group ++ [c]) = kindNumber group + if c.isLiteral then 1 <<< group.length else 0 := by
  induction group with
  | nil =>
    show 2 * 0 + (if c.isLiteral then 1 else 0) = 0 + if c.isLiteral then 1 else 0
    rfl
  | cons d group ih =>
    show 2 * kindNumber (group ++ [c]) + (if d.isLiteral then 1 else 0) =
      2 * kindNumber group + (if d.isLiteral then 1 else 0) + _
    rw [ih, List.length_cons, Nat.shiftLeft_succ]
    split <;> omega

/-- Setting the next flag adds it. -/
theorem kindNumber_or (group : List Command) :
    kindNumber group ||| 1 <<< group.length = kindNumber group + 1 <<< group.length := by
  have hlt := kindNumber_lt group
  rw [Nat.one_shiftLeft] at hlt ⊢
  have hor := Nat.two_pow_add_eq_or_of_lt hlt 1
  rw [Nat.mul_one] at hor
  rw [Nat.or_comm, ← hor, Nat.add_comm]

theorem length_bytes_le (c : Command) : c.bytes.length ≤ 2 := by
  cases c with
  | literal b => exact Nat.le_succ 1
  | copy place length => exact Nat.le_refl 2

theorem length_flatMap_bytes_le (group : List Command) : (group.flatMap Command.bytes).length ≤ 2 * group.length := by
  induction group with
  | nil => exact Nat.le_refl 0
  | cons c group ih =>
    have hc := length_bytes_le c
    rw [List.flatMap_cons, List.length_append, List.length_cons]
    omega

namespace Writer

variable {w : Writer} {group : List Command}

/-- The bytes and flags of `group` are collected. -/
structure Collects (w : Writer) (group : List Command) : Prop where
  flags_eq : w.flags = kindNumber group
  next_eq : w.next = (group.flatMap Command.bytes).length + 1
  cells_eq : (w.buffer.toList.take w.next).drop 1 = group.flatMap Command.bytes

theorem store_eq_ok {cell value : Nat} (hcell : cell < 17) (hvalue : value < 256) (w : Writer) :
    w.store cell value = .ok { w with buffer := w.buffer.set cell (UInt8.ofNat value) } := by
  rw [store, dif_pos hcell, if_pos hvalue]

/-- A store behind the bytes so far adds a byte to them. -/
theorem drop_take_set {buffer : Vector UInt8 17} {cell : Nat} (hpos : 0 < cell) (hcell : cell < 17) (b : UInt8) :
    ((buffer.set cell b).toList.take (cell + 1)).drop 1 = (buffer.toList.take cell).drop 1 ++ [b] := by
  have hlength : buffer.toList.length = 17 := Vector.length_toList
  rw [Vector.toList_set, List.take_add_one, List.getElem?_set_self (by omega), List.take_set_of_le (Nat.le_refl _),
    Option.toList_some, List.drop_append_of_le_length]
  rw [List.length_take]
  omega

theorem put_literal (hnext : w.next < 17) (b : UInt8) :
    w.put (.literal b) = .ok ⟨w.buffer.set w.next b, w.next + 1, w.flags ||| 1 <<< w.count, w.count⟩ := by
  rw [put, store_eq_ok hnext b.toNat_lt, UInt8.ofNat_toNat]
  rfl

theorem put_copy (hnext : w.next + 1 < 17) {place length : Nat} (hc : (Command.copy place length).Fits) :
    w.put (.copy place length) =
      .ok ⟨(w.buffer.set w.next (UInt8.ofNat (place % 256))).set (w.next + 1)
        (UInt8.ofNat (place / 256 * 16 + (length - 3))), w.next + 2, w.flags, w.count⟩ := by
  obtain ⟨hplace, hthree, hlong⟩ := hc
  rw [maxCopy] at hlong
  have hhigh : place / 256 % 16 = place / 256 := Nat.mod_eq_of_lt (by omega)
  rw [put, store_eq_ok (by omega) (Nat.mod_lt _ (by decide)), hhigh]
  show (store _ _ _ >>= fun w => _) = _
  rw [store_eq_ok hnext (by omega)]
  rfl

/-- **A command fits** behind up to seven others. -/
theorem put_eq_ok (hw : w.Collects group) (hgroup : group.length < 8) (hcount : w.count = group.length) {c : Command}
    (hc : c.Fits) : ∃ w', w.put c = .ok w' ∧ w'.Collects (group ++ [c]) ∧ w'.count = group.length := by
  have hlength := length_flatMap_bytes_le group
  have hnext := hw.next_eq
  have hbytes : (group ++ [c]).flatMap Command.bytes = group.flatMap Command.bytes ++ c.bytes := by
    rw [List.flatMap_append, List.flatMap_singleton]
  cases c with
  | literal b =>
    refine ⟨_, put_literal (by omega) b, ⟨?_, ?_, ?_⟩, hcount⟩
    · rw [hw.flags_eq, hcount, kindNumber_or, kindNumber_concat]
      rfl
    · show w.next + 1 = _
      rw [hbytes, List.length_append, hnext]
      rfl
    · rw [hbytes, ← hw.cells_eq]
      exact drop_take_set (by omega) (by omega) b
  | copy place length =>
    refine ⟨_, put_copy (by omega) hc, ⟨?_, ?_, ?_⟩, hcount⟩
    · rw [hw.flags_eq, kindNumber_concat]
      rfl
    · show w.next + 2 = _
      rw [hbytes, List.length_append, hnext]
      rfl
    · rw [hbytes, ← hw.cells_eq]
      show List.drop 1 (List.take (w.next + 1 + 1) _) = _
      rw [drop_take_set (by omega) (by omega), drop_take_set (by omega) (by omega), List.append_assoc]
      rfl

/-- What goes out is the group behind its flag byte. -/
theorem flush_eq (hw : w.Collects group) (hgroup : group.length ≤ 8) :
    w.flush = .ok (flagByte group :: group.flatMap Command.bytes) := by
  have hlt : kindNumber group < 256 := by
    have h8 : 1 <<< group.length ≤ 1 <<< 8 := by
      rw [Nat.one_shiftLeft, Nat.one_shiftLeft]
      exact Nat.pow_le_pow_right (by decide) hgroup
    exact Nat.lt_of_lt_of_le (kindNumber_lt group) h8
  have hflush : w.flush = .ok ((w.buffer.set 0 (UInt8.ofNat w.flags)).toList.take w.next) := by
    rw [flush, store_eq_ok (by decide) (by rwa [hw.flags_eq])]
    rfl
  have htake : (w.buffer.set 0 (UInt8.ofNat w.flags)).toList.take w.next =
      UInt8.ofNat w.flags :: (w.buffer.toList.take w.next).drop 1 := by
    rw [Vector.toList_set]
    cases hbuffer : w.buffer.toList with
    | nil => exact absurd (congrArg List.length hbuffer) (by simp)
    | cons b bs =>
      rw [hw.next_eq, List.set_cons_zero, List.take_succ_cons, List.take_succ_cons, List.drop_succ_cons,
        List.drop_zero]
  rw [hflush, htake, hw.cells_eq, hw.flags_eq]
  rfl

/-- A new group. -/
theorem collects_nil {w : Writer} (hnext : w.next = 1) (hflags : w.flags = 0) : w.Collects [] where
  flags_eq := hflags
  next_eq := hnext
  cells_eq := by
    rw [hnext]
    cases w.buffer.toList <;> rfl

/-- The first group is begun with three literals. -/
theorem collects_behind {first : Bytes} (h : first.length = 3) : (behind first).Collects (first.map .literal) := by
  obtain ⟨a, rest, rfl⟩ := List.exists_cons_of_length_eq_add_one h
  obtain ⟨b, rest, rfl⟩ := List.exists_cons_of_length_eq_add_one (Nat.succ.inj h)
  obtain ⟨c, rest, rfl⟩ := List.exists_cons_of_length_eq_add_one (Nat.succ.inj (Nat.succ.inj h))
  obtain rfl : rest = [] := List.eq_nil_of_length_eq_zero (by simpa using h)
  refine ⟨rfl, rfl, ?_⟩
  rw [behind, Vector.toList_ofFn]
  rfl

/-- **The writer writes the commands in groups.**  With the commands that it has collected and those that come, it
writes what the format says, and every store is to a cell of the buffer. -/
theorem write_eq_encode (hw : w.Collects group) (hgroup : group.length < 8) (hcount : w.count = group.length)
    {commands : List Command} (hne : commands ≠ []) (hc : ∀ c ∈ commands, c.Fits) :
    w.write commands = .ok (encodeCommands (group ++ commands)) := by
  induction commands generalizing w group with
  | nil => exact absurd rfl hne
  | cons c commands ih =>
    obtain ⟨hfits, hlater⟩ := List.forall_mem_cons.1 hc
    obtain ⟨w', hput, hcollects, hcount'⟩ := put_eq_ok hw hgroup hcount hfits
    have hlength : (group ++ [c]).length = group.length + 1 := List.length_append
    have hflush := flush_eq hcollects (by omega)
    have hnew : Collects { w' with next := 1, flags := 0, count := 0 } [] := collects_nil rfl rfl
    rw [write, hput, List.append_cons]
    show (if w'.count = 7 ∨ commands = [] then _ else _) = _
    by_cases hlast : commands = []
    · subst hlast
      rw [if_pos (.inr rfl), hflush, List.append_nil, encodeCommands_group (by simp) (by omega), write]
      show Except.ok ((flagByte (group ++ [c]) :: (group ++ [c]).flatMap Command.bytes) ++ []) = _
      rw [List.append_nil]
    by_cases hfull : w'.count = 7
    · rw [if_pos (.inl hfull), hflush, encodeCommands_append (by omega)]
      show (write _ commands >>= _) = _
      rw [ih hnew (by decide) rfl hlast hlater]
      rfl
    · rw [if_neg (by simp [hfull, hlast])]
      exact ih ⟨hcollects.flags_eq, hcollects.next_eq, hcollects.cells_eq⟩ (by omega) (by rw [hlength, hcount'])
        hlast hlater

end Writer

end AdventureKit.Lzss
