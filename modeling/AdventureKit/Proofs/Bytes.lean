import AdventureKit.Bytes

/-!
# Laws of byte strings

The fields that numbers and texts are written to, and parts of byte strings that stay the same when
bytes are put before or after them.
-/

namespace AdventureKit.Bytes

theorem putLE_eq_ok {width n : Nat} {bs : Bytes} (h : putLE width n = .ok bs) :
    n < limit width ∧ bs = ofNatLE width n := by
  rw [putLE] at h
  split at h
  · rename_i hn
    cases h
    exact ⟨by omega, by rw [Int.toNat_natCast]⟩
  · cases h

theorem putLE_of_lt {width n : Nat} (h : n < limit width) : putLE width n = .ok (ofNatLE width n) := by
  rw [putLE, if_pos ⟨Int.natCast_nonneg n, Int.ofNat_lt.2 h⟩, Int.toNat_natCast]

theorem dword_ofNatLE {n : Nat} (h : n < limit 4) (more : Bytes) : dword (ofNatLE 4 n ++ more) = n := by
  rw [dword, List.take_left' (length_ofNatLE 4 n), toNatLE_ofNatLE h]

theorem word_ofNatLE {n : Nat} (h : n < limit 2) (more : Bytes) : word (ofNatLE 2 n ++ more) = n := by
  rw [word, List.take_left' (length_ofNatLE 2 n), toNatLE_ofNatLE h]

theorem ofNatLE_toNatLE (bs : Bytes) : ofNatLE bs.length (toNatLE bs) = bs := by
  induction bs with
  | nil => rfl
  | cons b bs ih =>
    have hb : b.toNat < 256 := b.toNat_lt
    have hlow : (b.toNat + 256 * toNatLE bs) % 256 = b.toNat := by omega
    have hhigh : (b.toNat + 256 * toNatLE bs) / 256 = toNatLE bs := by omega
    rw [List.length_cons, toNatLE, ofNatLE, hlow, hhigh, ih, UInt8.ofNat_toNat]

theorem word_lt (bs : Bytes) : word bs < limit 2 := by
  have h := toNatLE_lt (bs.take 2)
  rw [List.length_take] at h
  have hle : ∀ k ≤ 2, limit k ≤ limit 2 := by decide
  exact Nat.lt_of_lt_of_le h (hle _ (Nat.min_le_left _ _))

theorem ofNatLE_word {bs : Bytes} (h : 2 ≤ bs.length) : ofNatLE 2 (word bs) = bs.take 2 := by
  have hlength : (bs.take 2).length = 2 := by simp [h]
  have hback := ofNatLE_toNatLE (bs.take 2)
  rwa [hlength] at hback

theorem length_padTo {width : Nat} {bs : Bytes} (h : bs.length ≤ width) : (bs.padTo width).length = width := by
  rw [padTo, List.length_append, List.length_replicate]
  omega

theorem toNat_asciiByte {c : Char} (h : c.toNat < 128) : (UInt8.ofNat c.toNat).toNat = c.toNat := by
  rw [UInt8.toNat_ofNat']
  omega

theorem ofAscii_append (s t : String) : ofAscii (s ++ t) = ofAscii s ++ ofAscii t := by
  rw [ofAscii, String.toList_append, List.map_append]
  rfl

theorem length_ofAscii (s : String) : (ofAscii s).length = s.length := by
  rw [ofAscii, List.length_map, String.length_toList]

/-- Characters other than zero end where the first zero is. -/
theorem takeWhile_ofAscii {s : String} (hascii : ∀ c ∈ s.toList, c.toNat < 128)
    (hzero : ∀ c ∈ s.toList, c.toNat ≠ 0) {more : Bytes} (hmore : more.head?.getD 0 = 0) :
    (ofAscii s ++ more).takeWhile (· != 0) = ofAscii s := by
  have hne : ∀ b ∈ ofAscii s, (b != 0) = true := by
    intro b hb
    obtain ⟨c, hc, rfl⟩ := List.mem_map.1 hb
    refine bne_iff_ne.2 fun he => hzero c hc ?_
    rw [← toNat_asciiByte (hascii c hc), he]
    rfl
  rw [List.takeWhile_append_of_pos hne]
  cases more with
  | nil => simp
  | cons b more =>
    have hb : b = 0 := hmore
    simp [hb]

theorem takeWhile_padTo {s : String} (hascii : ∀ c ∈ s.toList, c.toNat < 128)
    (hzero : ∀ c ∈ s.toList, c.toNat ≠ 0) (width : Nat) :
    ((ofAscii s).padTo width).takeWhile (· != 0) = ofAscii s := by
  refine takeWhile_ofAscii hascii hzero ?_
  cases width - (ofAscii s).length with
  | zero => rfl
  | succ n => rfl

/-- Bytes that are long enough have a first part of a given length. -/
theorem exists_split (bs : Bytes) (n : Nat) (h : n ≤ bs.length) :
    ∃ front behind, bs = front ++ behind ∧ front.length = n :=
  ⟨bs.take n, bs.drop n, (List.take_append_drop n bs).symm, List.length_take_of_le h⟩

theorem slice_append {start stop : Nat} {bs : Bytes} (h : stop ≤ bs.length) (more : Bytes) :
    (bs ++ more).slice start stop = bs.slice start stop := by
  by_cases hs : start ≤ bs.length
  · rw [slice, slice, List.drop_append_of_le_length hs, List.take_append_of_le_length]
    rw [List.length_drop]
    omega
  · have hnone : stop - start = 0 := by omega
    rw [slice, slice, hnone, List.take_zero, List.take_zero]

theorem slice_behind (front bs : Bytes) (start stop : Nat) :
    (front ++ bs).slice (front.length + start) (front.length + stop) = bs.slice start stop := by
  rw [slice, slice, Nat.add_sub_add_left, ← List.drop_drop, List.drop_left]

/-- A part of bytes that were put together. -/
theorem slice_flatten {parts : List Bytes} {i start length : Nat} {part : Bytes} (h : parts[i]? = some part)
    (hstart : (parts.take i).flatten.length = start) (hlength : part.length = length) (more : Bytes) :
    slice start (start + length) (parts.flatten ++ more) = part := by
  obtain ⟨hi, rfl⟩ := List.getElem?_eq_some_iff.1 h
  have hsplit : parts.flatten ++ more =
      (parts.take i).flatten ++ (parts[i] ++ ((parts.drop (i + 1)).flatten ++ more)) := by
    rw [← List.append_assoc parts[i], ← List.flatten_cons, ← List.drop_eq_getElem_cons hi, ← List.append_assoc,
      ← List.flatten_append, List.take_append_drop]
  rw [hsplit, slice, Nat.add_sub_cancel_left, List.drop_left' hstart, List.take_left' hlength]

end AdventureKit.Bytes
