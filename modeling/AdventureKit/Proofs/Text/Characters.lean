import AdventureKit.Proofs.Text.Utf8

/-!
# Characters and their bytes

`Utf8.Spells` lists the byte strings that write a character.  A character has one spelling
(`Spells.characterBytes_eq`), and reading finds the character that starts a byte string exactly if the string starts with
its spelling.  So every text of characters is read back from its bytes (`decode_characters`), and whatever was read with
escapes is written as it was (`encodeEscaped_of_decodeEscaped`).
-/

namespace AdventureKit.Utf8

/-! ## Spellings -/

/-- A byte that continues a character. -/
def Tail (b : UInt8) : Prop :=
  0x80 ≤ b.toNat ∧ b.toNat ≤ 0xBF

theorem isTail_iff {b : UInt8} : isTail b = true ↔ Tail b := by
  simp only [isTail, Tail, Bool.and_eq_true, decide_eq_true_eq, UInt8.le_iff_toNat_le, UInt8.reduceToNat]

/-- The bytes that write a character. -/
inductive Spells : Nat → Bytes → Prop where
  | one {a : UInt8} (ha : a.toNat < 0x80) : Spells a.toNat [a]
  | two {a b : UInt8} (ha : 0xC2 ≤ a.toNat ∧ a.toNat ≤ 0xDF) (hb : Tail b) :
    Spells (a.toNat % 32 * 64 + tailBits b) [a, b]
  | three {a b c : UInt8} (ha : 0xE0 ≤ a.toNat ∧ a.toNat ≤ 0xEF) (hb : Tail b) (hc : Tail c)
    (hlow : 0x800 ≤ a.toNat % 16 * 4096 + tailBits b * 64 + tailBits c)
    (hpair : Text.isSurrogate (a.toNat % 16 * 4096 + tailBits b * 64 + tailBits c) = false) :
    Spells (a.toNat % 16 * 4096 + tailBits b * 64 + tailBits c) [a, b, c]
  | four {a b c d : UInt8} (ha : 0xF0 ≤ a.toNat ∧ a.toNat ≤ 0xF4) (hb : Tail b) (hc : Tail c) (hd : Tail d)
    (hlow : 0x10000 ≤ a.toNat % 8 * 262144 + tailBits b * 4096 + tailBits c * 64 + tailBits d)
    (hhigh : a.toNat % 8 * 262144 + tailBits b * 4096 + tailBits c * 64 + tailBits d ≤ 0x10FFFF) :
    Spells (a.toNat % 8 * 262144 + tailBits b * 4096 + tailBits c * 64 + tailBits d) [a, b, c, d]

theorem ofNat_of_toNat {a : UInt8} {n : Nat} (h : n = a.toNat) : UInt8.ofNat n = a := by
  rw [h, UInt8.ofNat_toNat]

/-- **A character has one spelling.** -/
theorem Spells.characterBytes_eq {c : Nat} {bs : Bytes} (h : Spells c bs) : characterBytes c = bs := by
  cases h with
  | one ha => rw [characterBytes, if_pos ha, UInt8.ofNat_toNat]
  | @two a b ha hb =>
    have hlow : ¬ a.toNat % 32 * 64 + tailBits b < 0x80 := by omega
    have hhigh : a.toNat % 32 * 64 + tailBits b < 0x800 := by
      have := tailBits_lt b
      omega
    unfold Tail at hb
    unfold tailBits at hlow hhigh ⊢
    rw [characterBytes, if_neg hlow, if_pos hhigh, ofNat_of_toNat (a := a) (by omega), ofNat_of_toNat (a := b) (by omega)]
  | @three a b c ha hb hc hlow hpair =>
    have hlow' : ¬ a.toNat % 16 * 4096 + tailBits b * 64 + tailBits c < 0x80 := by omega
    have hlow'' : ¬ a.toNat % 16 * 4096 + tailBits b * 64 + tailBits c < 0x800 := by omega
    have hhigh : a.toNat % 16 * 4096 + tailBits b * 64 + tailBits c < 0x10000 := by
      have := tailBits_lt b
      have := tailBits_lt c
      omega
    unfold Tail at hb hc
    unfold tailBits at hlow' hlow'' hhigh ⊢
    rw [characterBytes, if_neg hlow', if_neg hlow'', if_pos hhigh, ofNat_of_toNat (a := a) (by omega),
      ofNat_of_toNat (a := b) (by omega), ofNat_of_toNat (a := c) (by omega)]
  | @four a b c d ha hb hc hd hlow hhigh =>
    have hlow' : ¬ a.toNat % 8 * 262144 + tailBits b * 4096 + tailBits c * 64 + tailBits d < 0x10000 := by omega
    unfold Tail at hb hc hd
    unfold tailBits at hlow' ⊢
    rw [characterBytes, if_neg (by omega), if_neg (by omega), if_neg hlow', ofNat_of_toNat (a := a) (by omega),
      ofNat_of_toNat (a := b) (by omega), ofNat_of_toNat (a := c) (by omega), ofNat_of_toNat (a := d) (by omega)]

theorem toNat_ofNat {n : Nat} (h : n < 256) : (UInt8.ofNat n).toNat = n :=
  UInt8.toNat_ofNat_of_lt' h

theorem isSurrogate_eq_false {c : Nat} (h : c.isValidChar) : Text.isSurrogate c = false := by
  unfold Nat.isValidChar at h
  simp only [Text.isSurrogate, Bool.and_eq_false_iff, decide_eq_false_iff_not]
  omega

theorem spells_characterBytes {c : Nat} (h : c.isValidChar) : Spells c (characterBytes c) := by
  have hbound : c < 0x110000 := by
    unfold Nat.isValidChar at h
    omega
  have hlast : (UInt8.ofNat (0x80 + c % 64)).toNat = 0x80 + c % 64 := toNat_ofNat (by omega)
  have hmid : (UInt8.ofNat (0x80 + c / 64 % 64)).toNat = 0x80 + c / 64 % 64 := toNat_ofNat (by omega)
  have hbefore : (UInt8.ofNat (0x80 + c / 4096 % 64)).toNat = 0x80 + c / 4096 % 64 := toNat_ofNat (by omega)
  unfold characterBytes
  split
  · rename_i hone
    have ha : (UInt8.ofNat c).toNat = c := toNat_ofNat (by omega)
    have hspells := Spells.one (a := UInt8.ofNat c) (by omega)
    rwa [ha] at hspells
  split
  · have ha : (UInt8.ofNat (0xC0 + c / 64)).toNat = 0xC0 + c / 64 := toNat_ofNat (by omega)
    have hcode : (UInt8.ofNat (0xC0 + c / 64)).toNat % 32 * 64 + tailBits (UInt8.ofNat (0x80 + c % 64)) = c := by
      rw [tailBits, ha, hlast]
      omega
    have hspells := Spells.two (a := UInt8.ofNat (0xC0 + c / 64)) (b := UInt8.ofNat (0x80 + c % 64)) (by omega)
      ⟨by omega, by omega⟩
    rwa [hcode] at hspells
  split
  · have ha : (UInt8.ofNat (0xE0 + c / 4096)).toNat = 0xE0 + c / 4096 := toNat_ofNat (by omega)
    have hcode : (UInt8.ofNat (0xE0 + c / 4096)).toNat % 16 * 4096 + tailBits (UInt8.ofNat (0x80 + c / 64 % 64)) * 64 +
        tailBits (UInt8.ofNat (0x80 + c % 64)) = c := by
      rw [tailBits, tailBits, ha, hmid, hlast]
      omega
    have hspells := Spells.three (a := UInt8.ofNat (0xE0 + c / 4096)) (b := UInt8.ofNat (0x80 + c / 64 % 64))
      (c := UInt8.ofNat (0x80 + c % 64)) (by omega) ⟨by omega, by omega⟩ ⟨by omega, by omega⟩ (by omega)
      (by rw [hcode]; exact isSurrogate_eq_false h)
    rwa [hcode] at hspells
  · have ha : (UInt8.ofNat (0xF0 + c / 262144)).toNat = 0xF0 + c / 262144 := toNat_ofNat (by omega)
    have hcode : (UInt8.ofNat (0xF0 + c / 262144)).toNat % 8 * 262144 +
        tailBits (UInt8.ofNat (0x80 + c / 4096 % 64)) * 4096 + tailBits (UInt8.ofNat (0x80 + c / 64 % 64)) * 64 +
          tailBits (UInt8.ofNat (0x80 + c % 64)) = c := by
      rw [tailBits, tailBits, tailBits, ha, hbefore, hmid, hlast]
      omega
    have hspells := Spells.four (a := UInt8.ofNat (0xF0 + c / 262144)) (b := UInt8.ofNat (0x80 + c / 4096 % 64))
      (c := UInt8.ofNat (0x80 + c / 64 % 64)) (d := UInt8.ofNat (0x80 + c % 64)) (by omega) ⟨by omega, by omega⟩
      ⟨by omega, by omega⟩ ⟨by omega, by omega⟩ (by omega) (by omega)
    rwa [hcode] at hspells

/-! ## Reading a character -/

theorem Spells.character?_eq {c : Nat} {a : UInt8} {tail : Bytes} (h : Spells c (a :: tail)) (rest : Bytes) :
    character? a (tail ++ rest) = some (c, tail.length) := by
  cases h with
  | one ha => exact character?_of_lt ha rest
  | two ha hb =>
    simp only [List.cons_append, List.nil_append, character?, UInt8.lt_iff_toNat_lt, UInt8.le_iff_toNat_le,
      UInt8.reduceToNat, Bool.and_eq_true, decide_eq_true_eq, isTail_iff.2 hb, if_true]
    rw [if_neg (by omega), if_pos ha]
    rfl
  | three ha hb hc hlow hpair =>
    simp only [List.cons_append, List.nil_append, character?, UInt8.lt_iff_toNat_lt, UInt8.le_iff_toNat_le,
      UInt8.reduceToNat, Bool.and_eq_true, decide_eq_true_eq, isTail_iff.2 hb, isTail_iff.2 hc, hlow, hpair,
      Bool.not_false, and_self, if_true]
    rw [if_neg (by omega), if_neg (by omega), if_pos ha]
    rfl
  | four ha hb hc hd hlow hhigh =>
    simp only [List.cons_append, List.nil_append, character?, UInt8.lt_iff_toNat_lt, UInt8.le_iff_toNat_le,
      UInt8.reduceToNat, Bool.and_eq_true, decide_eq_true_eq, isTail_iff.2 hb, isTail_iff.2 hc, isTail_iff.2 hd, hlow,
      hhigh, and_self, if_true]
    rw [if_neg (by omega), if_neg (by omega), if_neg (by omega), if_pos ha]
    rfl

theorem spells_of_character? {a : UInt8} {rest : Bytes} {c skip : Nat} (h : character? a rest = some (c, skip)) :
    ∃ tail more, rest = tail ++ more ∧ skip = tail.length ∧ Spells c (a :: tail) := by
  unfold character? at h
  split at h
  · rename_i ha
    cases h
    exact ⟨[], rest, rfl, rfl, .one (UInt8.lt_iff_toNat_lt.1 ha)⟩
  split at h
  · rename_i ha
    simp only [Bool.and_eq_true, decide_eq_true_eq, UInt8.le_iff_toNat_le, UInt8.reduceToNat] at ha
    split at h
    · rename_i b more
      split at h
      · rename_i hb
        cases h
        exact ⟨[b], more, rfl, rfl, .two ha (isTail_iff.1 hb)⟩
      · cases h
    · cases h
  split at h
  · rename_i ha
    simp only [Bool.and_eq_true, decide_eq_true_eq, UInt8.le_iff_toNat_le, UInt8.reduceToNat] at ha
    split at h
    · rename_i b c more
      dsimp only at h
      split at h
      · rename_i hcode
        simp only [Bool.and_eq_true, decide_eq_true_eq, Bool.not_eq_true', isTail_iff] at hcode
        obtain ⟨⟨⟨hb, hc⟩, hlow⟩, hpair⟩ := hcode
        cases h
        exact ⟨[b, c], more, rfl, rfl, .three ha hb hc hlow hpair⟩
      · cases h
    · cases h
  split at h
  · rename_i ha
    simp only [Bool.and_eq_true, decide_eq_true_eq, UInt8.le_iff_toNat_le, UInt8.reduceToNat] at ha
    split at h
    · rename_i b c d more
      dsimp only at h
      split at h
      · rename_i hcode
        simp only [Bool.and_eq_true, decide_eq_true_eq, isTail_iff] at hcode
        obtain ⟨⟨⟨⟨hb, hc⟩, hd⟩, hlow⟩, hhigh⟩ := hcode
        cases h
        exact ⟨[b, c, d], more, rfl, rfl, .four ha hb hc hd hlow hhigh⟩
      · cases h
    · cases h
  · cases h

/-! ## Texts -/

theorem decodeFrom_skip (other : UInt8 → Except Fault Nat) (tail rest : Bytes) :
    decodeFrom other tail.length (tail ++ rest) = decodeFrom other 0 rest := by
  induction tail with
  | nil => rfl
  | cons b tail ih => exact ih

/-- **A text of characters is read back from its bytes.** -/
theorem decodeFrom_characters (other : UInt8 → Except Fault Nat) {t : Text} (h : ∀ c ∈ t, c.isValidChar) :
    decodeFrom other 0 (t.flatMap characterBytes) = .ok t := by
  induction t with
  | nil => rfl
  | cons c t ih =>
    obtain ⟨hc, ht⟩ := List.forall_mem_cons.1 h
    have hspells := spells_characterBytes hc
    rw [List.flatMap_cons]
    cases hbytes : characterBytes c with
    | nil =>
      rw [hbytes] at hspells
      cases hspells
    | cons a tail =>
      rw [hbytes] at hspells
      rw [List.cons_append, decodeFrom, hspells.character?_eq]
      dsimp only
      rw [decodeFrom_skip, ih ht]
      rfl

theorem decode_characters {t : Text} (h : ∀ c ∈ t, c.isValidChar) : decode (t.flatMap characterBytes) = .ok t :=
  decodeFrom_characters _ h

theorem encode_characters {t : Text} (h : ∀ c ∈ t, c.isValidChar) : encode t = .ok (t.flatMap characterBytes) := by
  unfold encode
  induction t with
  | nil => rfl
  | cons c t ih =>
    obtain ⟨hc, ht⟩ := List.forall_mem_cons.1 h
    rw [encodeWith, ih ht, isSurrogate_eq_false hc]
    rfl

/-- **What was read is written as it was**, if escapes are turned back into their bytes. -/
theorem encodeWith_of_decodeFrom {other : UInt8 → Except Fault Nat} {back : Nat → Except Fault Bytes}
    (hback : ∀ a c, 0x80 ≤ a.toNat → other a = .ok c → Text.isSurrogate c = true ∧ back c = .ok [a]) {skip : Nat}
    {bs : Bytes} {t : Text} (h : decodeFrom other skip bs = .ok t) : encodeWith back t = .ok (bs.drop skip) := by
  induction bs generalizing skip t with
  | nil =>
    cases h
    rw [List.drop_nil]
    rfl
  | cons a rest ih =>
    cases skip with
    | succ skip => exact ih h
    | zero =>
      rw [decodeFrom] at h
      cases hchar : character? a rest with
      | some p =>
        obtain ⟨c, skip⟩ := p
        rw [hchar] at h
        obtain ⟨more, hmore, h⟩ := bind_eq_ok.1 h
        cases h
        obtain ⟨tail, after, rfl, rfl, hspells⟩ := spells_of_character? hchar
        rw [encodeWith, isSurrogate_eq_false (character?_eq_some hchar).1, ih hmore, List.drop_left,
          hspells.characterBytes_eq]
        rfl
      | none =>
        rw [hchar] at h
        obtain ⟨c, hc, h⟩ := bind_eq_ok.1 h
        obtain ⟨more, hmore, h⟩ := bind_eq_ok.1 h
        cases h
        have ha : 0x80 ≤ a.toNat := by
          refine Nat.le_of_not_lt fun hlow => ?_
          rw [character?_of_lt hlow] at hchar
          cases hchar
        obtain ⟨hescape, hbyte⟩ := hback a c ha hc
        rw [encodeWith, if_pos hescape, hbyte, ih hmore]
        rfl

theorem encode_of_decode {bs : Bytes} {t : Text} (h : decode bs = .ok t) : encode t = .ok bs := by
  refine encodeWith_of_decodeFrom (fun a c _ hfault => ?_) h
  cases hfault

theorem encodeEscaped_of_decodeEscaped {bs : Bytes} {t : Text} (h : decodeEscaped bs = .ok t) :
    encodeEscaped t = .ok bs := by
  refine encodeWith_of_decodeFrom (fun a c ha hc => ?_) h
  cases hc
  have hlt := a.toNat_lt
  refine ⟨?_, ?_⟩
  · simp only [Text.isSurrogate, Bool.and_eq_true, decide_eq_true_eq]
    omega
  · have hbyte : (decide (0xDC80 ≤ 0xDC00 + a.toNat) && decide (0xDC00 + a.toNat ≤ 0xDCFF)) = true := by
      simp only [Bool.and_eq_true, decide_eq_true_eq]
      omega
    rw [if_pos hbyte, Nat.add_sub_cancel_left, UInt8.ofNat_toNat]

end AdventureKit.Utf8
