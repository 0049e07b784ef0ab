import AdventureKit.Proofs.Bytes
import AdventureKit.Proofs.Fault
import AdventureKit.Text.Utf8

/-!
# Strings as UTF-8

ASCII strings are read again from their bytes.  And whatever bytes a string was read from, it has at most
as many characters, and none of them is zero if no byte is.
-/

namespace AdventureKit.Utf8

/-! ### ASCII -/

theorem character?_of_lt {a : UInt8} (h : a.toNat < 128) (rest : Bytes) : character? a rest = some (a.toNat, 0) := by
  have ha : a < 0x80 := UInt8.lt_iff_toNat_lt.2 h
  unfold character?
  exact if_pos ha

theorem decode_ofAscii {s : String} (h : ∀ c ∈ s.toList, c.toNat < 128) :
    decode (Bytes.ofAscii s) = .ok (s.toList.map Char.toNat) := by
  rw [decode, Bytes.ofAscii]
  generalize s.toList = cs at h
  induction cs with
  | nil => rfl
  | cons c cs ih =>
    have hbyte := Bytes.toNat_asciiByte (h c List.mem_cons_self)
    rw [List.map_cons, decodeFrom, character?_of_lt (by rw [hbyte]; exact h c List.mem_cons_self)]
    simp only [hbyte, ih fun c hc => h c (List.mem_cons_of_mem _ hc)]
    rfl

theorem decodeString_ofAscii {s : String} (h : ∀ c ∈ s.toList, c.toNat < 128) :
    decodeString (Bytes.ofAscii s) = .ok s := by
  have hchars : (s.toList.map Char.toNat).map Char.ofNat = s.toList := by
    rw [List.map_map]
    exact (List.map_congr_left fun c _ => Char.ofNat_toNat c).trans (List.map_id _)
  rw [decodeString, decode_ofAscii h]
  show Except.ok (String.ofList ((s.toList.map Char.toNat).map Char.ofNat)) = _
  rw [hchars, String.ofList_toList]

/-! ### What can be read -/

theorem tailBits_lt (b : UInt8) : tailBits b < 64 :=
  Nat.mod_lt _ (by decide)

/-- A character is its only byte, or it is beyond ASCII. -/
theorem character?_eq_some {a : UInt8} {rest : Bytes} {code skip : Nat} (h : character? a rest = some (code, skip)) :
    code.isValidChar ∧ (code = a.toNat ∨ 128 ≤ code) := by
  unfold character? at h
  split at h
  · rename_i ha
    rw [UInt8.lt_iff_toNat_lt] at ha
    cases h
    exact ⟨.inl (Nat.lt_trans ha (by decide)), .inl rfl⟩
  split at h
  · rename_i ha
    simp only [Bool.and_eq_true, decide_eq_true_eq, UInt8.le_iff_toNat_le, UInt8.reduceToNat] at ha
    split at h
    · rename_i b _
      split at h
      · cases h
        have hb := tailBits_lt b
        exact ⟨.inl (by omega), .inr (by omega)⟩
      · cases h
    · cases h
  split at h
  · split at h
    · rename_i b c _
      dsimp only at h
      split at h
      · rename_i hcode
        simp only [Bool.and_eq_true, decide_eq_true_eq, Bool.not_eq_true', Text.isSurrogate,
          Bool.and_eq_false_iff, decide_eq_false_iff_not] at hcode
        cases h
        have hb := tailBits_lt b
        have hc := tailBits_lt c
        refine ⟨?_, .inr (by omega)⟩
        rw [Nat.isValidChar]
        omega
      · cases h
    · cases h
  split at h
  · split at h
    · dsimp only at h
      split at h
      · rename_i hcode
        simp only [Bool.and_eq_true, decide_eq_true_eq] at hcode
        cases h
        exact ⟨.inr (by omega), .inr (by omega)⟩
      · cases h
    · cases h
  · cases h

/-- What is known of a text that was read. -/
theorem decode_eq_ok {bs : Bytes} {t : Text} (h : decode bs = .ok t) :
    t.length ≤ bs.length ∧ ∀ c ∈ t, c.isValidChar ∧ ((∃ b ∈ bs, c = b.toNat) ∨ 128 ≤ c) := by
  rw [decode] at h
  generalize 0 = skip at h
  induction bs generalizing skip t with
  | nil =>
    cases h
    simp
  | cons a rest ih =>
    cases skip with
    | succ skip =>
      obtain ⟨hlen, hall⟩ := ih skip h
      refine ⟨Nat.le_succ_of_le hlen, fun c hc => ⟨(hall c hc).1, (hall c hc).2.imp_left ?_⟩⟩
      rintro ⟨b, hb, rfl⟩
      exact ⟨b, List.mem_cons_of_mem a hb, rfl⟩
    | zero =>
      rw [decodeFrom] at h
      cases hchar : character? a rest with
      | none =>
        rw [hchar] at h
        cases h
      | some p =>
        obtain ⟨code, skip⟩ := p
        rw [hchar] at h
        obtain ⟨more, hmore, h⟩ := bind_eq_ok.1 h
        cases h
        obtain ⟨hlen, hall⟩ := ih skip hmore
        refine ⟨Nat.succ_le_succ hlen, ?_⟩
        intro c hc
        rcases List.mem_cons.1 hc with rfl | hc
        · obtain ⟨hvalid, hcode⟩ := character?_eq_some hchar
          exact ⟨hvalid, hcode.imp_left fun hc => ⟨a, List.mem_cons_self, hc⟩⟩
        · refine ⟨(hall c hc).1, (hall c hc).2.imp_left ?_⟩
          rintro ⟨b, hb, rfl⟩
          exact ⟨b, List.mem_cons_of_mem a hb, rfl⟩

theorem decodeString_eq_ok {bs : Bytes} {s : String} (h : decodeString bs = .ok s) :
    s.length ≤ bs.length ∧ (0 ∉ bs → ∀ c ∈ s.toList, c.toNat ≠ 0) := by
  obtain ⟨t, ht, h⟩ := bind_eq_ok.1 h
  cases h
  obtain ⟨hlen, hall⟩ := decode_eq_ok ht
  refine ⟨by rwa [String.length_ofList, List.length_map], fun hzero c hc => ?_⟩
  rw [String.toList_ofList] at hc
  obtain ⟨n, hn, rfl⟩ := List.mem_map.1 hc
  obtain ⟨hvalid, hcode⟩ := hall n hn
  have htoNat : (Char.ofNat n).toNat = n := by
    rw [Char.ofNat, dif_pos hvalid]
    rfl
  rw [htoNat]
  rcases hcode with ⟨b, hb, rfl⟩ | hcode
  · intro h0
    have hb0 : b = 0 := UInt8.toNat_inj.1 h0
    exact hzero (hb0 ▸ hb)
  · omega

end AdventureKit.Utf8
