import Mathlib.Algebra.Ring.Nat
import Mathlib.Data.List.Induction
import AdventureKit.Picture.Font

/-!
# Packed bits

Packing undoes the unpacking of bytes (`packBits_flatMap_bits`), and unpacking gives the packed bits with zeros up to the
next whole byte (`flatMap_bits_packBits`).  Rows that each end with spare zeros are packed to the same bytes as the rows
without them only if nothing is set below the first row (`flatten_append_eq_iff`).
-/

namespace AdventureKit.Font

/-- Every value is zero or one. -/
def IsBits (px : Bytes) : Prop :=
  ∀ v ∈ px, v = 0 ∨ v = 1

theorem IsBits.append {px px' : Bytes} (h : IsBits px) (h' : IsBits px') : IsBits (px ++ px') := by
  intro v hv
  rcases List.mem_append.1 hv with hv | hv
  · exact h v hv
  · exact h' v hv

theorem isBits_replicate_zero (n : Nat) : IsBits (List.replicate n 0) := by
  intro v hv
  exact .inl (List.eq_of_mem_replicate hv)

theorem isBits_bits (b : UInt8) : IsBits (bits b) := by
  intro v hv
  obtain ⟨i, -, rfl⟩ := List.mem_map.1 hv
  rcases Nat.mod_two_eq_zero_or_one (b.toNat >>> (7 - i)) with h | h
  · exact .inl (by rw [h]; rfl)
  · exact .inr (by rw [h]; rfl)

@[simp] theorem length_bits (b : UInt8) : (bits b).length = 8 := by
  simp [bits]

theorem length_flatMap_bits (bs : Bytes) : (bs.flatMap bits).length = 8 * bs.length := by
  induction bs with
  | nil => rfl
  | cons b bs ih =>
    rw [List.flatMap_cons, List.length_append, ih, length_bits, List.length_cons]
    omega

/-! ## One byte -/

/-- The number that bits write, highest first. -/
def value (px : Bytes) : Nat :=
  px.foldl (fun n v => 2 * n + if v = 1 then 1 else 0) 0

theorem value_append_singleton (px : Bytes) (v : UInt8) :
    value (px ++ [v]) = 2 * value px + if v = 1 then 1 else 0 := by
  rw [value, List.foldl_append]
  rfl

theorem value_lt (px : Bytes) : value px < 2 ^ px.length := by
  induction px using List.reverseRecOn with
  | nil => exact Nat.one_pos
  | append_singleton px v ih =>
    rw [value_append_singleton, List.length_append, List.length_singleton, Nat.pow_succ]
    split <;> omega

/-- The bits of a number are those that wrote it. -/
theorem map_value {px : Bytes} (h : IsBits px) :
    ((List.range px.length).map fun i => UInt8.ofNat (value px >>> (px.length - 1 - i) % 2)) = px := by
  induction px using List.reverseRecOn with
  | nil => rfl
  | append_singleton px v ih =>
    have hpx : IsBits px := fun u hu => h u (List.mem_append_left _ hu)
    have hshift : ∀ i < px.length, value (px ++ [v]) >>> (px.length + 1 - 1 - i) = value px >>> (px.length - 1 - i) := by
      intro i hi
      have hstep : px.length + 1 - 1 - i = 1 + (px.length - 1 - i) := by omega
      have hhalf : (2 * value px + if v = 1 then 1 else 0) / 2 = value px := by split <;> omega
      rw [hstep, Nat.shiftRight_add, value_append_singleton, Nat.shiftRight_one, hhalf]
    have hlast : UInt8.ofNat (value (px ++ [v]) >>> (px.length + 1 - 1 - px.length) % 2) = v := by
      rw [Nat.add_sub_cancel, Nat.sub_self, Nat.shiftRight_zero, value_append_singleton, Nat.mul_add_mod]
      rcases h v (List.mem_append_right _ List.mem_cons_self) with rfl | rfl
      · rfl
      · rfl
    rw [List.length_append, List.length_singleton, List.range_succ, List.map_append, List.map_singleton, hlast]
    refine congrArg (· ++ [v]) (Eq.trans (List.map_congr_left fun i hi => ?_) (ih hpx))
    rw [hshift i (List.mem_range.1 hi)]

theorem bits_value {px : Bytes} (h : IsBits px) (hlength : px.length = 8) : bits (UInt8.ofNat (value px)) = px := by
  have hlt : value px < 256 := by
    have := value_lt px
    rwa [hlength] at this
  have hmap := map_value h
  rw [hlength] at hmap
  rwa [bits, UInt8.toNat_ofNat_of_lt' hlt]

theorem value_bits (b : UInt8) : UInt8.ofNat (value (bits b)) = b := by
  have hall : ∀ n < 256, value (bits (UInt8.ofNat n)) = n := by decide +kernel
  have hb := hall b.toNat b.toNat_lt
  rw [UInt8.ofNat_toNat] at hb
  rw [hb, UInt8.ofNat_toNat]

/-! ## Packing -/

theorem packBits_cons (v : UInt8) (px : Bytes) :
    packBits (v :: px) =
      UInt8.ofNat (value (v :: px.take 7 ++ List.replicate (7 - px.length) 0)) :: packBits (px.drop 7) := by
  have hlength : ((v :: px.take 7).map fun v => if v = 1 then 1 else 0 : List Nat).length = 1 + min 7 px.length := by
    rw [List.length_map, List.length_cons, List.length_take]
    omega
  have hspare : ((8 : Int) - (1 + min 7 px.length : Nat)).toNat = 7 - px.length := by omega
  have hzeros : ∀ n k : Nat, (List.replicate k (0 : UInt8)).foldl (fun n v => 2 * n + if v = 1 then 1 else 0) n =
      (List.replicate k 0).foldl (fun n bit => 2 * n + bit) n := by
    intro n k
    induction k generalizing n with
    | zero => rfl
    | succ k ih => exact ih _
  rw [packBits, Sequence.fill?, hlength, if_pos (by omega), Option.getD_some, hspare, value, List.foldl_append,
    List.foldl_append, List.foldl_map, hzeros]

theorem packBits_bits_append (b : UInt8) (px : Bytes) : packBits (bits b ++ px) = b :: packBits px := by
  obtain ⟨v, low, hb⟩ := List.exists_cons_of_length_pos (Nat.lt_of_lt_of_eq (by decide : 0 < 8) (length_bits b).symm)
  have hlow : low.length = 7 := by
    have hlength := length_bits b
    rw [hb, List.length_cons] at hlength
    omega
  have hspare : 7 - (low ++ px).length = 0 := by
    rw [List.length_append]
    omega
  rw [hb, List.cons_append, packBits_cons, List.take_left' hlow, List.drop_left' hlow, hspare, List.replicate_zero,
    List.append_nil, ← hb, value_bits]

/-- **Packing undoes the unpacking of bytes.** -/
theorem packBits_flatMap_bits (bs : Bytes) : packBits (bs.flatMap bits) = bs := by
  induction bs with
  | nil => rw [List.flatMap_nil, packBits]
  | cons b bs ih => rw [List.flatMap_cons, packBits_bits_append, ih]

/-- **Unpacking gives the packed bits**, with zeros up to the next whole byte. -/
theorem flatMap_bits_packBits {px : Bytes} (h : IsBits px) :
    (packBits px).flatMap bits = px ++ List.replicate ((8 - px.length % 8) % 8) 0 := by
  induction px using packBits.induct with
  | case1 =>
    rw [packBits]
    rfl
  | case2 v px ih =>
    have hrest : IsBits (px.drop 7) := fun u hu => h u (List.mem_cons_of_mem _ (List.mem_of_mem_drop hu))
    have hgroup : IsBits (v :: px.take 7 ++ List.replicate (7 - px.length) 0) := by
      refine IsBits.append (fun u hu => h u ?_) (isBits_replicate_zero _)
      rcases List.mem_cons.1 hu with rfl | hu
      · exact List.mem_cons_self
      · exact List.mem_cons_of_mem _ (List.mem_of_mem_take hu)
    have hlength : (v :: px.take 7 ++ List.replicate (7 - px.length) 0).length = 8 := by
      simp only [List.length_append, List.length_cons, List.length_take, List.length_replicate]
      omega
    rw [packBits_cons, List.flatMap_cons, bits_value hgroup hlength, ih hrest, List.length_drop]
    by_cases hlong : 7 ≤ px.length
    · have hnone : 7 - px.length = 0 := by omega
      have hsame : (8 - (px.length - 7) % 8) % 8 = (8 - (v :: px).length % 8) % 8 := by
        rw [List.length_cons]
        omega
      rw [hnone, List.replicate_zero, List.append_nil, hsame, List.cons_append, List.cons_append, ← List.append_assoc,
        List.take_append_drop]
    · have hspare : 7 - px.length = (8 - (v :: px).length % 8) % 8 := by
        rw [List.length_cons]
        omega
      have hnone : (8 - (px.length - 7) % 8) % 8 = 0 := by omega
      rw [hnone, List.replicate_zero, List.append_nil, List.drop_of_length_le (by omega), List.append_nil,
        List.take_of_length_le (by omega), hspare]

theorem length_packBits {px : Bytes} (h : IsBits px) : (packBits px).length = (px.length + 7) / 8 := by
  have hlength := congrArg List.length (flatMap_bits_packBits h)
  rw [length_flatMap_bits, List.length_append, List.length_replicate] at hlength
  omega

theorem packBits_eq_iff {px : Bytes} (h : IsBits px) (bs : Bytes) :
    packBits px = bs ↔ px ++ List.replicate ((8 - px.length % 8) % 8) 0 = bs.flatMap bits := by
  rw [← flatMap_bits_packBits h]
  refine ⟨fun he => he ▸ rfl, fun he => ?_⟩
  rw [← packBits_flatMap_bits bs, ← he, packBits_flatMap_bits]

/-! ## Rows with spare bits -/

/-- A row that follows zeros and is where they were is blank. -/
theorem eq_replicate_of_shifted {k : Nat} (hk : 0 < k) {row rest rest' : Bytes}
    (h : List.replicate k 0 ++ (row ++ rest) = row ++ rest') : row = List.replicate row.length 0 := by
  induction row with
  | nil => rfl
  | cons v row ih =>
    obtain ⟨k, rfl⟩ := Nat.exists_eq_succ_of_ne_zero (Nat.ne_of_gt hk)
    rw [List.replicate_succ, List.cons_append, List.cons_append, List.cons_append, List.cons.injEq] at h
    obtain ⟨rfl, h⟩ := h
    have hshift : List.replicate k.succ (0 : UInt8) ++ (row ++ rest) = row ++ rest' := by
      rw [List.replicate_succ', List.append_assoc]
      exact h
    rw [List.length_cons, List.replicate_succ, ← ih hshift]

theorem zeros_append_comm {row : Bytes} (h : ∀ v ∈ row, v = 0) (k : Nat) :
    List.replicate k 0 ++ row = row ++ List.replicate k 0 := by
  rw [List.eq_replicate_iff.2 ⟨rfl, h⟩, List.replicate_append_replicate, List.replicate_append_replicate, Nat.add_comm]

theorem zeros_append_spared {row : Bytes} (h : ∀ v ∈ row, v = 0) (k d : Nat) (rest : Bytes) :
    List.replicate k 0 ++ (row ++ (List.replicate d 0 ++ rest)) = row ++ (List.replicate (k + d) 0 ++ rest) := by
  rw [← List.append_assoc, zeros_append_comm h, List.append_assoc, ← List.append_assoc _ _ rest,
    List.replicate_append_replicate]

theorem blank_of_shifted {k d m : Nat} (hk : 0 < k) {rows : List Bytes}
    (h : List.replicate k 0 ++ rows.flatMap (· ++ List.replicate d 0) = rows.flatten ++ List.replicate m 0) :
    ∀ row ∈ rows, ∀ v ∈ row, v = 0 := by
  induction rows generalizing k with
  | nil => exact fun _ hrow => nomatch hrow
  | cons row rows ih =>
    rw [List.flatMap_cons, List.flatten_cons, List.append_assoc, List.append_assoc] at h
    have hrow : ∀ v ∈ row, v = 0 := (List.eq_replicate_iff.1 (eq_replicate_of_shifted hk h)).2
    rw [zeros_append_spared hrow] at h
    exact List.forall_mem_cons.2 ⟨hrow, ih (Nat.add_pos_left hk d) (List.append_cancel_left h)⟩

theorem zeros_append_flatMap {rows : List Bytes} (h : ∀ row ∈ rows, ∀ v ∈ row, v = 0) (k d : Nat) :
    List.replicate k 0 ++ rows.flatMap (· ++ List.replicate d 0) =
      rows.flatten ++ List.replicate (k + d * rows.length) 0 := by
  induction rows generalizing k with
  | nil => exact List.append_nil _
  | cons row rows ih =>
    obtain ⟨hrow, hrows⟩ := List.forall_mem_cons.1 h
    rw [List.flatMap_cons, List.append_assoc, zeros_append_spared hrow, ih hrows, List.flatten_cons, List.append_assoc,
      List.length_cons, Nat.mul_succ, Nat.add_assoc, Nat.add_comm d]

/-- **Spare bits after each row and after all rows** are the same bits only if there are none, or if there is nothing
below the first row. -/
theorem flatten_append_eq_iff {d m : Nat} {first : Bytes} {rows : List Bytes} :
    (first :: rows).flatten ++ List.replicate m 0 = (first :: rows).flatMap (· ++ List.replicate d 0) ↔
      m = d * (rows.length + 1) ∧ (d = 0 ∨ ∀ row ∈ rows, ∀ v ∈ row, v = 0) := by
  have hlength : ∀ rows : List Bytes, (rows.flatMap (· ++ List.replicate d 0)).length =
      rows.flatten.length + d * rows.length := by
    intro rows
    induction rows with
    | nil => rfl
    | cons row rows ih =>
      rw [List.flatMap_cons, List.length_append, ih, List.length_append, List.length_replicate, List.flatten_cons,
        List.length_append, List.length_cons, Nat.mul_succ]
      omega
  constructor
  · intro h
    refine ⟨?_, ?_⟩
    · have hsame := congrArg List.length h
      rw [hlength, List.length_append, List.length_replicate] at hsame
      exact Nat.add_left_cancel hsame
    · by_cases hd : d = 0
      · exact .inl hd
      · rw [List.flatMap_cons, List.flatten_cons, List.append_assoc, List.append_assoc] at h
        exact .inr (blank_of_shifted (Nat.pos_of_ne_zero hd) (List.append_cancel_left h).symm)
  · rintro ⟨rfl, rfl | hblank⟩
    · rw [Nat.zero_mul, List.replicate_zero, List.append_nil]
      simp
    · rw [List.flatMap_cons, List.flatten_cons, List.append_assoc, List.append_assoc, zeros_append_flatMap hblank,
        Nat.mul_succ, Nat.add_comm d]

end AdventureKit.Font
