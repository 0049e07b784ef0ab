import AdventureKit.Proofs.Bytes
import AdventureKit.Proofs.Lzss.Search

/-!
# A look into the window takes the longest part, and of several the first

The bytes that are searched are the cells with the first of them once more behind the last (`template`), so that a
part may stand in them twice.  A part is acceptable if the next bytes stand there and the write cursor does not lie
in it.  The packer takes the longest acceptable part, and of several the first (`Greedy`).  Where that one starts
behind the last cell it is refused; the same bytes then stand in the first cells too, where the cursor lies in them
(`lookUp_greedy`).
-/

namespace AdventureKit.Lzss

/-- The bytes that are searched: the cells, and the first of them once more. -/
def template (cells : Array UInt8) : Bytes :=
  cells.toList.take 4096 ++ cells.toList.take 18

/-- The next `count` bytes stand in the template from `place` on. -/
def Stands (cells : Array UInt8) (ahead : Bytes) (place count : Nat) : Prop :=
  (template cells).slice place (place + count) = ahead.take count

/-- The cursor lies in a part behind its first byte. -/
def Straddles (cursor place count : Nat) : Prop :=
  place < cursor ∧ cursor ≤ place + count - 1

instance (cursor place count : Nat) : Decidable (Straddles cursor place count) :=
  inferInstanceAs (Decidable (_ ∧ _))

/-- A part that a copy may take, of at least three bytes and no more than are left. -/
structure Acceptable (cells : Array UInt8) (cursor : Nat) (left : Int) (ahead : Bytes) (place count : Nat) :
    Prop where
  three_le : 3 ≤ count
  count_le : (count : Int) ≤ min 18 left
  stands : Stands cells ahead place count
  clear : ¬ Straddles cursor place count

/-- The first of the longest acceptable parts. -/
structure Greedy (cells : Array UInt8) (cursor : Nat) (left : Int) (ahead : Bytes) (m : Match) : Prop where
  acceptable : Acceptable cells cursor left ahead m.place m.length
  longest : ∀ place count, Acceptable cells cursor left ahead place count → count ≤ m.length
  leftmost : ∀ place, Acceptable cells cursor left ahead place m.length → m.place ≤ place

variable {cells : Array UInt8} {cursor : Nat} {left : Int} {ahead : Bytes}

/-! ### The template -/

theorem toList_ring (cells : Array UInt8) :
    (cells.extract 0 4096 ++ cells.extract 0 maxCopy).toList = template cells := by
  simp [template, maxCopy, List.extract_eq_take_drop]

theorem stands_iff {place count : Nat} :
    Stands cells ahead place count ↔
      ∀ i < count, (cells.extract 0 4096 ++ cells.extract 0 maxCopy)[place + i]? = ahead[i]? := by
  rw [Stands, Bytes.slice, Nat.add_sub_cancel_left, ← toList_ring]
  constructor
  · intro h i hi
    have hbyte := congrArg (fun bs : Bytes => bs[i]?) h
    simpa only [List.getElem?_take_of_lt hi, List.getElem?_drop, Array.getElem?_toList] using hbyte
  · intro h
    refine List.ext_getElem? fun i => ?_
    by_cases hi : i < count
    · rw [List.getElem?_take_of_lt hi, List.getElem?_take_of_lt hi, List.getElem?_drop, Array.getElem?_toList, h i hi]
    · rw [List.getElem?_eq_none (by rw [List.length_take]; omega),
        List.getElem?_eq_none (by rw [List.length_take]; omega)]

theorem length_template (h : 4096 ≤ cells.size) : (template cells).length = 4096 + 18 := by
  rw [template, List.length_append, List.length_take_of_le h, List.length_take_of_le (by
    rw [Array.length_toList]
    omega)]

/-- A part that is there does not go beyond the template. -/
theorem Stands.inside {place count : Nat} (h : Stands cells ahead place count) (hcount : count ≤ ahead.length)
    (hpos : 0 < count) : place + count ≤ (template cells).length := by
  have hlength := congrArg List.length h
  rw [Bytes.slice, List.length_take, List.length_drop, List.length_take] at hlength
  omega

/-- What stands behind the last cell stands in the first cells too. -/
theorem Stands.wrap {place count : Nat} (hcells : 4096 ≤ cells.size) (h : Stands cells ahead (4096 + place) count)
    (hcount : count ≤ ahead.length) (hpos : 0 < count) : Stands cells ahead place count := by
  have hinside := h.inside hcount hpos
  rw [length_template hcells] at hinside
  have hfirst : (cells.toList.take 4096).length = 4096 := List.length_take_of_le hcells
  have hbehind : (template cells).slice (4096 + place) (4096 + place + count) =
      Bytes.slice place (place + count) (cells.toList.take 18) := by
    have hslice := Bytes.slice_behind (cells.toList.take 4096) (cells.toList.take 18) place (place + count)
    rwa [hfirst, ← Nat.add_assoc] at hslice
  have hfront : (template cells).slice place (place + count) =
      Bytes.slice place (place + count) (cells.toList.take 18) := by
    have hsplit : template cells =
        cells.toList.take 18 ++ ((cells.toList.drop 18).take (4096 - 18) ++ cells.toList.take 18) := by
      rw [template, ← List.append_assoc, ← List.take_add]
    rw [hsplit, Bytes.slice_append]
    rw [List.length_take, Array.length_toList]
    omega
  rw [Stands, hfront, ← hbehind]
  exact h

/-! ### The search -/

/-- The length that the search gives a place is that of the longest acceptable part there. -/
theorem le_lengthAt_iff_acceptable (hleft : left ≤ ahead.length) {place count : Nat} (hthree : 3 ≤ count) :
    count ≤ lengthAt (cells.extract 0 4096 ++ cells.extract 0 maxCopy) (min maxCopy left.toNat) cursor ahead place ↔
      Acceptable cells cursor left ahead place count := by
  have hclear : (place < cursor → place + count ≤ cursor) ↔ ¬ Straddles cursor place count := by
    unfold Straddles
    omega
  have hlimit : count ≤ min maxCopy left.toNat ↔ (count : Int) ≤ min 18 left := by
    unfold maxCopy
    omega
  rw [le_lengthAt_iff_of_le (by omega), ← stands_iff, hclear, hlimit]
  exact ⟨fun ⟨⟨h1, h2⟩, h3⟩ => ⟨hthree, h1, h2, h3⟩, fun h => ⟨⟨h.count_le, h.stands⟩, h.clear⟩⟩

theorem Acceptable.count_le_length {place count : Nat} (h : Acceptable cells cursor left ahead place count)
    (hleft : left ≤ ahead.length) : count ≤ ahead.length := by
  have hcount := h.count_le
  omega

/-- All acceptable parts start at places that are searched. -/
theorem Acceptable.place_lt {place count : Nat} (h : Acceptable cells cursor left ahead place count)
    (hleft : left ≤ ahead.length) : place < 0 + ((cells.extract 0 4096 ++ cells.extract 0 maxCopy).size + 1) := by
  have hthree := h.three_le
  have hinside := h.stands.inside (h.count_le_length hleft) (by omega)
  rw [← toList_ring, Array.length_toList] at hinside
  omega

/-- What a look gives where there are bytes enough. -/
theorem lookUp_cases (hleft : left ≤ ahead.length) (hthree : 3 ≤ left) :
    ((∀ place count, ¬ Acceptable cells cursor left ahead place count) ∧
      lookUp cells cursor left ahead = .ok .nothing) ∨
    ∃ m, Greedy cells cursor left ahead m ∧ lookUp cells cursor left ahead =
      if m.place < 4096 then .ok (.part m) else .error (.disagreement .matchPosition) := by
  have hiff {place count : Nat} (hcount : 3 ≤ count) :=
    @le_lengthAt_iff_acceptable cells cursor left ahead hleft place count hcount
  have hplace {place count : Nat} (h : Acceptable cells cursor left ahead place count) := h.place_lt hleft
  rw [lookUp, if_neg (by omega)]
  generalize cells.extract 0 4096 ++ cells.extract 0 maxCopy = ring at hiff hplace ⊢
  dsimp only
  obtain ⟨hbest, hall⟩ | ⟨p, -, -, hbest, hlt, hfirst, hmax⟩ :=
    longestFrom_cases ring (min maxCopy left.toNat) cursor ahead ⟨0, 2⟩ 0 (ring.size + 1)
  · left
    refine ⟨fun place count h => ?_, by rw [hbest]; rfl⟩
    have hlong := (hiff h.three_le).2 h
    have hshort := hall place (Nat.zero_le _) (hplace h)
    have hcount := h.three_le
    simp only at hshort
    omega
  · right
    refine ⟨⟨p, lengthAt ring (min maxCopy left.toNat) cursor ahead p⟩,
      ⟨(hiff hlt).1 (Nat.le_refl _), fun place count h => ?_, fun place h => ?_⟩, ?_⟩
    · exact Nat.le_trans ((hiff h.three_le).2 h) (hmax place (Nat.zero_le _) (hplace h))
    · refine Nat.le_of_not_lt fun hless => ?_
      have hlong := (hiff h.three_le).2 h
      exact absurd (hfirst place (Nat.zero_le _) hless) (Nat.not_lt_of_le hlong)
    · rw [hbest]
      exact if_neg (Nat.not_lt_of_le hlt)

/-- **A look into the window is greedy and takes the leftmost part.**  It is not made exactly if fewer than three
bytes are left.  Otherwise it gives nothing where no part is acceptable, and else the first of the longest acceptable
parts.  That part is refused if it starts behind the last cell, which happens only if the same bytes stand in the first
cells too and the cursor lies in them. -/
theorem lookUp_greedy (hcells : 4096 ≤ cells.size) (hleft : left ≤ ahead.length) :
    (lookUp cells cursor left ahead = .ok .tooFew ↔ left < 3) ∧
    (3 ≤ left →
      ((∀ place count, ¬ Acceptable cells cursor left ahead place count) ∧
        lookUp cells cursor left ahead = .ok .nothing) ∨
      ∃ m, Greedy cells cursor left ahead m ∧
        (m.place < 4096 ∧ lookUp cells cursor left ahead = .ok (.part m) ∨
          4096 ≤ m.place ∧ lookUp cells cursor left ahead = .error (.disagreement .matchPosition) ∧
            Stands cells ahead (m.place - 4096) m.length ∧ Straddles cursor (m.place - 4096) m.length)) := by
  constructor
  · constructor
    · intro h
      refine Int.not_le.1 fun hthree => ?_
      obtain ⟨-, hnothing⟩ | ⟨m, -, hpart⟩ := lookUp_cases hleft hthree
      · rw [hnothing] at h
        cases h
      · rw [hpart] at h
        split at h
        · cases h
        · cases h
    · exact fun hfew => if_pos hfew
  · intro hthree
    obtain hnothing | ⟨m, hm, hpart⟩ := lookUp_cases hleft hthree
    · exact .inl hnothing
    · refine .inr ⟨m, hm, ?_⟩
      by_cases hplace : m.place < 4096
      · exact .inl ⟨hplace, hpart.trans (if_pos hplace)⟩
      have hle := Nat.le_of_not_lt hplace
      have hpos := hm.acceptable.three_le
      have hstands : Stands cells ahead (m.place - 4096) m.length := by
        refine Stands.wrap hcells ?_ (hm.acceptable.count_le_length hleft) (by omega)
        rw [Nat.add_sub_cancel' hle]
        exact hm.acceptable.stands
      refine .inr ⟨hle, hpart.trans (if_neg hplace), hstands, ?_⟩
      -- else the part in the first cells would be acceptable and come first
      refine Classical.byContradiction fun hclear => ?_
      have hfirst := hm.leftmost (m.place - 4096) ⟨hpos, hm.acceptable.count_le, hstands, hclear⟩
      omega

/-- The letter `a` and then spaces. -/
def cutCells : Array UInt8 :=
  (97 :: List.replicate 4095 0x20).toArray

theorem template_cutCells :
    template cutCells = (97 :: List.replicate 4095 0x20) ++ (97 :: List.replicate 17 0x20) := by
  have hfirst : (97 :: List.replicate 4095 0x20 : Bytes).take (4095 + 1) = 97 :: List.replicate 4095 0x20 := by
    rw [List.take_succ_cons, List.take_replicate, Nat.min_self]
  have hagain : (97 :: List.replicate 4095 0x20 : Bytes).take (17 + 1) = 97 :: List.replicate 17 0x20 := by
    rw [List.take_succ_cons, List.take_replicate]
    rfl
  rw [template, cutCells, hfirst, hagain]

/-- With the cursor behind the letter, it stands before two spaces behind the last cell only, where it is refused. -/
theorem lookUp_greedy_cut :
    4096 ≤ cutCells.size ∧ (3 : Int) ≤ ([97, 0x20, 0x20] : Bytes).length ∧
    lookUp cutCells 1 3 [97, 0x20, 0x20] = .error (.disagreement .matchPosition) ∧
    Stands cutCells [97, 0x20, 0x20] 0 3 ∧ Straddles 1 0 3 := by
  have hfront : (97 :: List.replicate 4095 0x20 : Bytes).length = 4096 := by
    rw [List.length_cons, List.length_replicate]
  have hsize : 4096 ≤ cutCells.size := Nat.le_of_eq (by rw [cutCells, List.size_toArray, hfront])
  have hbehind : Stands cutCells [97, 0x20, 0x20] (4096 + 0) 3 := by
    have hslice := Bytes.slice_behind (97 :: List.replicate 4095 0x20) (97 :: List.replicate 17 0x20) 0 3
    rw [hfront] at hslice
    rw [Stands, template_cutCells]
    exact hslice
  have hlast : Acceptable cutCells 1 3 [97, 0x20, 0x20] 4096 3 :=
    ⟨Nat.le_refl 3, by decide, hbehind, by unfold Straddles; decide⟩
  refine ⟨hsize, Int.le_refl 3, ?_, hbehind.wrap hsize (Nat.le_refl 3) (by decide), by unfold Straddles; decide⟩
  obtain ⟨-, hlook⟩ := @lookUp_greedy cutCells 1 3 [97, 0x20, 0x20] hsize (Int.le_refl 3)
  obtain ⟨hnone, -⟩ | ⟨m, hm, ⟨hplace, -⟩ | ⟨-, hrefused, -⟩⟩ := hlook (Int.le_refl 3)
  · exact absurd hlast (hnone 4096 3)
  · -- only the first cell holds the letter, and the cursor lies in the part that starts there
    have hpos : 0 < m.length := Nat.lt_of_lt_of_le (by decide) hm.acceptable.three_le
    have hbyte := congrArg (fun bs : Bytes => bs[0]?) hm.acceptable.stands
    rw [Bytes.slice, Nat.add_sub_cancel_left, template_cutCells] at hbyte
    simp only [List.getElem?_take_of_lt hpos, List.getElem?_drop, Nat.add_zero] at hbyte
    rw [List.getElem?_append_left (by omega)] at hbyte
    cases hcell : m.place with
    | zero =>
      have hclear := hm.acceptable.clear
      have hthree := hm.acceptable.three_le
      rw [hcell, Straddles] at hclear
      omega
    | succ place =>
      rw [hcell, List.getElem?_cons_succ, List.getElem?_replicate_of_lt (by omega)] at hbyte
      exact absurd hbyte (by decide)
  · exact hrefused

end AdventureKit.Lzss
