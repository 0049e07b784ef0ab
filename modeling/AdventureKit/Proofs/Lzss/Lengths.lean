import AdventureKit.Proofs.Lzss.Greedy

/-!
# The search by lengths

The packer goes through the places of the window once and keeps the best part so far.  The part that it ends with is
also found length by length: from the greatest length down, the next bytes are looked for in the template from its
start on, and once more behind each place where the cursor lies in them (`findClear`).  Both searches give the same
finding, also where fewer bytes follow than are said to be left (`lookUp_eq_lookUpDown`).
-/

namespace AdventureKit.Lzss

/-! ### Places of a pattern -/

/-- The first place from `start` on where a pattern stands in the bytes. -/
def findFrom (bytes pattern : Bytes) (start : Nat) : Option Nat :=
  (List.range' start (bytes.length + 1 - start)).find? fun place => pattern.isPrefixOf (bytes.drop place)

/-- The pattern stands at a place, and the cursor does not lie in the part of `length` bytes there. -/
structure Fits (bytes pattern : Bytes) (cursor length place : Nat) : Prop where
  place_le : place ≤ bytes.length
  stands : pattern <+: bytes.drop place
  clear : ¬ Straddles cursor place length

variable {bytes pattern ahead : Bytes} {cursor length start place : Nat}

theorem findFrom_eq_some_iff :
    findFrom bytes pattern start = some place ↔
      (start ≤ place ∧ place ≤ bytes.length) ∧ pattern <+: bytes.drop place ∧
        ∀ p, start ≤ p → p < place → ¬ pattern <+: bytes.drop p := by
  have hmem : place ∈ List.range' start (bytes.length + 1 - start) ↔ start ≤ place ∧ place ≤ bytes.length := by
    rw [List.mem_range'_1]
    omega
  rw [findFrom, List.find?_range'_eq_some, hmem, List.isPrefixOf_iff_prefix]
  simp only [Bool.not_eq_true', ← Bool.not_eq_true, List.isPrefixOf_iff_prefix]
  exact and_left_comm

theorem findFrom_eq_none_iff :
    findFrom bytes pattern start = none ↔
      ∀ p, start ≤ p → p ≤ bytes.length → ¬ pattern <+: bytes.drop p := by
  rw [findFrom, List.find?_eq_none]
  simp only [List.mem_range'_1, List.isPrefixOf_iff_prefix]
  exact ⟨fun h p h1 h2 => h p (by omega), fun h p hp => h p hp.1 (by omega)⟩

/-- Looks for the pattern from `start` on, and behind each place where the cursor lies in the part. -/
def findClear (bytes pattern : Bytes) (cursor length start : Nat) : Option Nat :=
  match h : findFrom bytes pattern start with
  | none => none
  | some place =>
    if Straddles cursor place length then findClear bytes pattern cursor length (place + 1) else some place
termination_by bytes.length + 1 - start
decreasing_by
  have hplace := (findFrom_eq_some_iff.1 h).1
  omega

/-- The search ends at the first place that fits, if there is one. -/
theorem findClear_cases (bytes pattern : Bytes) (cursor length start : Nat) :
    (findClear bytes pattern cursor length start = none ∧
      ∀ p, start ≤ p → ¬ Fits bytes pattern cursor length p) ∨
    ∃ place, findClear bytes pattern cursor length start = some place ∧ Fits bytes pattern cursor length place ∧
      ∀ p, start ≤ p → p < place → ¬ Fits bytes pattern cursor length p := by
  fun_induction findClear bytes pattern cursor length start with
  | case1 start h => exact .inl ⟨rfl, fun p hp hfits => findFrom_eq_none_iff.1 h p hp hfits.place_le hfits.stands⟩
  | case2 start place h hcut ih =>
    obtain ⟨-, -, hbefore⟩ := findFrom_eq_some_iff.1 h
    -- nothing stands before the place, and the cursor lies in what stands there
    have hskip {p : Nat} (hstart : start ≤ p) (hp : p < place + 1) : ¬ Fits bytes pattern cursor length p := by
      intro hfits
      obtain hlt | rfl := Nat.lt_succ_iff_lt_or_eq.1 hp
      · exact hbefore p hstart hlt hfits.stands
      · exact hfits.clear hcut
    obtain ⟨hnone, hall⟩ | ⟨found, hsome, hfits, hall⟩ := ih
    · refine .inl ⟨hnone, fun p hp => ?_⟩
      by_cases hlt : p < place + 1
      · exact hskip hp hlt
      · exact hall p (Nat.le_of_not_lt hlt)
    · refine .inr ⟨found, hsome, hfits, fun p hp hfound => ?_⟩
      by_cases hlt : p < place + 1
      · exact hskip hp hlt
      · exact hall p (Nat.le_of_not_lt hlt) hfound
  | case3 start place h hclear =>
    obtain ⟨hplace, hstands, hbefore⟩ := findFrom_eq_some_iff.1 h
    exact .inr ⟨place, rfl, ⟨hplace.2, hstands, hclear⟩, fun p hp hlt hfits => hbefore p hp hlt hfits.stands⟩

/-! ### Down the lengths -/

/-- The part that fits with the greatest length from `length` down to three, and of several the first. -/
def longestDown (bytes ahead : Bytes) (cursor : Nat) : (length : Nat) → Option Match
  | length + 3 =>
    match findClear bytes (ahead.take (length + 3)) cursor (length + 3) 0 with
    | some place => some ⟨place, length + 3⟩
    | none => longestDown bytes ahead cursor (length + 2)
  | _ => none

/-- Looks for the next bytes in the cells length by length. -/
def lookUpDown (cells : Array UInt8) (cursor : Nat) (left : Int) (ahead : Bytes) : Except Fault Finding :=
  if left < 3 then .ok .tooFew
  else
    match longestDown (template cells) ahead cursor (min maxCopy left.toNat) with
    | none => .ok .nothing
    | some m => if m.place < 4096 then .ok (.part m) else .error (.disagreement .matchPosition)

/-- Of the parts that fit with a length from three to `limit`, the first of the longest. -/
structure Best (bytes ahead : Bytes) (cursor limit : Nat) (m : Match) : Prop where
  three_le : 3 ≤ m.length
  length_le : m.length ≤ limit
  fits : Fits bytes (ahead.take m.length) cursor m.length m.place
  longest : ∀ k p, k ≤ limit → Fits bytes (ahead.take k) cursor k p → k ≤ m.length
  first : ∀ p, Fits bytes (ahead.take m.length) cursor m.length p → m.place ≤ p

theorem Best.unique {limit : Nat} {m m' : Match} (h : Best bytes ahead cursor limit m)
    (h' : Best bytes ahead cursor limit m') : m = m' := by
  obtain ⟨place, length⟩ := m
  obtain ⟨place', length'⟩ := m'
  obtain rfl : length = length' :=
    Nat.le_antisymm (h'.longest length place h.length_le h.fits) (h.longest length' place' h'.length_le h'.fits)
  obtain rfl : place = place' := Nat.le_antisymm (h.first place' h'.fits) (h'.first place h.fits)
  rfl

theorem longestDown_cases (bytes ahead : Bytes) (cursor length : Nat) :
    (longestDown bytes ahead cursor length = none ∧
      ∀ k p, 3 ≤ k → k ≤ length → ¬ Fits bytes (ahead.take k) cursor k p) ∨
    ∃ m, longestDown bytes ahead cursor length = some m ∧ Best bytes ahead cursor length m := by
  fun_induction longestDown bytes ahead cursor length with
  | case1 length place hfind =>
    obtain ⟨hnone, -⟩ | ⟨found, hsome, hfits, hfirst⟩ :=
      findClear_cases bytes (ahead.take (length + 3)) cursor (length + 3) 0
    · rw [hfind] at hnone
      cases hnone
    · obtain rfl := Option.some.inj (hfind.symm.trans hsome)
      exact .inr ⟨⟨place, length + 3⟩, rfl, Nat.le_add_left 3 length, Nat.le_refl _, hfits, fun k p hk _ => hk,
        fun p hp => Nat.le_of_not_lt fun hlt => hfirst p (Nat.zero_le p) hlt hp⟩
  | case2 length hfind ih =>
    have hnone : ∀ p, ¬ Fits bytes (ahead.take (length + 3)) cursor (length + 3) p := by
      obtain ⟨-, hall⟩ | ⟨found, hsome, -⟩ := findClear_cases bytes (ahead.take (length + 3)) cursor (length + 3) 0
      · exact fun p => hall p (Nat.zero_le p)
      · rw [hfind] at hsome
        cases hsome
    -- what fits is shorter than the length that was looked for in vain
    have hshorter {k p : Nat} (hk : k ≤ length + 3) (hfits : Fits bytes (ahead.take k) cursor k p) :
        k ≤ length + 2 := by
      obtain hle | rfl := Nat.le_succ_iff.1 hk
      · exact hle
      · exact absurd hfits (hnone p)
    obtain ⟨hdown, hall⟩ | ⟨m, hdown, hm⟩ := ih
    · exact .inl ⟨hdown, fun k p hthree hk hfits => hall k p hthree (hshorter hk hfits) hfits⟩
    · exact .inr ⟨m, hdown, hm.three_le, Nat.le_succ_of_le hm.length_le, hm.fits,
        fun k p hk hfits => hm.longest k p (hshorter hk hfits) hfits, hm.first⟩
  | case3 length hshort =>
    refine .inl ⟨rfl, fun k p h1 h2 => ?_⟩
    exact absurd (show length = length - 3 + 3 by omega) (hshort (length - 3))

/-! ### The two searches -/

theorem take_prefix_drop_iff {k : Nat} :
    ahead.take k <+: bytes.drop place ↔ ∀ i < k, i < ahead.length → bytes[place + i]? = ahead[i]? := by
  rw [List.prefix_iff_getElem?]
  simp only [List.getElem?_drop, List.getElem_take, List.length_take]
  constructor
  · intro h i hi hlt
    rw [h i (by omega), List.getElem?_eq_getElem hlt]
  · intro h i hi
    rw [h i (by omega) (by omega), List.getElem?_eq_getElem (by omega)]

/-- The length that the search gives a place is the greatest that fits there. -/
theorem le_lengthAt_iff_fits {ring : Array UInt8} {limit k : Nat} (hk : 0 < k) (hplace : place ≤ ring.size) :
    k ≤ lengthAt ring limit cursor ahead place ↔
      k ≤ limit ∧ Fits ring.toList (ahead.take k) cursor k place := by
  have hclear : (place < cursor → place + k ≤ cursor) ↔ ¬ Straddles cursor place k := by
    unfold Straddles
    omega
  have hstands := @take_prefix_drop_iff ring.toList ahead place k
  simp only [Array.getElem?_toList] at hstands
  rw [le_lengthAt_iff, ← hstands, hclear]
  exact ⟨fun ⟨⟨h1, h2⟩, h3⟩ => ⟨h1, by simpa using hplace, h2, h3⟩, fun ⟨h1, h⟩ => ⟨⟨h1, h.stands⟩, h.clear⟩⟩

/-- The search place by place ends with that part, too. -/
theorem longestFrom_best (ring : Array UInt8) (limit cursor : Nat) (ahead : Bytes) :
    (longestFrom ring limit cursor ahead ⟨0, 2⟩ 0 (ring.size + 1) = ⟨0, 2⟩ ∧
      ∀ k p, 3 ≤ k → k ≤ limit → ¬ Fits ring.toList (ahead.take k) cursor k p) ∨
    Best ring.toList ahead cursor limit (longestFrom ring limit cursor ahead ⟨0, 2⟩ 0 (ring.size + 1)) := by
  -- what fits starts at a place that is searched, and is no longer than the length found there
  have hplace {k p : Nat} (h : Fits ring.toList (ahead.take k) cursor k p) : p < 0 + (ring.size + 1) := by
    have hle := h.place_le
    rw [Array.length_toList] at hle
    omega
  have hlong {k p : Nat} (hpos : 0 < k) (hk : k ≤ limit) (h : Fits ring.toList (ahead.take k) cursor k p) :
      k ≤ lengthAt ring limit cursor ahead p :=
    (le_lengthAt_iff_fits hpos (Nat.le_of_lt_succ (by simpa using hplace h))).2 ⟨hk, h⟩
  obtain ⟨hbest, hall⟩ | ⟨p, -, hp, hbest, hlt, hfirst, hmax⟩ :=
    longestFrom_cases ring limit cursor ahead ⟨0, 2⟩ 0 (ring.size + 1)
  · refine .inl ⟨hbest, fun k q hthree hk h => ?_⟩
    have hle := Nat.le_trans (hlong (by omega) hk h) (hall q (Nat.zero_le q) (hplace h))
    exact absurd hle (Nat.not_le_of_lt hthree)
  · rw [hbest]
    obtain ⟨hle, hfits⟩ := (le_lengthAt_iff_fits (Nat.zero_lt_of_lt hlt) (by omega)).1 (Nat.le_refl _)
    refine .inr ⟨hlt, hle, hfits, fun k q hk h => ?_, fun q h => Nat.le_of_not_lt fun hless => ?_⟩
    · obtain rfl | hpos := Nat.eq_zero_or_pos k
      · exact Nat.zero_le _
      · exact Nat.le_trans (hlong hpos hk h) (hmax q (Nat.zero_le q) (hplace h))
    · exact absurd (hlong (Nat.zero_lt_of_lt hlt) hle h) (Nat.not_le_of_lt (hfirst q (Nat.zero_le q) hless))

/-- **A look into the window finds what a search by lengths finds.** -/
theorem lookUp_eq_lookUpDown (cells : Array UInt8) (cursor : Nat) (left : Int) (ahead : Bytes) :
    lookUp cells cursor left ahead = lookUpDown cells cursor left ahead := by
  rw [lookUp, lookUpDown, ← toList_ring]
  by_cases hfew : left < 3
  · rw [if_pos hfew, if_pos hfew]
  rw [if_neg hfew, if_neg hfew]
  generalize cells.extract 0 4096 ++ cells.extract 0 maxCopy = ring
  generalize min maxCopy left.toNat = limit
  dsimp only
  obtain ⟨hbest, hnone⟩ | hbest := longestFrom_best ring limit cursor ahead
  · obtain ⟨hdown, -⟩ | ⟨m, -, hm⟩ := longestDown_cases ring.toList ahead cursor limit
    · rw [hbest, hdown]
      rfl
    · exact absurd hm.fits (hnone _ _ hm.three_le hm.length_le)
  · obtain ⟨-, hnone⟩ | ⟨m, hdown, hm⟩ := longestDown_cases ring.toList ahead cursor limit
    · exact absurd hbest.fits (hnone _ _ hbest.three_le hbest.length_le)
    · rw [hdown, hbest.unique hm]
      exact if_neg (Nat.not_lt_of_le hm.three_le)

end AdventureKit.Lzss
