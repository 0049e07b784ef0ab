import AdventureKit.Lzss.Pack
import AdventureKit.Proofs.Lzss.Window

/-!
# What the packer takes from the window

`Occurs w ahead place count`: the next `count` bytes stand in the window from `place` on, the first
cells read once more after the last one, and the write cursor does not cut them.  `Chosen` is the first
of the longest such parts.  The search finds exactly this part and refuses it where it starts after the
last cell (`findMatch_cases`).
-/

namespace AdventureKit.Lzss

/-! ### The search over the ring -/

section Ring

variable {ring : Array UInt8} {limit cursor : Nat} {ahead : Bytes}

/-- Bytes that are not there agree with everything. -/
theorem le_agreement_iff {place k : Nat} :
    k ≤ agreement ring limit place ahead ↔
      k ≤ limit ∧ ∀ i < k, i < ahead.length → ring[place + i]? = ahead[i]? := by
  induction limit generalizing place ahead k with
  | zero =>
    rw [agreement]
    exact ⟨fun hk => ⟨hk, fun i hi => by omega⟩, fun hk => hk.1⟩
  | succ limit ih =>
    cases ahead with
    | nil => simp [agreement]
    | cons b ahead =>
      cases k with
      | zero => simp
      | succ k =>
        -- the first byte decides; the others are the induction hypothesis one place on
        have hsplit : (∀ i < k + 1, i < (b :: ahead).length → ring[place + i]? = (b :: ahead)[i]?) ↔
            ring[place]? = some b ∧ ∀ i < k, i < ahead.length → ring[place + 1 + i]? = ahead[i]? := by
          rw [List.length_cons]
          constructor
          · intro hall
            refine ⟨hall 0 (by omega) (by omega), fun i hi hlt => ?_⟩
            have := hall (i + 1) (by omega) (by omega)
            rwa [List.getElem?_cons_succ, show place + (i + 1) = place + 1 + i by omega] at this
          · rintro ⟨h0, hall⟩ i hi hlt
            cases i with
            | zero => exact h0
            | succ i =>
              rw [List.getElem?_cons_succ, show place + (i + 1) = place + 1 + i by omega]
              exact hall i (by omega) (by omega)
        rw [hsplit, agreement]
        by_cases hp : place < ring.size
        · rw [dif_pos hp, Array.getElem?_eq_getElem hp, Option.some.injEq]
          by_cases hb : ring[place] = b
          · rw [if_pos hb, Nat.add_le_add_iff_right, ih, Nat.add_le_add_iff_right]
            simp [hb]
          · rw [if_neg hb]
            simp [hb]
        · rw [dif_neg hp, Array.getElem?_eq_none (by omega)]
          simp

theorem le_lengthAt_iff {place k : Nat} :
    k ≤ lengthAt ring limit cursor ahead place ↔
      (k ≤ limit ∧ ∀ i < k, i < ahead.length → ring[place + i]? = ahead[i]?) ∧
        (place < cursor → place + k ≤ cursor) := by
  rw [← le_agreement_iff, lengthAt]
  split
  · rename_i hc
    simp only [Nat.le_min]
    constructor
    · exact fun ⟨h1, h2⟩ => ⟨h1, fun _ => by omega⟩
    · exact fun ⟨h1, h2⟩ => ⟨h1, by have := h2 hc; omega⟩
  · rename_i hc
    exact ⟨fun h1 => ⟨h1, fun h2 => absurd h2 hc⟩, fun h1 => h1.1⟩

theorem le_lengthAt_iff_of_le {place k : Nat} (h : limit ≤ ahead.length) :
    k ≤ lengthAt ring limit cursor ahead place ↔
      (k ≤ limit ∧ ∀ i < k, ring[place + i]? = ahead[i]?) ∧ (place < cursor → place + k ≤ cursor) := by
  rw [le_lengthAt_iff]
  refine and_congr_left fun _ => and_congr_right fun hk => forall₂_congr fun i hi => ?_
  exact forall_prop_of_true (by omega)

theorem lengthAt_le_limit (place : Nat) : lengthAt ring limit cursor ahead place ≤ limit :=
  (le_lengthAt_iff.1 (Nat.le_refl _)).1.1

variable (ring limit cursor ahead) in
/-- Either no place beats `best`, or the result is the first of the places that beat all others. -/
theorem longestFrom_cases (best : Match) (place count : Nat) :
    (longestFrom ring limit cursor ahead best place count = best ∧
      ∀ p, place ≤ p → p < place + count → lengthAt ring limit cursor ahead p ≤ best.length) ∨
    ∃ p, place ≤ p ∧ p < place + count ∧
      longestFrom ring limit cursor ahead best place count =
        ⟨p, lengthAt ring limit cursor ahead p⟩ ∧
      best.length < lengthAt ring limit cursor ahead p ∧
      (∀ q, place ≤ q → q < p → lengthAt ring limit cursor ahead q < lengthAt ring limit cursor ahead p) ∧
      ∀ q, place ≤ q → q < place + count →
        lengthAt ring limit cursor ahead q ≤ lengthAt ring limit cursor ahead p := by
  induction count generalizing best place with
  | zero => exact .inl ⟨rfl, fun p h1 h2 => by omega⟩
  | succ count ih =>
    rw [longestFrom]
    by_cases hle : lengthAt ring limit cursor ahead place ≤ best.length
    · rw [if_pos hle]
      obtain ⟨hr, hall⟩ | ⟨p, hp1, hp2, hr, hlt, hfirst, hmax⟩ := ih best (place + 1)
      · refine .inl ⟨hr, fun p h1 h2 => ?_⟩
        obtain rfl | hne := Nat.eq_or_lt_of_le h1
        · exact hle
        · exact hall p hne (by omega)
      · refine .inr ⟨p, by omega, by omega, hr, hlt, fun q h1 h2 => ?_, fun q h1 h2 => ?_⟩
        · obtain rfl | hne := Nat.eq_or_lt_of_le h1
          · omega
          · exact hfirst q hne h2
        · obtain rfl | hne := Nat.eq_or_lt_of_le h1
          · omega
          · exact hmax q hne (by omega)
    · rw [if_neg hle]
      by_cases hfull : lengthAt ring limit cursor ahead place = limit
      · rw [if_pos hfull]
        refine .inr ⟨place, by omega, by omega, rfl, by omega, fun q h1 h2 => by omega, fun q _ _ => ?_⟩
        rw [hfull]
        exact lengthAt_le_limit q
      · rw [if_neg hfull]
        obtain ⟨hr, hall⟩ | ⟨p, hp1, hp2, hr, hlt, hfirst, hmax⟩ :=
          ih ⟨place, lengthAt ring limit cursor ahead place⟩ (place + 1)
        · refine .inr ⟨place, by omega, by omega, hr, by omega, fun q h1 h2 => by omega, fun q h1 h2 => ?_⟩
          obtain rfl | hne := Nat.eq_or_lt_of_le h1
          · exact Nat.le_refl _
          · exact hall q hne (by omega)
        · simp only at hlt
          refine .inr ⟨p, by omega, by omega, hr, by omega, fun q h1 h2 => ?_, fun q h1 h2 => ?_⟩
          · obtain rfl | hne := Nat.eq_or_lt_of_le h1
            · exact hlt
            · exact hfirst q hne h2
          · obtain rfl | hne := Nat.eq_or_lt_of_le h1
            · omega
            · exact hmax q hne (by omega)

/-- Where too few bytes are left, the search would find nothing either. -/
theorem findMatch_eq {cells : Array UInt8} {left : Nat}
    (hring : ring = cells.extract 0 4096 ++ cells.extract 0 maxCopy) :
    findMatch cells cursor left ahead =
      let best := longestFrom ring (min maxCopy left) cursor ahead ⟨0, 2⟩ 0 (ring.size + 1)
      if best.length < 3 then .ok none
      else if best.place < 4096 then .ok (some best)
      else .error (.disagreement .matchPosition) := by
  rw [findMatch, lookUp, Int.toNat_natCast, ← hring]
  by_cases hfew : (left : Int) < 3
  · rw [if_pos hfew]
    obtain ⟨hbest, -⟩ | ⟨p, -, -, -, hlt, -⟩ :=
      longestFrom_cases ring (min maxCopy left) cursor ahead ⟨0, 2⟩ 0 (ring.size + 1)
    · rw [hbest]
      rfl
    · have hle : lengthAt ring (min maxCopy left) cursor ahead p ≤ _ := lengthAt_le_limit p
      simp only at hlt
      omega
  · rw [if_neg hfew]
    dsimp only
    split
    · rfl
    · split <;> rfl

end Ring

/-! ### Parts of the window -/

/-- The next `count` bytes stand in the window from `place` on, and the cursor does not cut them. -/
structure Occurs (w : Window) (ahead : Bytes) (place count : Nat) : Prop where
  inside : place + count ≤ 4096 + maxCopy
  short : count ≤ maxCopy
  bytes : ∀ i < count, ahead[i]? = some (w.byteAt (place + i))
  uncut : place < w.cursor → place + count ≤ w.cursor

/-- The part that the packer takes: the first of the longest, if they have three bytes or more. -/
structure Chosen (w : Window) (ahead : Bytes) (place count : Nat) : Prop where
  occurs : Occurs w ahead place count
  three_le : 3 ≤ count
  longest : ∀ p k, Occurs w ahead p k → k ≤ count
  first : ∀ p, Occurs w ahead p count → place ≤ p

theorem Occurs.count_le_length {w : Window} {ahead : Bytes} {place count : Nat}
    (h : Occurs w ahead place count) : count ≤ ahead.length := by
  by_cases hc : count = 0
  · omega
  · have hb := h.bytes (count - 1) (by omega)
    obtain ⟨hlt, -⟩ := List.getElem?_eq_some_iff.1 hb
    omega

theorem Chosen.ne_nil {w : Window} {ahead : Bytes} {place count : Nat} (h : Chosen w ahead place count) :
    ahead ≠ [] := by
  have h1 := h.occurs.count_le_length
  have h3 := h.three_le
  exact List.ne_nil_of_length_pos (by omega)

theorem Chosen.unique {w : Window} {ahead : Bytes} {p k p' k' : Nat} (h : Chosen w ahead p k)
    (h' : Chosen w ahead p' k') : p = p' ∧ k = k' := by
  have hk : k = k' := Nat.le_antisymm (h'.longest p k h.occurs) (h.longest p' k' h'.occurs)
  subst hk
  exact ⟨Nat.le_antisymm (h.first p' h'.occurs) (h'.first p h.occurs), rfl⟩

/-! ### Copies of chosen parts -/

/-- A part that the copy overruns is one that goes on to the cursor after a full turn. -/
theorem Occurs.lead_le_iff {w : Window} {ahead : Bytes} {place count i : Nat}
    (h : Occurs w ahead place count) (hp : place < 4096) (hi : i < count) :
    w.lead place ≤ i ↔ 4096 + w.cursor ≤ place + i := by
  have hc := w.cursor.isLt
  have hu := h.uncut
  simp only [Window.lead]
  by_cases hlt : place < w.cursor
  · have := hu hlt
    omega
  · omega

theorem lead_eq {w : Window} {place : Nat} (hp : place < 4096) (hc : w.cursor ≤ place) :
    w.lead place = 4096 + w.cursor - place := by
  have := w.cursor.isLt
  simp only [Window.lead]
  omega

/-- **A copy gives the bytes ahead** exactly if those beyond the cursor repeat the ones that the copy
itself has written there. -/
theorem Occurs.copied_eq_iff {w : Window} {ahead : Bytes} {place count : Nat}
    (h : Occurs w ahead place count) (hp : place < 4096) :
    w.copied place count = ahead.take count ↔
      ∀ i < count, 4096 + w.cursor ≤ place + i → ahead[i]? = ahead[place + i - (4096 + w.cursor)]? := by
  have hback : ∀ i < count, 4096 + w.cursor ≤ place + i →
      place + i - (4096 + w.cursor) = i - w.lead place ∧ w.lead place ≤ i := by
    intro i hi hcross
    have hle := (h.lead_le_iff hp hi).2 hcross
    have hu := h.uncut
    have heq : w.lead place = 4096 + w.cursor - place :=
      lead_eq hp (Nat.le_of_not_lt fun hlt => by have := hu hlt; omega)
    omega
  constructor
  · intro he i hi hcross
    obtain ⟨hi', hle⟩ := hback i hi hcross
    have hlead := w.lead_pos place
    have h1 := w.getElem?_copied place hi
    rw [if_neg (Nat.not_lt_of_le hle), he, List.getElem?_take_of_lt hi,
      List.getElem?_take_of_lt (by omega)] at h1
    rw [h1, hi']
  · intro hper
    refine List.ext_getElem? fun i => ?_
    induction i using Nat.strongRecOn with
    | ind i ih =>
      by_cases hi : i < count
      · rw [w.getElem?_copied place hi, List.getElem?_take_of_lt hi]
        by_cases hlt : i < w.lead place
        · rw [if_pos hlt, h.bytes i hi]
        · have hle := Nat.le_of_not_lt hlt
          have hlead := w.lead_pos place
          have hcross := (h.lead_le_iff hp hi).1 hle
          rw [if_neg hlt, ih _ (by omega), List.getElem?_take_of_lt (by omega), hper i hi hcross,
            (hback i hi hcross).1]
      · rw [List.getElem?_eq_none (by rw [w.length_copied]; omega),
          List.getElem?_eq_none (by rw [List.length_take]; omega)]

/-- Before the cursor has gone round, the packer takes a part before the cursor: a part behind it is
nothing but spaces, and those stand at the start of the ring, too. -/
theorem Chosen.place_lt_cursor {n : Nat} {w : Window} {ahead : Bytes} {place count : Nat}
    (h : Chosen w ahead place count) (hw : w.Blank n) (hn : n < 18) : place < w.cursor := by
  have hcur : (w.cursor : Nat) = 4078 + n := by
    rw [hw.cursor_eq]
    exact Nat.mod_eq_of_lt (by omega)
  have hshort : count ≤ 18 := h.occurs.short
  have hin : place + count ≤ 4096 + 18 := h.occurs.inside
  refine Nat.lt_of_not_le fun hle => ?_
  have hzero : Occurs w ahead 0 count := by
    refine ⟨Nat.le_trans (by omega) (Nat.le_add_right 4096 maxCopy), h.occurs.short, fun j hj => ?_,
      fun _ => by omega⟩
    rw [h.occurs.bytes j hj, hw.spaces (place + j) (by omega), hw.spaces (0 + j) (by omega)]
  have := h.first 0 hzero
  omega

/-- The packer never takes a part with one of the last cells that is not written yet. -/
theorem Chosen.cell_lt {n : Nat} {w : Window} {ahead : Bytes} {place count : Nat}
    (h : Chosen w ahead place count) (hw : w.Blank n) {i : Nat} (hi : i < count) :
    (place + i) % 4096 < 4078 + n := by
  by_cases hn : n < 18
  · have hcur := hw.cursor_eq
    have := h.occurs.uncut (h.place_lt_cursor hw hn)
    omega
  · omega

/-- The ring that is searched: the cells, and the first of them once more. -/
def Window.ring (w : Window) : Array UInt8 :=
  w.cells.toArray.extract 0 4096 ++ w.cells.toArray.extract 0 maxCopy

theorem Window.size_ring (w : Window) : w.ring.size = 4096 + maxCopy := by
  simp [ring, maxCopy]

theorem Window.getElem?_ring (w : Window) (place : Nat) :
    w.ring[place]? = if place < 4096 + maxCopy then some (w.byteAt place) else none := by
  have hsize : (w.cells.toArray.extract 0 4096).size = 4096 := by simp
  rw [ring, Array.getElem?_append, hsize]
  by_cases h1 : place < 4096
  · rw [if_pos h1, if_pos (by omega), Window.byteAt_eq_getElem]
    simp [h1, Nat.mod_eq_of_lt h1]
  · rw [if_neg h1]
    by_cases h2 : place < 4096 + maxCopy
    · have h3 : place % 4096 = place - 4096 := by rw [maxCopy] at h2; omega
      have h4 : place - 4096 < 4096 := by rw [maxCopy] at h2; omega
      rw [if_pos h2, Window.byteAt_eq_getElem]
      simp only [h3]
      rw [Array.getElem?_extract, if_pos (by simp [maxCopy] at h2 ⊢; omega)]
      simp [h4]
    · rw [if_neg h2, Array.getElem?_extract, if_neg (by simp [maxCopy] at h2 ⊢; omega)]

/-- The length of the longest part from `place` on. -/
def Window.partLength (w : Window) (ahead : Bytes) (place : Nat) : Nat :=
  lengthAt w.ring (min maxCopy (ahead.take maxCopy).length) w.cursor (ahead.take maxCopy) place

theorem Window.le_partLength_iff {w : Window} {ahead : Bytes} {place k : Nat}
    (hp : place ≤ 4096 + maxCopy) : k ≤ w.partLength ahead place ↔ Occurs w ahead place k := by
  rw [partLength, le_lengthAt_iff_of_le (Nat.min_le_right _ _)]
  constructor
  · rintro ⟨⟨hk, hb⟩, hc⟩
    rw [List.length_take] at hk
    have hbytes : ∀ i < k, place + i < 4096 + maxCopy ∧ ahead[i]? = some (w.byteAt (place + i)) := by
      intro i hi
      have h1 := hb i hi
      rw [getElem?_ring, List.getElem?_take_of_lt (by omega)] at h1
      by_cases h2 : place + i < 4096 + maxCopy
      · rw [if_pos h2] at h1
        exact ⟨h2, h1.symm⟩
      · rw [if_neg h2, List.getElem?_eq_getElem (by omega)] at h1
        cases h1
    refine ⟨?_, by omega, fun i hi => (hbytes i hi).2, hc⟩
    by_cases h0 : k = 0
    · omega
    · have := (hbytes (k - 1) (by omega)).1
      omega
  · intro h
    have hlen := h.count_le_length
    have hk := h.short
    have hin := h.inside
    refine ⟨⟨by rw [List.length_take]; omega, fun i hi => ?_⟩, h.uncut⟩
    rw [getElem?_ring, if_pos (by omega), List.getElem?_take_of_lt (by omega), h.bytes i hi]

/-- **The search finds the chosen part**, unless there is none, and refuses it after the last cell. -/
theorem findMatch_cases (w : Window) (ahead : Bytes) :
    (findMatch w.cells.toArray w.cursor (ahead.take maxCopy).length (ahead.take maxCopy) = .ok none ∧
      ∀ p k, Occurs w ahead p k → k < 3) ∨
    ∃ m : Match, Chosen w ahead m.place m.length ∧
      findMatch w.cells.toArray w.cursor (ahead.take maxCopy).length (ahead.take maxCopy) =
        if m.place < 4096 then .ok (some m) else .error (.disagreement .matchPosition) := by
  have hplace : ∀ {p k : Nat}, Occurs w ahead p k → p ≤ 4096 + maxCopy := by
    intro p k h
    have := h.inside
    omega
  have hcases := longestFrom_cases w.ring (min maxCopy (ahead.take maxCopy).length) w.cursor (ahead.take maxCopy)
    ⟨0, 2⟩ 0 (w.ring.size + 1)
  have hring : w.ring = w.cells.toArray.extract 0 4096 ++ w.cells.toArray.extract 0 maxCopy := rfl
  rw [findMatch_eq hring]
  obtain ⟨hr, hall⟩ | ⟨p, -, hp, hr, hlt, hfirst, hmax⟩ := hcases
  · refine .inl ⟨by rw [hr]; rfl, fun p k h => ?_⟩
    have hk := (Window.le_partLength_iff (hplace h)).2 h
    have hle : w.partLength ahead p ≤ 2 :=
      hall p (Nat.zero_le _) (by have := hplace h; rw [w.size_ring]; omega)
    omega
  · have hp' : p ≤ 4096 + maxCopy := by
      rw [w.size_ring] at hp
      omega
    refine .inr ⟨⟨p, w.partLength ahead p⟩, ⟨?_, hlt, ?_, ?_⟩, ?_⟩
    · exact (Window.le_partLength_iff hp').1 (Nat.le_refl _)
    · intro q k h
      exact Nat.le_trans ((Window.le_partLength_iff (hplace h)).2 h)
        (hmax q (Nat.zero_le _) (by have := hplace h; rw [w.size_ring]; omega))
    · intro q h
      refine Nat.le_of_not_lt fun hqp => ?_
      have hk := (Window.le_partLength_iff (hplace h)).2 h
      exact absurd hk (Nat.not_le_of_lt (hfirst q (Nat.zero_le _) hqp))
    · rw [hr]
      exact if_neg (Nat.not_lt_of_le hlt)

end AdventureKit.Lzss
