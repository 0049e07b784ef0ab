import AdventureKit.Proofs.Picture.Bits
import AdventureKit.Proofs.Picture.Frames
import AdventureKit.Proofs.Picture.Tiles

/-!
# Font files and their grids

A font that is drawn as a grid and taken back keeps its size and its characters.  Its glyphs are packed without the spare
bits at the end of their rows, and its flag and table of widths are lost (`FontFile.encode_of_decode`).  So the file is the
same only if it has no such table and its glyphs have no spare bits that matter (`FontFile.repacked_eq_iff`).
-/

namespace AdventureKit

namespace Font

/-! ## One glyph -/

/-- The bytes of a glyph whose spare bits are zero. -/
structure IsGlyph (width height : Nat) (data : Bytes) : Prop where
  length : data.length = rowSize width * height
  spare : ∀ row ∈ Picture.rowsOf (rowSize width) height data, ∀ v ∈ (row.flatMap bits).drop width, v = 0

theorem le_rowSize (width : Nat) : width ≤ 8 * rowSize width := by
  unfold rowSize
  omega

section Glyph

variable {width height : Nat} {data : Bytes}

theorem length_of_mem_rowsOf {n size : Nat} {px row : Bytes} (h : px.length = size * n)
    (hrow : row ∈ Picture.rowsOf size n px) : row.length = size := by
  induction n generalizing px with
  | zero => cases hrow
  | succ n ih =>
    rw [Nat.mul_succ] at h
    rcases List.mem_cons.1 hrow with rfl | hrow
    · rw [List.length_take, h]
      omega
    · refine ih ?_ hrow
      rw [List.length_drop, h]
      omega

theorem length_rowsOf (size n : Nat) (px : Bytes) : (Picture.rowsOf size n px).length = n := by
  induction n generalizing px with
  | zero => rfl
  | succ n ih => rw [Picture.rowsOf, List.length_cons, ih]

theorem IsGlyph.length_row (h : IsGlyph width height data) {row : Bytes} (hrow : row ∈ (decodeGlyph width height data).rows) :
    row.length = width := by
  obtain ⟨packed, hpacked, rfl⟩ := List.mem_map.1 hrow
  rw [List.length_take, length_flatMap_bits, length_of_mem_rowsOf h.length hpacked]
  have := le_rowSize width
  omega

theorem isBits_decodeGlyph {row : Bytes} (hrow : row ∈ (decodeGlyph width height data).rows) : IsBits row := by
  obtain ⟨packed, -, rfl⟩ := List.mem_map.1 hrow
  intro v hv
  obtain ⟨b, -, hv⟩ := List.mem_flatMap.1 (List.mem_of_mem_take hv)
  exact isBits_bits b v hv

theorem height_decodeGlyph : (decodeGlyph width height data).height = height := by
  show ((Picture.rowsOf _ height data).map _).length = height
  rw [List.length_map, length_rowsOf]

/-- A glyph of a font fits in a tile. -/
theorem IsGlyph.drawable (h : IsGlyph width height data) (hwidth : 1 ≤ width ∧ width ≤ 47)
    (hheight : 1 ≤ height ∧ height ≤ 47) : Grid.Drawable (decodeGlyph width height data) where
  rectangular := fun _ hrow => h.length_row hrow
  width := ⟨hwidth.1, Nat.le_succ_of_le hwidth.2⟩
  height := by
    rw [height_decodeGlyph]
    omega
  corner := by
    rw [height_decodeGlyph]
    omega
  bits := fun _ hrow => isBits_decodeGlyph hrow

theorem isBits_pixels : IsBits (decodeGlyph width height data).pixels := by
  intro v hv
  obtain ⟨row, hrow, hv⟩ := List.mem_flatten.1 hv
  exact isBits_decodeGlyph hrow v hv

theorem length_flatten_of_rows {rows : List Bytes} (h : ∀ row ∈ rows, row.length = width) :
    rows.flatten.length = width * rows.length := by
  induction rows with
  | nil => rfl
  | cons row rows ih =>
    obtain ⟨hrow, hrows⟩ := List.forall_mem_cons.1 h
    rw [List.flatten_cons, List.length_append, hrow, ih hrows, List.length_cons, Nat.mul_succ, Nat.add_comm]

theorem IsGlyph.length_pixels (h : IsGlyph width height data) :
    (decodeGlyph width height data).pixels.length = width * height := by
  have hrows := length_flatten_of_rows fun row hrow => h.length_row hrow
  rwa [show (decodeGlyph width height data).rows.length = height from height_decodeGlyph] at hrows

/-- The bits of a row are its pixels and the spare bits. -/
theorem IsGlyph.flatMap_bits_row (h : IsGlyph width height data) {row : Bytes}
    (hrow : row ∈ Picture.rowsOf (rowSize width) height data) :
    row.flatMap bits = (row.flatMap bits).take width ++ List.replicate (8 * rowSize width - width) 0 := by
  have hspare : (row.flatMap bits).drop width = List.replicate (8 * rowSize width - width) 0 := by
    refine List.eq_replicate_iff.2 ⟨?_, h.spare row hrow⟩
    rw [List.length_drop, length_flatMap_bits, length_of_mem_rowsOf h.length hrow]
  rw [← hspare, List.take_append_drop]

theorem IsGlyph.flatMap_bits (h : IsGlyph width height data) :
    data.flatMap bits =
      (decodeGlyph width height data).rows.flatMap (· ++ List.replicate (8 * rowSize width - width) 0) := by
  show _ = ((Picture.rowsOf (rowSize width) height data).map fun row => (row.flatMap bits).take width).flatMap _
  conv_lhs => rw [← Picture.flatten_rowsOf h.length]
  rw [List.flatMap_map, ← List.flatMap_id, List.flatMap_assoc]
  exact List.flatMap_congr fun row hrow => h.flatMap_bits_row hrow

theorem flatMap_bits_eq_zero_iff {bs : Bytes} : (∀ v ∈ bs.flatMap bits, v = 0) ↔ ∀ b ∈ bs, b = 0 := by
  constructor
  · intro h b hb
    have hbits : bits b = List.replicate 8 0 :=
      List.eq_replicate_iff.2 ⟨length_bits b, fun v hv => h v (List.mem_flatMap.2 ⟨b, hb, hv⟩)⟩
    have hvalue := value_bits b
    rw [hbits] at hvalue
    exact hvalue.symm
  · intro h v hv
    obtain ⟨b, hb, hv⟩ := List.mem_flatMap.1 hv
    rw [h b hb] at hv
    exact List.eq_of_mem_replicate (n := 8) hv

/-- The rows of a glyph below the first one are blank if their bytes are. -/
theorem IsGlyph.blank_below_iff (h : IsGlyph width (height + 1) data) :
    (∀ row ∈ (decodeGlyph width (height + 1) data).rows.tail, ∀ v ∈ row, v = 0) ↔
      ∀ b ∈ data.drop (rowSize width), b = 0 := by
  have hbelow : (data.drop (rowSize width)).length = rowSize width * height := by
    rw [List.length_drop, h.length, Nat.mul_succ, Nat.add_sub_cancel]
  have hrows : (decodeGlyph width (height + 1) data).rows.tail =
      (Picture.rowsOf (rowSize width) height (data.drop (rowSize width))).map fun row =>
        (row.flatMap bits).take width := rfl
  rw [hrows]
  constructor
  · intro hblank b hb
    rw [← Picture.flatten_rowsOf hbelow] at hb
    obtain ⟨row, hrow, hb⟩ := List.mem_flatten.1 hb
    have hbits := h.flatMap_bits_row (List.mem_cons_of_mem _ hrow)
    refine flatMap_bits_eq_zero_iff.1 (fun v hv => ?_) b hb
    rw [hbits] at hv
    rcases List.mem_append.1 hv with hv | hv
    · exact hblank _ (List.mem_map_of_mem hrow) v hv
    · exact List.eq_of_mem_replicate hv
  · intro hblank row hrow v hv
    obtain ⟨packed, hpacked, rfl⟩ := List.mem_map.1 hrow
    refine flatMap_bits_eq_zero_iff.2 (fun b hb => hblank b ?_) v (List.mem_of_mem_take hv)
    rw [← Picture.flatten_rowsOf hbelow]
    exact List.mem_flatten.2 ⟨packed, hpacked, hb⟩

/-- **When a glyph is packed to the bytes it was read from**: if its rows fill their bytes, or if all their spare bits
fill less than a byte and only the first row has pixels. -/
theorem IsGlyph.encodeGlyph_eq_iff (h : IsGlyph width height data) (hheight : 1 ≤ height) :
    encodeGlyph (decodeGlyph width height data) = data ↔
      8 ∣ width ∨ (height * (8 * rowSize width - width) < 8 ∧ ∀ b ∈ data.drop (rowSize width), b = 0) := by
  obtain ⟨below, rfl⟩ := Nat.exists_eq_succ_of_ne_zero (Nat.ne_of_gt hheight)
  rw [encodeGlyph, packBits_eq_iff isBits_pixels, h.flatMap_bits, h.length_pixels, ← h.blank_below_iff]
  obtain ⟨first, rows, hrows⟩ : ∃ first rows, (decodeGlyph width (below + 1) data).rows = first :: rows := ⟨_, _, rfl⟩
  have hbelow : rows.length = below := by
    have hheight : (decodeGlyph width (below + 1) data).rows.length = below + 1 := height_decodeGlyph
    rw [hrows, List.length_cons] at hheight
    exact Nat.succ.inj hheight
  rw [Picture.pixels, hrows, flatten_append_eq_iff, hbelow, List.tail_cons]
  have hfull : 8 * rowSize width - width = 0 ↔ 8 ∣ width := by
    unfold rowSize
    omega
  -- the pixels and the spare bits fill whole bytes
  have hwhole : width * (below + 1) + (8 * rowSize width - width) * (below + 1) = 8 * (rowSize width * (below + 1)) := by
    rw [← Nat.add_mul, Nat.add_sub_cancel' (le_rowSize width), Nat.mul_assoc]
  rw [← hfull, Nat.mul_comm (below + 1)]
  generalize hspare : 8 * rowSize width - width = spare at hwhole ⊢
  generalize width * (below + 1) = size at hwhole ⊢
  constructor
  · rintro ⟨hsize, hspare | hblank⟩
    · exact .inl hspare
    · exact .inr ⟨by omega, hblank⟩
  · rintro (rfl | ⟨hfew, hblank⟩)
    · exact ⟨by omega, .inl rfl⟩
    · exact ⟨by omega, .inr hblank⟩

theorem IsGlyph.length_encodeGlyph (h : IsGlyph width height data) :
    (encodeGlyph (decodeGlyph width height data)).length = (width * height + 7) / 8 := by
  rw [encodeGlyph, length_packBits isBits_pixels, h.length_pixels]

theorem IsGlyph.length_encodeGlyph_le (h : IsGlyph width height data) :
    (encodeGlyph (decodeGlyph width height data)).length ≤ data.length := by
  have hle := Nat.mul_le_mul_right height (le_rowSize width)
  rw [Nat.mul_assoc] at hle
  rw [h.length_encodeGlyph, h.length]
  omega

end Glyph

/-! ## Numbered glyphs -/

section Numbered

variable {α : Type}

/-- The values of increasing numbers, found number by number. -/
theorem filterMap_lookup {a k : Nat} {items : List (Nat × α)} (hsorted : (items.map Prod.fst).Pairwise (· < ·))
    (hfrom : ∀ item ∈ items, a ≤ item.1) (hto : ∀ item ∈ items, item.1 < a + k) :
    ((List.range' a k).filterMap fun n => (items.lookup n).map (n, ·)) = items := by
  induction k generalizing a items with
  | zero =>
    cases items with
    | nil => rfl
    | cons item items =>
      have hlow := hfrom item List.mem_cons_self
      have hhigh := hto item List.mem_cons_self
      omega
  | succ k ih =>
    rw [List.range'_succ, List.filterMap_cons]
    by_cases hfirst : a ∈ items.map Prod.fst
    · obtain ⟨⟨n, v⟩, rest, rfl⟩ := List.exists_cons_of_ne_nil (List.ne_nil_of_mem (List.mem_map.1 hfirst).choose_spec.1)
      obtain ⟨hless, hsorted⟩ := List.pairwise_cons.1 hsorted
      -- the lowest number comes first
      obtain rfl : n = a := by
        rcases List.mem_cons.1 hfirst with he | hlater
        · exact he.symm
        · exact absurd (hless a hlater) (Nat.not_lt.2 (hfrom _ List.mem_cons_self))
      rw [List.lookup_cons_self, Option.map_some]
      refine congrArg ((n, v) :: ·) (Eq.trans (List.filterMap_congr fun m hm => ?_) (ih hsorted (fun item hitem => ?_)
        fun item hitem => ?_))
      · have hne : (m == n) = false := beq_eq_false_iff_ne.2 (Nat.ne_of_gt (List.mem_range'_1.1 hm).1)
        rw [List.lookup_cons, hne]
      · exact hless _ (List.mem_map_of_mem hitem)
      · rw [Nat.add_assoc, Nat.add_comm 1]
        exact hto item (List.mem_cons_of_mem _ hitem)
    · have hne : ∀ item ∈ items, a ≠ item.1 := by
        rintro item hitem rfl
        exact hfirst (List.mem_map_of_mem hitem)
      have hnone : items.lookup a = none :=
        List.lookup_eq_none_iff.2 fun item hitem => bne_iff_ne.2 (hne item hitem)
      rw [hnone, Option.map_none]
      refine ih hsorted (fun item hitem => ?_) fun item hitem => ?_
      · exact Nat.lt_of_le_of_ne (hfrom item hitem) (hne item hitem)
      · rw [Nat.add_assoc, Nat.add_comm 1]
        exact hto item hitem

/-- The numbers of the glyphs that are cut out of a grid. -/
theorem numbered_of_lookup {glyphs : List (Nat × Picture)} (hsorted : (glyphs.map Prod.fst).Pairwise (· < ·))
    (hlt : ∀ p ∈ glyphs, p.1 < 256) (frame : Picture → Frame) :
    numbered ((List.range 256).map fun n => (glyphs.lookup n).map fun p => (frame p, p)) = glyphs := by
  have hindex : ((List.range 256).map fun n => (glyphs.lookup n).map fun p => (frame p, p)).mapIdx
      (fun i tile => tile.map fun found => (i, found.2)) =
        (List.range 256).map fun n => (glyphs.lookup n).map (n, ·) := by
    refine List.ext_getElem (by simp) fun n hn hn' => ?_
    simp [Function.comp_def]
  rw [numbered, hindex, List.filterMap_map, Function.id_comp, List.range_eq_range']
  exact filterMap_lookup hsorted (fun _ _ => Nat.zero_le _) (by rwa [Nat.zero_add])

theorem lookup_zip_range' (a : Nat) (vs : List α) (i : Nat) :
    ((List.range' a vs.length).zip vs).lookup (a + i) = vs[i]? := by
  induction vs generalizing a i with
  | nil => rfl
  | cons v vs ih =>
    rw [List.length_cons, List.range'_succ, List.zip_cons_cons]
    cases i with
    | zero => exact List.lookup_cons_self
    | succ i =>
      have hne : (a + (i + 1) == a) = false := beq_eq_false_iff_ne.2 (by omega)
      rw [List.lookup_cons, hne, List.getElem?_cons_succ, ← ih (a + 1) i, Nat.add_assoc, Nat.add_comm 1]

theorem flatMap_range_getElem? {β : Type} (f : α → List β) (blank : List β) (vs : List α) :
    ((List.range vs.length).flatMap fun i => ((vs[i]?).map f).getD blank) = vs.flatMap f := by
  have hmap : ((List.range vs.length).map fun i => ((vs[i]?).map f).getD blank) = vs.map f := by
    refine List.ext_getElem (by simp) fun i hi hi' => ?_
    have hlt : i < vs.length := by simpa using hi'
    simp [hlt]
  rw [List.flatMap_def, List.flatMap_def, hmap]

end Numbered

/-- The font of a grid whose first and last glyph are known. -/
theorem encode_eq {grid : Picture} {tiles : List (Option (Frame × Picture))} {first last : Nat} {glyph glyph' : Picture}
    {header : Bytes} (hcut : ({} : Grid).glyphs grid = .ok tiles) (hhead : (numbered tiles).head? = some (first, glyph))
    (hlast : (numbered tiles).getLast? = some (last, glyph'))
    (hheader : Bytes.ofInts [glyph.width, glyph.height, first, last] = .ok header) :
    encode grid = .ok (header ++ (List.range (last + 1 - first)).flatMap fun i =>
      (((numbered tiles).lookup (first + i)).map encodeGlyph).getD
        (List.replicate (rowSize glyph.width * glyph.height) 0)) := by
  refine bind_eq_ok.2 ⟨tiles, hcut, ?_⟩
  dsimp only
  rw [hhead, hlast]
  exact bind_eq_ok.2 ⟨header, hheader, rfl⟩

theorem single_toNat (b : UInt8) : Bytes.single (b.toNat : Int) = .ok b := by
  have hlt := b.toNat_lt
  have hbyte : 0 ≤ (b.toNat : Int) ∧ (b.toNat : Int) < 256 := ⟨Int.natCast_nonneg _, Int.ofNat_lt.2 hlt⟩
  rw [Bytes.single, if_pos hbyte, Int.toNat_natCast, UInt8.ofNat_toNat]

theorem ofInts_toNat (bs : Bytes) : Bytes.ofInts (bs.map fun b => (b.toNat : Int)) = .ok bs := by
  have hsingle : ∀ b ∈ bs, (Bytes.single ∘ fun b : UInt8 => (b.toNat : Int)) b = pure (id b) := by
    intro b _
    rw [Function.comp_apply, single_toNat]
    rfl
  rw [Bytes.ofInts, List.mapM_map, mapM_eq_pure hsingle, List.map_id]
  rfl

end Font

/-! ## Files -/

/-- A font file: a header with the size of the glyphs and the first and last character, the glyphs, and the widths of
the characters if the highest bit of the header is set. -/
structure FontFile where
  flags : UInt8
  height : UInt8
  first : UInt8
  last : UInt8
  glyphs : List Bytes
  widths : Bytes
  width_bounds : 1 ≤ flags.toNat % 128 ∧ flags.toNat % 128 ≤ 47
  height_bounds : 1 ≤ height.toNat ∧ height.toNat ≤ 47
  first_le_last : first.toNat ≤ last.toNat
  length_glyphs : glyphs.length = last.toNat + 1 - first.toNat
  isGlyph : ∀ data ∈ glyphs, Font.IsGlyph (flags.toNat % 128) height.toNat data
  length_widths : widths.length = if flags.toNat < 128 then 0 else glyphs.length

namespace FontFile

open Font

/-- The width of the glyphs. -/
def width (f : FontFile) : Nat :=
  f.flags.toNat % 128

/-- The bytes of the file. -/
def toBytes (f : FontFile) : Bytes :=
  [f.flags, f.height, f.first, f.last] ++ f.glyphs.flatten ++ f.widths

/-- The pictures of the glyphs. -/
def pictures (f : FontFile) : List Picture :=
  f.glyphs.map (decodeGlyph f.width f.height.toNat)

/-- The pictures of the glyphs with the numbers of their characters. -/
def characters (f : FontFile) : List (Nat × Picture) :=
  (List.range' f.first.toNat f.pictures.length).zip f.pictures

/-- The file with its glyphs packed without spare bits, and without a table of widths. -/
def repacked (f : FontFile) : Bytes :=
  [UInt8.ofNat f.width, f.height, f.first, f.last] ++ f.pictures.flatMap encodeGlyph

theorem length_pictures (f : FontFile) : f.pictures.length = f.last.toNat + 1 - f.first.toNat := by
  rw [pictures, List.length_map, f.length_glyphs]

theorem map_fst_characters (f : FontFile) :
    f.characters.map Prod.fst = List.range' f.first.toNat f.pictures.length := by
  rw [characters, List.map_fst_zip (by rw [List.length_range'])]

theorem fst_le_last (f : FontFile) {p : Nat × Picture} (hp : p ∈ f.characters) : p.1 ≤ f.last.toNat := by
  have hmem := List.mem_map_of_mem (f := Prod.fst) hp
  rw [map_fst_characters, length_pictures, List.mem_range'_1] at hmem
  omega

theorem drawable (f : FontFile) {p : Nat × Picture} (hp : p ∈ f.characters) : Grid.Drawable p.2 := by
  obtain ⟨data, hdata, hp⟩ := List.mem_map.1 (List.of_mem_zip hp).2
  rw [← hp]
  exact (f.isGlyph data hdata).drawable f.width_bounds f.height_bounds

theorem glyphsFrom_flatten {width height : Nat} {glyphs : List Bytes} (h : ∀ data ∈ glyphs, IsGlyph width height data)
    (rest : Bytes) :
    glyphsFrom width height glyphs.length (glyphs.flatten ++ rest) = .ok (glyphs.map (decodeGlyph width height)) := by
  induction glyphs with
  | nil => rfl
  | cons data glyphs ih =>
    obtain ⟨hdata, hglyphs⟩ := List.forall_mem_cons.1 h
    have hlong : ¬ (data ++ (glyphs.flatten ++ rest)).length < rowSize width * height := by
      rw [List.length_append, hdata.length]
      omega
    rw [List.length_cons, List.flatten_cons, List.append_assoc]
    unfold glyphsFrom
    rw [if_neg hlong, List.take_left' hdata.length, List.drop_left' hdata.length, ih hglyphs]
    rfl

theorem decode_toBytes (f : FontFile) :
    Font.decode f.toBytes =
      ({} : Grid).draw ((f.last.toNat + 1 : Nat) : Int) (f.characters.map fun p => ((p.1 : Int), p.2)) := by
  have hglyphs := glyphsFrom_flatten f.isGlyph f.widths
  rw [f.length_glyphs] at hglyphs
  have hnumbers : ((List.range (f.last.toNat + 1 - f.first.toNat)).map fun i => ((f.first.toNat + i : Nat) : Int)).zip
      f.pictures = f.characters.map fun p => ((p.1 : Int), p.2) := by
    rw [characters, length_pictures, List.range'_eq_map_range, List.zip_map_left, List.zip_map_left, List.map_map]
    rfl
  rw [← hnumbers]
  show (glyphsFrom (f.flags.toNat % 128) f.height.toNat (f.last.toNat + 1 - f.first.toNat)
    (f.glyphs.flatten ++ f.widths) >>= fun glyphs => _) = _
  rw [hglyphs]
  rfl

theorem size_of_mem_characters (f : FontFile) {p : Nat × Picture} (hp : p ∈ f.characters) :
    p.2.width = f.width ∧ p.2.height = f.height.toNat := by
  obtain ⟨data, -, hp⟩ := List.mem_map.1 (List.of_mem_zip hp).2
  rw [← hp]
  exact ⟨rfl, height_decodeGlyph⟩

theorem head?_characters (f : FontFile) : ∃ glyph, f.characters.head? = some (f.first.toNat, glyph) := by
  have hfirst : f.characters.head?.map Prod.fst = some f.first.toNat := by
    have hpos : f.pictures.length ≠ 0 := by
      rw [length_pictures]
      have := f.first_le_last
      omega
    rw [← List.head?_map, map_fst_characters, List.head?_range', if_neg hpos]
  obtain ⟨⟨n, glyph⟩, hhead, rfl⟩ := Option.map_eq_some_iff.1 hfirst
  exact ⟨glyph, hhead⟩

theorem getLast?_characters (f : FontFile) : ∃ glyph, f.characters.getLast? = some (f.last.toNat, glyph) := by
  have hlast : f.characters.getLast?.map Prod.fst = some f.last.toNat := by
    have hle := f.first_le_last
    have hpos : ¬ (f.last.toNat + 1 - f.first.toNat = 0) := by omega
    rw [← List.getLast?_map, map_fst_characters, length_pictures, List.getLast?_range', if_neg hpos]
    exact congrArg some (by omega)
  obtain ⟨⟨n, glyph⟩, hfound, rfl⟩ := Option.map_eq_some_iff.1 hlast
  exact ⟨glyph, hfound⟩

/-- **What comes back from the grid of a font**: the file with its glyphs packed. -/
theorem encode_of_decode (f : FontFile) :
    ∃ grid, Font.decode f.toBytes = .ok grid ∧ Font.encode grid = .ok f.repacked := by
  have hlast : f.last.toNat + 1 ≤ 256 := f.last.toNat_lt
  have hlt : ∀ p ∈ f.characters, p.1 < f.last.toNat + 1 := fun p hp => Nat.lt_succ_of_le (f.fst_le_last hp)
  have hsorted : (f.characters.map Prod.fst).Pairwise (· < ·) := by
    rw [map_fst_characters]
    exact List.pairwise_lt_range'
  have hdistinct : ((f.characters.map fun p => ((p.1 : Int), p.2)).map Prod.fst).Nodup := by
    rw [List.map_map]
    exact List.pairwise_map.2 ((List.pairwise_map.1 hsorted).imp fun h => mt Int.ofNat_inj.1 (Nat.ne_of_lt h))
  obtain ⟨grid, hdraw, hcut⟩ := Grid.glyphs_of_draw (Int.ofNat_le.2 hlast)
    (List.forall_mem_map.2 fun p hp => Int.ofNat_lt.2 (hlt p hp)) (List.forall_mem_map.2 fun p hp => f.drawable hp)
    hdistinct
  simp only [Grid.lookup_map_cast] at hcut
  refine ⟨grid, f.decode_toBytes.trans hdraw, ?_⟩
  have hnumbered := numbered_of_lookup hsorted (fun p hp => Nat.lt_of_lt_of_le (hlt p hp) hlast)
    fun p => ⟨0, 0, p.width, p.height⟩
  obtain ⟨glyph, hhead⟩ := f.head?_characters
  obtain ⟨glyph', hend⟩ := f.getLast?_characters
  obtain ⟨hwidth, hheight⟩ := f.size_of_mem_characters (List.mem_of_head? hhead)
  have hheader : Bytes.ofInts [glyph.width, glyph.height, f.first.toNat, f.last.toNat] =
      .ok [UInt8.ofNat f.width, f.height, f.first, f.last] := by
    have hsmall : (UInt8.ofNat f.width).toNat = f.width :=
      UInt8.toNat_ofNat_of_lt' (Nat.lt_trans (Nat.mod_lt _ (by decide)) (by decide))
    have hbytes := ofInts_toNat [UInt8.ofNat f.width, f.height, f.first, f.last]
    rw [hwidth, hheight]
    rwa [List.map_cons, hsmall] at hbytes
  rw [← hnumbered] at hhead hend
  rw [encode_eq hcut hhead hend hheader, hnumbered, repacked, ← f.length_pictures]
  refine congrArg (fun body => Except.ok ([UInt8.ofNat f.width, f.height, f.first, f.last] ++ body)) ?_
  simp only [characters, lookup_zip_range']
  exact flatMap_range_getElem? encodeGlyph _ f.pictures

section Parts

variable {g : Bytes → Bytes} {parts : List Bytes} (h : ∀ part ∈ parts, (g part).length ≤ part.length)
include h

theorem length_flatMap_le : (parts.flatMap g).length ≤ parts.flatten.length := by
  induction parts with
  | nil => exact Nat.le_refl _
  | cons part parts ih =>
    obtain ⟨hpart, hparts⟩ := List.forall_mem_cons.1 h
    rw [List.flatMap_cons, List.flatten_cons, List.length_append, List.length_append]
    exact Nat.add_le_add hpart (ih hparts)

/-- Parts that do not grow are all the same if they are the same together. -/
theorem flatMap_eq_flatten_iff : parts.flatMap g = parts.flatten ↔ ∀ part ∈ parts, g part = part := by
  refine ⟨fun hsame => ?_, fun hsame => ?_⟩
  · induction parts with
    | nil => exact fun _ hpart => nomatch hpart
    | cons part parts ih =>
      obtain ⟨hpart, hparts⟩ := List.forall_mem_cons.1 h
      have hrest := length_flatMap_le hparts
      rw [List.flatMap_cons, List.flatten_cons] at hsame
      have hlength := congrArg List.length hsame
      rw [List.length_append, List.length_append] at hlength
      obtain ⟨hfirst, hlater⟩ := List.append_inj hsame (by omega)
      exact List.forall_mem_cons.2 ⟨hfirst, ih hparts hlater⟩
  · rw [List.flatMap_congr hsame, List.flatMap_id']

end Parts

theorem isGlyph_width (f : FontFile) {data : Bytes} (hdata : data ∈ f.glyphs) :
    IsGlyph f.width f.height.toNat data :=
  f.isGlyph data hdata

theorem ofNat_width_eq_iff (f : FontFile) : UInt8.ofNat f.width = f.flags ↔ f.flags.toNat < 128 := by
  have hlt : f.width < 128 := Nat.mod_lt _ (by decide)
  have hsmall : (UInt8.ofNat f.width).toNat = f.width := UInt8.toNat_ofNat_of_lt' (Nat.lt_trans hlt (by decide))
  rw [← UInt8.toNat_inj, hsmall]
  exact ⟨fun he => he ▸ hlt, Nat.mod_eq_of_lt⟩

theorem flatMap_encodeGlyph_eq_iff (f : FontFile) :
    f.pictures.flatMap encodeGlyph = f.glyphs.flatten ↔ 8 ∣ f.width ∨
      f.height.toNat * (8 * rowSize f.width - f.width) < 8 ∧
        ∀ data ∈ f.glyphs, ∀ b ∈ data.drop (rowSize f.width), b = 0 := by
  have heach := fun data (hdata : data ∈ f.glyphs) => (f.isGlyph_width hdata).encodeGlyph_eq_iff f.height_bounds.1
  rw [pictures, List.flatMap_map, flatMap_eq_flatten_iff fun data hdata => (f.isGlyph_width hdata).length_encodeGlyph_le]
  constructor
  · intro hsame
    by_cases hfull : 8 ∣ f.width
    · exact .inl hfull
    · have hspare := fun data hdata => ((heach data hdata).1 (hsame data hdata)).resolve_left hfull
      obtain ⟨data, hdata⟩ : ∃ data, data ∈ f.glyphs := by
        refine List.exists_mem_of_length_pos ?_
        have := f.length_glyphs
        have := f.first_le_last
        omega
      exact .inr ⟨(hspare data hdata).1, fun data hdata => (hspare data hdata).2⟩
  · intro hcases data hdata
    exact (heach data hdata).2 (hcases.imp_right fun ⟨hfew, hblank⟩ => ⟨hfew, hblank data hdata⟩)

/-- **When a font comes back as it was**: if it has no table of widths, and if the rows of its glyphs fill their bytes
or have less than a byte of spare bits in all and nothing below the first row. -/
theorem repacked_eq_iff (f : FontFile) :
    f.repacked = f.toBytes ↔ f.flags.toNat < 128 ∧ (8 ∣ f.width ∨
      f.height.toNat * (8 * rowSize f.width - f.width) < 8 ∧
        ∀ data ∈ f.glyphs, ∀ b ∈ data.drop (rowSize f.width), b = 0) := by
  rw [← f.flatMap_encodeGlyph_eq_iff, ← f.ofNat_width_eq_iff]
  -- a file without a table ends with its glyphs
  have hwidths : UInt8.ofNat f.width = f.flags → f.widths = [] := fun he =>
    List.eq_nil_of_length_eq_zero (f.length_widths.trans (if_pos (f.ofNat_width_eq_iff.1 he)))
  constructor
  · intro hsame
    obtain ⟨hflags, hrest⟩ := List.cons.inj hsame
    have hbody : [f.height, f.first, f.last] ++ f.pictures.flatMap encodeGlyph =
        [f.height, f.first, f.last] ++ (f.glyphs.flatten ++ f.widths) := hrest
    rw [hwidths hflags, List.append_nil] at hbody
    exact ⟨hflags, List.append_cancel_left hbody⟩
  · rintro ⟨hflags, hbody⟩
    rw [repacked, toBytes, hwidths hflags, hbody, hflags, List.append_nil]

end FontFile

end AdventureKit
