import AdventureKit.Game.Fonts
import AdventureKit.Proofs.Game.Patch
import AdventureKit.Proofs.Picture.FontFile

/-!
# Fonts of a game

The picture of a font that is taken back as it was written patches the font with its glyphs packed
(`run_injectFont_of_writeFont`); this is the font itself only under the conditions of `FontFile.repacked_eq_iff`.

The picture itself loses nothing: a grid of glyphs that is drawn and cut again gives every glyph back
(`grid_gives_glyphs_back`).
-/

namespace AdventureKit.Game

variable {s : Session} {e : Entry}

/-- A font is written as a picture, and taken back from it as the repacked font. -/
theorem run_injectFont_of_writeFont (f : FontFile) {place : Place} (hread : (e.read.run.run s).1 = .ok f.toBytes)
    (hfollow : s.follow (fontPicture e) = .ok place) (hfree : s.disk.isFolder place = false)
    (patches : Table (String × String) Bytes) :
    ∃ t, (writeFont e).run.run s = (.ok (), t) ∧ (injectFont { items := patches } e).run.run t =
      (.ok { items := patches.put (e.name, e.name) f.repacked }, t) := by
  obtain ⟨grid, hdecode, hencode⟩ := f.encode_of_decode
  obtain ⟨d, hwrite⟩ : ∃ d, s.disk.write place (.picture grid Palette.glyphs) = .ok d := by
    rw [Disk.write, if_neg (Bool.eq_false_iff.1 hfree)]
    exact ⟨_, rfl⟩
  have hwritten := Work.run_write hfollow hwrite
  refine ⟨{ s with disk := d }, ?_, ?_⟩
  · unfold writeFont
    rw [run_bind_of_ok (e.still_read.run_eq hread), hdecode, Work.ofExcept_ok, pure_bind]
    exact hwritten
  · have hhas : d.has place = true := by
      rw [(Disk.write_eq_ok hwrite).2, Disk.has, Bool.or_eq_true, Table.has_iff]
      exact .inr (Table.mem_keys_put.2 (.inl rfl))
    have hthere := Work.run_has (Session.follow_of_write hfollow hwrite)
    rw [hhas] at hthere
    unfold injectFont
    rw [run_bind_of_ok hthere, if_pos rfl, run_bind_of_ok (Session.shows_of_write hwritten).run_readPicture, hencode,
      Work.ofExcept_ok, pure_bind, Patching.add_of_unrestricted]
    rfl

/-- **When a font survives extraction and injection.**  The picture of a font can always be written and taken back, and
patches the font with its header and its glyphs, packed one after the other.  These are the bytes that the font had
exactly if it has no table of widths, and if its rows fill their bytes or have less than a byte of spare bits in all and
nothing below the first row. -/
theorem font_survives_iff (f : FontFile) {place : Place} (hread : (e.read.run.run s).1 = .ok f.toBytes)
    (hfollow : s.follow (fontPicture e) = .ok place) (hfree : s.disk.isFolder place = false)
    (patches : Table (String × String) Bytes) :
    ∃ t new, (writeFont e).run.run s = (.ok (), t) ∧
      (injectFont { items := patches } e).run.run t = (.ok { items := patches.put (e.name, e.name) new }, t) ∧
      new = [UInt8.ofNat f.width, f.height, f.first, f.last] ++
        f.glyphs.flatMap (fun data => Font.encodeGlyph (Font.decodeGlyph f.width f.height.toNat data)) ∧
      (new = f.toBytes ↔ f.flags.toNat < 128 ∧ (8 ∣ f.width ∨
        f.height.toNat * (8 * Font.rowSize f.width - f.width) < 8 ∧
          ∀ data ∈ f.glyphs, ∀ b ∈ data.drop (Font.rowSize f.width), b = 0)) := by
  obtain ⟨t, hwrite, hinject⟩ := run_injectFont_of_writeFont f hread hfollow hfree patches
  refine ⟨t, f.repacked, hwrite, hinject, ?_, f.repacked_eq_iff⟩
  rw [FontFile.repacked, FontFile.pictures, List.flatMap_map]

/-- A game with the font `A.FNT`, and a folder for its picture. -/
def fontSession (font : Bytes) : Session :=
  .start ⟨[["game"], ["work"], ["work", "fonts"]], [(["game", "A.FNT"], .data font)]⟩ ["work"] ⟨1, 1, 2000, 0, 0, 0⟩

/-- Two characters of one row of twelve pixels. -/
def flatFont : FontFile where
  flags := 12
  height := 1
  first := 65
  last := 66
  glyphs := [[0xAB, 0xC0], [0x01, 0x30]]
  widths := []
  width_bounds := by decide
  height_bounds := by decide
  first_le_last := by decide
  length_glyphs := rfl
  isGlyph := List.forall_mem_cons.2 ⟨⟨rfl, by decide +kernel⟩,
    List.forall_mem_cons.2 ⟨⟨rfl, by decide +kernel⟩, nofun⟩⟩
  length_widths := rfl

theorem font_survives_iff_flat :
    ∃ t, (writeFont (.loose "../game" "A.FNT")).run.run (fontSession [12, 1, 65, 66, 0xAB, 0xC0, 0x01, 0x30]) = (.ok (), t) ∧
      (injectFont {} (.loose "../game" "A.FNT")).run.run t =
        (.ok { items := [(("A.FNT", "A.FNT"), [12, 1, 65, 66, 0xAB, 0xC0, 0x01, 0x30])] }, t) := by
  have hread : ((Entry.loose "../game" "A.FNT").read.run.run (fontSession flatFont.toBytes)).1 = .ok flatFont.toBytes :=
    eq_ok_of_toOption (by decide +kernel)
  have hfollow : (fontSession flatFont.toBytes).follow (fontPicture (.loose "../game" "A.FNT")) =
      .ok ["work", "fonts", "A.FNT.png"] :=
    eq_ok_of_toOption (by decide +kernel)
  obtain ⟨t, new, hwrite, hinject, -, hiff⟩ := font_survives_iff flatFont hread hfollow (by decide) []
  rw [hiff.2 (by decide +kernel)] at hinject
  exact ⟨t, hwrite, hinject⟩

/-- One character of two rows of four pixels. -/
def narrowFont : FontFile where
  flags := 4
  height := 2
  first := 65
  last := 65
  glyphs := [[0xF0, 0xF0]]
  widths := []
  width_bounds := by decide
  height_bounds := by decide
  first_le_last := by decide
  length_glyphs := rfl
  isGlyph := List.forall_mem_cons.2 ⟨⟨rfl, by decide +kernel⟩, nofun⟩
  length_widths := rfl

/-- A font of two rows of four pixels comes back with both rows in one byte. -/
theorem font_loses_rows :
    ∃ t, (writeFont (.loose "../game" "A.FNT")).run.run (fontSession [4, 2, 65, 65, 0xF0, 0xF0]) = (.ok (), t) ∧
      (injectFont {} (.loose "../game" "A.FNT")).run.run t =
        (.ok { items := [(("A.FNT", "A.FNT"), [4, 2, 65, 65, 0xFF])] }, t) := by
  have hread : ((Entry.loose "../game" "A.FNT").read.run.run (fontSession narrowFont.toBytes)).1 = .ok narrowFont.toBytes :=
    eq_ok_of_toOption (by decide +kernel)
  have hfollow : (fontSession narrowFont.toBytes).follow (fontPicture (.loose "../game" "A.FNT")) =
      .ok ["work", "fonts", "A.FNT.png"] :=
    eq_ok_of_toOption (by decide +kernel)
  have hpacked : narrowFont.repacked = [4, 2, 65, 65, 0xFF] := by
    have hglyph : Font.encodeGlyph (Font.decodeGlyph 4 2 [0xF0, 0xF0]) = [0xFF] :=
      (Font.packBits_eq_iff Font.isBits_pixels _).2 (by decide)
    show [4, 2, 65, 65] ++ (Font.encodeGlyph (Font.decodeGlyph 4 2 [0xF0, 0xF0]) ++ []) = _
    rw [hglyph]
    rfl
  obtain ⟨t, hwrite, hinject⟩ := run_injectFont_of_writeFont narrowFont hread hfollow (by decide) []
  rw [hpacked] at hinject
  exact ⟨t, hwrite, hinject⟩

/-! ## Grids -/

/-- **A grid gives every glyph back.**  Let pictures of zeros and ones have different numbers below `count`, which is
256 at most, and let each be between 1 and 48 pixels wide and high, but not 48 both ways.  Their grid can be drawn and is
cut into 256 tiles: a tile with the number of a picture holds exactly this picture, at the place where glyphs start, and
every other tile is empty. -/
theorem grid_gives_glyphs_back {count : Int} {family : List (Int × Picture)} (hcount : count ≤ 256)
    (hlt : ∀ p ∈ family, p.1 < count) (hdistinct : (family.map Prod.fst).Nodup)
    (hdrawable : ∀ p ∈ family, Grid.Drawable p.2) :
    ∃ grid tiles, ({} : Grid).draw count family = .ok grid ∧
      ({} : Grid).glyphs grid = .ok tiles ∧ tiles.length = 256 ∧
      (∀ (n : Nat) (p : Picture), ((n : Int), p) ∈ family → tiles[n]? = some (some (⟨0, 0, p.width, p.height⟩, p))) ∧
      ∀ n : Nat, n < 256 → (n : Int) ∉ family.map Prod.fst → tiles[n]? = some none := by
  obtain ⟨grid, hdraw, hcut⟩ := Grid.glyphs_of_draw hcount hlt hdrawable hdistinct
  refine ⟨grid, _, hdraw, hcut, by simp, ?_, ?_⟩
  · intro n p hmem
    have hn : n < 256 := by
      have hsmall : (n : Int) < count := hlt _ hmem
      omega
    have hfound : family.lookup (n : Int) = some p := Table.get?_of_mem hdistinct hmem
    rw [List.getElem?_map, List.getElem?_range hn, Option.map_some, hfound, Option.map_some]
  · intro n hn hnone
    have hmissing : family.lookup (n : Int) = none := Table.get?_eq_none_iff.2 hnone
    rw [List.getElem?_map, List.getElem?_range hn, Option.map_some, hmissing, Option.map_none]

/-- A blank glyph that reaches the side of its tile, and one pixel two tiles further. -/
theorem grid_gives_glyphs_back_edge :
    ∃ grid tiles, ({} : Grid).draw 3 [(0, ⟨48, [List.replicate 48 0]⟩), (2, ⟨1, [[1]]⟩)] = .ok grid ∧
      ({} : Grid).glyphs grid = .ok tiles ∧ tiles[0]? = some (some (⟨0, 0, 48, 1⟩, ⟨48, [List.replicate 48 0]⟩)) ∧
      tiles[1]? = some none ∧ tiles[2]? = some (some (⟨0, 0, 1, 1⟩, ⟨1, [[1]]⟩)) := by
  have hblank : Grid.Drawable ⟨48, [List.replicate 48 0]⟩ :=
    ⟨by simp [Picture.Rectangular], by decide, by decide, by decide, by simp⟩
  have hpixel : Grid.Drawable ⟨1, [[1]]⟩ := ⟨by simp [Picture.Rectangular], by decide, by decide, by decide, by simp⟩
  obtain ⟨grid, tiles, hdraw, hcut, -, hfound, hempty⟩ :=
    @grid_gives_glyphs_back 3 [(0, ⟨48, [List.replicate 48 0]⟩), (2, ⟨1, [[1]]⟩)] (by decide) (by simp) (by decide)
      (List.forall_mem_cons.2 ⟨hblank, List.forall_mem_cons.2 ⟨hpixel, nofun⟩⟩)
  exact ⟨grid, tiles, hdraw, hcut, hfound 0 ⟨48, [List.replicate 48 0]⟩ List.mem_cons_self,
    hempty 1 (by decide) (by decide), hfound 2 ⟨1, [[1]]⟩ (List.mem_cons_of_mem _ List.mem_cons_self)⟩

end AdventureKit.Game
