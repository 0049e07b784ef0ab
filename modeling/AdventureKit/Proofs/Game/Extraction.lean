import AdventureKit.Game.Graphics
import AdventureKit.Proofs.Game.Search
import AdventureKit.Proofs.Paths
import AdventureKit.Proofs.Picture.Frames
import AdventureKit.Proofs.Resource.Layout

/-!
# The pictures that extraction leaves

Every resource has a picture file of its own (`follow_pictureFile_ne`), so a picture that was written stays
when the ones after it are written.  If extraction reads all resources of a file and they lie one behind the
other, then the file is made of pieces, and the picture of each piece is on the disk
(`pictured_of_extractSprites`).
-/

namespace AdventureKit

/-! ## Where pictures are -/

namespace Game

variable {e : Entry} {home : Home} {index : Nat}

/-- The name of a picture in its folder. -/
def pictureName (e : Entry) (home : Home) (index : Nat) : String :=
  e.stem ++ "." ++ home.suffix ++ "_" ++ toString index ++ ".png"

theorem toList_pictureFile (e : Entry) (home : Home) (index : Nat) :
    (pictureFile e home index).toList = graphicsFolder.toList ++ '/' :: (pictureName e home index).toList := by
  have hslash : "/".toList = ['/'] := rfl
  simp only [pictureFile, pictureName, String.toList_append, List.append_assoc, hslash, List.cons_append,
    List.nil_append]

theorem slash_notMem_pictureName (e : Entry) (home : Home) (index : Nat) :
    '/' ∉ (pictureName e home index).toList := by
  have hstem : '/' ∉ e.stem.toList := Path.slash_notMem_stem e.name
  have hsuffix : '/' ∉ home.suffix.toList := by
    cases home with
    | script => decide
    | beside => decide
  have hindex : '/' ∉ (toString index).toList := by
    rw [Nat.toString_eq_ofList_toDigits, String.toList_ofList]
    intro h
    exact absurd (Nat.isDigit_of_mem_toDigits (by decide) (by decide) h) (by decide)
  simp only [pictureName, String.toList_append, List.mem_append, not_or]
  exact ⟨⟨⟨⟨⟨hstem, by decide⟩, hsuffix⟩, by decide⟩, hindex⟩, by decide⟩

theorem pictureName_inj {index' : Nat} (h : pictureName e home index = pictureName e home index') : index = index' := by
  have hlist := congrArg String.toList h
  simp only [pictureName, String.toList_append, List.append_assoc, List.append_cancel_left_eq] at hlist
  have hdigits : Nat.toDigits 10 index = Nat.toDigits 10 index' := by
    simpa [Nat.toString_eq_ofList_toDigits] using List.append_cancel_right hlist
  calc index = Nat.ofDigitChars 10 (Nat.toDigits 10 index) 0 := Nat.ofDigitChars_ten_toDigits.symm
    _ = Nat.ofDigitChars 10 (Nat.toDigits 10 index') 0 := by rw [hdigits]
    _ = index' := Nat.ofDigitChars_ten_toDigits

theorem pictureName_ne (short : String) (h : short.length < 4) : pictureName e home index ≠ short := by
  rintro rfl
  have hending : ".png".length = 4 := rfl
  rw [pictureName, String.length_append, hending] at h
  omega

theorem ofString_pictureFile (e : Entry) (home : Home) (index : Nat) :
    Path.ofString (pictureFile e home index) = ⟨"", [graphicsFolder, pictureName e home index]⟩ := by
  have htext : pictureFile e home index = (⟨"", [graphicsFolder, pictureName e home index]⟩ : Path).toString := by
    rw [Path.toString_eq (List.cons_ne_nil _ _), ← String.toList_inj, toList_pictureFile, String.toList_append,
      Path.toList_intercalate]
    simp only [List.map_cons, List.map_nil, List.intercalate_cons_cons, List.intercalate_singleton,
      List.append_assoc, List.singleton_append, String.toList_empty, List.nil_append]
  have hname : Path.IsPart (pictureName e home index) :=
    ⟨slash_notMem_pictureName e home index, pictureName_ne "" (by decide), pictureName_ne "." (by decide)⟩
  rw [htext]
  refine Path.ofString_toString (by simp) (List.cons_ne_nil _ _) fun part hpart => ?_
  rcases List.mem_cons.1 hpart with rfl | hpart
  · exact ⟨by decide, by decide, by decide⟩
  · rwa [List.mem_singleton.1 hpart]

/-- A path that leads to a picture leads into the folder of pictures. -/
theorem follow_pictureFile {d : Disk} {here place : Place} (h : d.follow here (pictureFile e home index) = .ok place) :
    place = here ++ [graphicsFolder, pictureName e home index] := by
  obtain ⟨path, hpath, hwalk⟩ := bind_eq_ok.1 h
  unfold Disk.pathOf at hpath
  split at hpath
  · cases hpath
  cases hpath
  rw [ofString_pictureFile] at hwalk
  refine Disk.walk_eq_append ?_ hwalk
  simp [graphicsFolder, (pictureName_ne ".." (by decide)).symm]

theorem follow_pictureFile_ne {d : Disk} {here place : Place} {index' : Nat} (hne : index' ≠ index)
    (h : d.follow here (pictureFile e home index) = .ok place) :
    d.follow here (pictureFile e home index') ≠ .ok place := by
  intro h'
  have hplaces := (follow_pictureFile h).symm.trans (follow_pictureFile h')
  rw [List.append_cancel_left_eq, List.cons.injEq, List.cons.injEq] at hplaces
  exact hne (pictureName_inj hplaces.2.1).symm

/-! ## One resource -/

open Resource (Item Contiguous Piece Holds Laid Each)

variable {item : Item} {d d' : Drawing} {s t : Session} {content : Bytes}

/-- A picture that another resource has stays. -/
theorem shows_of_write_pictureFile {index' : Nat} (hne : index' ≠ index) {c : Content} {p : Picture}
    (h : (Work.write (pictureFile e home index) c).run.run s = (.ok (), t))
    (hs : s.Shows (pictureFile e home index') p) : t.Shows (pictureFile e home index') p := by
  refine hs.write_of_ne h ?_
  obtain ⟨place, -, hfollow, -⟩ := Work.run_write_eq_ok h
  rw [hfollow]
  exact follow_pictureFile_ne hne hfollow

/-- The picture of a resource, if it has a frame, is that of its content. -/
def Pictured (e : Entry) (home : Home) (s : Session) (index : Nat) (item : Item) (content : Bytes) : Prop :=
  0 < item.width * item.height → ∃ px, Sprite.Decodes content item.width item.height px ∧
    s.Shows (pictureFile e home index) (Picture.ofPixels item.width item.height px)

theorem writePicture_eq_ok (h : (writePicture e home index item content d).run.run s = (.ok d', t)) :
    d'.cursor = d.cursor ∧
      (∀ j p, j ≠ index → s.Shows (pictureFile e home j) p → t.Shows (pictureFile e home j) p) ∧
      Pictured e home t index item content := by
  unfold writePicture at h
  obtain ⟨log₁, h⟩ := Work.run_say_bind_eq_ok h
  obtain ⟨log₂, h⟩ := Work.run_say_bind_eq_ok h
  obtain ⟨px, log₃, log₄, hdecode, h⟩ := Work.run_ofLogged_bind_eq_ok h
  by_cases hframe : item.width ≠ 0 ∧ item.height ≠ 0
  · simp only [if_pos hframe] at h
    obtain ⟨_, s₂, hwrite, h⟩ := run_bind_eq_ok h
    obtain ⟨log₅, h⟩ := Work.run_say_bind_eq_ok h
    cases h
    refine ⟨rfl, fun j p hj hs => ?_, fun hsize => ⟨px, Sprite.decodes_of_run hsize hdecode, ?_⟩⟩
    · exact Session.shows_withLog.2 (shows_of_write_pictureFile hj hwrite hs)
    · exact Session.shows_withLog.2 (Session.shows_of_write hwrite)
  · have hnone : ¬ 0 < item.width * item.height := by
      intro hsize
      exact hframe ⟨(Nat.pos_of_mul_pos_right hsize).ne', (Nat.pos_of_mul_pos_left hsize).ne'⟩
    simp only [if_neg hframe] at h
    split at h
    · obtain ⟨log₅, h⟩ := Work.run_say_bind_eq_ok h
      cases hpicture : d.picture with
      | none =>
        rw [hpicture] at h
        cases h
        exact ⟨rfl, fun j p _ hs => hs, fun hsize => absurd hsize hnone⟩
      | some picture =>
        rw [hpicture] at h
        obtain ⟨_, s₂, hwrite, h⟩ := run_bind_eq_ok h
        cases h
        exact ⟨rfl, fun j p hj hs => shows_of_write_pictureFile hj hwrite hs, fun hsize => absurd hsize hnone⟩
    · obtain ⟨log₅, h⟩ := Work.run_say_bind_eq_ok h
      cases h
      exact ⟨rfl, fun j p _ hs => hs, fun hsize => absurd hsize hnone⟩

/-- What reading a resource gives, and where it leaves the cursor. -/
inductive Reads (c : Cursor) (item : Item) (content : Bytes) : Cursor → Prop
  | packed {rest : Bytes} (hpacked : item.packed = true) (hread : Lzss.unpackSized c.rest = .ok (content, rest)) :
      Reads c item content ⟨c.data, c.data.size - rest.length⟩
  | plain (hplain : item.packed = false) (hread : c.next item.size = content) : Reads c item content (c.took item.size)

theorem inlineContent_eq_ok {tableSize : Nat} {found : Option Bytes}
    (h : (inlineContent .beside tableSize d item).run.run s = (.ok (found, d'), t)) :
    (d.cursor.pos : Int) = item.offset + tableSize ∧
      (∃ content, found = some content ∧ Reads d.cursor item content d'.cursor) ∧ ∃ log, t = { s with log := log } := by
  unfold inlineContent at h
  obtain ⟨log, h⟩ := Work.run_say_bind_eq_ok h
  by_cases hplace : (d.cursor.pos : Int) ≠ item.offset + tableSize
  · simp only [if_pos hplace] at h
    cases h
  refine ⟨not_ne_iff.1 hplace, ?_⟩
  simp only [if_neg hplace] at h
  cases hpacked : item.packed with
  | true =>
    simp only [hpacked, if_true, if_neg (by decide : ¬ Home.beside = Home.script)] at h
    obtain ⟨⟨content, rest⟩, hread, h⟩ := Work.run_ofExcept_bind_eq_ok h
    cases h
    exact ⟨⟨content, rfl, .packed hpacked hread⟩, log, rfl⟩
  | false =>
    simp only [hpacked, Bool.false_eq_true, if_false] at h
    cases h
    exact ⟨⟨_, rfl, .plain hpacked rfl⟩, log, rfl⟩

theorem sharedContent_eq_ok {shared : SharedFiles} {exNumber : Nat} {found : Option Bytes}
    (h : (sharedContent shared exNumber .beside d item).run.run s = (.ok (found, d'), t)) :
    d' = d ∧ ∃ log, t = { s with log := log } := by
  unfold sharedContent at h
  obtain ⟨log₁, h⟩ := Work.run_say_bind_eq_ok h
  obtain ⟨log₂, h⟩ := Work.run_say_bind_eq_ok h
  obtain ⟨file, -, h⟩ := Work.run_ofExcept_bind_eq_ok h
  by_cases hsize : item.size = 0
  · simp only [if_pos hsize] at h
    cases h
  simp only [if_neg hsize] at h
  obtain ⟨content, -, h⟩ := Work.run_ofExcept_bind_eq_ok h
  split at h
  · obtain ⟨log₃, h⟩ := Work.run_say_bind_eq_ok h
    cases h
    exact ⟨rfl, log₃, rfl⟩
  · cases h
    exact ⟨rfl, log₂, rfl⟩

section Reads

variable {c c' : Cursor}

theorem Reads.data_eq (h : Reads c item content c') : c'.data = c.data := by
  cases h with
  | packed => rfl
  | plain => rfl

theorem Reads.pos_le (h : Reads c item content c') (hc : c.pos ≤ c.data.size) : c'.pos ≤ c'.data.size := by
  cases h with
  | packed => exact Nat.sub_le _ _
  | plain => exact Cursor.pos_took_le hc _

/-- A resource that ends within its size is held by the bytes of its place. -/
theorem Reads.holds (h : Reads c item content c') (hc : c.pos + item.size ≤ c.data.size)
    (hpos : c'.pos ≤ c.pos + item.size) : Holds item.packed (c.next item.size) content := by
  cases h with
  | packed hpacked hread =>
    rename_i rest
    obtain ⟨used, hrest, hused⟩ := Lzss.unpackSized_eq_ok hread
    -- the bytes that were read lie in the place
    have hlength : used.length ≤ item.size := by
      have hall := congrArg List.length hrest
      rw [Cursor.rest_eq_drop, List.length_drop, Array.length_toList, List.length_append] at hall
      dsimp only at hpos
      omega
    rw [Holds, if_pos hpacked]
    intro more
    have hnext : c.next item.size = used ++ rest.take (item.size - used.length) := by
      rw [Cursor.next_eq_take, ← Cursor.rest_eq_drop, hrest, List.take_append, List.take_of_length_le hlength]
    rw [hnext, List.append_assoc]
    exact ⟨_, hused _⟩
  | plain hplain hread =>
    rw [Holds, hplain, if_neg (by decide)]
    exact hread.symm

end Reads

/-- Draws one resource. -/
def drawItem (e : Entry) (shared : SharedFiles) (exNumber : Nat) (home : Home) (tableSize : Nat) (d : Drawing)
    (numberedItem : Nat × Item) : Work Drawing := do
  let (content, d) ←
    if numberedItem.2.offset < 0 then sharedContent shared exNumber home d numberedItem.2
    else inlineContent home tableSize d numberedItem.2
  match content with
  | none => return d
  | some content => writePicture e home numberedItem.1 numberedItem.2 content d

theorem writePictures_eq {shared : SharedFiles} {exNumber : Nat} {resources : Bytes} {items : List Item} {c : Cursor}
    (h : Resource.readTable (Cursor.ofBytes resources) = (.ok items, c)) :
    writePictures e shared exNumber d home resources =
      (Resource.numbered 0 items).foldlM (drawItem e shared exNumber home c.pos) { d with cursor := c } := by
  unfold writePictures
  rw [h, ← Resource.mapIdx_eq_numbered]
  rfl

variable {shared : SharedFiles} {exNumber tableSize : Nat}

/-- What drawing one resource does. -/
structure Drawn (e : Entry) (tableSize index : Nat) (item : Item) (d d' : Drawing) (s t : Session) : Prop where
  data_eq : d'.cursor.data = d.cursor.data
  others : ∀ j p, j ≠ index → s.Shows (pictureFile e .beside j) p → t.Shows (pictureFile e .beside j) p
  shared : item.offset < 0 → d'.cursor = d.cursor
  inline : 0 ≤ item.offset → (d.cursor.pos : Int) = item.offset + tableSize ∧
    ∃ content, Reads d.cursor item content d'.cursor ∧ Pictured e .beside t index item content

theorem drawn_of_drawItem
    (h : (drawItem e shared exNumber .beside tableSize d (index, item)).run.run s = (.ok d', t)) :
    Drawn e tableSize index item d d' s t := by
  unfold drawItem at h
  by_cases hshared : item.offset < 0
  · simp only [if_pos hshared] at h
    obtain ⟨⟨found, d₁⟩, u, hfound, h⟩ := run_bind_eq_ok h
    obtain ⟨rfl, log, rfl⟩ := sharedContent_eq_ok hfound
    cases found with
    | none =>
      cases h
      exact ⟨rfl, fun _ _ _ hs => hs, fun _ => rfl, fun hinline => absurd hshared (by omega)⟩
    | some content =>
      obtain ⟨hcursor, hothers, -⟩ := writePicture_eq_ok h
      exact ⟨congrArg _ hcursor, hothers, fun _ => hcursor, fun hinline => absurd hshared (by omega)⟩
  · simp only [if_neg hshared] at h
    obtain ⟨⟨found, d₁⟩, u, hfound, h⟩ := run_bind_eq_ok h
    obtain ⟨hplace, ⟨content, rfl, hreads⟩, log, rfl⟩ := inlineContent_eq_ok hfound
    obtain ⟨hcursor, hothers, hpicture⟩ := writePicture_eq_ok h
    rw [← hcursor] at hreads
    exact ⟨hreads.data_eq, hothers, fun h => absurd h hshared, fun _ => ⟨hplace, content, hreads, hpicture⟩⟩

/-! ## All resources -/

variable {items : List Item} {k place stop : Nat}

/-- If all resources can be read, then reading stands at or before the place of the next one. -/
theorem pos_le_of_draw (hcontiguous : Contiguous place items stop) (hsize : d.cursor.data.size = tableSize + stop)
    (hpos : d.cursor.pos ≤ d.cursor.data.size)
    (h : ((Resource.numbered k items).foldlM (drawItem e shared exNumber .beside tableSize) d).run.run s =
      (.ok d', t)) :
    d.cursor.pos ≤ tableSize + place := by
  induction items generalizing k d s with
  | nil =>
    have hstop : place = stop := hcontiguous
    omega
  | cons item items ih =>
    rw [Resource.numbered, List.foldlM_cons] at h
    obtain ⟨d₁, s₁, hitem, h⟩ := run_bind_eq_ok h
    have hdrawn := drawn_of_drawItem hitem
    rw [Contiguous] at hcontiguous
    split at hcontiguous
    · rename_i hshared
      have hcursor := hdrawn.shared hshared
      rw [← hcursor]
      exact ih hcontiguous (by rw [hcursor]; exact hsize) (by rw [hcursor]; exact hpos) h
    · rename_i hinline
      have hplace := (hdrawn.inline (by omega)).1
      omega

/-- Extraction leaves the pictures of all resources. -/
theorem pictured_of_draw {file : Bytes} (hcontiguous : Contiguous place items stop)
    (hstop : file.length = tableSize + stop) (hdata : d.cursor.data = file.toArray)
    (hpos : d.cursor.pos ≤ file.length)
    (h : ((Resource.numbered k items).foldlM (drawItem e shared exNumber .beside tableSize) d).run.run s =
      (.ok d', t)) :
    (∀ j p, j < k → s.Shows (pictureFile e .beside j) p → t.Shows (pictureFile e .beside j) p) ∧
      ∃ pieces, Laid place items pieces ∧ pieces.flatMap Piece.stored = file.drop (tableSize + place) ∧
        Each (fun index item piece => Pictured e .beside t index item piece.content) k items pieces := by
  induction items generalizing k d s place with
  | nil =>
    have hplace : place = stop := hcontiguous
    cases h
    refine ⟨fun _ _ _ hs => hs, [], .nil place, ?_, trivial⟩
    rw [hplace, ← hstop, List.drop_length]
    rfl
  | cons item items ih =>
    rw [Resource.numbered, List.foldlM_cons] at h
    obtain ⟨d₁, s₁, hitem, h⟩ := run_bind_eq_ok h
    have hdrawn := drawn_of_drawItem hitem
    have hdata₁ : d₁.cursor.data = file.toArray := hdrawn.data_eq.trans hdata
    rw [Contiguous] at hcontiguous
    split at hcontiguous
    · rename_i hshared
      obtain ⟨hothers, pieces, hlaid, hstored, hpictured⟩ :=
        ih hcontiguous hdata₁ (by rw [hdrawn.shared hshared]; exact hpos) h
      exact ⟨fun j p hj hs => hothers j p (by omega) (hdrawn.others j p (by omega) hs), _, .shared hshared hlaid,
        hstored, fun hin => absurd hshared (by omega), hpictured⟩
    · rename_i hinline
      obtain ⟨hoffset, hlater⟩ := hcontiguous
      obtain ⟨hplace, content, hreads, hpicture⟩ := hdrawn.inline (by omega)
      have hcursor : d.cursor.pos = tableSize + place := by omega
      have hsize : d.cursor.data.size = file.length := by rw [hdata, List.size_toArray]
      have hsize₁ : d₁.cursor.data.size = file.length := by rw [hdata₁, List.size_toArray]
      have hpos₁ : d₁.cursor.pos ≤ d₁.cursor.data.size := hreads.pos_le (by omega)
      -- the bytes of the resource are all there, and reading it stopped before the next one
      have hle := hlater.le
      have hbefore := pos_le_of_draw hlater (hsize₁.trans hstop) hpos₁ h
      obtain ⟨hothers, pieces, hlaid, hstored, hpictured⟩ := ih hlater hdata₁ (by omega) h
      have hnext : d.cursor.next item.size = (file.drop (tableSize + place)).take item.size := by
        rw [Cursor.next_eq_take, hdata, hcursor]
      have hlength : (d.cursor.next item.size).length = item.size := by
        rw [hnext, List.length_take, List.length_drop]
        omega
      refine ⟨fun j p hj hs => hothers j p (by omega) (hdrawn.others j p (by omega) hs),
        ⟨d.cursor.next item.size, content⟩ :: pieces,
        .inline hoffset hlength (hreads.holds (by omega) (by omega)) hlaid, ?_, ?_⟩
      · have hbehind :
            file.drop (tableSize + (place + item.size)) = (file.drop (tableSize + place)).drop item.size := by
          rw [List.drop_drop, Nat.add_assoc]
        rw [List.flatMap_cons, hstored, hbehind, hnext, List.take_append_drop]
      · refine ⟨fun _ hframe => ?_, hpictured⟩
        obtain ⟨px, hdecodes, hshows⟩ := hpicture hframe
        exact ⟨px, hdecodes, hothers k _ (by omega) hshows⟩

/-- The resources of the script all lie in the file beside it. -/
def Beside (game : Game) (e : Entry) (file : Bytes) (s : Session) : Prop :=
  ∃ imNumber exNumber, ((game.belongings e).run.run s).1 = .ok ⟨[(.beside, file)], file, imNumber, exNumber⟩

theorem pictured_of_extractSprites {game : Game} {file : Bytes} {c : Cursor} (hbeside : Beside game e file s)
    (htable : Resource.readTable (Cursor.ofBytes file) = (.ok items, c))
    (hcontiguous : Contiguous 0 items (file.length - c.pos)) (h : (game.extractSprites e).run.run s = (.ok (), t)) :
    ∃ pieces, Laid 0 items pieces ∧ pieces.flatMap Piece.stored = file.drop c.pos ∧
      Each (fun index item piece => Pictured e .beside t index item piece.content) 0 items pieces := by
  obtain ⟨imNumber, exNumber, hbelongings⟩ := hbeside
  unfold extractSprites at h
  rw [run_bind_of_ok ((still_belongings game e).run_eq hbelongings)] at h
  obtain ⟨ex, -, h⟩ := (still_contents game _).run_bind_eq_ok h
  obtain ⟨im, -, h⟩ := (still_contents game _).run_bind_eq_ok h
  obtain ⟨d', u, hwrite, h⟩ := run_bind_eq_ok h
  cases h
  rw [List.foldlM_cons] at hwrite
  obtain ⟨d₁, u, hwrite, h⟩ := run_bind_eq_ok hwrite
  cases h
  dsimp only at hwrite
  rw [writePictures_eq htable] at hwrite
  obtain ⟨-, -, -, -, hdata, hpos⟩ := Resource.readTable_eq_ok htable
  exact (pictured_of_draw hcontiguous (by omega) hdata hpos hwrite).2

end Game

end AdventureKit
