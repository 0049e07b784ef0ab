import AdventureKit.Proofs.Game.Extraction
import AdventureKit.Proofs.Game.Patch
import AdventureKit.Proofs.Lzss.Chunks

/-!
# Taking unchanged pictures back

A script has all its resources in a file beside it, their pictures were extracted, and those that are there have not
been edited.  Taking them back goes through the items of the table and builds a new file: an item without a picture
keeps its bytes, and the content of a packed item with one is packed again, so that its size and all later offsets
may change.  `takeOver_cases` is the step, `refitItems_cases` the run over the table, and
`injectSprites_unchanged_iff` the result: the new file has the same resources just if every packed content can be
packed, and else there is no new file.
-/

namespace AdventureKit.Game

open Resource (Item Contiguous Piece Holds Laid Each SameItem SameResources)

variable {e : Entry} {index tableSize : Nat} {item : Item} {r : Refit} {s : Session} {content stored px : Bytes}

/-! ## One resource -/

/-- The item of a resource that was moved. -/
def moved (item : Item) (place size : Nat) : Item :=
  { item with offset := place, size := size }

theorem fits_moved (h : item.Fits) {place size : Nat} (hplace : place < 0x80000000) (hsize : size < 0x10000) :
    (moved item place size).Fits := by
  refine ⟨?_, hsize, h.width, h.height⟩
  show -0x80000000 ≤ (place : Int) ∧ (place : Int) < 0x80000000
  omega

/-- The file under way with one more resource. -/
def Refit.grown (r : Refit) (item : Item) (content : Bytes) : Refit :=
  { r with
    table := r.table ++ (moved item r.contents.length content.length).fields
    contents := r.contents ++ content }

theorem Refit.add_eq (h : item.Fits) (hplace : r.contents.length < 0x80000000) (hsize : content.length < 0x10000) :
    r.add item content = .ok (r.grown item content) := by
  have hbytes := (fits_moved h hplace hsize).bytes_eq
  unfold Refit.add
  rw [moved] at hbytes
  rw [hbytes]
  rfl

theorem Refit.add_of_large (r : Refit) (item : Item) (h : 0x10000 ≤ content.length) :
    ∃ fault, r.add item content = .error fault := by
  have hlarge : 0x10000 ≤ (moved item r.contents.length content.length).size := h
  obtain ⟨fault, hbytes⟩ := Item.bytes_of_large hlarge
  unfold Refit.add
  rw [moved] at hbytes
  rw [hbytes]
  exact ⟨fault, rfl⟩

/-- The pixels that a sprite has leave it as it is. -/
theorem run_editedSprite (h : Sprite.Decodes content item.width item.height px) :
    ∃ remark, ∀ log, (editedSprite content px item).run.run log = (.ok content, log ++ remark) := by
  obtain ⟨remark, hrun⟩ := h.run
  refine ⟨remark, fun log => ?_⟩
  unfold editedSprite
  rw [run_bind_of_ok (hrun log)]
  simp only [beq_self_eq_true, if_true]
  rfl

/-- Takes one resource over that was read. -/
def takeOver (e : Entry) (r : Refit) (index : Nat) (item : Item) (content stored : Bytes) : Work Refit := do
  let file := pictureFile e .beside index
  if (← Work.has file) ∧ item.width ≠ 0 ∧ item.height ≠ 0 then
    let px := (← Work.readPicture file).pixels
    let content ← Work.ofLogged (editedSprite content px item)
    let content ← if item.packed then Work.ofExcept (Lzss.pack content) else pure content
    Work.ofExcept (r.add item content)
  else Work.ofExcept (r.add item stored)

/-- What the bytes of a resource are read as: a packed one is unpacked, and may then end elsewhere. -/
def ReadsAs (item : Item) (rest stored content : Bytes) : Prop :=
  if item.packed then ∃ behind, Lzss.unpackSized rest = .ok (content, behind) else content = stored

/-- A shared resource keeps its record, wherever the others lie. -/
theorem run_refitItem_shared (home : Home) (hoffset : item.offset < 0) (hitem : item.Fits) :
    (refitItem e home tableSize r index item).run.run s = (.ok { r with table := r.table ++ item.fields }, s) := by
  unfold refitItem
  rw [if_pos hoffset, hitem.bytes_eq]
  rfl

theorem refitItem_inline (hin : 0 ≤ item.offset) (hplace : (r.cursor.pos : Int) = item.offset + tableSize)
    {behind : Bytes} (hrest : r.cursor.rest = stored ++ behind) (hsize : stored.length = item.size)
    (hreads : ReadsAs item r.cursor.rest stored content) :
    refitItem e .beside tableSize r index item =
      takeOver e { r with cursor := r.cursor.took item.size } index item content stored := by
  have hread : r.cursor.read item.size = (stored, r.cursor.took item.size) := by
    rw [Cursor.read_eq, Cursor.next_of_rest hrest hsize]
  have hshared : ¬ item.offset < 0 := by omega
  have hhome : ¬ (item.packed = true ∧ Home.beside = Home.script) := by simp
  unfold refitItem
  simp only [if_neg hshared, if_neg (not_ne_iff.2 hplace), if_neg hhome, hread]
  unfold ReadsAs at hreads
  cases hpacked : item.packed with
  | true =>
    rw [hpacked, if_pos rfl] at hreads
    obtain ⟨behind', hunpack⟩ := hreads
    simp only [takeOver, hpacked, if_true, hunpack, Work.ofExcept_ok, map_pure, pure_bind]
  | false =>
    rw [hpacked, if_neg (by decide)] at hreads
    simp only [takeOver, hpacked, Bool.false_eq_true, if_false, hreads, pure_bind]

theorem run_refitItem_inline (hin : 0 ≤ item.offset) (hplace : (r.cursor.pos : Int) = item.offset + tableSize)
    {piece : Piece} {behind : Bytes} (hrest : r.cursor.rest = piece.stored ++ behind)
    (hsize : piece.stored.length = item.size) (hholds : Holds item.packed piece.stored piece.content) :
    refitItem e .beside tableSize r index item =
      takeOver e { r with cursor := r.cursor.took item.size } index item piece.content piece.stored := by
  refine refitItem_inline hin hplace hrest hsize ?_
  unfold ReadsAs
  unfold Holds at hholds
  split
  · rename_i hpacked
    rw [if_pos hpacked] at hholds
    rw [hrest]
    exact hholds behind
  · rename_i hpacked
    rw [if_neg hpacked] at hholds
    exact hholds

/-- A resource can be taken over: its picture can be looked for, and if a packed resource has one, then its
content can be packed, into a size that the table has room for. -/
def Takes (e : Entry) (s : Session) (index : Nat) (item : Item) (content : Bytes) : Prop :=
  ∃ there, ((Work.has (pictureFile e .beside index)).run.run s).1 = .ok there ∧
    (there = true → 0 < item.width * item.height → item.packed = true →
      ∃ out, Lzss.pack content = .ok out ∧ out.length < 0x10000)

theorem Takes.exists_pack (h : Takes e s index item content)
    (hhas : ((Work.has (pictureFile e .beside index)).run.run s).1 = .ok true) (hframe : 0 < item.width * item.height)
    (hpacked : item.packed = true) : ∃ out, Lzss.pack content = .ok out ∧ out.length < 0x10000 := by
  obtain ⟨there, hthere, htakes⟩ := h
  rw [hhas] at hthere
  cases hthere
  exact htakes rfl hframe hpacked

/-- The picture of a resource, if it is there, is that of its content. -/
def Unchanged (e : Entry) (s : Session) (index : Nat) (item : Item) (piece : Piece) : Prop :=
  ((Work.has (pictureFile e .beside index)).run.run s).1 = .ok true → Pictured e .beside s index item piece.content

/-- Remarks do not matter. -/
theorem takes_withLog {log : String} :
    Takes e { s with log := log } index item content ↔ Takes e s index item content := by
  unfold Takes
  rw [Work.has_withLog]

theorem unchanged_withLog {log : String} {piece : Piece} :
    Unchanged e { s with log := log } index item piece ↔ Unchanged e s index item piece := by
  unfold Unchanged
  rw [Work.has_withLog]
  rfl

/-- Content is packed and added just if it can be packed into a size that the table has room for. -/
theorem repack_cases (hfits : item.Fits) (hplace : r.contents.length < 0x80000000) (content : Bytes) (s : Session) :
    ((¬ ∃ out, Lzss.pack content = .ok out ∧ out.length < 0x10000) ∧
      ∃ fault, (Work.ofExcept (Lzss.pack content) >>= fun out => Work.ofExcept (r.add item out)).run.run s =
        (.error fault, s)) ∨
    (∃ out, Lzss.pack content = .ok out ∧ out.length < 0x10000 ∧
      (Work.ofExcept (Lzss.pack content) >>= fun out => Work.ofExcept (r.add item out)).run.run s =
        (.ok (r.grown item out), s)) := by
  rcases hpack : Lzss.pack content with fault | out
  · left
    refine ⟨?_, fault, rfl⟩
    rintro ⟨out, hout, -⟩
    cases hout
  rw [Work.ofExcept_ok, pure_bind]
  rcases Nat.lt_or_ge out.length 0x10000 with hsmall | hlarge
  · rw [Refit.add_eq hfits hplace hsmall]
    exact .inr ⟨out, rfl, hsmall, rfl⟩
  · obtain ⟨fault, hadd⟩ := Refit.add_of_large r item hlarge
    rw [hadd]
    left
    refine ⟨?_, fault, rfl⟩
    rintro ⟨out', hout, hsmall⟩
    cases hout
    omega

/-- Packing decides whether an unchanged resource is taken over. -/
theorem takeOver_cases {piece : Piece} (hfits : item.Fits) (hplace : r.contents.length < 0x80000000)
    (hsize : piece.stored.length < 0x10000) (hholds : Holds item.packed piece.stored piece.content)
    (hunchanged : Unchanged e s index item piece) :
    (¬ Takes e s index item piece.content ∧
      ∃ fault t, (takeOver e r index item piece.content piece.stored).run.run s = (.error fault, t)) ∨
    (Takes e s index item piece.content ∧
      ∃ stored log, Holds item.packed stored piece.content ∧ stored.length < 0x10000 ∧
        (takeOver e r index item piece.content piece.stored).run.run s =
          (.ok (r.grown item stored), { s with log := log })) := by
  obtain ⟨stored, content⟩ := piece
  dsimp only at hsize hholds ⊢
  unfold takeOver
  rcases hhas : ((Work.has (pictureFile e .beside index)).run.run s).1 with fault | there
  · left
    refine ⟨?_, fault, s, run_bind_of_error ((Work.still_has _).run_eq hhas)⟩
    rintro ⟨there, hthere, -⟩
    rw [hhas] at hthere
    cases hthere
  rw [run_bind_of_ok ((Work.still_has _).run_eq hhas)]
  by_cases hdraw : there = true ∧ item.width ≠ 0 ∧ item.height ≠ 0
  · obtain ⟨rfl, hwidth, hheight⟩ := hdraw
    have hframe : 0 < item.width * item.height := Nat.mul_pos (by omega) (by omega)
    -- the picture gives the content back, so only packing it again can fail
    obtain ⟨px, hdecodes, hshows⟩ := hunchanged hhas hframe
    obtain ⟨remark, hedit⟩ := run_editedSprite hdecodes
    have hlogged : (Work.ofLogged (editedSprite content px item)).run.run s =
        (.ok content, { s with log := s.log ++ remark }) := by
      rw [Work.run_ofLogged, hedit]
    simp only [hwidth, hheight, ne_eq, not_false_eq_true, and_self, if_true]
    rw [run_bind_of_ok hshows.run_readPicture, Picture.pixels_ofPixels hdecodes.length, run_bind_of_ok hlogged]
    cases hpacked : item.packed with
    | false =>
      rw [Holds, hpacked, if_neg (by decide)] at hholds
      rw [if_neg (by decide), pure_bind, hholds, Refit.add_eq hfits hplace hsize]
      right
      exact ⟨⟨true, hhas, fun _ _ h => by rw [hpacked] at h; cases h⟩, stored, _, rfl, hsize, rfl⟩
    | true =>
      rw [if_pos rfl]
      rcases repack_cases hfits hplace content { s with log := s.log ++ remark } with
        ⟨hnone, fault, hrun⟩ | ⟨out, hpack, hsmall, hrun⟩
      · exact .inl ⟨fun htakes => hnone (htakes.exists_pack hhas hframe hpacked), fault, _, hrun⟩
      · obtain ⟨rest, hunpack⟩ := Lzss.unpackSized_of_pack hpack
        exact .inr ⟨⟨true, hhas, fun _ _ _ => ⟨out, hpack, hsmall⟩⟩, out, _, Resource.holds_of_unpackSized hunpack,
          hsmall, hrun⟩
  · simp only [if_neg hdraw]
    rw [Refit.add_eq hfits hplace hsize]
    right
    refine ⟨⟨there, hhas, fun hthere hframe => ?_⟩, stored, s.log, hholds, hsize, rfl⟩
    exact absurd ⟨hthere, Nat.mul_ne_zero_iff.1 hframe.ne'⟩ hdraw

/-! ## All resources -/

variable {items : List Item} {pieces : List Piece} {k place : Nat}

/-- The file under way has taken resources over, each with its content. -/
structure Taken (items : List Item) (pieces : List Piece) (r r' : Refit) (items' : List Item) (pieces' : List Piece) :
    Prop where
  same : List.Forall₂ SameItem items items'
  fits : ∀ item ∈ items', item.Fits
  laid : Laid r.contents.length items' pieces'
  contents_eq : pieces'.map Piece.content = pieces.map Piece.content
  table_eq : r'.table = r.table ++ items'.flatMap Item.fields
  stored_eq : r'.contents = r.contents ++ pieces'.flatMap Piece.stored

section Taken

variable {r' : Refit} {items' : List Item} {pieces' : List Piece}

theorem Taken.shared (hoffset : item.offset < 0) (hitem : item.Fits)
    (h : Taken items pieces { r with table := r.table ++ item.fields } r' items' pieces') :
    Taken (item :: items) (⟨[], []⟩ :: pieces) r r' (item :: items') (⟨[], []⟩ :: pieces') where
  same := .cons ⟨rfl, rfl, rfl, fun _ => rfl, id⟩ h.same
  fits := List.forall_mem_cons.2 ⟨hitem, h.fits⟩
  laid := .shared hoffset h.laid
  contents_eq := congrArg (List.cons []) h.contents_eq
  table_eq := by rw [h.table_eq, List.flatMap_cons, List.append_assoc]
  stored_eq := h.stored_eq

theorem Taken.inline {piece : Piece} {c : Cursor} (hin : 0 ≤ item.offset)
    (hitem : (moved item r.contents.length stored.length).Fits) (hholds : Holds item.packed stored piece.content)
    (h : Taken items pieces (({ r with cursor := c } : Refit).grown item stored) r' items' pieces') :
    Taken (item :: items) (piece :: pieces) r r' (moved item r.contents.length stored.length :: items')
      (⟨stored, piece.content⟩ :: pieces') where
  same := .cons ⟨rfl, rfl, rfl, fun hoffset => absurd hoffset (by omega), fun _ => Int.natCast_nonneg _⟩ h.same
  fits := List.forall_mem_cons.2 ⟨hitem, h.fits⟩
  laid := by
    have hlaid : Laid (r.contents ++ stored).length items' pieces' := h.laid
    rw [List.length_append] at hlaid
    exact .inline rfl rfl hholds hlaid
  contents_eq := congrArg (List.cons piece.content) h.contents_eq
  table_eq := by
    rw [h.table_eq, List.flatMap_cons, ← List.append_assoc]
    rfl
  stored_eq := by
    rw [h.stored_eq, List.flatMap_cons, ← List.append_assoc]
    rfl

end Taken

/-- Goes through the resources of a table. -/
def refitItems (e : Entry) (tableSize k : Nat) (items : List Item) (r : Refit) : Work Refit :=
  (Resource.numbered k items).foldlM (fun r p => refitItem e .beside tableSize r p.1 p.2) r

theorem refitItems_cons (e : Entry) (tableSize k : Nat) (item : Item) (items : List Item) (r : Refit) :
    refitItems e tableSize k (item :: items) r =
      refitItem e .beside tableSize r k item >>= refitItems e tableSize (k + 1) items := by
  rw [refitItems, Resource.numbered, List.foldlM_cons]
  rfl

/-- Either one of the resources cannot be taken over and ends the work, or all are taken over. -/
theorem refitItems_cases (hlaid : Laid place items pieces) (hpos : r.cursor.pos = tableSize + place)
    (hrest : r.cursor.rest = pieces.flatMap Piece.stored) (hfits : ∀ item ∈ items, item.Fits)
    (hroom : r.contents.length ≤ 0xFFFF * k) (hcount : k + items.length ≤ 0x7FFF)
    (hunchanged : Each (Unchanged e s) k items pieces) :
    (¬ Each (fun index item piece => Takes e s index item piece.content) k items pieces ∧
      ∃ fault t, (refitItems e tableSize k items r).run.run s = (.error fault, t)) ∨
    (Each (fun index item piece => Takes e s index item piece.content) k items pieces ∧
      ∃ r' log, (refitItems e tableSize k items r).run.run s = (.ok r', { s with log := log }) ∧
        ∃ items' pieces', Taken items pieces r r' items' pieces') := by
  -- along the layout; the session differs from the first one in its log, the new file starts where `r` ends
  induction hlaid generalizing k r s with
  | nil place =>
    right
    refine ⟨trivial, r, s.log, rfl, [], [], ?_⟩
    exact ⟨.nil, List.forall_mem_nil _, .nil _, rfl, (List.append_nil _).symm, (List.append_nil _).symm⟩
  | @shared place item items pieces hoffset hlaid ih =>
    obtain ⟨hitem, hitems⟩ := List.forall_mem_cons.1 hfits
    have hnone : 0 ≤ item.offset → Takes e s k item [] := fun hin => absurd hoffset (by omega)
    have hroom' : r.contents.length ≤ 0xFFFF * (k + 1) := by omega
    rw [List.length_cons] at hcount
    rw [refitItems_cons, run_bind_of_ok (run_refitItem_shared .beside hoffset hitem)]
    rcases ih (r := { r with table := r.table ++ item.fields }) hpos hrest hitems hroom' (by omega) hunchanged.2 with
      ⟨hnot, hfail⟩ | ⟨hall, r', log, hrun, items', pieces', htaken⟩
    · exact .inl ⟨fun h => hnot h.2, hfail⟩
    · exact .inr ⟨⟨hnone, hall⟩, r', log, hrun, _, _, htaken.shared hoffset hitem⟩
  | @inline place item items piece pieces hoffset hsize hholds hlaid ih =>
    obtain ⟨hitem, hitems⟩ := List.forall_mem_cons.1 hfits
    have hin : 0 ≤ item.offset := by omega
    have hcursor : (r.cursor.pos : Int) = item.offset + tableSize := by omega
    rw [List.flatMap_cons] at hrest
    rw [List.length_cons] at hcount
    rw [refitItems_cons, run_refitItem_inline hin hcursor hrest hsize hholds]
    -- at most 32767 resources of less than 64 KiB, so that every offset fits
    have hplace : r.contents.length < 0x80000000 := by omega
    rcases takeOver_cases (r := { r with cursor := r.cursor.took item.size }) hitem hplace (hsize ▸ hitem.size) hholds
        (hunchanged.1 hin) with ⟨hnot, fault, t, hrun⟩ | ⟨htakes, stored, log, hholds', hsmall, hrun⟩
    · exact .inl ⟨fun h => hnot (h.1 hin), fault, t, run_bind_of_error hrun⟩
    rw [run_bind_of_ok hrun]
    have hpos' : (r.cursor.took item.size).pos = tableSize + (place + item.size) := by
      rw [Cursor.took_of_rest hrest hsize, hpos, Nat.add_assoc]
    have hroom' : (r.contents ++ stored).length ≤ 0xFFFF * (k + 1) := by
      rw [List.length_append]
      omega
    rcases ih (r := ({ r with cursor := r.cursor.took item.size } : Refit).grown item stored) hpos'
        (Cursor.rest_took hrest hsize) hitems hroom' (by omega)
        (hunchanged.2.imp fun _ _ _ h => unchanged_withLog.2 h) with
      ⟨hnot, hfail⟩ | ⟨hall, r', log', hrun', items', pieces', htaken⟩
    · exact .inl ⟨fun h => hnot (h.2.imp fun _ _ _ h => takes_withLog.2 h), hfail⟩
    · exact .inr ⟨⟨fun _ => htakes, hall.imp fun _ _ _ h => takes_withLog.1 h⟩, r', log', hrun', _, _,
        htaken.inline hin (fits_moved hitem hplace hsmall) hholds'⟩

/-! ## The file -/

variable {file : Bytes} {c : Cursor}

theorem refit_eq (htable : Resource.readTable (Cursor.ofBytes file) = (.ok items, c)) :
    refit e .beside file =
      refitItems e c.pos 0 items ⟨file.take 3, [], c⟩ >>= fun r => pure (r.table ++ r.contents) := by
  unfold refit refitItems
  rw [htable, ← Resource.mapIdx_eq_numbered]
  rfl

/-- The content of a resource is the one of its piece. -/
theorem exists_contentAt (hlaid : Laid 0 items pieces) (hstored : pieces.flatMap Piece.stored = file.drop c.pos)
    (hpos : c.pos ≤ file.length) {i : Nat} (hi : items[i]? = some item) (hin : 0 ≤ item.offset) :
    ∃ piece, pieces[i]? = some piece ∧
      Resource.contentAt file (c.pos + item.offset.toNat) item = .ok piece.content := by
  have hfront : (file.take c.pos).length = c.pos + 0 := List.length_take_of_le hpos
  have h := hlaid.exists_contentAt hfront hi hin
  rwa [hstored, List.take_append_drop] at h

/-- A file of which all resources were taken over has the same resources. -/
theorem sameResources_of_taken (htable : Resource.readTable (Cursor.ofBytes file) = (.ok items, c))
    (hlaid : Laid 0 items pieces) (hstored : pieces.flatMap Piece.stored = file.drop c.pos) {r : Refit}
    {items' : List Item} {pieces' : List Piece} (h : Taken items pieces ⟨file.take 3, [], c⟩ r items' pieces') :
    SameResources file (r.table ++ r.contents) := by
  obtain ⟨hlong, hannounced, hne, -, -, hpos⟩ := Resource.readTable_eq_ok htable
  have hhead : (file.take 3).length = 3 := List.length_take_of_le hlong
  have hlength : items'.length = items.length := h.same.length_eq.symm
  have hnew : r.table ++ r.contents = file.take 3 ++ (items'.flatMap Item.fields ++ pieces'.flatMap Piece.stored) := by
    rw [h.table_eq, h.stored_eq, List.append_assoc]
    rfl
  have hcount : (items'.length : Int) = Resource.announced (file.take 3) := by
    rw [hlength, hannounced, Resource.announced, Resource.announced, List.take_take]
    rfl
  have hne' : items' ≠ [] := fun hnil => hne (List.eq_nil_of_length_eq_zero (by rw [← hlength, hnil]; rfl))
  have htable' := Resource.readTable_fields hhead hcount hne' h.fits (pieces'.flatMap Piece.stored)
  have hfields := Resource.length_flatMap_fields items'
  rw [hnew]
  refine ⟨items, items', c, _, htable, htable', ?_, h.same, ?_, ?_⟩
  · exact List.take_left' hhead
  · have hcontiguous : Contiguous 0 items' (0 + (pieces'.flatMap Piece.stored).length) := h.laid.contiguous
    rw [List.length_append, List.length_append, hhead, hfields]
    rwa [← Nat.add_assoc, Nat.add_sub_cancel_left, ← Nat.zero_add (List.length _)]
  · intro i item item' hi hi' hin
    obtain ⟨piece, hp, hcontent⟩ := exists_contentAt hlaid hstored hpos hi hin
    have hfront : (file.take 3 ++ items'.flatMap Item.fields).length = 3 + 10 * items'.length + 0 := by
      rw [List.length_append, hhead, hfields, Nat.add_zero]
    have hin' := (Resource.sameItem_of_getElem? h.same hi hi').inline hin
    obtain ⟨piece', hp', hcontent'⟩ := h.laid.exists_contentAt hfront hi' hin'
    have hcontents : (pieces'.map Piece.content)[i]? = (pieces.map Piece.content)[i]? := by rw [h.contents_eq]
    rw [List.getElem?_map, List.getElem?_map, hp, hp'] at hcontents
    rw [List.append_assoc, Option.some.inj hcontents] at hcontent'
    exact ⟨piece.content, hcontent, hcontent'⟩

/-- All resources of a file can be taken over. -/
def TakesAll (e : Entry) (s : Session) (file : Bytes) (items : List Item) (tableSize : Nat) : Prop :=
  ∀ (i : Nat) item content, items[i]? = some item → 0 ≤ item.offset →
    Resource.contentAt file (tableSize + item.offset.toNat) item = .ok content → Takes e s i item content

theorem each_takes_iff (hlaid : Laid 0 items pieces) (hstored : pieces.flatMap Piece.stored = file.drop c.pos)
    (hpos : c.pos ≤ file.length) :
    Each (fun index item piece => Takes e s index item piece.content) 0 items pieces ↔
      TakesAll e s file items c.pos := by
  rw [Resource.each_iff]
  constructor
  · intro h i item content hi hin hcontent
    obtain ⟨piece, hp, hpiece⟩ := exists_contentAt hlaid hstored hpos hi hin
    rw [hcontent] at hpiece
    cases hpiece
    have htakes := h i item piece hi hp hin
    rwa [Nat.zero_add] at htakes
  · intro h i item piece hi hp hin
    obtain ⟨piece', hp', hpiece⟩ := exists_contentAt hlaid hstored hpos hi hin
    rw [hp] at hp'
    cases hp'
    rw [Nat.zero_add]
    exact h i item piece.content hi hin hpiece

/-! ## The patch -/

variable {game : Game} {s₀ s₁ : Session}

theorem run_injectSprites (hbeside : Beside game e file s) (hfile : file ≠ []) (patching : Patching) :
    (game.injectSprites patching e).run.run s =
      (refit e .beside file >>= fun new =>
        Work.ofExcept (patching.add (e.stem ++ "." ++ Home.beside.suffix) new)).run.run s := by
  obtain ⟨imNumber, exNumber, hbelongings⟩ := hbeside
  unfold injectSprites
  rw [run_bind_of_ok ((still_belongings game e).run_eq hbelongings)]
  have hempty : file.isEmpty = false := by simpa using hfile
  simp only [hempty, Bool.false_eq_true, if_false, List.foldlM_cons, List.foldlM_nil, bind_pure]

/-- **Taking unchanged pictures back.**  The pictures of a script were extracted, and those that are there are still
the same.  Then taking them back gives a file with the same resources just if every packed resource with a picture
can be packed again; else it fails. -/
theorem injectSprites_unchanged_iff (hbefore : Beside game e file s₀)
    (htable : Resource.readTable (Cursor.ofBytes file) = (.ok items, c))
    (hcontiguous : Contiguous 0 items (file.length - c.pos))
    (hextract : (game.extractSprites e).run.run s₀ = (.ok (), s₁)) (hnow : Beside game e file s)
    (hpictures : ∀ (i : Nat) item, items[i]? = some item → 0 ≤ item.offset → 0 < item.width * item.height →
      ((Work.has (pictureFile e .beside i)).run.run s).1 = .ok true →
      ((Work.readPicture (pictureFile e .beside i)).run.run s).1 =
        ((Work.readPicture (pictureFile e .beside i)).run.run s₁).1)
    (patches : Table (String × String) Bytes) :
    ((∃ new log, (game.injectSprites { items := patches } e).run.run s =
        (.ok { items := patches.put (e.stem ++ "." ++ Home.beside.suffix, e.stem ++ "." ++ Home.beside.suffix) new },
          { s with log := log }) ∧ SameResources file new) ↔ TakesAll e s file items c.pos) ∧
      (¬ TakesAll e s file items c.pos →
        ∃ fault t, (game.injectSprites { items := patches } e).run.run s = (.error fault, t)) := by
  obtain ⟨pieces, hlaid, hstored, hpictured⟩ := pictured_of_extractSprites hbefore htable hcontiguous hextract
  obtain ⟨hlong, hannounced, -, hfits, hdata, hpos⟩ := Resource.readTable_eq_ok htable
  have hfile : file ≠ [] := List.ne_nil_of_length_pos (by omega)
  have hcount : 0 + items.length ≤ 0x7FFF := by
    have hle := Resource.announced_le file
    omega
  have hrest : c.rest = pieces.flatMap Piece.stored := by
    rw [hstored, Cursor.rest_eq_drop, hdata]
  have hunchanged : Each (Unchanged e s) 0 items pieces := by
    refine Resource.each_iff.2 fun i item piece hi hp hin hhas hframe => ?_
    obtain ⟨px, hdecodes, hshows⟩ := Resource.each_iff.1 hpictured i item piece hi hp hin hframe
    rw [Nat.zero_add] at hhas hshows ⊢
    refine ⟨px, hdecodes, Session.shows_of_readPicture ?_⟩
    rw [hpictures i item hi hin hframe hhas, hshows.run_readPicture]
  have hcases := refitItems_cases (r := ⟨file.take 3, [], c⟩) hlaid rfl hrest hfits (Nat.zero_le _) hcount hunchanged
  rw [each_takes_iff hlaid hstored hpos] at hcases
  rw [run_injectSprites hnow hfile]
  rcases hcases with ⟨hnot, fault, t, hrun⟩ | ⟨htakes, r, log, hrun, items', pieces', htaken⟩
  · have hrefit : (refit e .beside file).run.run s = (.error fault, t) := by
      rw [refit_eq htable, run_bind_of_error hrun]
    rw [run_bind_of_error hrefit]
    refine ⟨⟨?_, fun htakes => absurd htakes hnot⟩, fun _ => ⟨fault, t, rfl⟩⟩
    rintro ⟨new, log, h, -⟩
    cases h
  · have hrefit : (refit e .beside file).run.run s = (.ok (r.table ++ r.contents), { s with log := log }) := by
      rw [refit_eq htable, run_bind_of_ok hrun]
      rfl
    rw [run_bind_of_ok hrefit, Patching.add_of_unrestricted]
    exact ⟨⟨fun _ => htakes, fun _ => ⟨_, log, rfl, sameResources_of_taken htable hlaid hstored htaken⟩⟩,
      fun hnot => absurd htakes hnot⟩

/-! ### A small game -/

/-- A script without resources of its own. -/
def bareScript : Bytes :=
  List.replicate 39 0 ++ Bytes.ofAscii "2.0" ++ List.replicate 6 0 ++ List.replicate 8 0xFF ++ List.replicate 72 0

def storedRecord (name : String) (size place : Nat) : Bytes :=
  (Bytes.ofAscii name).padTo Archive.nameField ++ Bytes.ofNatLE 4 size ++ Bytes.ofNatLE 4 place ++ [0]

/-- An archive with a script, its resources and shared ones. -/
def smallArchive (resources shared : Bytes) : Archive where
  data := [3, 0] ++ storedRecord "X.TOT" 128 68 ++ storedRecord "X.EXT" resources.length 196 ++
    storedRecord "COMMUN.EX0" shared.length (196 + resources.length) ++ bareScript ++ resources ++ shared
  version := .first
  index := [("X.TOT", ⟨68, 128, 0, none⟩), ("X.EXT", ⟨196, resources.length, 0, none⟩),
    ("COMMUN.EX0", ⟨196 + resources.length, shared.length, 0, none⟩)]

/-- An archive with nothing but a script. -/
def scriptArchive (script : Bytes) : Archive where
  data := [1, 0] ++ storedRecord "X.TOT" script.length 24 ++ script
  version := .first
  index := [("X.TOT", ⟨24, script.length, 0, none⟩)]

def smallGame : Game := { base := "../game" }

def smallScript (archive : Archive) : Entry :=
  .stored archive "A.STK" "X.TOT"

def smallSession (archive : Archive) : Session :=
  .start ⟨[["game"], ["work"], ["work", "graphics"]], [(["game", "A.STK"], .data archive.data)]⟩ ["work"]
    ⟨1, 1, 2000, 0, 0, 0⟩

/-- The session after extraction. -/
def smallExtracted (archive : Archive) : Session :=
  ((smallGame.extractSprites (smallScript archive)).run.run (smallSession archive)).2

/-- A packed sprite, a shared one and a plain one. -/
def mixedItems : List Item :=
  [⟨0, 9, 2, 2, true⟩, ⟨-1, 1, 1, 1, false⟩, ⟨9, 1, 1, 1, false⟩]

def mixedFile : Bytes :=
  [3, 0, 0] ++ (mixedItems.flatMap Item.fields ++ [4, 0, 0, 0, 0x0F, 0x18, 0x28, 0x38, 0x48, 0x58])

def mixedArchive : Archive :=
  smallArchive mixedFile [0x68]

theorem readTable_mixedFile :
    Resource.readTable (Cursor.ofBytes mixedFile) = (.ok mixedItems, ⟨mixedFile.toArray, 33⟩) :=
  Resource.readTable_fields rfl rfl (by decide) (by decide) _

-- one evaluation, so that the session after extraction is computed once
theorem extracted_mixed :
    ((smallGame.belongings (smallScript mixedArchive)).run.run (smallSession mixedArchive)).1.toOption =
        some ⟨[(.beside, mixedFile)], mixedFile, 0, 0⟩ ∧
      ((smallGame.extractSprites (smallScript mixedArchive)).run.run (smallSession mixedArchive)).1.toOption = some () ∧
      ((smallGame.belongings (smallScript mixedArchive)).run.run (smallExtracted mixedArchive)).1.toOption =
        some ⟨[(.beside, mixedFile)], mixedFile, 0, 0⟩ ∧
      ∀ i < 3, ((Work.has (pictureFile (smallScript mixedArchive) .beside i)).run.run
        (smallExtracted mixedArchive)).1.toOption = some true := by
  decide +kernel

theorem takesAll_mixed :
    TakesAll (smallScript mixedArchive) (smallExtracted mixedArchive) mixedFile mixedItems 33 := by
  intro i item content hi hin hcontent
  have hhas := extracted_mixed.2.2.2
  match i with
  | 0 =>
    cases hi
    have hpiece : Resource.contentAt mixedFile 33 ⟨0, 9, 2, 2, true⟩ = .ok [0x18, 0x28, 0x38, 0x48] :=
      eq_ok_of_toOption (by decide +kernel)
    cases hcontent.symm.trans hpiece
    have hpack : Lzss.pack [0x18, 0x28, 0x38, 0x48] = .ok _ :=
      Lzss.pack_of_nodup (by decide) (by decide) (by decide) (by decide)
    exact ⟨true, eq_ok_of_toOption (hhas 0 (by decide)), fun _ _ _ => ⟨_, hpack, by decide +kernel⟩⟩
  | 1 =>
    cases hi
    cases hin
  | 2 =>
    cases hi
    exact ⟨true, eq_ok_of_toOption (hhas 2 (by decide)), fun _ _ hpacked => by cases hpacked⟩
  | i + 3 => cases hi

theorem injectSprites_unchanged_iff_mixed :
    ∃ new log, (smallGame.injectSprites {} (smallScript mixedArchive)).run.run (smallExtracted mixedArchive) =
      (.ok { items := [(("X.EXT", "X.EXT"), new)] }, { smallExtracted mixedArchive with log := log }) ∧
        SameResources mixedFile new := by
  obtain ⟨hbefore, hextract, hnow, -⟩ := extracted_mixed
  have hcontiguous : Contiguous 0 mixedItems (mixedFile.length - 33) := by decide
  have hiff := injectSprites_unchanged_iff ⟨0, 0, eq_ok_of_toOption hbefore⟩ readTable_mixedFile hcontiguous
    (Prod.ext (eq_ok_of_toOption hextract) rfl) ⟨0, 0, eq_ok_of_toOption hnow⟩ (fun _ _ _ _ _ _ => rfl) []
  exact hiff.1.2 takesAll_mixed

/-- A packed sprite of one pixel. -/
def dotItem : Item :=
  ⟨0, 6, 1, 1, true⟩

def dotFile : Bytes :=
  [1, 0, 0] ++ ([dotItem].flatMap Item.fields ++ [1, 0, 0, 0, 1, 8])

def dotArchive : Archive :=
  smallArchive dotFile []

/-- The picture of such a sprite is extracted, and it is not taken back: one byte cannot be packed. -/
theorem injectSprites_refuses_dot :
    Resource.readTable (Cursor.ofBytes dotFile) = (.ok [dotItem], ⟨dotFile.toArray, 13⟩) ∧
      Contiguous 0 [dotItem] (dotFile.length - 13) ∧
      Beside smallGame (smallScript dotArchive) dotFile (smallSession dotArchive) ∧
      (smallGame.extractSprites (smallScript dotArchive)).run.run (smallSession dotArchive) =
        (.ok (), smallExtracted dotArchive) ∧
      Beside smallGame (smallScript dotArchive) dotFile (smallExtracted dotArchive) ∧
      ∃ fault, ((smallGame.injectSprites {} (smallScript dotArchive)).run.run (smallExtracted dotArchive)).1 =
        .error fault := by
  have hdot : ((smallGame.belongings (smallScript dotArchive)).run.run (smallSession dotArchive)).1.toOption =
        some ⟨[(.beside, dotFile)], dotFile, 0, 0⟩ ∧
      ((smallGame.extractSprites (smallScript dotArchive)).run.run (smallSession dotArchive)).1.toOption = some () ∧
      ((smallGame.belongings (smallScript dotArchive)).run.run (smallExtracted dotArchive)).1.toOption =
        some ⟨[(.beside, dotFile)], dotFile, 0, 0⟩ ∧
      ((smallGame.injectSprites {} (smallScript dotArchive)).run.run (smallExtracted dotArchive)).1.toOption =
        none := by
    decide +kernel
  obtain ⟨hbefore, hextract, hnow, hinject⟩ := hdot
  exact ⟨Resource.readTable_fields rfl rfl (by decide) (by decide) _, by decide, ⟨0, 0, eq_ok_of_toOption hbefore⟩,
    Prod.ext (eq_ok_of_toOption hextract) rfl, ⟨0, 0, eq_ok_of_toOption hnow⟩,
    exists_error_of_toOption hinject⟩

end AdventureKit.Game
