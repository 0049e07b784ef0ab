import AdventureKit.Proofs.Dialogue.SavedBlock

/-!
# Lines that share a place

Where saving puts the lines depends on their records and on the lengths of their bodies alone (`shape`).
So for lines of one shape the same condition decides about all contents: if it fails, some bodies of
these lengths do not read back.  The bodies that show it are zeros, and ones for the line that is put
before its bytes: a place before them holds a zero.
-/

namespace AdventureKit.TextBlock

variable {lines others new : List Line} {block file : Bytes} {line : Line}

/-- What saving looks at in a line. -/
def shape (line : Line) : Int × Int × Nat :=
  (line.place, line.size, line.body.length)

/-- The shape of a numbered line. -/
def itemShape (item : Nat × Line) : Nat × Int × Int × Nat :=
  (item.1, shape item.2)

/-- The lines of a block with other bodies; a line that has no body gets none. -/
def Edited (block : Bytes) (lines : List Line) : Prop :=
  List.Forall₂ (fun old line => line.place = old.place ∧ line.size = old.size ∧ (old.body = [] → line.body = []))
    (read block) lines

/-! ## Lines of the same shape are placed alike -/

theorem length_eq_of_shape (h : others.map shape = lines.map shape) : others.length = lines.length := by
  simpa using congrArg List.length h

theorem length_body_of_shape {a b : Line} (h : shape a = shape b) : a.body.length = b.body.length :=
  congrArg (fun s => s.2.2) h

theorem body_eq_nil_iff_of_shape {a b : Line} (h : shape a = shape b) : a.body = [] ↔ b.body = [] := by
  rw [← List.length_eq_zero_iff, length_body_of_shape h, List.length_eq_zero_iff]

theorem Cursor.pass_congr {a b : Line} (h : shape a = shape b) (c : Cursor) : c.pass a = c.pass b := by
  have hplace : a.place = b.place := congrArg (fun s => s.1) h
  have hempty : a.body.isEmpty = b.body.isEmpty := by
    rw [Bool.eq_iff_iff, List.isEmpty_iff, List.isEmpty_iff, body_eq_nil_iff_of_shape h]
  unfold Cursor.pass Cursor.first
  rw [hplace, length_body_of_shape h, hempty]

theorem Cursor.after_congr {a b : List (Nat × Line)} (h : a.map itemShape = b.map itemShape) (c : Cursor) :
    c.after a = c.after b := by
  induction a generalizing b c with
  | nil =>
    rw [List.map_nil, eq_comm, List.map_eq_nil_iff] at h
    rw [h]
  | cons x a ih =>
    cases b with
    | nil => simp at h
    | cons y b =>
      rw [List.map_cons, List.map_cons, List.cons.injEq] at h
      have hpass := Cursor.pass_congr (congrArg Prod.snd h.1) c
      rw [Cursor.after, Cursor.after, List.foldl_cons, List.foldl_cons, hpass]
      exact ih h.2 _

theorem cursorAt_congr (h : others.map shape = lines.map shape) {a b : List (Nat × Line)}
    (hab : a.map itemShape = b.map itemShape) : cursorAt others a = cursorAt lines b := by
  rw [cursorAt, cursorAt, length_eq_of_shape h, Cursor.after_congr hab]

theorem moved_congr {a b : Line} (h : shape a = shape b) (c : Cursor) : shape (c.moved a) = shape (c.moved b) := by
  by_cases ha : a.body = []
  · rw [Cursor.moved_of_empty ha, Cursor.moved_of_empty ((body_eq_nil_iff_of_shape h).1 ha), h]
  · rw [Cursor.moved_of_body ha, Cursor.moved_of_body (mt (body_eq_nil_iff_of_shape h).2 ha)]
    simp [shape, length_body_of_shape h]

theorem map_itemShape_ordered (h : others.map shape = lines.map shape) :
    (ordered others).map itemShape = (ordered lines).map itemShape := by
  have hsort : ∀ lines : List Line, (ordered lines).map itemShape =
      ((lines.map shape).mapIdx fun i s => (i, s)).mergeSort (fun a b => a.2.1 ≤ b.2.1) := by
    intro lines
    have hmap := @List.map_mergeSort _ _ (fun a b => a.2.place ≤ b.2.place) (fun a b => a.2.1 ≤ b.2.1) itemShape
      (lines.mapIdx fun i line => (i, line)) (fun _ _ _ _ => rfl)
    rw [ordered, hmap]
    congr 1
    apply List.ext_getElem
    · simp
    · simp [itemShape]
  rw [hsort, hsort, h]

theorem exists_split_of_shape (h : others.map shape = lines.map shape) {before after : List (Nat × Line)}
    {i : Nat} (hsplit : ordered lines = before ++ (i, line) :: after) :
    ∃ before' line' after', ordered others = before' ++ (i, line') :: after' ∧
      before'.map itemShape = before.map itemShape ∧ shape line' = shape line := by
  have hmap := map_itemShape_ordered h
  rw [hsplit, List.map_append, List.map_cons, List.map_eq_append_iff] at hmap
  obtain ⟨before', rest, hothers, hbefore, hrest⟩ := hmap
  obtain ⟨item, after', rfl, hitem, -⟩ := List.map_eq_cons_iff.1 hrest
  obtain ⟨j, line'⟩ := item
  simp only [itemShape, Prod.mk.injEq] at hitem
  obtain ⟨rfl, hline⟩ := hitem
  exact ⟨before', line', after', hothers, hbefore, hline⟩

theorem length_bodies_congr {a b : List (Nat × Line)} (h : a.map itemShape = b.map itemShape) :
    (bodies a).length = (bodies b).length := by
  have hlengths := congrArg (fun s => (s.map fun x : Nat × Int × Int × Nat => x.2.2.2).sum) h
  simp only [List.map_map] at hlengths
  rw [length_bodies, length_bodies]
  exact hlengths

theorem bodyPlaces_congr {a b : List (Nat × Line)} (h : a.map itemShape = b.map itemShape) :
    bodyPlaces a = bodyPlaces b := by
  have hshapes : ∀ items : List (Nat × Line), bodyPlaces items =
      ((items.map itemShape).filter fun x => x.2.2.2 != 0).map fun x => x.2.1 := by
    intro items
    induction items with
    | nil => rfl
    | cons item items ih =>
      by_cases hb : item.2.body = []
      · simp [bodyPlaces_of_empty hb, ih, itemShape, shape, hb]
      · simp [bodyPlaces_of_body hb, ih, itemShape, shape, hb]
  rw [hshapes, hshapes, h]

theorem blockSize_congr (h : others.map shape = lines.map shape) : blockSize others = blockSize lines := by
  have hbodies := length_bodies_congr (map_itemShape_ordered h)
  rw [length_bodies_ordered, length_bodies_ordered] at hbodies
  rw [blockSize, blockSize, length_eq_of_shape h, hbodies]

theorem recordable_replaced_of_shape (h : others.map shape = lines.map shape)
    (hr : ∀ line ∈ replaced lines, Recordable line) : ∀ line ∈ replaced others, Recordable line := by
  intro new hnew
  obtain ⟨before, i, line, after, hsplit, rfl⟩ := mem_replaced.1 hnew
  obtain ⟨before', line', after', hsplit', hbefore, hline⟩ := exists_split_of_shape h.symm hsplit
  have hfits := hr _ (mem_replaced.2 ⟨before', i, line', after', hsplit', rfl⟩)
  have hshape := moved_congr hline (cursorAt lines before')
  rw [← cursorAt_congr h hbefore.symm] at hfits hshape
  simp only [shape, Prod.mk.injEq] at hshape
  unfold Recordable at hfits ⊢
  rwa [hshape.1, hshape.2.1] at hfits

theorem Untangled.of_shape (h : Untangled lines) (hs : others.map shape = lines.map shape) : Untangled others := by
  have hlength := length_eq_of_shape hs
  refine ⟨?_, ?_, ?_⟩
  · rw [bodyPlaces_congr (map_itemShape_ordered hs)]
    exact h.apart
  · rintro before ⟨i, line⟩ after hsplit hb
    obtain ⟨before', line', after', hsplit', hbefore, hline⟩ := exists_split_of_shape hs.symm hsplit
    rw [hlength, ← length_bodies_congr hbefore]
    exact h.clear before' (i, line') after' hsplit' (mt (body_eq_nil_iff_of_shape hline).1 hb)
  · intro line hline hb
    obtain ⟨i, hi, rfl⟩ := List.getElem_of_mem hline
    have hi' : i < lines.length := hlength ▸ hi
    have hshape : shape others[i] = shape lines[i] := by
      have hget := congrArg (·[i]?) hs
      simpa [hi, hi'] using hget
    have hblank := h.blank lines[i] (List.getElem_mem hi') ((body_eq_nil_iff_of_shape hshape).1 hb)
    simp only [shape, Prod.mk.injEq] at hshape
    rw [blockSize_congr hs, hshape.1, hshape.2.1]
    exact hblank

/-! ## Bodies that show a wrong place -/

/-- The lines with zeros for bodies, but ones for line `i`. -/
def marked (i : Nat) (lines : List Line) : List Line :=
  lines.mapIdx fun j line => { line with body := List.replicate line.body.length (if j = i then 1 else 0) }

theorem shape_marked (i : Nat) (lines : List Line) : (marked i lines).map shape = lines.map shape := by
  apply List.ext_getElem
  · simp [marked]
  · simp [marked, shape]

theorem body_of_marked {i j : Nat} (h : (marked i lines)[j]? = some line) :
    line.body = List.replicate line.body.length (if j = i then 1 else 0) := by
  rw [marked, List.getElem?_mapIdx, Option.map_eq_some_iff] at h
  obtain ⟨old, -, rfl⟩ := h
  simp

theorem eq_zero_of_mem_bodies {i : Nat} {before after : List (Nat × Line)}
    (h : ordered (marked i lines) = before ++ (i, line) :: after) : ∀ b ∈ bodies before, b = 0 := by
  intro b hb
  obtain ⟨⟨j, other⟩, hitem, hb⟩ := List.mem_flatMap.1 hb
  have hne : j ≠ i := by
    have hkeys := nodup_keys_ordered (marked i lines)
    rw [h, List.map_append, List.nodup_append] at hkeys
    exact hkeys.2.2 j (List.mem_map_of_mem hitem) i (by simp)
  have hbody := body_of_marked (mem_ordered.1 (show (j, other) ∈ ordered (marked i lines) by simp [h, hitem]))
  rw [if_neg hne] at hbody
  rw [hbody] at hb
  exact List.eq_of_mem_replicate hb

/-- If the marked lines read back, no two bodies before the marked one share a place. -/
theorem nodup_of_shows_marked {i : Nat} {before after : List (Nat × Line)}
    (hsplit : ordered lines = before ++ (i, line) :: after) (hb : line.body ≠ [])
    (hshows : ∀ new ∈ replaced (marked i lines), Shows (blockOf (marked i lines)) new) :
    (bodyPlaces before).Nodup := by
  obtain ⟨before', line', after', hsplit', hbefore, hline⟩ := exists_split_of_shape (shape_marked i lines) hsplit
  have hb' : line'.body ≠ [] := mt (body_eq_nil_iff_of_shape hline).1 hb
  have hshow := hshows _ (mem_replaced.2 ⟨before', i, line', after', hsplit', rfl⟩)
  rw [Cursor.moved_of_body hb', shows_of_body hb'] at hshow
  have hsettled := settled_cursorAt hsplit'
  rw [← bodyPlaces_congr hbefore, ← hsettled.eq_written_iff]
  by_contra hne
  -- the record is before the bytes of the line but behind the header: it shows a zero
  have hlt := Nat.lt_of_le_of_ne hsettled.le_written hne
  have hstart := hsettled.start_le
  have hzero : (blockOf (marked i lines))[(cursorAt (marked i lines) before').next]? = some 0 := by
    have hlength := length_header (marked i lines)
    rw [blockOf, hsplit', bodies_append, List.getElem?_append_right (by omega), hlength,
      List.getElem?_append_left (by omega)]
    obtain ⟨b, hget⟩ : ∃ b, (bodies before')[(cursorAt (marked i lines) before').next -
        (2 + 4 * (marked i lines).length)]? = some b :=
      ⟨_, List.getElem?_eq_getElem (by omega)⟩
    rw [hget, eq_zero_of_mem_bodies hsplit' b (List.mem_of_getElem? hget)]
  have hone : (blockOf (marked i lines))[(cursorAt (marked i lines) before').next]? = some 1 := by
    have hbody := body_of_marked (getElem?_of_split hsplit')
    rw [if_pos rfl] at hbody
    have hpos : 0 < line'.body.length := List.length_pos_iff.2 hb'
    have hfirst := congrArg (·[0]?) (hshow.2.trans hbody)
    simpa [List.getElem?_take, List.getElem?_drop, hpos] using hfirst
  rw [hzero] at hone
  cases hone

theorem clear_of_shows (hapart : (bodyPlaces (ordered lines)).dropLast.Nodup)
    (hshows : ∀ new ∈ replaced lines, Shows (blockOf lines) new) {before after : List (Nat × Line)} {item : Nat × Line}
    (hsplit : ordered lines = before ++ item :: after) (hb : item.2.body ≠ []) :
    2 + 4 * lines.length + (bodies before).length ≠ nowhere := by
  obtain ⟨i, line⟩ := item
  have hshow := hshows _ (mem_replaced.2 ⟨before, i, line, after, hsplit, rfl⟩)
  rw [Cursor.moved_of_body hb, shows_of_body hb] at hshow
  have hplaces := (nodup_dropLast_bodyPlaces _).1 hapart before (i, line) after hsplit hb
  rw [← (settled_cursorAt hsplit).eq_written_iff.2 hplaces]
  exact hshow.1

theorem blank_of_shows (hr : ∀ line ∈ replaced lines, Recordable line)
    (hshows : ∀ new ∈ replaced lines, Shows (blockOf lines) new) (hline : line ∈ lines) (hb : line.body = []) :
    line.place = nowhere ∨ line.size = 0 ∨ (blockSize lines : Int) ≤ line.place := by
  obtain ⟨i, hi, rfl⟩ := List.getElem_of_mem hline
  obtain ⟨before, after, hsplit, -⟩ := exists_split (List.getElem?_eq_getElem hi)
  have hnew : lines[i] ∈ replaced lines :=
    mem_replaced.2 ⟨before, i, lines[i], after, hsplit, (Cursor.moved_of_empty hb _).symm⟩
  rw [← length_blockOf]
  exact (shows_of_empty (hr _ hnew) hb).1 (hshows _ hnew)

/-- **What saving keeps.**  Take the lines of a block with bodies of any lengths that can be saved.  All
bodies of these lengths read back under their numbers exactly if of the lines with a body all but the last
one in order have places of their own, no body comes to the place `0xFFFF`, and no line without a body
has a record that points into the block. -/
theorem save_keeps_lines_iff (hedited : Edited block lines) (h : save lines = .ok (file, new)) :
    (∀ others, others.map shape = lines.map shape → ∃ file new, save others = .ok (file, new) ∧
      new.map Line.body = others.map Line.body ∧ read file = new) ↔ Untangled lines := by
  obtain ⟨-, hr, -, -⟩ := save_eq_ok_iff.1 h
  have hn : lines.length < 1024 := by
    rw [← hedited.length_eq, length_read]
    exact Nat.mod_lt _ (by decide)
  have hlength : ∀ others : List Line, others.map shape = lines.map shape → others.length < 1024 := by
    intro others hs
    rwa [length_eq_of_shape hs]
  constructor
  · intro hall
    have hshows : ∀ others, others.map shape = lines.map shape →
        ∀ new ∈ replaced others, Shows (blockOf others) new := by
      intro others hs
      obtain ⟨file, new, hsave, -, hread⟩ := hall others hs
      obtain ⟨-, hr', rfl, rfl⟩ := save_eq_ok_iff.1 hsave
      exact (read_blockOf_eq_iff (hlength others hs) hr').1 hread
    have hapart : (bodyPlaces (ordered lines)).dropLast.Nodup := by
      refine (nodup_dropLast_bodyPlaces _).2 ?_
      rintro before ⟨i, line⟩ after hsplit hb
      exact nodup_of_shows_marked hsplit hb (hshows _ (shape_marked i lines))
    exact ⟨hapart, fun before item after hsplit hb => clear_of_shows hapart (hshows lines rfl) hsplit hb,
      fun line hline hb => blank_of_shows hr (hshows lines rfl) hline hb⟩
  · intro huntangled others hs
    have hr' := recordable_replaced_of_shape hs hr
    refine ⟨blockOf others, replaced others, save_eq_ok_iff.2 ⟨?_, hr', rfl, rfl⟩, body_replaced others, ?_⟩
    · have hlt := hlength others hs
      omega
    · exact (huntangled.of_shape hs).read_eq (hlength others hs) hr'

/-- A block with two lines that share a body. -/
def sharedBlock : Bytes :=
  [2, 0, 10, 0, 1, 0, 10, 0, 1, 0, 97]

/-- The lines of `sharedBlock` with a body each. -/
def sharedLines : List Line :=
  [⟨10, 1, [98, 99]⟩, ⟨10, 1, [100]⟩]

theorem save_keeps_lines_iff_shared :
    Edited sharedBlock sharedLines ∧ Untangled sharedLines ∧
    ∃ file new, save sharedLines = .ok (file, new) ∧ new.map Line.body = [[98, 99], [100]] ∧ read file = new := by
  have hordered : ordered sharedLines = [(0, ⟨10, 1, [98, 99]⟩), (1, ⟨10, 1, [100]⟩)] :=
    List.mergeSort_of_pairwise (by decide)
  have hnew : replaced sharedLines = [⟨10, 2, [98, 99]⟩, ⟨12, 1, [100]⟩] := by
    rw [replaced, hordered]
    decide
  have hsave : save sharedLines = .ok (blockOf sharedLines, replaced sharedLines) :=
    save_eq_ok_iff.2 ⟨by decide, by rw [hnew]; decide, rfl, rfl⟩
  have hedited : Edited sharedBlock sharedLines :=
    .cons ⟨rfl, rfl, by decide⟩ (.cons ⟨rfl, rfl, by decide⟩ .nil)
  have huntangled : Untangled sharedLines := by
    refine ⟨?_, fun before item after hsplit hb => ?_, by decide⟩
    · rw [hordered]
      decide
    · have hle := length_bodies_le hsplit
      have hsize : blockSize sharedLines = 13 := rfl
      simp only [nowhere]
      omega
  exact ⟨hedited, huntangled, (save_keeps_lines_iff hedited hsave).2 huntangled sharedLines rfl⟩

/-- A block with two lines that share a body and a third behind them. -/
def tangledBlock : Bytes :=
  [3, 0, 14, 0, 1, 0, 14, 0, 1, 0, 15, 0, 1, 0, 97, 98]

/-- **A line behind a shared place is lost.**  Saved as they are, the lines of `tangledBlock` are all
written, but the third one gets the place of the second. -/
theorem save_loses_line :
    Edited tangledBlock (read tangledBlock) ∧
    read tangledBlock = [⟨14, 1, [97]⟩, ⟨14, 1, [97]⟩, ⟨15, 1, [98]⟩] ∧
    ∃ file, save (read tangledBlock) = .ok (file, [⟨14, 1, [97]⟩, ⟨15, 1, [97]⟩, ⟨15, 1, [98]⟩]) ∧
      read file = [⟨14, 1, [97]⟩, ⟨15, 1, [97]⟩, ⟨15, 1, [97]⟩] := by
  have hlines : read tangledBlock = [⟨14, 1, [97]⟩, ⟨14, 1, [97]⟩, ⟨15, 1, [98]⟩] := by decide
  have hordered : ordered (read tangledBlock) =
      [(0, ⟨14, 1, [97]⟩), (1, ⟨14, 1, [97]⟩), (2, ⟨15, 1, [98]⟩)] :=
    List.mergeSort_of_pairwise (by decide)
  have hnew : replaced (read tangledBlock) = [⟨14, 1, [97]⟩, ⟨15, 1, [97]⟩, ⟨15, 1, [98]⟩] := by
    rw [replaced, hordered, hlines]
    decide
  have hblock : blockOf (read tangledBlock) = [3, 0, 14, 0, 1, 0, 15, 0, 1, 0, 15, 0, 1, 0, 97, 97, 98] := by
    rw [blockOf, hnew, hordered]
    decide
  refine ⟨?_, hlines, blockOf (read tangledBlock), ?_, ?_⟩
  · exact .cons ⟨rfl, rfl, by decide⟩ (.cons ⟨rfl, rfl, by decide⟩ (.cons ⟨rfl, rfl, by decide⟩ .nil))
  · exact save_eq_ok_iff.2 ⟨by decide, by rw [hnew]; decide, rfl, hnew.symm⟩
  · rw [hblock]
    decide

end AdventureKit.TextBlock
