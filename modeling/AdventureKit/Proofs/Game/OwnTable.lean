import AdventureKit.Proofs.Game.Patch
import AdventureKit.Proofs.Game.Refit

/-!
# Taking pictures back into a script file

A script file may hold resources of its own.  Taking their pictures back copies the number of records from the old
table and writes the records anew, one resource after the other.  A packed resource in the file is passed over: it gets
no record, and its content is not written (`refitItem_script_eq_ok`).  So the new table has as many records as it
announces, and the contents of all of them behind it, just if none of the resources in the file is packed
(`injectSprites_complete_iff`).  The other parts of the script file stay as they are in any case.
-/

namespace AdventureKit

namespace Resource

/-! ## Tables that are cut short -/

/-- Resources with all the records that they announce, and the contents of these right behind them. -/
structure Complete (resources : Bytes) (items : List Item) : Prop where
  table : ∃ c, readTable (Cursor.ofBytes resources) = (.ok items, c)
  whole : 3 + 10 * items.length ≤ resources.length
  contents : Contiguous 0 items (resources.length - (3 + 10 * items.length))

variable {items more : List Item} {place mid stop : Nat}

theorem Contiguous.le_of_append (hitems : Contiguous place items mid) (h : Contiguous place (items ++ more) stop) :
    mid ≤ stop := by
  induction items generalizing place with
  | nil =>
    have hplace : place = mid := hitems
    rw [← hplace]
    exact h.le
  | cons item items ih =>
    rw [List.cons_append, Contiguous] at h
    rw [Contiguous] at hitems
    split at h
    · rw [if_pos ‹_›] at hitems
      exact ih hitems h
    · rw [if_neg ‹_›] at hitems
      exact ih hitems.2 h.2

/-- Records that were written are the first ones that are read, also if more are read. -/
theorem readTimes_of_fields (h : ∀ item ∈ items, item.Fits) {c c' : Cursor} {behind : Bytes}
    (hc : c.rest = items.flatMap Item.fields ++ behind) {k : Nat} {all : List Item}
    (hread : (readTimes Item.read (items.length + k)).run.run c = (.ok all, c')) : ∃ more, all = items ++ more := by
  induction items generalizing c all with
  | nil => exact ⟨all, rfl⟩
  | cons item items ih =>
    obtain ⟨hitem, hitems⟩ := List.forall_mem_cons.1 h
    rw [List.flatMap_cons, List.append_assoc] at hc
    obtain ⟨hfirst, hrest⟩ := Item.read_fields hitem hc
    rw [List.length_cons, Nat.add_right_comm, readTimes, run_bind_of_ok hfirst] at hread
    obtain ⟨later, u, hlater, hread⟩ := run_bind_eq_ok hread
    cases hread
    obtain ⟨more, rfl⟩ := ih hitems hrest hlater
    exact ⟨more, rfl⟩

variable {head contents : Bytes}

theorem announced_append (hhead : head.length = 3) (behind : Bytes) : announced (head ++ behind) = announced head := by
  rw [announced, announced, List.take_append_of_le_length (by omega)]

/-- If the contents of the written records are all there is, then no record is missing. -/
theorem Complete.length_le (hhead : head.length = 3) (hfits : ∀ item ∈ items, item.Fits)
    (hcontents : Contiguous 0 items contents.length) {all : List Item}
    (h : Complete (head ++ (items.flatMap Item.fields ++ contents)) all) : all.length ≤ items.length := by
  refine Nat.le_of_not_lt fun hmissing => ?_
  obtain ⟨⟨c, htable⟩, hwhole, hall⟩ := h
  obtain ⟨hlong, hannounced, hne, -, -, -⟩ := readTable_eq_ok htable
  have hcount : (announced (head ++ (items.flatMap Item.fields ++ contents))).toNat =
      items.length + (all.length - items.length) := by omega
  have hrest : (⟨(head ++ (items.flatMap Item.fields ++ contents)).toArray, 3⟩ : Cursor).rest =
      items.flatMap Item.fields ++ contents := by
    rw [Cursor.rest_eq_drop]
    exact List.drop_left' hhead
  have hread := (readTable_of_long hlong).symm.trans htable
  rw [if_neg (by omega), hcount] at hread
  -- the first records are the written ones, and their contents already reach the end
  obtain ⟨more, rfl⟩ := readTimes_of_fields hfits hrest hread
  have hle := hcontents.le_of_append hall
  have hlength : (head ++ (items.flatMap Item.fields ++ contents)).length = 3 + (10 * items.length + contents.length) := by
    rw [List.length_append, List.length_append, length_flatMap_fields, hhead]
  rw [hlength] at hwhole hle
  omega

theorem complete_of_announced (hhead : head.length = 3) (hcount : (items.length : Int) = announced head)
    (hne : items ≠ []) (hfits : ∀ item ∈ items, item.Fits) (hcontents : Contiguous 0 items contents.length) :
    Complete (head ++ (items.flatMap Item.fields ++ contents)) items := by
  have hlength : (head ++ (items.flatMap Item.fields ++ contents)).length = 3 + (10 * items.length + contents.length) := by
    rw [List.length_append, List.length_append, length_flatMap_fields, hhead]
  refine ⟨⟨_, readTable_fields hhead hcount hne hfits contents⟩, ?_, ?_⟩
  · omega
  · have hbehind : 3 + (10 * items.length + contents.length) - (3 + 10 * items.length) = contents.length := by omega
    rwa [hlength, hbehind]

end Resource

namespace Game

open Resource (Item Contiguous SameItem Complete)

variable {e : Entry} {index tableSize k : Nat} {item : Item} {items : List Item} {r r' : Refit} {s t : Session}
  {content : Bytes}

/-! ## One resource -/

theorem Refit.add_eq_ok (hitem : item.Fits) (h : r.add item content = .ok r') :
    (moved item r.contents.length content.length).Fits ∧ r' = r.grown item content := by
  have hsize : content.length < 0x10000 := by
    refine Nat.lt_of_not_le fun hlarge => ?_
    obtain ⟨fault, hadd⟩ := Refit.add_of_large r item hlarge
    rw [hadd] at h
    cases h
  have hplace : r.contents.length < 0x80000000 := by
    obtain ⟨record, hrecord, -⟩ := bind_eq_ok.1 h
    unfold Item.bytes at hrecord
    obtain ⟨offset, hoffset, -⟩ := bind_eq_ok.1 hrecord
    unfold Bytes.putSignedLE at hoffset
    dsimp only at hoffset
    split at hoffset
    · rename_i hrange
      rw [Bytes.limit_eq_pow] at hrange
      omega
    · cases hoffset
  rw [Refit.add_eq hitem hplace hsize] at h
  cases h
  exact ⟨fits_moved hitem hplace hsize, rfl⟩

/-- Whether a resource in a script file gets a record. -/
def isKept (item : Item) : Bool :=
  item.offset < 0 || !item.packed

theorem isKept_iff : isKept item = true ↔ (0 ≤ item.offset → item.packed = false) := by
  unfold isKept
  rw [Bool.or_eq_true, decide_eq_true_eq, Bool.not_eq_true', ← Int.not_le]
  exact imp_iff_not_or.symm

/-- What becomes of a resource in a script file: a shared one keeps its record, a packed one is passed over, and any
other one is written behind the contents so far. -/
theorem refitItem_script_eq_ok (hitem : item.Fits)
    (h : (refitItem e .script tableSize r index item).run.run s = (.ok r', t)) :
    (item.offset < 0 ∧ r' = { r with table := r.table ++ item.fields }) ∨
      (0 ≤ item.offset ∧ item.packed = true ∧ r' = r) ∨
      (0 ≤ item.offset ∧ item.packed = false ∧ ∃ cursor content,
        (moved item r.contents.length content.length).Fits ∧
          r' = Refit.grown { r with cursor := cursor } item content) := by
  by_cases hshared : item.offset < 0
  · rw [run_refitItem_shared .script hshared hitem] at h
    cases h
    exact .inl ⟨hshared, rfl⟩
  unfold refitItem at h
  have hin : 0 ≤ item.offset := by omega
  right
  by_cases hplace : (r.cursor.pos : Int) ≠ item.offset + tableSize
  · simp only [if_neg hshared, if_pos hplace] at h
    cases h
  cases hpacked : item.packed with
  | true =>
    simp only [if_neg hshared, if_neg hplace, hpacked, and_self, if_true] at h
    cases h
    exact .inl ⟨hin, rfl, rfl⟩
  | false =>
    simp only [if_neg hshared, if_neg hplace, hpacked, Bool.false_eq_true, false_and, if_false, pure_bind] at h
    refine .inr ⟨hin, rfl, (r.cursor.read item.size).2, ?_⟩
    -- with a picture or without one, the content is added with its record
    obtain ⟨there, -, h⟩ := (Work.still_has _).run_bind_eq_ok h
    split at h
    · obtain ⟨picture, -, h⟩ := (Work.still_readPicture _).run_bind_eq_ok h
      obtain ⟨edited, log, log', -, h⟩ := Work.run_ofLogged_bind_eq_ok h
      rw [Work.run_ofExcept] at h
      exact ⟨edited, Refit.add_eq_ok hitem (Prod.mk.inj h).1⟩
    · rw [Work.run_ofExcept] at h
      exact ⟨(r.cursor.read item.size).1, Refit.add_eq_ok hitem (Prod.mk.inj h).1⟩

/-! ## All resources -/

/-- What a run over the table has written: records for the resources that are kept, and their contents one behind the
other. -/
structure Kept (items : List Item) (r r' : Refit) (kept : List Item) : Prop where
  same : List.Forall₂ SameItem (items.filter isKept) kept
  fits : ∀ item ∈ kept, item.Fits
  table_eq : r'.table = r.table ++ kept.flatMap Item.fields
  contiguous : Contiguous r.contents.length kept r'.contents.length

section Kept

variable {kept : List Item}

theorem Kept.shared (hshared : item.offset < 0) (hitem : item.Fits)
    (h : Kept items { r with table := r.table ++ item.fields } r' kept) : Kept (item :: items) r r' (item :: kept) where
  same := by
    rw [List.filter_cons_of_pos (by simp [isKept, hshared])]
    exact .cons ⟨rfl, rfl, rfl, fun _ => rfl, id⟩ h.same
  fits := List.forall_mem_cons.2 ⟨hitem, h.fits⟩
  table_eq := by rw [h.table_eq, List.flatMap_cons, List.append_assoc]
  contiguous := by
    rw [Contiguous, if_pos hshared]
    exact h.contiguous

theorem Kept.passed (hin : 0 ≤ item.offset) (hpacked : item.packed = true) (h : Kept items r r' kept) :
    Kept (item :: items) r r' kept where
  same := by
    rw [List.filter_cons_of_neg (by simp [isKept, hin, hpacked])]
    exact h.same
  fits := h.fits
  table_eq := h.table_eq
  contiguous := h.contiguous

theorem Kept.inline {cursor : Cursor} (hin : 0 ≤ item.offset) (hplain : item.packed = false)
    (hitem : (moved item r.contents.length content.length).Fits)
    (h : Kept items (Refit.grown { r with cursor := cursor } item content) r' kept) :
    Kept (item :: items) r r' (moved item r.contents.length content.length :: kept) where
  same := by
    rw [List.filter_cons_of_pos (by simp [isKept, hplain])]
    exact .cons ⟨rfl, rfl, rfl, fun hshared => absurd hshared (by omega), fun _ => Int.natCast_nonneg _⟩ h.same
  fits := List.forall_mem_cons.2 ⟨hitem, h.fits⟩
  table_eq := by
    rw [h.table_eq, List.flatMap_cons, ← List.append_assoc]
    rfl
  contiguous := by
    have hplace : ¬ (moved item r.contents.length content.length).offset < 0 := Int.not_lt.2 (Int.natCast_nonneg _)
    have hlater : Contiguous (r.contents ++ content).length kept r'.contents.length := h.contiguous
    rw [List.length_append] at hlater
    rw [Contiguous, if_neg hplace]
    exact ⟨rfl, hlater⟩

theorem exists_kept (hfits : ∀ item ∈ items, item.Fits)
    (h : ((Resource.numbered k items).foldlM (fun r p => refitItem e .script tableSize r p.1 p.2) r).run.run s =
      (.ok r', t)) : ∃ kept, Kept items r r' kept := by
  induction items generalizing k r s with
  | nil =>
    cases h
    exact ⟨[], .nil, List.forall_mem_nil _, (List.append_nil _).symm, rfl⟩
  | cons item items ih =>
    obtain ⟨hitem, hitems⟩ := List.forall_mem_cons.1 hfits
    rw [Resource.numbered, List.foldlM_cons] at h
    obtain ⟨r₁, u, hstep, h⟩ := run_bind_eq_ok h
    obtain ⟨kept, hkept⟩ := ih hitems h
    rcases refitItem_script_eq_ok hitem hstep with
      ⟨hshared, rfl⟩ | ⟨hin, hpacked, rfl⟩ | ⟨hin, hplain, cursor, content, hmoved, rfl⟩
    · exact ⟨_, hkept.shared hshared hitem⟩
    · exact ⟨_, hkept.passed hin hpacked⟩
    · exact ⟨_, hkept.inline hin hplain hmoved⟩

end Kept

/-! ## The script file -/

variable {resources file new : Bytes} {c : Cursor}

theorem refit_script_eq_ok (hread : e.read.run.run s = (.ok file, s))
    (htable : Resource.readTable (Cursor.ofBytes resources) = (.ok items, c))
    (h : (refit e .script resources).run.run s = (.ok new, t)) :
    ∃ start kept contents, file = start ++ resources ∧
      new = start ++ (resources.take 3 ++ (kept.flatMap Item.fields ++ contents)) ∧
      List.Forall₂ SameItem (items.filter isKept) kept ∧ (∀ item ∈ kept, item.Fits) ∧
      Contiguous 0 kept contents.length := by
  obtain ⟨-, -, -, hfits, -, -⟩ := Resource.readTable_eq_ok htable
  unfold refit at h
  dsimp only at h
  rw [run_bind_of_ok hread] at h
  split at h
  · rename_i hfile
    rw [pure_bind, htable] at h
    dsimp only at h
    rw [run_bind_of_ok (Work.run_ofExcept_ok _ s)] at h
    obtain ⟨r', u, hrun, h⟩ := run_bind_eq_ok h
    cases h
    rw [Resource.mapIdx_eq_numbered] at hrun
    obtain ⟨kept, hkept⟩ := exists_kept hfits hrun
    refine ⟨_, kept, r'.contents, hfile.symm, ?_, hkept.same, hkept.fits, hkept.contiguous⟩
    rw [hkept.table_eq, List.append_assoc, List.append_assoc]
  · cases h

variable {game : Game} {parts : ScriptFile} {b : Belongings} {patching patching' : Patching}

/-- The resources of a script's own come first, and only those beside it follow. -/
theorem homes_of_belongings (hscript : ((scriptFile e).run.run s).1 = .ok parts)
    (hown : parts.resources = some resources) (hne : resources ≠ [])
    (h : (game.belongings e).run.run s = (.ok b, t)) :
    b.homes = [(.script, resources)] ∨ ∃ data, b.homes = [(.script, resources), (.beside, data)] := by
  have hempty : resources.isEmpty = false := by simpa using hne
  unfold belongings at h
  rw [run_bind_of_ok ((still_scriptFile e).run_eq hscript)] at h
  obtain ⟨beside, -, h⟩ := Work.run_ofExcept_bind_eq_ok h
  refine result_of_each (P := fun b : Belongings =>
    b.homes = [(.script, resources)] ∨ ∃ data, b.homes = [(.script, resources), (.beside, data)]) ?_ ?_ h
  · intro x pattern e s y t hx hvisit
    obtain ⟨data, u, -, hvisit⟩ := run_bind_eq_ok hvisit
    cases hvisit
    right
    refine ⟨data, ?_⟩
    dsimp only
    rcases hx with hx | ⟨old, hx⟩
    · rw [hx]
      rfl
    · rw [hx]
      rfl
  · left
    dsimp only
    rw [hown, Option.getD_some, hempty]
    rfl

/-- A patch of the script file that was not there before is the file with the pictures of its resources. -/
theorem exists_refit_of_injectSprites (hscript : ((scriptFile e).run.run s).1 = .ok parts)
    (hown : parts.resources = some resources) (hne : resources ≠ [])
    (h : (game.injectSprites patching e).run.run s = (.ok patching', t))
    (hpatched : patching'.file? (e.stem ++ "." ++ Home.script.suffix) = some new)
    (hnew : patching.file? (e.stem ++ "." ++ Home.script.suffix) ≠ some new) :
    ∃ u, (refit e .script resources).run.run s = (.ok new, u) := by
  have hfirst : ∀ {p u}, (refit e .script resources >>= fun file =>
        Work.ofExcept (patching.add (e.stem ++ "." ++ Home.script.suffix) file)).run.run s = (.ok p, u) →
      p.file? (e.stem ++ "." ++ Home.script.suffix) = some new →
      ∃ u, (refit e .script resources).run.run s = (.ok new, u) := by
    intro p u hrun hp
    obtain ⟨file, u', hrefit, hrun⟩ := run_bind_eq_ok hrun
    rw [Work.run_ofExcept] at hrun
    rcases Patching.file?_of_add (Prod.mk.inj hrun).1 hp with hold | rfl
    · exact absurd hold hnew
    · exact ⟨u', hrefit⟩
  unfold injectSprites at h
  obtain ⟨b, hb, h⟩ := (still_belongings game e).run_bind_eq_ok h
  split at h
  · cases h
    exact absurd hpatched hnew
  rcases homes_of_belongings hscript hown hne hb with hhomes | ⟨data, hhomes⟩
  · rw [hhomes, List.foldlM_cons] at h
    simp only [List.foldlM_nil, bind_pure] at h
    exact hfirst h hpatched
  · rw [hhomes, List.foldlM_cons] at h
    obtain ⟨p, u, hp, h⟩ := run_bind_eq_ok h
    simp only [List.foldlM_cons, List.foldlM_nil, bind_pure] at h
    obtain ⟨other, u', -, h⟩ := run_bind_eq_ok h
    rw [Work.run_ofExcept] at h
    -- the patch of the file beside the script has another name
    have hnames : e.stem ++ "." ++ Home.script.suffix ≠ e.stem ++ "." ++ Home.beside.suffix := by
      intro heq
      have hsuffix := congrArg String.toList heq
      simp only [String.toList_append, List.append_cancel_left_eq] at hsuffix
      exact absurd hsuffix (by decide)
    rw [Patching.file?_of_addAs_of_ne (Prod.mk.inj h).1 hnames] at hpatched
    exact hfirst hp hpatched

/-- **Taking pictures back into a script file.**  Whatever pictures there are, the new file has the parts of the old one
but for its resources.  These have a whole table for the same items, with the contents behind it, just if no resource
in the file is packed. -/
theorem injectSprites_complete_iff (hscript : ((scriptFile e).run.run s).1 = .ok parts)
    (hown : parts.resources = some resources)
    (htable : Resource.readTable (Cursor.ofBytes resources) = (.ok items, c))
    (h : (game.injectSprites patching e).run.run s = (.ok patching', t))
    (hpatched : patching'.file? (e.stem ++ "." ++ Home.script.suffix) = some new)
    (hnew : patching.file? (e.stem ++ "." ++ Home.script.suffix) ≠ some new) :
    ∃ resources', ScriptFile.ofBytes new = .ok { parts with resources := some resources' } ∧
      ScriptFile.ofLooseFile new = .ok { parts with resources := some resources' } ∧
      ((∃ items', Complete resources' items' ∧ List.Forall₂ SameItem items items') ↔
        ∀ item ∈ items, 0 ≤ item.offset → item.packed = false) := by
  obtain ⟨hlong, hannounced, hitems, -, -, -⟩ := Resource.readTable_eq_ok htable
  have hne : resources ≠ [] := List.ne_nil_of_length_pos (by omega)
  have hhead : (resources.take 3).length = 3 := List.length_take_of_le hlong
  have hcount : (items.length : Int) = Resource.announced (resources.take 3) := by
    rw [hannounced, ← Resource.announced_append hhead (resources.drop 3), List.take_append_drop]
  obtain ⟨file, hread, hopens⟩ := read_of_scriptFile hscript
  obtain ⟨u, hrefit⟩ := exists_refit_of_injectSprites hscript hown hne h hpatched hnew
  obtain ⟨start, kept, contents, rfl, rfl, hsame, hfits, hcontents⟩ := refit_script_eq_ok hread htable hrefit
  obtain ⟨hstored, hloose⟩ := ScriptFile.opens_with_resources hopens hown hne
    (resources.take 3 ++ (kept.flatMap Item.fields ++ contents))
  have hlength : (items.filter isKept).length = kept.length := hsame.length_eq
  refine ⟨_, hstored, hloose, ?_, ?_⟩
  · rintro ⟨items', hcomplete, hsame'⟩ item hitem hin
    have hle := hcomplete.length_le hhead hfits hcontents
    rw [← hsame'.length_eq, ← hlength] at hle
    have hall := List.length_filter_eq_length_iff.1 (Nat.le_antisymm (List.length_filter_le _ _) hle)
    exact isKept_iff.1 (hall item hitem) hin
  · intro hplain
    have hall : items.filter isKept = items :=
      List.filter_eq_self.2 fun item hitem => isKept_iff.2 (hplain item hitem)
    rw [hall] at hsame hlength
    have hkept : kept ≠ [] := by
      rintro rfl
      exact hitems (List.eq_nil_of_length_eq_zero hlength)
    rw [hlength] at hcount
    exact ⟨kept, Resource.complete_of_announced hhead hcount hkept hfits hcontents, hsame⟩

/-- A script file with nothing but resources. -/
def resourceScript (resources : Bytes) : Bytes :=
  ScriptFile.headerWith 0xFFFFFFFF 128 ++ resources

def resourceParts (resources : Bytes) : ScriptFile :=
  ⟨[], List.replicate 14 0, none, some resources, 0, 0⟩

def ownArchive (resources : Bytes) : Archive :=
  scriptArchive (resourceScript resources)

/-- Two sprites of one pixel with a shared one between them. -/
def plainItems : List Item :=
  [⟨0, 1, 1, 1, false⟩, ⟨-3, 7, 2, 5, true⟩, ⟨1, 1, 1, 1, false⟩]

def plainResources (first : UInt8) : Bytes :=
  [3, 0, 0] ++ (plainItems.flatMap Item.fields ++ [first, 0x28])

def paintedScript : Entry :=
  smallScript (ownArchive (plainResources 0x18))

/-- A session with an edited picture of the first sprite. -/
def paintedSession : Session :=
  .start ⟨[["game"], ["work"], ["work", "graphics"]],
    [(["game", "A.STK"], .data (ownArchive (plainResources 0x18)).data),
      (["work", "graphics", "X.TOT_0.png"], .picture (.ofPixels 1 1 [5]) [])]⟩ ["work"] ⟨1, 1, 2000, 0, 0, 0⟩

def paintedPatches : Patching :=
  { items := [(("X.TOT", "X.TOT"), resourceScript (plainResources 0x58))] }

theorem injectSprites_complete_iff_painted :
    ∃ resources', ScriptFile.ofBytes (resourceScript (plainResources 0x58)) = .ok (resourceParts resources') ∧
      ∃ items', Complete resources' items' ∧ List.Forall₂ SameItem plainItems items' := by
  have hpainted : ((scriptFile paintedScript).run.run paintedSession).1.toOption =
        some (resourceParts (plainResources 0x18)) ∧
      ((smallGame.injectSprites {} paintedScript).run.run paintedSession).1.toOption = some paintedPatches ∧
      paintedPatches.file? (paintedScript.stem ++ "." ++ Home.script.suffix) =
        some (resourceScript (plainResources 0x58)) := by
    decide +kernel
  obtain ⟨hscript, hinject, hpatched⟩ := hpainted
  obtain ⟨t, hrun⟩ := Work.exists_run_of_toOption hinject
  have htable : Resource.readTable (Cursor.ofBytes (plainResources 0x18)) =
      (.ok plainItems, ⟨(plainResources 0x18).toArray, 33⟩) :=
    Resource.readTable_fields rfl rfl (by decide) (by decide) _
  obtain ⟨resources', hopens, -, hiff⟩ := injectSprites_complete_iff (eq_ok_of_toOption hscript) rfl htable hrun hpatched
    (fun h => by cases h)
  exact ⟨resources', hopens, hiff.2 (by decide)⟩

/-- A packed sprite in a script file loses its record and its content, and the number of records stays. -/
theorem injectSprites_drops_record :
    ((scriptFile (smallScript (ownArchive dotFile))).run.run (smallSession (ownArchive dotFile))).1 =
        .ok (resourceParts dotFile) ∧
      Resource.readTable (Cursor.ofBytes dotFile) = (.ok [dotItem], ⟨dotFile.toArray, 13⟩) ∧
      Contiguous 0 [dotItem] (dotFile.length - 13) ∧
      ((smallGame.injectSprites {} (smallScript (ownArchive dotFile))).run.run (smallSession (ownArchive dotFile))).1 =
        .ok { items := [(("X.TOT", "X.TOT"), resourceScript [1, 0, 0])] } ∧
      ScriptFile.ofBytes (resourceScript [1, 0, 0]) = .ok (resourceParts [1, 0, 0]) ∧
      ¬ ∃ items', Complete [1, 0, 0] items' ∧ List.Forall₂ SameItem [dotItem] items' := by
  have hdot : ((scriptFile (smallScript (ownArchive dotFile))).run.run
        (smallSession (ownArchive dotFile))).1.toOption = some (resourceParts dotFile) ∧
      ((smallGame.injectSprites {} (smallScript (ownArchive dotFile))).run.run
        (smallSession (ownArchive dotFile))).1.toOption =
          some { items := [(("X.TOT", "X.TOT"), resourceScript [1, 0, 0])] } ∧
      (ScriptFile.ofBytes (resourceScript [1, 0, 0])).toOption = some (resourceParts [1, 0, 0]) := by
    decide +kernel
  obtain ⟨hscript, hinject, hopens⟩ := hdot
  refine ⟨eq_ok_of_toOption hscript, Resource.readTable_fields rfl rfl (by decide) (by decide) _, by decide,
    eq_ok_of_toOption hinject, eq_ok_of_toOption hopens, ?_⟩
  rintro ⟨items', hcomplete, hsame⟩
  have hwhole := hcomplete.whole
  rw [← hsame.length_eq] at hwhole
  exact absurd hwhole (by decide)

end Game

end AdventureKit
