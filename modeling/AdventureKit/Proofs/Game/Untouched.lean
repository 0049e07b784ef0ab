import AdventureKit.Proofs.Game.Refit

/-!
# Taking back where there are no pictures

A script has its resources in a file beside it, and none of them has a picture.  Taking pictures back then goes through
the table as it always does: it unpacks the packed resources, but it keeps the stored bytes of every resource, counts
the offsets anew and writes the records again.  The file that comes out is the file that went in, byte by byte
(`injectSprites_keeps_file`), as long as the name that a picture would have is one that can be looked for.
-/

namespace AdventureKit

/-! ## Looking for a picture -/

theorem Disk.walk_ne_nameTooLong {d : Disk} {place : Place} {parts : List String}
    (h : ∀ part ∈ parts, part.utf8ByteSize ≤ maxName) : d.walk place parts ≠ .error .nameTooLong := by
  induction parts generalizing place with
  | nil =>
    intro hwalk
    cases hwalk
  | cons part parts ih =>
    obtain ⟨hpart, hparts⟩ := List.forall_mem_cons.1 h
    unfold walk
    split
    · exact fun hwalk => by cases hwalk
    split
    · exact fun hwalk => by cases hwalk
    split
    · exact ih hparts
    rw [if_neg (by omega)]
    exact ih hparts

/-- Looking for a path says whether it is there, unless a name on the way is too long. -/
theorem Work.has_cases (path : String) (s : Session) :
    (∃ there, ((has path).run.run s).1 = .ok there) ∨
      (s.follow path = .error .nameTooLong ∧ ((has path).run.run s).1 = .error .nameTooLong) := by
  unfold has
  rw [run_bind_of_ok (run_get s)]
  split
  · exact .inl ⟨_, rfl⟩
  · exact .inr ⟨‹_›, rfl⟩
  · exact .inl ⟨_, rfl⟩

namespace Game

open Resource (Item Contiguous)

variable {e : Entry} {home : Home} {index tableSize : Nat} {item : Item} {r : Refit} {s : Session}
  {content stored : Bytes}

/-- A picture with a name that is not too long is there or is not. -/
theorem has_eq_false (hname : (pictureName e home index).utf8ByteSize ≤ Disk.maxName)
    (hnone : ((Work.has (pictureFile e home index)).run.run s).1 ≠ .ok true) :
    ((Work.has (pictureFile e home index)).run.run s).1 = .ok false := by
  have hfollow : s.follow (pictureFile e home index) ≠ .error .nameTooLong := by
    intro h
    unfold Session.follow Disk.follow Disk.pathOf at h
    split at h
    · cases h
    rw [ofString_pictureFile] at h
    refine Disk.walk_ne_nameTooLong ?_ h
    intro part hpart
    rcases List.mem_cons.1 hpart with rfl | hpart
    · decide
    · rw [List.mem_singleton.1 hpart]
      exact hname
  rcases Work.has_cases (pictureFile e home index) s with ⟨there, hthere⟩ | ⟨hlong, -⟩
  · cases there with
    | true => exact absurd hthere hnone
    | false => exact hthere
  · exact absurd hlong hfollow

theorem run_takeOver_of_absent (hnone : ((Work.has (pictureFile e .beside index)).run.run s).1 = .ok false) :
    (takeOver e r index item content stored).run.run s = (r.add item stored, s) := by
  unfold takeOver
  rw [run_bind_of_ok ((Work.still_has _).run_eq hnone)]
  simp only [Bool.false_eq_true, false_and, if_false]
  exact Work.run_ofExcept _ s

/-- A resource without a picture is written as it was, if it comes to lie where it was. -/
theorem run_refitItem_of_absent (hitem : item.Fits) (hplace : item.offset = r.contents.length)
    (hpos : r.cursor.pos = tableSize + r.contents.length) {behind : Bytes} (hrest : r.cursor.rest = stored ++ behind)
    (hstored : stored.length = item.size) (hreads : ReadsAs item r.cursor.rest stored content)
    (hnone : ((Work.has (pictureFile e .beside index)).run.run s).1 = .ok false) :
    (refitItem e .beside tableSize r index item).run.run s =
      (.ok ⟨r.table ++ item.fields, r.contents ++ stored, r.cursor.took item.size⟩, s) := by
  have hsame : moved item r.contents.length stored.length = item := by rw [moved, hstored, ← hplace]
  have hsmall : stored.length < 0x10000 := by
    rw [hstored]
    exact hitem.size
  have hlow : r.contents.length < 0x80000000 := by
    have hrange := hitem.offset
    omega
  have hadd := @Refit.add_eq item { r with cursor := r.cursor.took item.size } stored hitem hlow hsmall
  rw [refitItem_inline (by omega) (by omega) hrest hstored hreads, run_takeOver_of_absent hnone, hadd, Refit.grown]
  dsimp only
  rw [hsame]

/-! ## All resources -/

variable {items : List Item} {k place stop : Nat}

/-- The packed resources can be unpacked at their places in a file. -/
def Unpacks (data : Bytes) (tableSize : Nat) (items : List Item) : Prop :=
  ∀ item ∈ items, 0 ≤ item.offset → item.packed = true →
    ∃ content behind, Lzss.unpackSized (data.drop (tableSize + item.offset.toNat)) = .ok (content, behind)

theorem Unpacks.exists_readsAs {c : Cursor} (h : Unpacks c.data.toList tableSize items) (hmem : item ∈ items)
    (hin : 0 ≤ item.offset) (hpos : (c.pos : Int) = tableSize + item.offset) (stored : Bytes) :
    ∃ content, ReadsAs item c.rest stored content := by
  unfold ReadsAs
  split
  · rename_i hpacked
    have hplace : c.pos = tableSize + item.offset.toNat := by omega
    obtain ⟨content, behind, hunpack⟩ := h item hmem hin hpacked
    rw [Cursor.rest_eq_drop, hplace]
    exact ⟨content, behind, hunpack⟩
  · exact ⟨_, rfl⟩

/-- Resources without pictures are written as they were. -/
theorem run_refitItems_of_absent (hcontiguous : Contiguous place items stop) (hfits : ∀ item ∈ items, item.Fits)
    (hsize : r.cursor.data.size = tableSize + stop) (hpos : r.cursor.pos = tableSize + place)
    (hcontents : r.contents.length = place) (hunpacks : Unpacks r.cursor.data.toList tableSize items)
    (hnone : ∀ (i : Nat) item, items[i]? = some item → 0 ≤ item.offset →
      ((Work.has (pictureFile e .beside (k + i))).run.run s).1 = .ok false) :
    (refitItems e tableSize k items r).run.run s =
      (.ok ⟨r.table ++ items.flatMap Item.fields, r.contents ++ r.cursor.rest, ⟨r.cursor.data, tableSize + stop⟩⟩,
        s) := by
  -- along the table: the cursor stands where the new contents end, so that every offset is the old one
  induction items generalizing k r place with
  | nil =>
    have hplace : place = stop := hcontiguous
    have hrest : r.cursor.rest = [] := by
      rw [Cursor.rest_eq_drop]
      exact List.drop_eq_nil_of_le (by rw [Array.length_toList]; omega)
    rw [hrest, ← hplace, ← hpos, List.flatMap_nil, List.append_nil, List.append_nil]
    rfl
  | cons item items ih =>
    obtain ⟨hitem, hitems⟩ := List.forall_mem_cons.1 hfits
    have hlater : ∀ (i : Nat) item', items[i]? = some item' → 0 ≤ item'.offset →
        ((Work.has (pictureFile e .beside (k + 1 + i))).run.run s).1 = .ok false := by
      intro i item' hi hin
      rw [Nat.add_assoc, Nat.add_comm 1]
      exact hnone (i + 1) item' hi hin
    have hunpacksLater : Unpacks r.cursor.data.toList tableSize items :=
      fun item' hitem' => hunpacks item' (List.mem_cons_of_mem _ hitem')
    rw [refitItems_cons, List.flatMap_cons, ← List.append_assoc]
    rw [Contiguous] at hcontiguous
    split at hcontiguous
    · rename_i hshared
      rw [run_bind_of_ok (run_refitItem_shared .beside hshared hitem)]
      exact ih (r := { r with table := r.table ++ item.fields }) hcontiguous hitems hsize hpos hcontents hunpacksLater
        hlater
    · rename_i hshared
      obtain ⟨hoffset, hcontiguous⟩ := hcontiguous
      have hin : 0 ≤ item.offset := by omega
      have hle := hcontiguous.le
      have hhere : ((Work.has (pictureFile e .beside k)).run.run s).1 = .ok false := hnone 0 item rfl hin
      have hrest : r.cursor.rest = r.cursor.rest.take item.size ++ r.cursor.rest.drop item.size :=
        (List.take_append_drop _ _).symm
      have hstored : (r.cursor.rest.take item.size).length = item.size := by
        rw [List.length_take, Cursor.rest_eq_drop, List.length_drop, Array.length_toList]
        omega
      -- a packed resource is unpacked, and what comes out is not used
      obtain ⟨content, hreads⟩ := hunpacks.exists_readsAs List.mem_cons_self hin (by omega)
        (r.cursor.rest.take item.size)
      rw [run_bind_of_ok (run_refitItem_of_absent hitem (by omega) (by omega) hrest hstored hreads hhere)]
      have htook := Cursor.took_of_rest hrest hstored
      have hrun := ih (k := k + 1) (r := ⟨r.table ++ item.fields, r.contents ++ r.cursor.rest.take item.size,
        r.cursor.took item.size⟩) hcontiguous hitems hsize (by rw [htook, hpos, Nat.add_assoc])
        (by rw [List.length_append, hcontents, hstored]) hunpacksLater hlater
      rw [hrun]
      dsimp only
      rw [Cursor.rest_took hrest hstored, List.append_assoc r.contents, List.take_append_drop, Cursor.data_took]

/-! ## The file -/

variable {file : Bytes} {c : Cursor} {game : Game}

/-- **Taking back where there are no pictures.**  A file of resources with a whole table, whose resources lie one behind
the other from there to its end and can be unpacked, is patched with its own bytes, if there is no picture and every
picture's name is short enough to be looked for. -/
theorem injectSprites_keeps_file (hbeside : Beside game e file s)
    (htable : Resource.readTable (Cursor.ofBytes file) = (.ok items, c))
    (hwhole : 3 + 10 * items.length ≤ file.length) (hcontiguous : Contiguous 0 items (file.length - c.pos))
    (hunpacks : Unpacks file c.pos items)
    (hnone : ∀ (i : Nat) item, items[i]? = some item → 0 ≤ item.offset →
      ((Work.has (pictureFile e .beside i)).run.run s).1 ≠ .ok true)
    (hnames : ∀ (i : Nat) item, items[i]? = some item → 0 ≤ item.offset →
      (pictureName e .beside i).utf8ByteSize ≤ Disk.maxName)
    (patching : Patching) :
    (game.injectSprites patching e).run.run s =
      (patching.add (e.stem ++ "." ++ Home.beside.suffix) file, s) := by
  obtain ⟨hlong, -, -, hfits, hdata, hpos⟩ := Resource.readTable_eq_ok htable
  obtain ⟨-, hfile⟩ := Resource.readTable_whole htable hwhole
  have hsize : c.data.size = c.pos + (file.length - c.pos) := by
    rw [hdata, List.size_toArray]
    omega
  have hrest : c.rest = file.drop c.pos := by rw [Cursor.rest_eq_drop, hdata]
  have hrun : (refitItems e c.pos 0 items ⟨file.take 3, [], c⟩).run.run s =
      (.ok ⟨file.take 3 ++ items.flatMap Item.fields, [] ++ c.rest, ⟨c.data, c.pos + (file.length - c.pos)⟩⟩, s) := by
    refine run_refitItems_of_absent hcontiguous hfits hsize rfl rfl (by rwa [hdata]) fun i item hi hin => ?_
    rw [Nat.zero_add]
    exact has_eq_false (hnames i item hi hin) (hnone i item hi hin)
  have hrefit : (refit e .beside file).run.run s = (.ok file, s) := by
    rw [refit_eq htable, run_bind_of_ok hrun, hrest]
    show (Except.ok (file.take 3 ++ items.flatMap Item.fields ++ file.drop c.pos), s) = _
    rw [List.append_assoc, ← hfile]
  rw [run_injectSprites hbeside (List.ne_nil_of_length_pos (by omega)), run_bind_of_ok hrefit]
  exact Work.run_ofExcept _ s

theorem injectSprites_keeps_file_mixed :
    (smallGame.injectSprites {} (smallScript mixedArchive)).run.run (smallSession mixedArchive) =
      (.ok { items := [(("X.EXT", "X.EXT"), mixedFile)] }, smallSession mixedArchive) := by
  have hbeside : Beside smallGame (smallScript mixedArchive) mixedFile (smallSession mixedArchive) :=
    ⟨0, 0, eq_ok_of_toOption extracted_mixed.1⟩
  have hunpacked : Lzss.unpackSized (mixedFile.drop 33) = .ok ([0x18, 0x28, 0x38, 0x48], [0x58]) :=
    eq_ok_of_toOption (by decide +kernel)
  have hunpacks : Unpacks mixedFile 33 mixedItems := by
    intro item hitem hin hpacked
    rcases List.mem_cons.1 hitem with rfl | hitem
    · exact ⟨_, _, hunpacked⟩
    · rcases List.mem_pair.1 hitem with rfl | rfl <;> cases hpacked
  have hnone : ∀ i < 3, ((Work.has (pictureFile (smallScript mixedArchive) .beside i)).run.run
      (smallSession mixedArchive)).1.toOption ≠ some true := by decide +kernel
  have hnames : ∀ i < 3, (pictureName (smallScript mixedArchive) .beside i).utf8ByteSize ≤ Disk.maxName := by
    decide +kernel
  have hindex : ∀ (i : Nat) item, mixedItems[i]? = some item → i < 3 :=
    fun i item hi => (List.getElem?_eq_some_iff.1 hi).1
  rw [injectSprites_keeps_file hbeside readTable_mixedFile (by decide) (by decide) hunpacks
    (fun i item hi _ h => hnone i (hindex i item hi) (by rw [h]; rfl)) (fun i item hi _ => hnames i (hindex i item hi))]
  rfl

/-! ## A name that is too long -/

theorem beside_of_loose {name beside found : String} {script : Bytes} {parts : ScriptFile}
    (hpatches : game.patchFolders = some [])
    (hread : (Entry.loose game.base name).read.run.run s = (.ok script, s))
    (hopens : ScriptFile.ofLooseFile script = .ok parts) (hown : parts.resources = none)
    (hname : (Entry.loose game.base name).nameWithSuffix ("." ++ Home.beside.suffix) = .ok beside)
    (hglob : (glob game.base beside).run.run s = (.ok [found], s))
    (hfound : (Work.isFolder (Path.under game.base found)).run.run s = (.ok false, s))
    (harchives : ∀ pattern ∈ archivePatterns, (glob game.base pattern).run.run s = (.ok [], s))
    (hfile : (Entry.loose game.base found).read.run.run s = (.ok file, s)) :
    Beside game (.loose game.base name) file s := by
  have hscript : (scriptFile (.loose game.base name)).run.run s = (.ok parts, s) := by
    unfold scriptFile
    rw [run_bind_of_ok hread, ← hopens]
    exact Work.run_ofExcept _ s
  refine ⟨parts.imNumber, parts.exNumber, ?_⟩
  unfold belongings
  rw [run_bind_of_ok hscript, hname, run_bind_of_ok (Work.run_ofExcept_ok _ s), hown]
  unfold each
  rw [run_search_of_loose hpatches hglob hfound harchives]
  rw [bind_assoc, run_bind_of_ok hfile]
  rfl

theorem has_pictureFile_of_long (hlong : Disk.maxName < (pictureName e home index).utf8ByteSize)
    (hzero : '\x00' ∉ (pictureName e home index).toList) {place : Place}
    (hwalk : s.disk.walk s.here [graphicsFolder] = .ok place) (hfolder : s.disk.isFolder place = true)
    (hfile : s.disk.files.has place = false) :
    ((Work.has (pictureFile e home index)).run.run s).1 = .error .nameTooLong := by
  have hpath : Disk.pathOf (pictureFile e home index) = .ok ⟨"", [graphicsFolder, pictureName e home index]⟩ := by
    have hclean : '\x00' ∉ (pictureFile e home index).toList := by
      rw [toList_pictureFile, List.mem_append, List.mem_cons]
      rintro (h | h | h)
      · exact absurd h (by decide)
      · exact absurd h (by decide)
      · exact hzero h
    rw [Disk.pathOf, if_neg (by simpa using hclean), ofString_pictureFile]
  have hlast : s.disk.walk place [pictureName e home index] = .error .nameTooLong := by
    have hup : (pictureName e home index == "..") = false := by simpa using pictureName_ne ".." (by decide)
    simp [Disk.walk, hfile, hfolder, hup, hlong]
  have hfollow : s.follow (pictureFile e home index) = .error .nameTooLong := by
    unfold Session.follow Disk.follow
    rw [hpath]
    show s.disk.walk s.here ([graphicsFolder] ++ [pictureName e home index]) = _
    rw [Disk.walk_append, hwalk]
    exact hlast
  unfold Work.has
  rw [run_bind_of_ok (run_get s), hfollow]
  rfl

/-- A name of signs that take three bytes each. -/
@[irreducible] def longName (ending : List Char) : String :=
  String.ofList (List.replicate 82 '中' ++ ending)

def scriptPart : List Char := ['.', 'T', 'O', 'T']

def besidePart : List Char := ['.', 'E', 'X', 'T']

def longScript : Entry :=
  .loose smallGame.base (longName scriptPart)

/-- One sprite of one pixel. -/
def pixelItem : Item :=
  ⟨0, 1, 1, 1, false⟩

def pixelFile : Bytes :=
  [1, 0, 0] ++ ([pixelItem].flatMap Item.fields ++ [8])

def longSession : Session :=
  .start ⟨[["game"], ["work"], ["work", "graphics"]], [(["game", longName scriptPart], .data bareScript),
    (["game", longName besidePart], .data pixelFile)]⟩ ["work"] ⟨1, 1, 2000, 0, 0, 0⟩

/-- Both names fit, with five bytes to spare. -/
example : (longName scriptPart).utf8ByteSize = 250 ∧ (longName besidePart).utf8ByteSize = 250 ∧ Disk.maxName = 255 := by
  decide +kernel

theorem toList_longName (ending : List Char) : (longName ending).toList = List.replicate 82 '中' ++ ending := by
  unfold longName
  exact String.toList_ofList

theorem follow_longName : ∀ ending ∈ [scriptPart, besidePart],
    longSession.follow (Path.under smallGame.base (longName ending)) = .ok ["game", longName ending] := by
  have hunder : ∀ ending ∈ [scriptPart, besidePart], Path.under smallGame.base (longName ending) =
      String.ofList ("../game/".toList ++ (List.replicate 82 '中' ++ ending)) := by
    unfold Path.under Path.ofString Path.components
    simp only [toList_longName]
    decide +kernel
  have hfollow : ∀ ending ∈ [scriptPart, besidePart], (longSession.follow (String.ofList
      ("../game/".toList ++ (List.replicate 82 '中' ++ ending)))).toOption = some ["game", longName ending] := by
    unfold Session.follow Disk.follow Disk.pathOf Path.ofString Path.components
    simp only [String.toList_ofList]
    decide +kernel
  intro ending hending
  rw [hunder ending hending]
  exact eq_ok_of_toOption (hfollow ending hending)

theorem read_longName {ending : List Char} (hending : ending ∈ [scriptPart, besidePart]) {bytes : Bytes}
    (hbytes : (longSession.disk.read ["game", longName ending]).toOption = some (.data bytes)) :
    (Entry.loose smallGame.base (longName ending)).read.run.run longSession = (.ok bytes, longSession) :=
  Work.run_readData (follow_longName ending hending) (eq_ok_of_toOption hbytes)

theorem run_glob_longSession {pattern : String} (haim : Pattern.aim pattern = .ok .names) {names : List String}
    (hnames : [longName scriptPart, longName besidePart].filter (Pattern.acceptsLetters pattern) = names)
    (hone : names.length ≤ 1) : (glob smallGame.base pattern).run.run longSession = (.ok names, longSession) := by
  have hfound : Sequence.distinct ((longSession.disk.folders ++ longSession.disk.files.keys).filterMap fun place =>
      if place.dropLast == ["game"] then place.getLast? else none) = [longName scriptPart, longName besidePart] := by
    decide +kernel
  have hperm := (longSession.disk.names_perm ["game"]).filter (Pattern.acceptsLetters pattern)
  rw [hfound, hnames] at hperm
  have hfollow : longSession.follow smallGame.base = .ok ["game"] := eq_ok_of_toOption (by decide +kernel)
  rw [run_glob haim hfollow (by decide +kernel)]
  -- at most one name is left, so that its place in the order does not matter
  match names, hone with
  | [], _ => rw [List.perm_nil.1 hperm]
  | [name], _ => rw [List.perm_singleton.1 hperm]

/-- A pattern of more than two characters looks for names, unless two stars follow each other in it. -/
theorem aim_of_long {pattern : String} (hlong : 2 < pattern.toList.length)
    (hstars : (pattern.toList.zip pattern.toList.tail).contains ('*', '*') = false) :
    Pattern.aim pattern = .ok .names := by
  have hne {text : String} (htext : text.toList.length ≤ 2) : (pattern == text) = false := by
    rw [beq_eq_false_iff_ne]
    rintro rfl
    omega
  unfold Pattern.aim
  rw [hne (by decide), hne (by decide), hne (by decide), hne (by decide), hstars]
  rfl

theorem name_longScript : (Path.ofString longScript.name).name = longName scriptPart := by
  have hlist : (longName scriptPart).toList = [] ++ (List.replicate 82 '中' ++ scriptPart) := toList_longName _
  show (Path.ofString (longName scriptPart)).name = _
  rw [Archive.name_ofString hlist (.inl rfl) (by decide) (by decide)]
  unfold longName
  rfl

theorem stem_longScript : longScript.stem = longName [] := by
  rw [Entry.stem, Path.stem, name_longScript]
  unfold longName
  rw [scriptPart, Archive.splitSuffix_of_dot (by decide), if_neg (by decide), List.append_nil]

theorem beside_longScript : Beside smallGame longScript pixelFile longSession := by
  have haccepts : Pattern.acceptsLetters (longName besidePart) (longName besidePart) = true ∧
      Pattern.acceptsLetters (longName besidePart) (longName scriptPart) = false ∧
      ∀ pattern ∈ archivePatterns, ∀ ending ∈ [scriptPart, besidePart],
        Pattern.acceptsLetters pattern (longName ending) = false := by
    unfold Pattern.acceptsLetters Pattern.acceptsBy Pattern.ofString
    simp only [toList_longName]
    decide +kernel
  obtain ⟨hbeside, hscript, harchives⟩ := haccepts
  have hname : longScript.nameWithSuffix ("." ++ Home.beside.suffix) = .ok (longName besidePart) := by
    rw [Entry.nameWithSuffix, Path.nameWithSuffix, if_neg (by decide +kernel), name_longScript,
      if_neg (by decide +kernel)]
    show Except.ok (longScript.stem ++ _) = _
    rw [stem_longScript]
    exact congrArg Except.ok (by decide +kernel)
  have hopens : (ScriptFile.ofLooseFile bareScript).toOption = some ⟨[], List.replicate 14 0, none, none, 0, 0⟩ := by
    decide +kernel
  have haim : Pattern.aim (longName besidePart) = .ok .names := by
    refine aim_of_long ?_ ?_
    · rw [toList_longName]
      decide
    · rw [toList_longName]
      decide +kernel
  have hglob : (glob smallGame.base (longName besidePart)).run.run longSession =
      (.ok [longName besidePart], longSession) :=
    run_glob_longSession haim (by simp [hbeside, hscript]) (Nat.le_refl 1)
  refine beside_of_loose rfl (read_longName (by decide) (by decide +kernel)) (eq_ok_of_toOption hopens) rfl hname hglob
    ?_ ?_ (read_longName (by decide) (by decide +kernel))
  · exact Work.run_isFolder (follow_longName besidePart (by decide))
  · intro pattern hpattern
    have hnone := harchives pattern hpattern
    have hfilter : [longName scriptPart, longName besidePart].filter (Pattern.acceptsLetters pattern) = [] := by
      simp [hnone scriptPart (by decide), hnone besidePart (by decide)]
    exact run_glob_longSession (aim_archivePatterns hpattern) hfilter (by decide)

/-- A script whose resources lie in a file with a long name has no pictures, and the file is not patched: the name of a
picture is longer still, and looking for it fails. -/
theorem injectSprites_refuses_long_name :
    Beside smallGame longScript pixelFile longSession ∧
      Resource.readTable (Cursor.ofBytes pixelFile) = (.ok [pixelItem], ⟨pixelFile.toArray, 13⟩) ∧
      3 + 10 * [pixelItem].length ≤ pixelFile.length ∧ Contiguous 0 [pixelItem] (pixelFile.length - 13) ∧
      Unpacks pixelFile 13 [pixelItem] ∧
      ((Work.has (pictureFile longScript .beside 0)).run.run longSession).1 ≠ .ok true ∧
      (smallGame.injectSprites {} longScript).run.run longSession = (.error .nameTooLong, longSession) := by
  have htable : Resource.readTable (Cursor.ofBytes pixelFile) = (.ok [pixelItem], ⟨pixelFile.toArray, 13⟩) :=
    Resource.readTable_fields rfl rfl (by decide) (by decide) _
  have hhas : ((Work.has (pictureFile longScript .beside 0)).run.run longSession).1 = .error .nameTooLong := by
    have hlong : Disk.maxName < (pictureName longScript .beside 0).utf8ByteSize := by
      rw [pictureName, stem_longScript]
      decide +kernel
    have hzero : '\x00' ∉ (pictureName longScript .beside 0).toList := by
      rw [pictureName, stem_longScript]
      simp only [String.toList_append, toList_longName]
      decide +kernel
    have hwalk : longSession.disk.walk longSession.here [graphicsFolder] = .ok ["work", "graphics"] :=
      eq_ok_of_toOption (by decide +kernel)
    exact has_pictureFile_of_long hlong hzero hwalk (by decide +kernel) (by decide +kernel)
  refine ⟨beside_longScript, htable, by decide, by decide, ?_, ?_, ?_⟩
  · intro item hitem hin hpacked
    rw [List.mem_singleton.1 hitem] at hpacked
    cases hpacked
  · rw [hhas]
    exact fun h => by cases h
  · let r : Refit := ⟨pixelFile.take 3, [], ⟨pixelFile.toArray, 13⟩⟩
    have hrest : r.cursor.rest = [8] ++ [] := by decide
    have hreads : ReadsAs pixelItem r.cursor.rest [8] [8] := rfl
    have hitem : (refitItem longScript .beside 13 r 0 pixelItem).run.run longSession =
        (.error .nameTooLong, longSession) := by
      rw [refitItem_inline (by decide) (by decide) hrest rfl hreads, takeOver]
      exact run_bind_of_error ((Work.still_has _).run_eq hhas)
    rw [run_injectSprites beside_longScript (by decide), refit_eq htable, refitItems_cons, bind_assoc, bind_assoc]
    exact run_bind_of_error hitem

end Game

end AdventureKit
