import AdventureKit.Game.Texts
import AdventureKit.Proofs.Dialogue.SavedBlock
import AdventureKit.Proofs.Game.Patch
import AdventureKit.Proofs.Game.Refit
import AdventureKit.Proofs.Script.NewTexts
import AdventureKit.Proofs.Sequence

/-!
# Taking texts back into a script file

The texts of a script's own lie in the script file.  Taking new ones back saves the old lines once more, looks for the
block that this gives in the file, and puts the new block in the place of every hit.  If the old block is found only
where the texts start, then just the texts change, and the place of the resources is moved with them
(`opens_of_replaceTexts`).  What stood behind the old block in the texts is still there behind the new one, and the
lines that were saved come out again unless the record of a line without a body points into it
(`TextBlock.read_append_eq_iff`).  A block that is found at other places as well is replaced there too
(`injectScript_changes_code`).
-/

namespace AdventureKit

/-! ## Blocks with bytes behind them -/

namespace TextBlock

variable {lines : List Line} {block : Bytes}

/-- A body that a block shows is shown whatever follows the block. -/
theorem Shows.append {place : Nat} {body : Bytes} (hb : body ≠ []) (h : Shows block ⟨place, body.length, body⟩)
    (trail : Bytes) : Shows (block ++ trail) ⟨place, body.length, body⟩ := by
  rw [shows_of_body hb] at h ⊢
  obtain ⟨hplace, hbytes⟩ := h
  refine ⟨hplace, ?_⟩
  have hlength := congrArg List.length hbytes
  rw [List.length_take, List.length_drop] at hlength
  have hpos := List.length_pos_iff.2 hb
  rw [List.drop_append_of_le_length (by omega), List.take_append_of_le_length (by rw [List.length_drop]; omega)]
  exact hbytes

/-- Saved lines come out of a block with bytes behind it just if no line without a body points there. -/
theorem read_append_eq_iff (hread : read (blockOf lines) = replaced lines) (trail : Bytes) :
    read (blockOf lines ++ trail) = replaced lines ↔
      ∀ line ∈ replaced lines, line.body = [] →
        line.place = nowhere ∨ line.size = 0 ∨ ((blockOf lines ++ trail).length : Int) ≤ line.place := by
  have hshown : ∀ line ∈ replaced lines, Recordable line ∧ Shows (blockOf lines) line :=
    fun line hline => mem_read (hread ▸ hline)
  have hn : lines.length < 1024 := by
    rw [← length_replaced, ← hread, length_read]
    exact Nat.mod_lt _ (by decide)
  have hmap := List.map_inj_left (l := replaced lines) (g := id)
    (f := fun line => lineAt (blockOf lines ++ trail) line.place.toNat line.size.toNat)
  rw [List.map_id] at hmap
  rw [read_blockOf_append hn (fun line hline => (hshown line hline).1), hmap]
  constructor
  · intro h line hline hb
    exact (shows_of_empty (hshown line hline).1 hb).1 (h line hline)
  · intro h line hline
    have hold := (hshown line hline).2
    by_cases hb : line.body = []
    · exact (shows_of_empty (hshown line hline).1 hb).2 (h line hline hb)
    · obtain ⟨before, i, line, after, hsplit, rfl⟩ := mem_replaced.1 hline
      rw [Cursor.body_moved] at hb
      rw [Cursor.moved_of_body hb] at hold ⊢
      exact hold.append hb trail

end TextBlock

/-! ## Replacing the texts of a file -/

namespace Game

open ScriptFile (headerSize textsField resourcesField placeIn)

variable {file old new trail patched : Bytes} {parts : ScriptFile}

/-- What replacing gives: the spliced file, with the place of its resources moved if it has any. -/
theorem replaceTexts_eq_ok (h : replaceTexts file old new = .ok patched) {spliced : Bytes}
    (hspliced : Sequence.replaceAll old new file = spliced) :
    placeIn resourcesField spliced = 0 ∧ patched = spliced ∨
      placeIn resourcesField spliced ≠ 0 ∧ ∃ place, place + old.length = placeIn resourcesField spliced + new.length ∧
        patched = ScriptFile.withField spliced (Bytes.ofNatLE 4 place) := by
  unfold replaceTexts at h
  split at h
  · cases h
  rw [hspliced] at h
  dsimp only at h
  split at h
  next hzero =>
    cases h
    exact .inl ⟨hzero, rfl⟩
  next hthere =>
    obtain ⟨field, hfield, h⟩ := bind_eq_ok.1 h
    cases h
    unfold Bytes.putLE at hfield
    split at hfield
    next hrange =>
      cases hfield
      exact .inr ⟨hthere, _, by omega, rfl⟩
    next => cases hfield

/-- A block that is found only at the start of the texts is replaced there. -/
theorem replaceAll_of_texts {header : ScriptFile.Header} (hcut : ScriptFile.Cut header file parts)
    (hlong : headerSize ≤ file.length) (hthere : header.texts ≠ 0)
    (hblock : parts.texts = some (old ++ trail)) (hold : old ≠ [])
    (honly : ∀ i, old <+: file.drop i → i = header.texts) (new : Bytes) :
    Sequence.replaceAll old new file = ScriptFile.withTexts file parts (new ++ trail) := by
  have hfile : file = file.take headerSize ++ parts.code ++ (old ++ (trail ++ parts.resources.getD [])) := by
    have hsplit := hcut.file_eq
    rwa [hblock, Option.getD_some, List.append_assoc old, ← List.append_assoc (file.take headerSize)] at hsplit
  have hfront : (file.take headerSize ++ parts.code).length = header.texts := by
    rw [List.length_append, List.length_take_of_le hlong]
    exact (hcut.texts_start hthere).symm
  have honce := @Sequence.replaceAll_of_once _ _ _ old hold new (file.take headerSize ++ parts.code)
    (trail ++ parts.resources.getD [])
  rw [← hfile, hfront] at honce
  rw [honce honly, ScriptFile.withTexts, List.append_assoc, List.append_assoc new]

/-- If the old block is found only at the start of the texts, then nothing else changes but the place of the
resources. -/
theorem opens_of_replaceTexts (hopens : ScriptFile.ofBytes file = .ok parts)
    (hblock : parts.texts = some (old ++ trail)) (hold : old ≠ [])
    (honly : ∀ i, old <+: file.drop i → i = placeIn textsField file)
    (h : replaceTexts file old new = .ok patched) (hsize : patched.length < 0xFFFFFFFF) :
    ScriptFile.ofBytes patched = .ok { parts with texts := some (new ++ trail) } ∧
      ScriptFile.ofLooseFile patched = .ok { parts with texts := some (new ++ trail) } := by
  have hlong : headerSize ≤ file.length := by
    refine ScriptFile.headerSize_le_of_ofBytes hopens (.inl ?_)
    rw [hblock, Option.getD_some]
    exact List.append_ne_nil_of_left_ne_nil hold trail
  obtain ⟨hversion, hcut⟩ := (ScriptFile.ofBytes_eq_ok_iff hlong).1 hopens
  have hthere : (ScriptFile.Header.held file).texts ≠ 0 := by
    intro hzero
    rw [hcut.texts_none.2 hzero] at hblock
    cases hblock
  have hreplaced := replaceAll_of_texts hcut hlong hthere hblock hold honly new
  have hplace : placeIn resourcesField (ScriptFile.withTexts file parts (new ++ trail)) =
      (ScriptFile.Header.held file).resources :=
    congrArg ScriptFile.Header.resources (ScriptFile.Header.held_withTexts hlong parts (new ++ trail))
  rcases replaceTexts_eq_ok h hreplaced with ⟨hnone, rfl⟩ | ⟨hsome, place, hmoved, rfl⟩
  · exact ScriptFile.opens_withTexts hlong hversion hcut hthere (hplace ▸ hnone) (new ++ trail)
  · rw [hplace] at hsome hmoved
    have hstart := hcut.resources_start hsome
    rw [hblock, Option.getD_some, List.length_append] at hstart
    refine ScriptFile.opens_withTexts_moved hlong hversion hcut hthere hsome ?_ hsize
    rw [List.length_append]
    omega

/-! ## Taking the rows of a script back -/

theorem savedLines_eq_ok {lines : List Line} (h : savedLines lines = .ok new) :
    new = TextBlock.blockOf lines ∧ TextBlock.read (TextBlock.blockOf lines) = TextBlock.replaced lines := by
  obtain ⟨⟨block, saved⟩, hsave, h⟩ := bind_eq_ok.1 h
  obtain ⟨-, -, rfl, rfl⟩ := TextBlock.save_eq_ok_iff.1 hsave
  dsimp only at h
  split at h
  next hread =>
    cases h
    exact ⟨rfl, hread⟩
  next => cases h

theorem still_scriptTexts (game : Game) (e : Entry) : Work.Still (game.scriptTexts e) := by
  refine (still_scriptFile e).bind fun file => ?_
  exact (game.still_each _ (fun _ _ e => e.still_read.bind fun _ => Work.still_pure _) _).bind fun _ =>
    Work.still_pure _

theorem still_injectLanguage (e : Entry) (name : Path) (texts : Table String (List Line)) (p : Patching)
    (language base : String) (lines : List Line) :
    Work.Still (injectLanguage e name texts p language base lines) := by
  unfold injectLanguage
  split
  · split
    · exact Work.still_pure _
    · refine (Work.still_ofExcept _).bind fun new => e.still_read.bind fun file => ?_
      refine (Work.still_ofExcept _).bind fun olds => (Work.still_ofExcept _).bind fun old => ?_
      exact (Work.still_ofExcept _).bind fun patched => Work.still_ofExcept _
  · exact (Work.still_ofExcept _).bind fun new => Work.still_ofExcept _

variable {game : Game} {e : Entry} {name : Path} {texts : Table String (List Line)} {filled : List String}
  {rows : List Row} {p p' : Patching} {s t : Session}

/-- New lines of a language, with the language that they are built on. -/
structure NewLines (texts : Table String (List Line)) (filled : List String) (rows : List Row)
    (item : String × String × List Line) : Prop where
  base_eq : basis texts.keys filled item.1 = .ok item.2.1
  lines_eq : ∃ olds, texts.get? item.2.1 = some olds ∧ Row.replaceLines item.1 rows olds = .ok item.2.2

/-- The file with new texts of the script's own in it. -/
structure OwnPatch (texts : Table String (List Line)) (rows : List Row) (file : Bytes) (olds lines : List Line)
    (patched : Bytes) : Prop where
  olds_eq : texts.get? ownTexts = some olds
  lines_eq : Row.replaceLines ownTexts rows olds = .ok lines
  read_eq : TextBlock.read (TextBlock.blockOf lines) = TextBlock.replaced lines
  patched_eq : replaceTexts file (TextBlock.blockOf olds) (TextBlock.blockOf lines) = .ok patched

theorem linesOf_eq_ok {language : String} {lines : List Line} (h : linesOf texts language = .ok lines) :
    texts.get? language = some lines := by
  unfold linesOf at h
  split at h
  next hget =>
    cases h
    exact hget
  next => cases h

/-- One language: the script file is patched with its own texts or not at all. -/
theorem file?_of_injectLanguage (hread : e.read.run.run s = (.ok file, s))
    (hnames : ∀ language ∈ texts.keys, name.stem ++ "." ++ language ≠ name.name) {item : String × String × List Line}
    (hnewLines : NewLines texts filled rows item)
    (h : (injectLanguage e name texts p item.1 item.2.1 item.2.2).run.run s = (.ok p', t))
    (hnew : p'.file? name.name = some new) :
    p.file? name.name = some new ∨ ∃ olds lines, OwnPatch texts rows file olds lines new := by
  obtain ⟨language, base, lines⟩ := item
  have hbase := hnewLines.base_eq
  obtain ⟨olds, holds, hlines⟩ := hnewLines.lines_eq
  dsimp only at hbase holds hlines h
  unfold injectLanguage at h
  split at h
  next hown =>
    obtain rfl := eq_of_beq hown
    split at h
    next =>
      cases h
      exact .inl hnew
    next hhas =>
      -- texts that are there are built on themselves
      have hthere : ownTexts ∈ texts.keys := Table.has_iff.1 (by simpa using hhas)
      obtain rfl : base = ownTexts := by
        rw [basis, if_pos (List.contains_iff_mem.2 hthere)] at hbase
        cases hbase
        rfl
      obtain ⟨block, hblock, h⟩ := Work.run_ofExcept_bind_eq_ok h
      rw [run_bind_of_ok hread] at h
      obtain ⟨olds', holds', h⟩ := Work.run_ofExcept_bind_eq_ok h
      obtain ⟨⟨old, saved⟩, hold, h⟩ := Work.run_ofExcept_bind_eq_ok h
      obtain ⟨patched, hpatched, h⟩ := Work.run_ofExcept_bind_eq_ok h
      rw [Work.run_ofExcept] at h
      rcases Patching.file?_of_add (Prod.mk.inj h).1 hnew with hbefore | rfl
      · exact .inl hbefore
      · obtain rfl : olds' = olds := Option.some.inj ((linesOf_eq_ok holds').symm.trans holds)
        obtain ⟨-, -, rfl, -⟩ := TextBlock.save_eq_ok_iff.1 hold
        obtain ⟨rfl, hsaved⟩ := savedLines_eq_ok hblock
        exact .inr ⟨olds', lines, ⟨holds, hlines, hsaved, hpatched⟩⟩
  next =>
    obtain ⟨block, -, h⟩ := Work.run_ofExcept_bind_eq_ok h
    rw [Work.run_ofExcept] at h
    -- the patch is kept under the name of the file that it is built on
    have hkey : base ∈ texts.keys := by
      by_contra hkey
      rw [Table.get?_eq_none_iff.2 hkey] at holds
      cases holds
    rw [Patching.file?_of_addAs_of_ne (Prod.mk.inj h).1 (hnames base hkey).symm] at hnew
    exact .inl hnew

/-- All languages, one after the other. -/
theorem file?_of_foldlM (hread : e.read.run.run s = (.ok file, s))
    (hnames : ∀ language ∈ texts.keys, name.stem ++ "." ++ language ≠ name.name)
    {items : List (String × String × List Line)} (hnewLines : ∀ item ∈ items, NewLines texts filled rows item)
    (h : (items.foldlM (fun p item => injectLanguage e name texts p item.1 item.2.1 item.2.2) p).run.run s =
      (.ok p', t))
    (hnew : p'.file? name.name = some new) :
    p.file? name.name = some new ∨ ∃ olds lines, OwnPatch texts rows file olds lines new := by
  induction items generalizing p with
  | nil =>
    cases h
    exact .inl hnew
  | cons item items ih =>
    rw [List.foldlM_cons] at h
    obtain ⟨hitem, hitems⟩ := List.forall_mem_cons.1 hnewLines
    obtain ⟨q, hq, h⟩ := (still_injectLanguage _ _ _ _ _ _ _).run_bind_eq_ok h
    rcases ih hitems h with hbefore | hown
    · exact file?_of_injectLanguage hread hnames hitem hq hbefore
    · exact .inr hown

/-- The whole script: a new patch of the script file is one of its own texts. -/
theorem ownPatch_of_injectScript {fileName : String}
    (hentry : ((game.first? (Path.ofString fileName).name).run.run s).1 = .ok (some e))
    (hread : (e.read.run.run s).1 = .ok file) (htexts : ((game.scriptTexts e).run.run s).1 = .ok texts)
    (hnames : ∀ language ∈ texts.keys,
      (Path.ofString fileName).stem ++ "." ++ language ≠ (Path.ofString fileName).name)
    (h : (game.injectScript p fileName rows).run.run s = (.ok p', t))
    (hpatched : p'.file? (Path.ofString fileName).name = some patched)
    (hnew : p.file? (Path.ofString fileName).name ≠ some patched) :
    ∃ olds lines, OwnPatch texts rows file olds lines patched := by
  have hentry' : (game.first? (Path.ofString fileName).name).run.run s = (.ok (some e), s) :=
    (game.still_search _ (fun _ _ _ => Work.still_pure _) _).run_eq hentry
  unfold injectScript at h
  dsimp only at h
  rw [run_bind_of_ok hentry'] at h
  dsimp only at h
  rw [run_bind_of_ok ((still_scriptTexts game e).run_eq htexts)] at h
  obtain ⟨filled, -, h⟩ := Work.run_ofExcept_bind_eq_ok h
  obtain ⟨bases, hbases, h⟩ := Work.run_ofExcept_bind_eq_ok h
  obtain ⟨items, hitems, h⟩ := Work.run_ofExcept_bind_eq_ok h
  have hbasis : ∀ base ∈ bases, basis texts.keys filled base.1 = .ok base.2 := by
    refine forall_of_mapM_eq_ok hbases fun language _ base hbase => ?_
    obtain ⟨other, hother, hbase⟩ := bind_eq_ok.1 hbase
    cases hbase
    exact hother
  have hnewLines : ∀ item ∈ items, NewLines texts filled rows item := by
    refine forall_of_mapM_eq_ok hitems fun base hbase item hitem => ?_
    obtain ⟨olds, holds, hitem⟩ := bind_eq_ok.1 hitem
    obtain ⟨lines, hlines, hitem⟩ := bind_eq_ok.1 hitem
    cases hitem
    exact ⟨hbasis base hbase, olds, linesOf_eq_ok holds, hlines⟩
  exact (file?_of_foldlM (e.still_read.run_eq hread) hnames hnewLines h hpatched).resolve_left hnew

/-- **Taking texts back into a script file.**  If saving the old lines once more gives the start of the texts, and
these bytes are found nowhere else, then the new file has the parts of the old one but for the new block in the place
of the old one.  It reads as the new lines unless a line without a body points into the bytes behind it.

The script must not have the name of one of its language files, whose patch would be found under its name, and the new
file must be shorter than the mark for no place. -/
theorem injectScript_keeps_parts {fileName : String} {olds : List Line}
    (hentry : ((game.first? (Path.ofString fileName).name).run.run s).1 = .ok (some e))
    (hread : (e.read.run.run s).1 = .ok file) (hopens : ScriptFile.ofBytes file = .ok parts)
    (htexts : ((game.scriptTexts e).run.run s).1 = .ok texts) (holds : texts.get? ownTexts = some olds)
    (hnames : ∀ language ∈ texts.keys,
      (Path.ofString fileName).stem ++ "." ++ language ≠ (Path.ofString fileName).name)
    (hblock : parts.texts = some (TextBlock.blockOf olds ++ trail))
    (honly : ∀ i, TextBlock.blockOf olds <+: file.drop i → i = placeIn textsField file)
    (h : (game.injectScript p fileName rows).run.run s = (.ok p', t))
    (hpatched : p'.file? (Path.ofString fileName).name = some patched)
    (hnew : p.file? (Path.ofString fileName).name ≠ some patched) (hsize : patched.length < 0xFFFFFFFF) :
    ∃ lines, Row.replaceLines ownTexts rows olds = .ok lines ∧
      ScriptFile.ofBytes patched = .ok { parts with texts := some (TextBlock.blockOf lines ++ trail) } ∧
      ScriptFile.ofLooseFile patched = .ok { parts with texts := some (TextBlock.blockOf lines ++ trail) } ∧
      (TextBlock.read (TextBlock.blockOf lines ++ trail) = TextBlock.replaced lines ↔
        ∀ line ∈ TextBlock.replaced lines, line.body = [] → line.place = TextBlock.nowhere ∨ line.size = 0 ∨
          ((TextBlock.blockOf lines ++ trail).length : Int) ≤ line.place) := by
  obtain ⟨olds', lines, hpatch⟩ := ownPatch_of_injectScript hentry hread htexts hnames h hpatched hnew
  obtain rfl : olds' = olds := Option.some.inj (hpatch.olds_eq.symm.trans holds)
  have hold : TextBlock.blockOf olds' ≠ [] := by
    intro hnil
    have hlength := congrArg List.length hnil
    rw [TextBlock.blockOf, List.length_append, TextBlock.length_header, List.length_nil] at hlength
    omega
  obtain ⟨hstored, hloose⟩ := opens_of_replaceTexts hopens hblock hold honly hpatch.patched_eq hsize
  exact ⟨lines, hpatch.lines_eq, hstored, hloose, TextBlock.read_append_eq_iff hpatch.read_eq trail⟩

/-- A line with eighteen bytes before its text, alone in its block. -/
def talkLine (text : Bytes) : Line :=
  ⟨6, 20 + text.length, List.replicate 18 0x55 ++ text ++ [1, 0]⟩

def talkBlock (text : Bytes) : Bytes :=
  TextBlock.blockOf [talkLine text]

/-- A script with a byte behind its line, and with resources. -/
def talkScript (text : Bytes) : Bytes :=
  ScriptFile.headerWith 130 (157 + text.length) ++ [0x10, 0x20] ++ talkBlock text ++ [7] ++ [1, 2, 3]

def talkParts (text : Bytes) : ScriptFile :=
  ⟨[0x10, 0x20], List.replicate 14 0, some (talkBlock text ++ [7]), some [1, 2, 3], 0, 0⟩

/-- The texts of the script, with an `A` for the text of its line. -/
def talkTexts : Table String (List Line) :=
  [(ownTexts, [talkLine [0x41]])]

def talkArchive : Archive :=
  scriptArchive (talkScript [0x41])

def ownRows (text : Bytes) : List Row :=
  [[(ownTexts, some text)]]

def scriptPatch (script : Bytes) : Patching :=
  { items := [(("X.TOT", "X.TOT"), script)] }

theorem injectScript_keeps_parts_talk :
    ScriptFile.ofBytes (talkScript [0x42, 0x43]) = .ok (talkParts [0x42, 0x43]) ∧
      TextBlock.read (talkBlock [0x42, 0x43] ++ [7]) = [talkLine [0x42, 0x43]] := by
  have htalk : ((smallGame.first? "X.TOT").run.run (smallSession talkArchive)).1.toOption =
        some (some (smallScript talkArchive)) ∧
      ((smallScript talkArchive).read.run.run (smallSession talkArchive)).1.toOption = some (talkScript [0x41]) ∧
      (ScriptFile.ofBytes (talkScript [0x41])).toOption = some (talkParts [0x41]) ∧
      ((smallGame.scriptTexts (smallScript talkArchive)).run.run (smallSession talkArchive)).1.toOption =
        some talkTexts ∧
      ((smallGame.injectScript {} "X.TOT" (ownRows [0x42, 0x43])).run.run (smallSession talkArchive)).1.toOption =
        some (scriptPatch (talkScript [0x42, 0x43])) := by
    decide +kernel
  obtain ⟨hentry, hread, hopens, htexts, hinject⟩ := htalk
  obtain ⟨t, hrun⟩ := Work.exists_run_of_toOption hinject
  have honly : ∀ i, talkBlock [0x41] <+: (talkScript [0x41]).drop i → i = placeIn textsField (talkScript [0x41]) := by
    have hfound : ∀ i < (talkScript [0x41]).length, talkBlock [0x41] <+: (talkScript [0x41]).drop i →
        i = placeIn textsField (talkScript [0x41]) := by
      decide +kernel
    intro i hi
    rcases Nat.lt_or_ge i (talkScript [0x41]).length with hlt | hge
    · exact hfound i hlt hi
    · rw [List.drop_eq_nil_of_le hge, List.prefix_nil] at hi
      exact absurd hi (by decide +kernel)
  obtain ⟨lines, hlines, hparts, -, hiff⟩ := @injectScript_keeps_parts (talkScript [0x41]) [7] (talkScript [0x42, 0x43])
    (talkParts [0x41]) smallGame (smallScript talkArchive) talkTexts (ownRows [0x42, 0x43]) {}
    (scriptPatch (talkScript [0x42, 0x43])) (smallSession talkArchive) t "X.TOT" [talkLine [0x41]]
    (eq_ok_of_toOption hentry) (eq_ok_of_toOption hread) (eq_ok_of_toOption hopens) (eq_ok_of_toOption htexts) rfl
    (by decide +kernel) rfl honly hrun (by decide +kernel) (by decide +kernel) (by decide +kernel)
  have hline : Row.replaceLines ownTexts (ownRows [0x42, 0x43]) [talkLine [0x41]] =
      .ok [{ talkLine [0x42, 0x43] with size := 21 }] :=
    eq_ok_of_toOption (by decide +kernel)
  obtain rfl := Except.ok.inj (hline.symm.trans hlines)
  have hsaved : TextBlock.blockOf [{ talkLine [0x42, 0x43] with size := 21 }] = talkBlock [0x42, 0x43] ∧
      TextBlock.replaced [{ talkLine [0x42, 0x43] with size := 21 }] = [talkLine [0x42, 0x43]] := by
    decide +kernel
  rw [hsaved.1] at hparts hiff
  rw [hsaved.2] at hiff
  exact ⟨hparts, hiff.2 (by decide)⟩

/-- A script whose code has the bytes of its texts. -/
def echoScript (text : Bytes) : Bytes :=
  ScriptFile.headerWith 155 0xFFFFFFFF ++ talkBlock text ++ talkBlock text

def echoParts (text : Bytes) : ScriptFile :=
  ⟨talkBlock text, List.replicate 14 0, some (talkBlock text), none, 0, 0⟩

/-- The old block is replaced in the code too. -/
theorem injectScript_changes_code :
    ScriptFile.ofBytes (echoScript [0x41]) = .ok (echoParts [0x41]) ∧
      ((smallGame.injectScript {} "X.TOT" (ownRows [0x42])).run.run
        (smallSession (scriptArchive (echoScript [0x41])))).1 = .ok (scriptPatch (echoScript [0x42])) ∧
      ScriptFile.ofBytes (echoScript [0x42]) = .ok (echoParts [0x42]) ∧
      (echoParts [0x42]).code ≠ (echoParts [0x41]).code := by
  have hecho : (ScriptFile.ofBytes (echoScript [0x41])).toOption = some (echoParts [0x41]) ∧
      ((smallGame.injectScript {} "X.TOT" (ownRows [0x42])).run.run
        (smallSession (scriptArchive (echoScript [0x41])))).1.toOption = some (scriptPatch (echoScript [0x42])) ∧
      (ScriptFile.ofBytes (echoScript [0x42])).toOption = some (echoParts [0x42]) ∧
      (echoParts [0x42]).code ≠ (echoParts [0x41]).code := by
    decide +kernel
  obtain ⟨hopens, hinject, hopens', hcode⟩ := hecho
  exact ⟨eq_ok_of_toOption hopens, eq_ok_of_toOption hinject, eq_ok_of_toOption hopens', hcode⟩

end Game

end AdventureKit
