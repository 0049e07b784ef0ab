import AdventureKit.CommandLine.Plan
import AdventureKit.Proofs.Game.Catalogues
import AdventureKit.Proofs.Game.OwnTable
import AdventureKit.Proofs.Game.OwnTexts
import AdventureKit.Proofs.Game.Shadowing
import AdventureKit.Proofs.Game.Soundness

/-!
# Tasks one after the other

A task that puts resources back gathers patches and then writes what it patched to the working folder, and the next task
takes that folder for the game.
-/

namespace AdventureKit

open Work (Still Quiet Moves)

namespace Work

variable {α β : Type}

theorem Quiet.bind {x : Work α} {f : α → Work β} (hx : Quiet x) (hf : ∀ a, Quiet (f a)) : Quiet (x >>= f) :=
  Moves.bind frame_sameDisk hx hf

theorem quiet_throw_bind (e : Fault) (f : α → Work β) : Quiet (throw e >>= f) := by
  intro s
  have hthrow : (throw e : Work α).run.run s = (.error e, s) := rfl
  rw [run_bind_of_error hthrow]
  exact .refl s

end Work

namespace Game

/-! ## Gathering patches -/

theorem still_injectFont (p : Patching) (e : Entry) : Still (injectFont p e) := by
  refine (Work.still_has _).bind fun there => ?_
  split
  · exact (Work.still_readPicture _).bind fun _ => (Work.still_ofExcept _).bind fun _ => Work.still_ofExcept _
  · exact Work.still_pure _

theorem quiet_editedPicture (r : Refit) (item : Resource.Item) (file : String) (content stored : Bytes)
    {form : Bytes → Work Bytes} (hform : ∀ content, Quiet (form content)) :
    Quiet (do
      if (← Work.has file) ∧ item.width ≠ 0 ∧ item.height ≠ 0 then
        let picture ← Work.readPicture file
        let content ← Work.ofLogged (editedSprite content picture.pixels item)
        let content ← form content
        Work.ofExcept (r.add item content)
      else Work.ofExcept (r.add item stored)) := by
  refine (Work.still_has _).quiet.bind fun there => ?_
  split
  · refine (Work.still_readPicture _).quiet.bind fun picture => (Work.quiet_ofLogged _).bind fun edited => ?_
    exact (hform edited).bind fun packed => (Work.still_ofExcept _).quiet
  · exact (Work.still_ofExcept _).quiet

theorem quiet_refitItem (e : Entry) (home : Home) (tableSize : Nat) (r : Refit) (index : Nat) (item : Resource.Item) :
    Quiet (refitItem e home tableSize r index item) := by
  unfold refitItem
  split
  · exact (Work.still_ofExcept _).quiet.bind fun _ => (Work.still_pure _).quiet
  dsimp only
  split
  · exact Work.quiet_throw_bind _ _
  split
  · exact (Work.still_pure _).quiet
  split
  · refine Quiet.bind ?_ fun content => ?_
    · rw [map_eq_pure_bind]
      exact (Work.still_ofExcept _).quiet.bind fun _ => (Work.still_pure _).quiet
    · rw [Cursor.read_eq]
      dsimp only
      exact quiet_editedPicture _ item _ content _ fun _ => (Work.still_ofExcept _).quiet
  · rw [pure_bind, Cursor.read_eq]
    dsimp only
    exact quiet_editedPicture _ item _ _ _ fun _ => (Work.still_pure _).quiet

theorem quiet_refit (e : Entry) (home : Home) (resources : Bytes) : Quiet (refit e home resources) := by
  have hitems : ∀ (tableSize : Nat) (items : List (Nat × Resource.Item)) (r : Refit),
      Quiet (items.foldlM (fun r item => refitItem e home tableSize r item.1 item.2) r) := fun tableSize =>
    Work.moves_foldlM Work.frame_sameDisk fun r item => quiet_refitItem e home tableSize r item.1 item.2
  unfold refit
  dsimp only
  cases home with
  | beside =>
    refine (Work.still_pure _).quiet.bind fun start => (Work.still_ofExcept _).quiet.bind fun items => ?_
    exact (hitems _ _ _).bind fun r => (Work.still_pure _).quiet
  | script =>
    refine e.still_read.quiet.bind fun file => ?_
    split
    · refine (Work.still_pure _).quiet.bind fun start => (Work.still_ofExcept _).quiet.bind fun items => ?_
      exact (hitems _ _ _).bind fun r => (Work.still_pure _).quiet
    · exact Work.quiet_throw_bind _ _

theorem quiet_injectSprites (game : Game) (p : Patching) (e : Entry) : Quiet (game.injectSprites p e) := by
  refine (game.still_belongings e).quiet.bind fun b => ?_
  split
  · exact (Work.still_pure _).quiet
  · refine Work.moves_foldlM Work.frame_sameDisk (fun p item => ?_) _ _
    exact (quiet_refit e _ _).bind fun _ => (Work.still_ofExcept _).quiet

theorem still_injectScript (game : Game) (p : Patching) (file : String) (rows : List Row) :
    Still (game.injectScript p file rows) := by
  refine (game.still_first? _).bind fun found => ?_
  cases found with
  | none => exact Work.still_throw _
  | some e =>
    refine (still_scriptTexts game e).bind fun texts => (Work.still_ofExcept _).bind fun filled => ?_
    refine (Work.still_ofExcept _).bind fun bases => (Work.still_ofExcept _).bind fun new => ?_
    exact Work.moves_foldlM Work.frame_eq (fun p item => still_injectLanguage _ _ _ _ _ _ _) _ _

theorem still_injectCatalogue (game : Game) (p : Patching) (file : String) (rows : List Row) :
    Still (game.injectCatalogue p file rows) :=
  game.still_each _ (fun _ _ e => e.still_read.bind fun _ =>
    (Work.still_ofExcept _).bind fun _ => Work.still_ofExcept _) _

theorem still_injectGroups {inject : Patching → String → List Row → Work Patching}
    (h : ∀ p file rows, Still (inject p file rows)) (p : Patching) (lines : List (Except Fault (String × Row))) :
    Still (injectGroups inject p lines) := by
  fun_induction injectGroups inject p lines with
  | case1 p => exact Work.still_pure p
  | case2 p fault lines => exact Work.still_throw fault
  | case3 p file row lines fault hgroup => exact Work.still_throw fault
  | case4 p file row lines rows rest hgroup hle ih => exact (h p file rows).bind ih

theorem still_injectSheet {inject : Patching → String → List Row → Work Patching}
    (h : ∀ p file rows, Still (inject p file rows)) (encodings : Encodings) (p : Patching) (sheet : String) :
    Still (injectSheet encodings inject p sheet) := by
  refine (Work.still_has _).bind fun there => ?_
  split
  · refine (Work.still_readData _).bind fun data => (Work.still_ofExcept _).bind fun text => ?_
    exact still_injectGroups h _ _
  · exact Work.still_pure _

/-! ## Writing patches -/

theorem moves_rebuildLoose (game : Game) (target : String) (items : List ((String × String) × Bytes))
    (archives : Table String (Table String Bytes)) :
    Moves Session.KeepsSound (game.rebuildLoose target items archives) := by
  induction items generalizing archives with
  | nil => exact (Work.still_pure _).moves Work.frame_keepsSound
  | cons item items ih =>
    obtain ⟨⟨name, newName⟩, data⟩ := item
    unfold rebuildLoose
    refine ((game.still_first? name).moves Work.frame_keepsSound).bind Work.frame_keepsSound fun found => ?_
    cases found with
    | none => exact (Work.still_throw _).moves Work.frame_keepsSound
    | some e =>
      dsimp only
      cases e.archive? with
      | none => exact (Work.moves_write _ _).bind Work.frame_keepsSound fun _ => ih archives
      | some file => exact ih _

theorem moves_rebuildArchives (game : Game) (target : String) (archives : List (String × Table String Bytes)) :
    Moves Session.KeepsSound (game.rebuildArchives target archives) := by
  induction archives with
  | nil => exact (Work.still_pure _).moves Work.frame_keepsSound
  | cons item archives ih =>
    obtain ⟨file, patches⟩ := item
    unfold rebuildArchives
    refine ((game.still_first? file).moves Work.frame_keepsSound).bind Work.frame_keepsSound fun found => ?_
    cases found with
    | none => exact (Work.still_throw _).moves Work.frame_keepsSound
    | some e =>
      refine (e.still_openArchive.moves Work.frame_keepsSound).bind Work.frame_keepsSound fun a => ?_
      refine (Work.still_get.moves Work.frame_keepsSound).bind Work.frame_keepsSound fun u => ?_
      refine ((Work.still_ofExcept _).moves Work.frame_keepsSound).bind Work.frame_keepsSound fun rebuilt => ?_
      exact (Work.moves_write _ _).bind Work.frame_keepsSound fun _ => ih

theorem moves_rebuild (game : Game) (p : Patching) (target : String) :
    Moves Session.KeepsSound (game.rebuild p target) := by
  refine (Work.moves_makeFolders target).bind Work.frame_keepsSound fun _ => ?_
  exact (moves_rebuildLoose game target _ _).bind Work.frame_keepsSound fun archives =>
    moves_rebuildArchives game target archives

end Game

/-! ## Tasks -/

namespace Task

/-- A task that puts texts, fonts or sprites back. -/
def Injects : Task → Prop
  | .texts _ | .fonts | .graphics => True
  | .archives _ | .scripts _ _ => False

/-- The folder in which a task keeps its resources. -/
def folder : Task → String
  | .texts _ => Game.textFolder
  | .fonts => Game.fontFolder
  | .graphics => Game.graphicsFolder
  | .archives _ | .scripts _ _ => Game.outputFolder

/-- Gathers the patches of a game. -/
def gather (base : String) : Task → Work Patching
  | .texts settings => do
    let encodings := Encodings.standard (settings.getD ⟨[], false⟩).keys
    let p ← Game.injectSheet encodings (Game.injectScript { base }) { allowed := (settings.getD ⟨[], false⟩).allowed }
      Game.scriptSheet
    Game.injectSheet encodings (Game.injectCatalogue { base }) p Game.catalogueSheet
  | .fonts => Game.each { base } Game.fontPatterns (fun p _ e => Game.injectFont p e) {}
  | .graphics => Game.each { base } [Game.scriptPattern] (fun p _ e => Game.injectSprites { base } p e) {}
  | .archives _ | .scripts _ _ => return {}

theorem run_eq {task : Task} (h : task.Injects) (base : String) :
    task.run base true = (do
      Work.makeFolders task.folder
      let p ← task.gather base
      Game.rebuild { base } p Game.outputFolder) := by
  cases task with
  | texts settings =>
    simp only [run, gather, bind_assoc]
    rfl
  | fonts =>
    simp only [run, gather, Game.fonts, Game.injectFonts, if_true, bind_assoc, pure_bind, List.forIn_nil]
    simp [folder]
  | graphics => rfl
  | archives patterns => cases h
  | scripts patterns settings => cases h

theorem quiet_gather (task : Task) (base : String) : Quiet (task.gather base) := by
  cases task with
  | texts settings =>
    refine Still.quiet ((Game.still_injectSheet (Game.still_injectScript _) _ _ _).bind fun p => ?_)
    exact Game.still_injectSheet (Game.still_injectCatalogue _) _ _ _
  | fonts => exact (Game.still_each _ _ (fun p _ e => Game.still_injectFont p e) _).quiet
  | graphics => exact Game.moves_each Work.frame_sameDisk _ _ (fun p _ e => Game.quiet_injectSprites _ p e) _
  | archives patterns => exact (Work.still_pure _).quiet
  | scripts patterns settings => exact (Work.still_pure _).quiet

end Task

/-! ## Plans -/

namespace Plan

variable {base : String} {tasks : List Task} {s t : Session} {ps : List Patching}

theorem run_cons (base : String) (task : Task) (tasks : List Task) :
    run ⟨base, task :: tasks, true⟩ = task.run base true >>= fun _ => run ⟨Game.outputFolder, tasks, true⟩ := by
  unfold run
  simp only [List.foldlM_cons, bind_assoc, pure_bind, if_true]

/-- Later tasks start from the working folder. -/
theorem run_append (base : String) (task : Task) (tasks rest : List Task) :
    run ⟨base, task :: tasks ++ rest, true⟩ =
      run ⟨base, task :: tasks, true⟩ >>= fun _ => run ⟨Game.outputFolder, rest, true⟩ := by
  induction tasks generalizing base task with
  | nil =>
    rw [List.singleton_append, run_cons, run_cons, bind_assoc]
    rfl
  | cons next tasks ih => rw [List.cons_append, run_cons, ih, run_cons base task (next :: tasks), bind_assoc]

/-- Tasks that were done one after the other, and the patches that each of them gathered. -/
inductive Trail : String → List Task → Session → List Patching → Session → Prop
  | nil (base : String) (s : Session) : Trail base [] s [] s
  | cons {base : String} {task : Task} {tasks : List Task} {s s₁ s₂ s₃ t : Session} {p : Patching} {ps : List Patching}
      (hmake : (Work.makeFolders task.folder).run.run s = (.ok (), s₁))
      (hgather : (task.gather base).run.run s₁ = (.ok p, s₂))
      (hrebuild : (Game.rebuild { base } p Game.outputFolder).run.run s₂ = (.ok (), s₃))
      (hrest : Trail Game.outputFolder tasks s₃ ps t) : Trail base (task :: tasks) s (p :: ps) t

theorem trail_of_run (htasks : ∀ task ∈ tasks, task.Injects)
    (h : (run ⟨base, tasks, true⟩).run.run s = (.ok (), t)) : ∃ ps, Trail base tasks s ps t := by
  induction tasks generalizing base s with
  | nil =>
    cases h
    exact ⟨[], .nil base _⟩
  | cons task tasks ih =>
    obtain ⟨htask, htasks⟩ := List.forall_mem_cons.1 htasks
    rw [run_cons, Task.run_eq htask] at h
    obtain ⟨_, s₃, htask, h⟩ := run_bind_eq_ok h
    obtain ⟨_, s₁, hmake, htask⟩ := run_bind_eq_ok htask
    obtain ⟨p, s₂, hgather, hrebuild⟩ := run_bind_eq_ok htask
    obtain ⟨ps, htrail⟩ := ih htasks h
    exact ⟨p :: ps, .cons hmake hgather hrebuild htrail⟩

theorem Trail.keepsSound (h : Trail base tasks s ps t) : s.KeepsSound t := by
  induction h with
  | nil base s => exact Work.frame_keepsSound.refl s
  | cons hmake hgather hrebuild hrest ih =>
    have hmade := (Work.moves_makeFolders _).of_run hmake
    have hgathered := (Task.quiet_gather _ _).keepsSound.of_run hgather
    have hrebuilt := (Game.moves_rebuild _ _ _).of_run hrebuild
    exact Work.frame_keepsSound.trans (Work.frame_keepsSound.trans (Work.frame_keepsSound.trans hmade hgathered) hrebuilt)
      ih

/-- Tasks that gather no patches write no files. -/
theorem Trail.files_eq (h : Trail base tasks s ps t) (hs : s.Sound) (hnone : ∀ p ∈ ps, p.items = []) :
    t.disk.files = s.disk.files := by
  induction h with
  | nil base s => rfl
  | @cons base task tasks s s₁ s₂ s₃ t p ps hmake hgather hrebuild hrest ih =>
    obtain ⟨hp, hps⟩ := List.forall_mem_cons.1 hnone
    have hs₁ : s₁.Sound := ((Work.moves_makeFolders _).of_run hmake).2 hs
    have hsame : s₁.SameDisk s₂ := (Task.quiet_gather _ _).of_run hgather
    have hs₂ : s₂.Sound := ((Task.quiet_gather _ _).keepsSound.of_run hgather).2 hs₁
    have hs₃ : s₃.Sound := ((Game.moves_rebuild _ _ _).of_run hrebuild).2 hs₂
    unfold Game.rebuild at hrebuild
    rw [hp] at hrebuild
    obtain ⟨_, u, hmake', hrebuild⟩ := run_bind_eq_ok hrebuild
    cases hrebuild
    rw [ih hs₃ hps, Work.files_of_makeFolders hs₂ hmake', hsame.disk, Work.files_of_makeFolders hs hmake]

end Plan

/-! ## What is left for later tasks -/

/-- A file of the working folder gives a search a name: the file has this name itself, or it is an archive that has a
file of this name. -/
def Session.Leaves (s : Session) (patterns : List String) (name : String) : Prop :=
  (s.HasFile name ∧ ∃ pattern ∈ patterns, Pattern.finds pattern name = true) ∨
    ∃ file a, s.HasFile file ∧ (∃ pattern ∈ Game.archivePatterns, Pattern.finds pattern file = true) ∧
      s.archiveIn Game.outputFolder file = .ok a ∧ name ∈ a.names ∧
      ∃ pattern ∈ patterns, (Game.Container.archive a file).accepts pattern name = true

namespace Game

variable {s : Session} {patterns : List String} {found : List (String × Entry)}

theorem mem_containers_outputFolder {c : Container} :
    c ∈ containers { base := outputFolder } archivePatterns s ↔ c = .folder outputFolder ∨
      ∃ file a, file ∈ s.listing outputFolder ∧ (∃ pattern ∈ archivePatterns, Pattern.finds pattern file = true) ∧
        s.archiveIn outputFolder file = .ok a ∧ c = .archive a file := by
  have hfolders : folders { base := outputFolder } = [outputFolder] := rfl
  rw [containers, hfolders, List.mem_append, List.map_singleton, List.mem_singleton, List.mem_filterMap]
  refine or_congr_right (exists_congr fun file => ?_)
  rw [archiveFiles, List.mem_flatMap]
  constructor
  · rintro ⟨⟨pattern, hpattern, hfile⟩, hopen⟩
    obtain ⟨hlisted, haccepts⟩ := List.mem_filter.1 hfile
    obtain ⟨a, ha, rfl⟩ := Option.map_eq_some_iff.1 hopen
    exact ⟨a, hlisted, ⟨pattern, hpattern, haccepts⟩, eq_ok_of_toOption ha, rfl⟩
  · rintro ⟨a, hlisted, ⟨pattern, hpattern, haccepts⟩, hopen, rfl⟩
    refine ⟨⟨pattern, hpattern, List.mem_filter.2 ⟨hlisted, haccepts⟩⟩, ?_⟩
    rw [hopen]
    rfl

theorem exists_found_iff_leaves (hs : s.Sound)
    (hfound : ((entries { base := outputFolder } patterns).run.run s).1 = .ok found) (name : String) :
    (∃ item ∈ found, item.2.name = name) ↔ s.Leaves patterns name := by
  obtain ⟨-, rfl⟩ := searchable_of_entries hfound
  rw [exists_found_iff]
  constructor
  · rintro ⟨c, hc, hname, haccepts⟩
    rcases mem_containers_outputFolder.1 hc with rfl | ⟨file, a, hlisted, hpattern, hopen, rfl⟩
    · exact .inl ⟨hs.mem_names_iff.1 hname, haccepts⟩
    · exact .inr ⟨file, a, hs.hasFile_of_archiveIn hlisted hopen, hpattern, hopen, hname, haccepts⟩
  · rintro (⟨hfile, haccepts⟩ | ⟨file, a, hfile, hpattern, hopen, hname, haccepts⟩)
    · exact ⟨_, mem_containers_outputFolder.2 (.inl rfl), hs.mem_names_iff.2 hfile, haccepts⟩
    · have hlisted : file ∈ s.listing outputFolder := (List.mem_filter.1 (hs.mem_names_iff.2 hfile)).1
      exact ⟨_, mem_containers_outputFolder.2 (.inr ⟨file, a, hlisted, hpattern, hopen, rfl⟩), hname, haccepts⟩

/-- These are the entries that match patterns and are visited when resources are taken back from the working folder:
fonts and sprites visit all of them, a sheet of catalogues too, and a sheet of scripts takes the first one. -/
structure Visited (s : Session) (patterns : List String) (found : List (String × Entry)) : Prop where
  fonts : patterns = fontPatterns → (Task.fonts.gather outputFolder).run.run s =
    (visitAll (fun p _ e => injectFont p e) found {}).run.run s
  graphics : patterns = [scriptPattern] → (Task.graphics.gather outputFolder).run.run s =
    (visitAll (fun p _ e => injectSprites { base := outputFolder } p e) found {}).run.run s
  catalogue : ∀ p file rows, patterns = [(Path.components file).getLastD ""] →
    (injectCatalogue { base := outputFolder } p file rows).run.run s =
      (visitAll (fun p _ e => do
        let new ← Work.ofExcept (Catalogue.write (← e.read) rows)
        Work.ofExcept (p.add e.name new)) found p).run.run s
  script : ∀ pattern, patterns = [pattern] →
    (first? { base := outputFolder } pattern).run.run s = (.ok (found.head?.map Prod.snd), s)

theorem visited_of_entries (hfound : ((entries { base := outputFolder } patterns).run.run s).1 = .ok found) :
    Visited s patterns found := by
  refine ⟨?_, ?_, ?_, ?_⟩
  · rintro rfl
    exact run_each_of_found (fun p _ e => (still_injectFont p e).quiet) hfound {}
  · rintro rfl
    exact run_each_of_found (fun p _ e => quiet_injectSprites _ p e) hfound {}
  · rintro p file rows rfl
    refine run_each_of_found (fun p _ e => Still.quiet ?_) hfound p
    exact e.still_read.bind fun _ => (Work.still_ofExcept _).bind fun _ => Work.still_ofExcept _
  · rintro pattern rfl
    exact run_first?_of_found hfound

end Game

/-- **Later tasks visit what is left.**  Tasks put resources back one after the other, the first of them into a game and
the others into the working folder.  When a later one has made its folder, the names that it finds there are those that
the files of the working folder give, and it visits the entries of these names and no others.  So an entry of the game is
visited again if and only if a file that was left there gives its name; if the working folder had no files and no
patches were gathered, nothing is visited. -/
theorem later_tasks_visit_what_is_left {base : String} {first : Task} {before : List Task} {s t : Session}
    (hs : s.Sound) (htasks : ∀ task ∈ first :: before, task.Injects)
    (hrun : (Plan.run ⟨base, first :: before, true⟩).run.run s = (.ok (), t)) :
    (∀ later rest, later.Injects → Plan.run ⟨base, first :: before ++ later :: rest, true⟩ = (do
      Plan.run ⟨base, first :: before, true⟩
      Work.makeFolders later.folder
      let p ← later.gather Game.outputFolder
      Game.rebuild { base := Game.outputFolder } p Game.outputFolder
      Plan.run ⟨Game.outputFolder, rest, true⟩)) ∧
    ∃ ps, Plan.Trail base (first :: before) s ps t ∧
      ∀ later : Task, ∀ u, (Work.makeFolders later.folder).run.run t = (.ok (), u) →
        (∀ name, u.HasFile name ↔ t.HasFile name) ∧
        ∀ patterns found, ((Game.entries { base := Game.outputFolder } patterns).run.run u).1 = .ok found →
          Game.Visited u patterns found ∧
          (∀ name, (∃ item ∈ found, item.2.name = name) ↔ u.Leaves patterns name) ∧
          ((∀ name, ¬ s.HasFile name) → (∀ p ∈ ps, p.items = []) → found = []) := by
  obtain ⟨ps, htrail⟩ := Plan.trail_of_run htasks hrun
  obtain ⟨hhere, hsound⟩ := htrail.keepsSound
  refine ⟨fun later rest hlater => ?_, ps, htrail, fun later u hmake => ?_⟩
  · rw [Plan.run_append, Plan.run_cons Game.outputFolder later rest, Task.run_eq hlater]
    simp only [bind_assoc]
  obtain ⟨hhere', hsound'⟩ := (Work.moves_makeFolders _).of_run hmake
  have hfiles := Work.files_of_makeFolders (hsound hs) hmake
  have hkept : ∀ name, u.HasFile name ↔ t.HasFile name := by
    intro name
    rw [Session.HasFile, Session.HasFile, hfiles, hhere']
  refine ⟨hkept, fun patterns found hfound => ⟨Game.visited_of_entries hfound, ?_, fun hempty hnone => ?_⟩⟩
  · exact Game.exists_found_iff_leaves (hsound' (hsound hs)) hfound
  · refine List.eq_nil_iff_forall_not_mem.2 fun item hitem => ?_
    have hno : ∀ name, ¬ u.HasFile name := by
      intro name hfile
      rw [hkept, Session.HasFile, htrail.files_eq hs hnone, hhere] at hfile
      exact hempty name hfile
    rcases (Game.exists_found_iff_leaves (hsound' (hsound hs)) hfound item.2.name).1 ⟨item, hitem, rfl⟩ with
      ⟨hfile, -⟩ | ⟨file, a, hfile, -⟩
    · exact hno _ hfile
    · exact hno _ hfile

/-- A game with a file in the folder `game`, and an empty folder to work in. -/
def gameSession (file : String) (content : Bytes) : Session :=
  .start ⟨[["game"], ["work"]], [(["game", file], .data content)]⟩ ["work"] ⟨1, 1, 2000, 0, 0, 0⟩

/-- A script with a sprite of one pixel. -/
def pixelScript : Bytes :=
  Game.resourceScript ([1, 0, 0] ++ ([⟨0, 1, 1, 1, false⟩].flatMap Resource.Item.fields ++ [8]))

/-- A game with an archive that has such a script. -/
def archiveSession : Session :=
  gameSession "A.STK" (Game.scriptArchive pixelScript).data

/-- The session when the sprites of that game were put back. -/
def rebuiltSession : Session :=
  ((Plan.run ⟨"../game", [.graphics], true⟩).run.run archiveSession).2

-- One evaluation of the plan gives all that is needed of this session.
theorem facts_rebuiltSession :
    ((Plan.run ⟨"../game", [.graphics], true⟩).run.run archiveSession).1.toOption = some () ∧
    rebuiltSession.disk.folders ++ rebuiltSession.disk.files.keys =
      [["game"], ["work"], ["work", "graphics"], ["game", "A.STK"], ["work", "A.STK"]] ∧
    rebuiltSession.here = ["work"] ∧ rebuiltSession.HasFile "A.STK" ∧
    (rebuiltSession.archiveIn Game.outputFolder "A.STK").toOption.map Archive.names = some ["X.TOT"] ∧
    ((Work.makeFolders Task.graphics.folder).run.run rebuiltSession).1.toOption = some () ∧
    ((Work.makeFolders Task.graphics.folder).run.run rebuiltSession).2 = rebuiltSession := by
  decide +kernel

theorem searchable_rebuiltSession (hs : rebuiltSession.Sound) :
    Game.Searchable { base := Game.outputFolder } Game.archivePatterns [Game.scriptPattern] rebuiltSession := by
  obtain ⟨-, hplaces, hhere, -, harchive, -⟩ := facts_rebuiltSession
  have haim : ∃ aim, Pattern.aim Game.scriptPattern = .ok aim := ⟨.names, eq_ok_of_toOption (by decide)⟩
  have houtput : rebuiltSession.follow Game.outputFolder ≠ .error .nameTooLong := by
    rw [Session.follow_outputFolder]
    exact nofun
  refine ⟨fun _ => List.forall_mem_singleton.2 haim, fun _ => List.forall_mem_singleton.2 houtput,
    fun folder hfolder _ _ name hname _ => ?_, fun _ => houtput,
    fun pattern hpattern => .inl (Game.aim_archivePatterns hpattern), fun file hfile => ?_⟩
  · obtain rfl : folder = Game.outputFolder := List.mem_singleton.1 hfolder
    rw [hs.follow_name (hs.fitName hname)]
    exact nofun
  · obtain ⟨pattern, hpattern, hfile⟩ := List.mem_flatMap.1 hfile
    obtain ⟨hlisted, haccepts⟩ := List.mem_filter.1 hfile
    rw [hs.listing_outputFolder, Disk.mem_names_iff, hplaces, hhere] at hlisted
    have hname : file = "graphics" ∨ file = "A.STK" := by simpa using hlisted
    rcases hname with rfl | rfl
    · have hother : ∀ pattern ∈ Game.archivePatterns, Pattern.finds pattern "graphics" = false := by decide +kernel
      rw [hother pattern hpattern] at haccepts
      cases haccepts
    · obtain ⟨a, ha, -⟩ := Option.map_eq_some_iff.1 harchive
      exact ⟨a, eq_ok_of_toOption ha⟩

theorem later_tasks_visit_what_is_left_archive :
    (Plan.run ⟨"../game", [.graphics], true⟩).run.run archiveSession = (.ok (), rebuiltSession) ∧
    ∃ found, ((Game.entries { base := Game.outputFolder } [Game.scriptPattern]).run.run rebuiltSession).1 = .ok found ∧
      Game.Visited rebuiltSession [Game.scriptPattern] found ∧ ∃ item ∈ found, item.2.name = "X.TOT" := by
  have hs : archiveSession.Sound := ⟨⟨by decide +kernel, by decide +kernel⟩, by decide +kernel, by decide +kernel⟩
  obtain ⟨hok, -, -, hfile, harchive, hmade, hsame⟩ := facts_rebuiltSession
  have hrun : (Plan.run ⟨"../game", [.graphics], true⟩).run.run archiveSession = (.ok (), rebuiltSession) := by
    obtain ⟨t, ht⟩ := Work.exists_run_of_toOption hok
    rw [rebuiltSession, ht]
  have hmake : (Work.makeFolders Task.graphics.folder).run.run rebuiltSession = (.ok (), rebuiltSession) :=
    Prod.ext (eq_ok_of_toOption hmade) hsame
  obtain ⟨-, ps, htrail, hlater⟩ := later_tasks_visit_what_is_left hs (by simp [Task.Injects]) hrun
  have hfound := congrArg Prod.fst (Game.run_entriesWith (searchable_rebuiltSession (htrail.keepsSound.2 hs)))
  obtain ⟨hvisited, hleaves, -⟩ := (hlater .graphics _ hmake).2 _ _ hfound
  obtain ⟨a, ha, hnames⟩ := Option.map_eq_some_iff.1 harchive
  refine ⟨hrun, _, hfound, hvisited, (hleaves "X.TOT").2 (.inr ⟨"A.STK", a, hfile, by decide +kernel,
    eq_ok_of_toOption ha, hnames ▸ List.mem_cons_self, Game.scriptPattern, List.mem_cons_self, ?_⟩)⟩
  show (Pattern.accepts Game.scriptPattern "X.TOT" || Pattern.acceptsCapitals Game.scriptPattern "X.TOT") = true
  decide +kernel

/-- Sprites are taken back alone, but not after fonts: the script does not lie in the working folder then. -/
theorem sprites_skipped_after_fonts :
    ((Game.entries { base := "../game" } [Game.scriptPattern]).run.run (gameSession "X.TOT" pixelScript)).1 =
      .ok [(Game.scriptPattern, .loose "../game" "X.TOT")] ∧
    ((Plan.run ⟨"../game", [.graphics], true⟩).run.run (gameSession "X.TOT" pixelScript)).2.HasFile "X.TOT" ∧
    ∃ t, (Plan.run ⟨"../game", [.fonts], true⟩).run.run (gameSession "X.TOT" pixelScript) = (.ok (), t) ∧
      ((Game.entries { base := Game.outputFolder } [Game.scriptPattern]).run.run t).1 = .ok [] := by
  refine ⟨eq_ok_of_toOption (by decide +kernel), by decide +kernel, _,
    Prod.ext (eq_ok_of_toOption (by decide +kernel)) rfl, eq_ok_of_toOption (by decide +kernel)⟩

end AdventureKit
