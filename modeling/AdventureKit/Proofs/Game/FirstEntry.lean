import AdventureKit.Proofs.Game.Places
import AdventureKit.Proofs.Game.Search

/-!
# The first entry of a name

The first entry that a search finds is a loose file that one of the searched folders shows, or a file of an archive
that the folder of the game shows (`Game.Found`).  The search finds the same entry in two sessions that are alike for
its pattern and in which the archives have the same bytes (`Game.agree_first?`); for a loose file the archives do not
matter (`Game.first?_loose_of_steady`).
-/

namespace AdventureKit

/-! ## Steps in two sessions -/

namespace Work

variable {α β : Type} {s t : Session} {P : α → Prop} {Q : β → Prop}

/-- A step leaves two sessions as they are and gives the same in both; what it gives has a property. -/
def Agree (s t : Session) (x : Work α) (P : α → Prop) : Prop :=
  ∃ r, x.run.run s = (r, s) ∧ x.run.run t = (r, t) ∧ ∀ a, r = .ok a → P a

theorem agree_pure {a : α} (h : P a) : Agree s t (pure a) P := by
  refine ⟨.ok a, rfl, rfl, ?_⟩
  rintro b ⟨⟩
  exact h

theorem Agree.bind {x : Work α} {f : α → Work β} (hx : Agree s t x P) (hf : ∀ a, P a → Agree s t (f a) Q) :
    Agree s t (x >>= f) Q := by
  obtain ⟨r, hs, ht, hr⟩ := hx
  cases r with
  | error e => exact ⟨.error e, run_bind_of_error hs, run_bind_of_error ht, nofun⟩
  | ok a =>
    rw [Agree, run_bind_of_ok hs, run_bind_of_ok ht]
    exact hf a (hr a rfl)

theorem Agree.mono {x : Work α} {P' : α → Prop} (h : Agree s t x P) (hP : ∀ a, P a → P' a) : Agree s t x P' := by
  obtain ⟨r, hs, ht, hr⟩ := h
  exact ⟨r, hs, ht, fun a ha => hP a (hr a ha)⟩

theorem Agree.run_eq {x : Work α} (h : Agree s t x P) {a : α} (ha : (x.run.run s).1 = .ok a) :
    x.run.run t = (.ok a, t) ∧ P a := by
  obtain ⟨r, hs, ht, hr⟩ := h
  rw [hs] at ha
  obtain rfl : r = .ok a := ha
  exact ⟨ht, hr a rfl⟩

end Work

open Work (Agree)
open Session (Steady)

namespace Game

variable {game : Game} {s t : Session} {pattern folder file : String} {R : Entry → Prop}

/-- The visitor that stops at the first entry. -/
def takeFirst (_ : Option Entry) (_ : String) (e : Entry) : Work (Walk (Option Entry)) :=
  return .done (some e)

theorem first?_eq (game : Game) (pattern : String) : game.first? pattern = game.search [pattern] takeFirst none :=
  rfl

/-- A walk has found nothing and goes on, or it has found an entry of a kind and is done. -/
def Picks (R : Entry → Prop) (w : Walk (List String × Option Entry)) : Prop :=
  (∃ seen, w = .on (seen, none)) ∨ ∃ seen e, w = .done (seen, some e) ∧ R e

theorem Picks.mono {R' : Entry → Prop} {w : Walk (List String × Option Entry)} (h : Picks R w)
    (hR : ∀ e, R e → R' e) : Picks R' w := by
  rcases h with hon | ⟨seen, e, rfl, he⟩
  · exact .inl hon
  · exact .inr ⟨seen, e, rfl, hR e he⟩

theorem agree_along {α : Type} {step : List String × Option Entry → α → Work (Walk (List String × Option Entry))}
    {as : List α} (h : ∀ a ∈ as, ∀ seen, Agree s t (step (seen, none) a) (Picks R)) (seen : List String) :
    Agree s t (Walk.along step as (seen, none)) (Picks R) := by
  induction as generalizing seen with
  | nil => exact Work.agree_pure (.inl ⟨seen, rfl⟩)
  | cons a as ih =>
    obtain ⟨ha, has⟩ := List.forall_mem_cons.1 h
    refine (ha seen).bind fun w hw => ?_
    rcases hw with ⟨seen, rfl⟩ | ⟨seen, e, rfl, he⟩
    · exact ih has seen
    · exact Work.agree_pure (.inr ⟨seen, e, rfl, he⟩)

theorem agree_visitNew {e : Entry} (he : R e) (seen : List String) :
    Agree s t (visitNew takeFirst pattern (seen, none) e) (Picks R) := by
  unfold visitNew
  split
  · exact Work.agree_pure (.inl ⟨seen, rfl⟩)
  · exact Work.agree_pure (.inr ⟨_, e, rfl, he⟩)

variable {scope : String → String → Prop}

/-! ## Names that a pattern finds -/

theorem acceptsLetters_of_finds {name : String} (h : Pattern.finds pattern name = true) :
    Pattern.acceptsLetters pattern name = true :=
  (Bool.and_eq_true_iff.1 h).2

theorem filter_finds (names : List String) :
    names.filter (Pattern.finds pattern) = (names.filter (Pattern.acceptsLetters pattern)).filter fun _ =>
      (Pattern.aim pattern).toOption == some .names := by
  rw [List.filter_filter]
  rfl

theorem run_glob_of_refused {fault : Fault} (haim : Pattern.aim pattern = .error fault) (u : Session) :
    (glob folder pattern).run.run u = (.error fault, u) := by
  unfold glob
  rw [haim]
  rfl

theorem run_glob_of_long {aim : Pattern.Aim} (haim : Pattern.aim pattern = .ok aim)
    (hlong : s.follow folder = .error .nameTooLong) : (glob folder pattern).run.run s = (.error .nameTooLong, s) := by
  unfold glob
  rw [haim, run_bind_of_ok (Work.run_ofExcept_ok _ s)]
  exact run_bind_of_error (Session.run_namesIn_of_long hlong)

theorem run_glob_eq {aim : Pattern.Aim} (haim : Pattern.aim pattern = .ok aim)
    (hfits : s.follow folder ≠ .error .nameTooLong) :
    (glob folder pattern).run.run s = (.ok ((s.listing folder).filter (Pattern.finds pattern)), s) := by
  unfold glob
  rw [haim, run_bind_of_ok (Work.run_ofExcept_ok _ s), run_bind_of_ok (Session.run_namesIn_eq hfits)]
  rfl

theorem agree_glob (h : Steady scope s t) (hscope : scope folder pattern) :
    Agree s t (glob folder pattern) fun names =>
      ∀ name ∈ names, name ∈ s.listing folder ∧ Pattern.acceptsLetters pattern name = true := by
  cases haim : Pattern.aim pattern with
  | error fault => exact ⟨_, run_glob_of_refused haim s, run_glob_of_refused haim t, nofun⟩
  | ok aim =>
    by_cases hlong : s.follow folder = .error .nameTooLong
    · exact ⟨_, run_glob_of_long haim hlong, run_glob_of_long haim (h.long_iff.2 hlong), nofun⟩
    · refine ⟨_, run_glob_eq haim hlong, ?_, fun names hnames name hname => ?_⟩
      · rw [run_glob_eq haim (mt h.long_iff.1 hlong), filter_finds, filter_finds, h.listing folder pattern hscope]
      · cases hnames
        obtain ⟨hlisted, hfinds⟩ := List.mem_filter.1 hname
        exact ⟨hlisted, acceptsLetters_of_finds hfinds⟩

/-! ## Loose files -/

theorem agree_searchFolder (h : Steady scope s t) (hscope : scope folder pattern) (seen : List String) :
    Agree s t (searchFolder [pattern] takeFirst (seen, none) folder)
      (Picks fun e => ∃ name ∈ s.listing folder, e = .loose folder name) := by
  refine agree_along (fun only honly seen => ?_) seen
  rw [List.mem_singleton.1 honly]
  refine (agree_glob h hscope).bind fun names hnames => agree_along (fun name hname seen => ?_) seen
  have hisFolder : Agree s t (Work.isFolder (Path.under folder name)) fun _ => True :=
    ⟨_, (Work.still_isFolder _).run_eq rfl, (Work.still_isFolder _).run_eq (h.run_isFolder _), fun _ _ => trivial⟩
  refine hisFolder.bind fun isFolder _ => ?_
  split
  · exact Work.agree_pure (.inl ⟨seen, rfl⟩)
  · exact agree_visitNew ⟨name, (hnames name hname).1, rfl⟩ seen

theorem agree_searchFolders (h : Steady scope s t) (hscope : ∀ folder ∈ game.folders, scope folder pattern) :
    Agree s t (Walk.along (searchFolder [pattern] takeFirst) game.folders ([], none))
      (Picks fun e => ∃ folder ∈ game.folders, ∃ name ∈ s.listing folder, e = .loose folder name) := by
  refine agree_along (fun folder hfolder seen => ?_) []
  refine (agree_searchFolder h (hscope folder hfolder) seen).mono fun w hw => ?_
  exact hw.mono fun e he => ⟨folder, hfolder, he⟩

/-! ## Files of archives -/

/-- The folder of the game shows a name of an archive. -/
def HasArchive (game : Game) (s : Session) (file : String) : Prop :=
  file ∈ s.listing game.base ∧ ∃ pattern ∈ archivePatterns, Pattern.acceptsLetters pattern file = true

/-- The archives have the same bytes. -/
def SameArchives (game : Game) (s t : Session) : Prop :=
  ∀ file, game.HasArchive s file → t.bytesAt (Path.under game.base file) = s.bytesAt (Path.under game.base file)

theorem run_openArchive (s : Session) (folder file : String) :
    (Entry.openArchive (.loose folder file)).run.run s =
      (s.bytesAt (Path.under folder file) >>= Archive.ofBytes, s) := by
  have hread := Session.run_readData_eq s (Path.under folder file)
  show (Work.readData (Path.under folder file) >>= fun data => Work.ofExcept (Archive.ofBytes data)).run.run s = _
  cases hbytes : s.bytesAt (Path.under folder file) with
  | error e =>
    rw [hbytes] at hread
    exact run_bind_of_error hread
  | ok data =>
    rw [hbytes] at hread
    rw [run_bind_of_ok hread, Work.run_ofExcept]
    rfl

/-- An entry that a search can find. -/
inductive Found (game : Game) (s : Session) : Entry → Prop
  | loose {folder name : String} (hfolder : folder ∈ game.folders) (hname : name ∈ s.listing folder) :
      Found game s (.loose folder name)
  | stored {archive : Archive} {file name : String} (hfile : game.HasArchive s file)
      (hopen : s.bytesAt (Path.under game.base file) >>= Archive.ofBytes = .ok archive) (hname : name ∈ archive.names) :
      Found game s (.stored archive file name)

theorem agree_searchArchive (hfile : game.HasArchive s file) (h : game.SameArchives s t) (seen : List String) :
    Agree s t (searchArchive game.base [pattern] takeFirst (seen, none) file)
      (Picks fun e => game.Found s e ∧ e.archive? = some file) := by
  have hopen : Agree s t (Entry.openArchive (.loose game.base file)) fun archive =>
      s.bytesAt (Path.under game.base file) >>= Archive.ofBytes = .ok archive := by
    refine ⟨_, run_openArchive s game.base file, ?_, fun archive harchive => harchive⟩
    rw [run_openArchive, h file hfile]
  unfold searchArchive
  refine hopen.bind fun archive harchive => agree_along (fun pattern _ seen => ?_) seen
  refine agree_along (fun name hname seen => ?_) seen
  exact agree_visitNew ⟨.stored hfile harchive (List.mem_filter.1 hname).1, rfl⟩ seen

theorem agree_searchArchives (h : Steady scope s t) (hscope : ∀ p ∈ archivePatterns, scope game.base p)
    (harchives : game.SameArchives s t) (seen : List String) :
    Agree s t (searchArchives game.base archivePatterns [pattern] takeFirst (seen, none))
      (Picks fun e => game.Found s e ∧ e.archive? ≠ none) := by
  refine agree_along (fun archivePattern hpattern seen => ?_) seen
  rw [globArchives_of_names (aim_archivePatterns hpattern)]
  refine (agree_glob h (hscope archivePattern hpattern)).bind fun files hfiles => ?_
  refine agree_along (fun file hfile seen => ?_) seen
  have hhas : game.HasArchive s file := ⟨(hfiles file hfile).1, archivePattern, hpattern, (hfiles file hfile).2⟩
  refine (agree_searchArchive hhas harchives seen).mono fun w hw => hw.mono fun e he => ⟨he.1, ?_⟩
  rw [he.2]
  exact Option.some_ne_none file

/-! ## The first entry -/

/-- A search finds the same first entry in sessions that are alike and have the same archives. -/
theorem agree_first? (h : Steady scope s t) (hfolders : ∀ folder ∈ game.folders, scope folder pattern)
    (hbase : ∀ p ∈ archivePatterns, scope game.base p) (harchives : game.SameArchives s t) :
    Agree s t (game.first? pattern) fun found => ∀ e ∈ found, game.Found s e := by
  rw [first?_eq]
  refine (agree_searchFolders h hfolders).bind fun w hw => ?_
  rcases hw with ⟨seen, rfl⟩ | ⟨seen, e, rfl, folder, hfolder, name, hname, rfl⟩
  · refine (agree_searchArchives h hbase harchives seen).bind fun w hw => ?_
    rcases hw with ⟨seen, rfl⟩ | ⟨seen, e, rfl, hfound, -⟩
    · exact Work.agree_pure nofun
    · refine Work.agree_pure ?_
      rintro _ ⟨⟩
      exact hfound
  · refine Work.agree_pure ?_
    rintro _ ⟨⟩
    exact .loose hfolder hname

theorem found_of_first? {e : Entry} (h : ((game.first? pattern).run.run s).1 = .ok (some e)) : game.Found s e :=
  ((agree_first? (Steady.refl (fun _ _ => True) s) (fun _ _ => trivial) (fun _ _ => trivial) fun _ _ => rfl).run_eq
    h).2 e rfl

/-- A loose file is found before the archives are opened. -/
theorem first?_loose_of_steady (h : Steady scope s t) (hscope : ∀ folder ∈ game.folders, scope folder pattern)
    {name : String} (hfirst : ((game.first? pattern).run.run s).1 = .ok (some (.loose folder name))) :
    (game.first? pattern).run.run t = (.ok (some (.loose folder name)), t) := by
  obtain ⟨r, hs, ht, hpicks⟩ := agree_searchFolders h hscope
  rw [first?_eq] at hfirst ⊢
  unfold search searchWith at hfirst ⊢
  cases r with
  | error e =>
    rw [run_bind_of_error hs] at hfirst
    cases hfirst
  | ok w =>
    rw [run_bind_of_ok hs] at hfirst
    rw [run_bind_of_ok ht]
    rcases hpicks w rfl with ⟨seen, rfl⟩ | ⟨seen, e, rfl, -⟩
    · -- archives give no loose files
      obtain ⟨r, hrun, -, hstored⟩ := @agree_searchArchives game s s pattern _ (Steady.refl (fun _ _ => True) s)
        (fun _ _ => trivial) (fun _ _ => rfl) seen
      cases r with
      | error e =>
        rw [run_bind_of_error hrun] at hfirst
        cases hfirst
      | ok w =>
        rw [run_bind_of_ok hrun] at hfirst
        rcases hstored w rfl with ⟨seen, rfl⟩ | ⟨seen, e, rfl, -, hin⟩
        · cases hfirst
        · cases hfirst
          exact absurd rfl hin
    · cases hfirst
      rfl

end Game

end AdventureKit
