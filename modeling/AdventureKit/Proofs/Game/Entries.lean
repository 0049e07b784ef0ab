import AdventureKit.Proofs.Game.FirstEntry

/-!
# Searches and entries

What a search can find lies in containers: the folders of loose files, and the archives.  They are gone through in
order (`Game.containers`), and each offers its files pattern by pattern (`Container.offered`).  A search by a visitor
that leaves the disk alone walks along what is offered, leaving out the names that were offered before
(`Game.run_searchWith`).  So it does what visiting the found entries one after the other does (`Game.run_each_of_found`),
and the first entry is the first of those that are found (`Game.run_first?_of_found`).
-/

namespace AdventureKit

open Work (Still)

/-! ## Sessions on the same disk -/

/-- Sessions with the same disk, in the same folder of it. -/
structure Session.SameDisk (s t : Session) : Prop where
  disk : t.disk = s.disk
  here : t.here = s.here

namespace Session.SameDisk

variable {s t u : Session}

theorem refl (s : Session) : SameDisk s s :=
  ⟨rfl, rfl⟩

theorem trans (h : SameDisk s t) (h' : SameDisk t u) : SameDisk s u :=
  ⟨h'.disk.trans h.disk, h'.here.trans h.here⟩

theorem follow_eq (h : SameDisk s t) (path : String) : t.follow path = s.follow path := by
  rw [Session.follow, h.disk, h.here]
  rfl

theorem listing_eq (h : SameDisk s t) (folder : String) : t.listing folder = s.listing folder := by
  unfold Session.listing
  rw [h.follow_eq, h.disk]

theorem bytesAt_eq (h : SameDisk s t) (path : String) : t.bytesAt path = s.bytesAt path := by
  unfold Session.bytesAt
  rw [h.follow_eq, h.disk]

end Session.SameDisk

namespace Session

/-- Whether a path leads to a folder. -/
def leadsToFolder (s : Session) (path : String) : Bool :=
  (s.follow path).toOption.any s.disk.isFolder

/-- The archive in the file of a folder. -/
def archiveIn (s : Session) (folder file : String) : Except Fault Archive :=
  s.bytesAt (Path.under folder file) >>= Archive.ofBytes

theorem SameDisk.leadsToFolder_eq {s t : Session} (h : s.SameDisk t) (path : String) :
    t.leadsToFolder path = s.leadsToFolder path := by
  unfold leadsToFolder
  rw [h.follow_eq, h.disk]

theorem run_isFolder_eq {s : Session} {path : String} (h : s.follow path ≠ .error .nameTooLong) :
    (Work.isFolder path).run.run s = (.ok (s.leadsToFolder path), s) := by
  unfold Work.isFolder leadsToFolder
  rw [run_bind_of_ok (run_get s)]
  rcases hfollow : s.follow path with fault | place
  · cases fault with
    | nameTooLong => exact absurd hfollow h
    | _ => rfl
  · rfl

end Session

namespace Work

variable {α : Type}

theorem frame_sameDisk : Frame Session.SameDisk :=
  ⟨.refl, .trans⟩

/-- A step that leaves the disk as it is; it may add to the remarks. -/
def Quiet (x : Work α) : Prop :=
  Moves Session.SameDisk x

theorem Still.quiet {x : Work α} (h : Still x) : Quiet x :=
  h.moves frame_sameDisk

theorem quiet_ofLogged (x : Logged α) : Quiet (ofLogged x) := by
  intro s
  rw [run_ofLogged]
  exact ⟨rfl, rfl⟩

end Work

open Work (Quiet)

theorem run_bind_congr {α β : Type} {x y : Work α} {f g : α → Work β} {s : Session} (hx : x.run.run s = y.run.run s)
    (h : ∀ a t, y.run.run s = (.ok a, t) → (f a).run.run t = (g a).run.run t) :
    (x >>= f).run.run s = (y >>= g).run.run s := by
  rcases hrun : y.run.run s with ⟨e | a, t⟩
  · rw [run_bind_of_error (hx.trans hrun), run_bind_of_error hrun]
  · rw [run_bind_of_ok (hx.trans hrun), run_bind_of_ok hrun]
    exact h a t hrun

namespace Walk

variable {σ α : Type} {step : σ → α → Work (Walk σ)}

/-- Goes on with a walk unless it is done. -/
def thenOn (w : Walk σ) (next : σ → Work (Walk σ)) : Work (Walk σ) :=
  match w with
  | .on s => next s
  | .done s => return .done s

theorem along_cons (a : α) (as : List α) (s : σ) :
    along step (a :: as) s = step s a >>= fun w => w.thenOn (along step as) := by
  refine bind_congr fun w => ?_
  cases w <;> rfl

theorem along_append (as more : List α) (s : σ) :
    along step (as ++ more) s = along step as s >>= fun w => w.thenOn (along step more) := by
  induction as generalizing s with
  | nil => rfl
  | cons a as ih =>
    rw [List.cons_append, along_cons, along_cons, bind_assoc]
    refine bind_congr fun w => ?_
    cases w with
    | on s => exact ih s
    | done s => rfl

end Walk

namespace Game

/-! ## What is offered -/

/-- Where entries are found: a folder with loose files, or the archive in a file. -/
inductive Container where
  | folder (path : String)
  | archive (content : Archive) (file : String)
  deriving DecidableEq, Repr

namespace Container

/-- The entry of a name. -/
def entry : Container → String → Entry
  | .folder path, name => .loose path name
  | .archive content file, name => .stored content file name

/-- Whether a pattern matches a name: as it finds names in a folder, as it is or in capitals in an archive. -/
def accepts : Container → (pattern name : String) → Bool
  | .folder _, pattern, name => Pattern.finds pattern name
  | .archive _ _, pattern, name => Pattern.accepts pattern name || Pattern.acceptsCapitals pattern name

/-- The names of files in a container. -/
def names (s : Session) : Container → List String
  | .folder path => (s.listing path).filter fun name => !s.leadsToFolder (Path.under path name)
  | .archive content _ => content.names

/-- The entries that match patterns, pattern by pattern. -/
def offered (s : Session) (patterns : List String) (c : Container) : List (String × Entry) :=
  patterns.flatMap fun pattern => ((c.names s).filter (c.accepts pattern)).map fun name => (pattern, c.entry name)

@[simp] theorem name_entry (c : Container) (name : String) : (c.entry name).name = name := by
  cases c <;> rfl

end Container

/-- The files whose names match the patterns of archives, pattern by pattern. -/
def archiveFiles (game : Game) (archives : List String) (s : Session) : List String :=
  archives.flatMap fun pattern => (s.listing game.base).filter (Pattern.finds pattern)

/-- The containers in the order in which they are searched: the folders and then the archives. -/
def containers (game : Game) (archives : List String) (s : Session) : List Container :=
  game.folders.map .folder ++
    (game.archiveFiles archives s).filterMap fun file => (s.archiveIn game.base file).toOption.map (.archive · file)

/-- All that the containers offer. -/
def offers (game : Game) (archives patterns : List String) (s : Session) : List (String × Entry) :=
  (game.containers archives s).flatMap (Container.offered s patterns)

/-- A pattern of archives leads to files, or to folders where there are none. -/
def AimsAtFiles (game : Game) (s : Session) (pattern : String) : Prop :=
  Pattern.aim pattern = .ok .names ∨ Pattern.aim pattern = .ok .folders ∧ s.leadsToFolder game.base = false

/-- Nothing ends the search early: no pattern is refused that a folder is searched for, no name of a folder or file is
too long to be looked at, and what the patterns of archives lead to are archives that can be opened. -/
structure Searchable (game : Game) (archives patterns : List String) (s : Session) : Prop where
  pattern_aims : game.folders ≠ [] → ∀ pattern ∈ patterns, ∃ aim, Pattern.aim pattern = .ok aim
  folder_fits : patterns ≠ [] → ∀ folder ∈ game.folders, s.follow folder ≠ .error .nameTooLong
  name_fits : ∀ folder ∈ game.folders, ∀ pattern ∈ patterns, ∀ name ∈ s.listing folder,
    Pattern.finds pattern name = true → s.follow (Path.under folder name) ≠ .error .nameTooLong
  base_fits : archives ≠ [] → s.follow game.base ≠ .error .nameTooLong
  archive_aims : ∀ pattern ∈ archives, game.AimsAtFiles s pattern
  opens : ∀ file ∈ game.archiveFiles archives s, ∃ a, s.archiveIn game.base file = .ok a

/-- Leaves out the items whose names were seen. -/
def unseen (seen : List String) : List (String × Entry) → List (String × Entry)
  | [] => []
  | item :: items =>
    if seen.contains item.2.name then unseen seen items else item :: unseen (item.2.name :: seen) items

/-! ## Steps of a search -/

section

variable {σ α : Type} {s : Session} {visit : σ → String → Entry → Work (Walk σ)}

/-- Visits an item unless its name was seen. -/
def visitItem (visit : σ → String → Entry → Work (Walk σ)) (z : List String × σ) (item : String × Entry) :
    Work (Walk (List String × σ)) :=
  visitNew visit item.1 z item.2

/-- A walk along items visits those whose names are new. -/
theorem result_along_visitItem (items : List (String × Entry)) (seen : List String) (x : σ) :
    (fun w => w.result.2) <$> Walk.along (visitItem visit) items (seen, x) =
      Walk.result <$> Walk.along (fun x item => visit x item.1 item.2) (unseen seen items) x := by
  induction items generalizing seen x with
  | nil => rfl
  | cons item items ih =>
    rw [Walk.along_cons, visitItem, visitNew, unseen]
    split
    · rw [pure_bind]
      exact ih seen x
    · rw [Walk.along_cons, bind_assoc, map_bind, map_bind]
      refine bind_congr fun v => ?_
      rw [pure_bind]
      cases v with
      | on y => exact ih _ y
      | done y => rfl

/-- A step of a search walks along items. -/
def Visits (visit : σ → String → Entry → Work (Walk σ)) (s : Session)
    (step : List String × σ → Work (Walk (List String × σ))) (items : List (String × Entry)) : Prop :=
  ∀ u, s.SameDisk u → ∀ z, (step z).run.run u = (Walk.along (visitItem visit) items z).run.run u

theorem visits_pure : Visits visit s (fun z => pure (.on z)) [] :=
  fun _ _ _ => rfl

theorem visits_visitNew (pattern : String) (e : Entry) :
    Visits visit s (fun z => visitNew visit pattern z e) [(pattern, e)] := by
  intro u _ z
  have honly : Walk.along (visitItem visit) [(pattern, e)] z = visitNew visit pattern z e >>= pure := by
    rw [Walk.along_cons]
    refine bind_congr fun w => ?_
    cases w <;> rfl
  rw [honly, bind_pure]

theorem Visits.bind {p : Work α} {a : α} {step : α → List String × σ → Work (Walk (List String × σ))}
    {items : List (String × Entry)} (hp : ∀ u, s.SameDisk u → p.run.run u = (.ok a, u))
    (h : Visits visit s (step a) items) : Visits visit s (fun z => p >>= fun a => step a z) items := by
  intro u hu z
  rw [run_bind_of_ok (hp u hu)]
  exact h u hu z

section

variable (hquiet : ∀ x pattern e, Quiet (visit x pattern e))
include hquiet

theorem Visits.append {step more : List String × σ → Work (Walk (List String × σ))}
    {items items' : List (String × Entry)} (h : Visits visit s step items) (h' : Visits visit s more items') :
    Visits visit s (fun z => step z >>= fun w => w.thenOn more) (items ++ items') := by
  intro u hu z
  rw [Walk.along_append]
  refine run_bind_congr (h u hu z) fun w t hrun => ?_
  have hwalk : Quiet (Walk.along (visitItem visit) items z) :=
    Walk.moves_along Work.frame_sameDisk (fun z item => moves_visitNew Work.frame_sameDisk hquiet _ _ _) items z
  cases w with
  | on z' => exact h' t (hu.trans (hwalk.of_run hrun)) z'
  | done z' => rfl

theorem Visits.along {step : List String × σ → α → Work (Walk (List String × σ))} {f : α → List (String × Entry)}
    {as : List α} (h : ∀ a ∈ as, Visits visit s (fun z => step z a) (f a)) :
    Visits visit s (Walk.along step as) (as.flatMap f) := by
  induction as with
  | nil => exact visits_pure
  | cons a as ih =>
    obtain ⟨ha, has⟩ := List.forall_mem_cons.1 h
    intro u hu z
    rw [Walk.along_cons, List.flatMap_cons]
    exact ha.append hquiet (ih has) u hu z

end

/-! ## Searches -/

theorem run_globArchives_eq {game : Game} {pattern : String} (hfits : s.follow game.base ≠ .error .nameTooLong)
    (haims : game.AimsAtFiles s pattern) :
    (globArchives game.base pattern).run.run s =
      (.ok ((s.listing game.base).filter (Pattern.finds pattern)), s) := by
  rcases haims with haim | ⟨haim, hno⟩
  · rw [globArchives_of_names haim, run_glob_eq haim hfits]
  · unfold globArchives
    rw [run_bind_of_ok (run_glob_eq haim hfits), haim, if_pos (by decide),
      run_bind_of_ok (Session.run_isFolder_eq hfits), hno]
    rfl

theorem flatMap_unless {β : Type} (p : α → Bool) (f : α → β) (xs : List α) :
    (xs.flatMap fun x => if p x then [] else [f x]) = (xs.filter fun x => !p x).map f := by
  induction xs with
  | nil => rfl
  | cons x xs ih =>
    rw [List.flatMap_cons, ih]
    cases hx : p x <;> simp [hx]

variable {game : Game} {archives patterns : List String}

theorem offers_eq (game : Game) (archives patterns : List String) (s : Session) :
    game.offers archives patterns s =
      (game.folders.flatMap fun folder => Container.offered s patterns (.folder folder)) ++
        (game.archiveFiles archives s).flatMap fun file =>
          (s.archiveIn game.base file).toOption.elim [] fun a => Container.offered s patterns (.archive a file) := by
  rw [offers, containers, List.flatMap_append, List.flatMap_map, List.filterMap_eq_flatMap_toList, List.flatMap_assoc]
  refine congrArg (_ ++ ·) (List.flatMap_congr fun file _ => ?_)
  cases s.archiveIn game.base file with
  | error e => rfl
  | ok a => exact List.append_nil _

section

variable (hquiet : ∀ x pattern e, Quiet (visit x pattern e))
include hquiet

theorem visits_searchFolder {folder : String} (haims : ∀ pattern ∈ patterns, ∃ aim, Pattern.aim pattern = .ok aim)
    (hfolder : patterns ≠ [] → s.follow folder ≠ .error .nameTooLong)
    (hfits : ∀ pattern ∈ patterns, ∀ name ∈ s.listing folder, Pattern.finds pattern name = true →
      s.follow (Path.under folder name) ≠ .error .nameTooLong) :
    Visits visit s (fun z => searchFolder patterns visit z folder)
      (Container.offered s patterns (.folder folder)) := by
  refine Visits.along hquiet fun pattern hpattern => ?_
  obtain ⟨aim, haim⟩ := haims pattern hpattern
  have hoffered : ((Container.folder folder).names s |>.filter ((Container.folder folder).accepts pattern)).map
      (fun name => (pattern, (Container.folder folder).entry name)) =
      ((s.listing folder).filter (Pattern.finds pattern)).flatMap fun name =>
        if s.leadsToFolder (Path.under folder name) then [] else [(pattern, .loose folder name)] := by
    rw [flatMap_unless, Container.names, List.filter_filter, List.filter_filter]
    refine congrArg (List.map _) (List.filter_congr fun name _ => Bool.and_comm _ _)
  rw [hoffered]
  refine Visits.bind (a := (s.listing folder).filter (Pattern.finds pattern)) (fun u hu => ?_) ?_
  · rw [← hu.follow_eq] at hfolder
    rw [run_glob_eq haim (hfolder (List.ne_nil_of_mem hpattern)), hu.listing_eq]
  refine Visits.along hquiet fun name hname => ?_
  obtain ⟨hlisted, haccepts⟩ := List.mem_filter.1 hname
  refine Visits.bind (a := s.leadsToFolder (Path.under folder name)) (fun u hu => ?_) ?_
  · have hfits' : u.follow (Path.under folder name) ≠ .error .nameTooLong := by
      rw [hu.follow_eq]
      exact hfits pattern hpattern name hlisted haccepts
    rw [Session.run_isFolder_eq hfits', hu.leadsToFolder_eq]
  split
  · exact visits_pure
  · exact visits_visitNew pattern _

theorem visits_searchArchive {file : String} {a : Archive} (ha : s.archiveIn game.base file = .ok a) :
    Visits visit s (fun z => searchArchive game.base patterns visit z file)
      (Container.offered s patterns (.archive a file)) := by
  refine Visits.bind (a := a) (fun u hu => ?_) ?_
  · rw [run_openArchive, hu.bytesAt_eq]
    exact congrArg (·, u) ha
  refine Visits.along hquiet fun pattern _ => ?_
  rw [List.map_eq_flatMap]
  exact Visits.along hquiet fun name _ => visits_visitNew pattern _

theorem visits_searchArchives (patterns : List String)
    (hbase : archives ≠ [] → s.follow game.base ≠ .error .nameTooLong)
    (haims : ∀ pattern ∈ archives, game.AimsAtFiles s pattern)
    (hopens : ∀ file ∈ game.archiveFiles archives s, ∃ a, s.archiveIn game.base file = .ok a) :
    Visits visit s (searchArchives game.base archives patterns visit)
      ((game.archiveFiles archives s).flatMap fun file =>
        (s.archiveIn game.base file).toOption.elim [] fun a => Container.offered s patterns (.archive a file)) := by
  rw [archiveFiles, List.flatMap_assoc]
  refine Visits.along hquiet fun pattern hpattern => ?_
  refine Visits.bind (a := (s.listing game.base).filter (Pattern.finds pattern)) (fun u hu => ?_) ?_
  · have haims' : game.AimsAtFiles u pattern := by
      unfold AimsAtFiles
      rw [hu.leadsToFolder_eq]
      exact haims pattern hpattern
    rw [← hu.follow_eq] at hbase
    rw [run_globArchives_eq (hbase (List.ne_nil_of_mem hpattern)) haims', hu.listing_eq]
  refine Visits.along hquiet fun file hfile => ?_
  obtain ⟨a, ha⟩ := hopens file (List.mem_flatMap.2 ⟨pattern, hpattern, hfile⟩)
  rw [ha]
  exact visits_searchArchive hquiet ha

/-- A search walks along what the containers offer and visits each name once. -/
theorem run_searchWith (h : game.Searchable archives patterns s) (x : σ) :
    (game.searchWith archives patterns visit x).run.run s =
      (Walk.result <$> Walk.along (fun x item => visit x item.1 item.2)
        (unseen [] (game.offers archives patterns s)) x).run.run s := by
  have hfolders : Visits visit s (Walk.along (searchFolder patterns visit) game.folders)
      (game.folders.flatMap fun folder => Container.offered s patterns (.folder folder)) :=
    Visits.along hquiet fun folder hfolder =>
      visits_searchFolder hquiet (h.pattern_aims (List.ne_nil_of_mem hfolder))
        (fun hne => h.folder_fits hne folder hfolder) (h.name_fits folder hfolder)
  have hall := hfolders.append hquiet (visits_searchArchives hquiet patterns h.base_fits h.archive_aims h.opens) s
    (.refl s) ([], x)
  rw [← offers_eq] at hall
  have hsearch : game.searchWith archives patterns visit x =
      (fun w => w.result.2) <$> (Walk.along (searchFolder patterns visit) game.folders ([], x) >>= fun w =>
        w.thenOn (searchArchives game.base archives patterns visit)) := by
    rw [map_bind]
    refine bind_congr fun w => ?_
    cases w with
    | on z => exact (map_eq_pure_bind _ _).symm
    | done z => rfl
  rw [hsearch, ← result_along_visitItem, map_eq_pure_bind, map_eq_pure_bind]
  exact run_bind_congr hall fun w t _ => rfl

end

end

/-! ## All entries -/

section

variable {s : Session} {game : Game} {archives patterns : List String}

/-- The visitor that gathers entries. -/
def gatherEntry (found : List (String × Entry)) (pattern : String) (e : Entry) :
    Work (Walk (List (String × Entry))) :=
  return .on (found ++ [(pattern, e)])

theorem still_gatherEntry (found : List (String × Entry)) (pattern : String) (e : Entry) :
    Still (gatherEntry found pattern e) :=
  Work.still_pure _

theorem along_gatherEntry (items found : List (String × Entry)) :
    Walk.along (fun found item => gatherEntry found item.1 item.2) items found = pure (.on (found ++ items)) := by
  induction items generalizing found with
  | nil => rw [List.append_nil, Walk.along]
  | cons item items ih =>
    rw [Walk.along_cons, gatherEntry, pure_bind, Walk.thenOn, ih, List.append_assoc]
    rfl

/-- All entries that are found, in order. -/
theorem run_entriesWith (h : game.Searchable archives patterns s) :
    (game.entriesWith archives patterns).run.run s = (.ok (unseen [] (game.offers archives patterns s)), s) := by
  refine (run_searchWith (fun found pattern e => (still_gatherEntry found pattern e).quiet) h []).trans ?_
  rw [along_gatherEntry]
  rfl

end

/-! ## Searches that come to an end -/

/-- A step that goes on, if it does not fail, and then has come across nothing that is not as `P` says. -/
def GoesOn {σ : Type} (s : Session) (x : Work (Walk σ)) (P : Prop) : Prop :=
  ∀ w t, x.run.run s = (.ok w, t) → t = s ∧ (∃ z, w = .on z) ∧ P

section

variable {σ α : Type} {s : Session} {P : Prop}

theorem goesOn_pure {z : σ} (hP : P) : GoesOn s (pure (.on z)) P := by
  rintro _ _ ⟨⟩
  exact ⟨rfl, ⟨z, rfl⟩, hP⟩

theorem GoesOn.mono {x : Work (Walk σ)} {Q : Prop} (h : GoesOn s x Q) (hP : Q → P) : GoesOn s x P := by
  intro w t hrun
  obtain ⟨hsame, hon, hQ⟩ := h w t hrun
  exact ⟨hsame, hon, hP hQ⟩

theorem GoesOn.bind {p : Work α} (hp : Still p) {f : α → Work (Walk σ)}
    (h : ∀ a, p.run.run s = (.ok a, s) → GoesOn s (f a) P) : GoesOn s (p >>= f) P := by
  intro w t hrun
  obtain ⟨a, u, ha, hrun⟩ := run_bind_eq_ok hrun
  obtain rfl := hp.eq_of_run ha
  exact h a ha w t hrun

theorem GoesOn.along {step : σ → α → Work (Walk σ)} {as : List α} {P : α → Prop}
    (h : ∀ a ∈ as, ∀ z, GoesOn s (step z a) (P a)) (z : σ) : GoesOn s (Walk.along step as z) (∀ a ∈ as, P a) := by
  induction as generalizing z with
  | nil => exact goesOn_pure nofun
  | cons a as ih =>
    obtain ⟨ha, has⟩ := List.forall_mem_cons.1 h
    intro w t hrun
    unfold Walk.along at hrun
    obtain ⟨v, u, hfirst, hrun⟩ := run_bind_eq_ok hrun
    obtain ⟨rfl, ⟨z', rfl⟩, hP⟩ := ha z v u hfirst
    obtain ⟨rfl, hon, hPs⟩ := ih has z' w t hrun
    exact ⟨rfl, hon, List.forall_mem_cons.2 ⟨hP, hPs⟩⟩

theorem goesOn_visitNew (pattern : String) (z : List String × List (String × Entry)) (e : Entry) (hP : P) :
    GoesOn s (visitNew gatherEntry pattern z e) P := by
  unfold visitNew
  split
  · exact goesOn_pure hP
  · rintro _ _ ⟨⟩
    exact ⟨rfl, ⟨_, rfl⟩, hP⟩

/-- A pattern that is looked for in a folder without a fault. -/
theorem run_glob_eq_ok {folder pattern : String} {names : List String} {t : Session}
    (h : (glob folder pattern).run.run s = (.ok names, t)) :
    (∃ aim, Pattern.aim pattern = .ok aim) ∧ s.follow folder ≠ .error .nameTooLong ∧
      names = (s.listing folder).filter (Pattern.finds pattern) := by
  cases haim : Pattern.aim pattern with
  | error fault =>
    rw [run_glob_of_refused haim] at h
    cases h
  | ok aim =>
    by_cases hlong : s.follow folder = .error .nameTooLong
    · rw [run_glob_of_long haim hlong] at h
      cases h
    · rw [run_glob_eq haim hlong] at h
      cases h
      exact ⟨⟨aim, rfl⟩, hlong, rfl⟩

theorem run_globArchives_eq_ok {game : Game} {pattern : String} {files : List String} {t : Session}
    (h : (globArchives game.base pattern).run.run s = (.ok files, t)) :
    s.follow game.base ≠ .error .nameTooLong ∧ game.AimsAtFiles s pattern ∧
      files = (s.listing game.base).filter (Pattern.finds pattern) := by
  obtain ⟨found, u, hglob, h⟩ := run_bind_eq_ok h
  obtain rfl := (still_glob _ _).eq_of_run hglob
  obtain ⟨⟨aim, haim⟩, hfits, rfl⟩ := run_glob_eq_ok hglob
  rw [haim] at h
  cases aim with
  | names =>
    cases h
    exact ⟨hfits, .inl haim, rfl⟩
  | folders =>
    rw [if_pos (by decide), run_bind_of_ok (Session.run_isFolder_eq hfits)] at h
    split at h
    · cases h
    · rename_i hno
      cases h
      exact ⟨hfits, .inr ⟨haim, Bool.eq_false_iff.2 hno⟩, rfl⟩

theorem follow_ne_of_isFolder {path : String} {b : Bool} (h : (Work.isFolder path).run.run s = (.ok b, s)) :
    s.follow path ≠ .error .nameTooLong := by
  intro hlong
  unfold Work.isFolder at h
  rw [run_bind_of_ok (run_get s), hlong] at h
  cases h

variable {game : Game} {archives patterns : List String} {z : List String × List (String × Entry)}

theorem goesOn_searchFolder (folder : String) :
    GoesOn s (searchFolder patterns gatherEntry z folder) (∀ pattern ∈ patterns,
      ((∃ aim, Pattern.aim pattern = .ok aim) ∧ s.follow folder ≠ .error .nameTooLong) ∧
      ∀ name ∈ (s.listing folder).filter (Pattern.finds pattern),
        s.follow (Path.under folder name) ≠ .error .nameTooLong) := by
  refine GoesOn.along (fun pattern _ z => ?_) z
  refine GoesOn.bind (still_glob _ _) fun names hglob => ?_
  obtain ⟨haim, hfits, rfl⟩ := run_glob_eq_ok hglob
  refine GoesOn.mono (GoesOn.along (fun name _ z => ?_) z) fun hnames => ⟨⟨haim, hfits⟩, hnames⟩
  refine GoesOn.bind (Work.still_isFolder _) fun isFolder hrun => ?_
  split
  · exact goesOn_pure (follow_ne_of_isFolder hrun)
  · exact goesOn_visitNew pattern z _ (follow_ne_of_isFolder hrun)

theorem goesOn_searchArchive (file : String) :
    GoesOn s (searchArchive game.base patterns gatherEntry z file)
      (∃ a, s.archiveIn game.base file = .ok a) := by
  refine GoesOn.bind (Entry.still_openArchive _) fun a hrun => ?_
  rw [run_openArchive] at hrun
  have ha : s.archiveIn game.base file = .ok a := (Prod.mk.inj hrun).1
  refine GoesOn.mono (GoesOn.along (P := fun _ => True) (fun pattern _ z => ?_) z) fun _ => ⟨a, ha⟩
  refine GoesOn.mono (GoesOn.along (P := fun _ => True) (fun name _ z => ?_) z) fun _ => trivial
  exact goesOn_visitNew pattern z _ trivial

theorem goesOn_searchArchives :
    GoesOn s (searchArchives game.base archives patterns gatherEntry z) (∀ pattern ∈ archives,
      (s.follow game.base ≠ .error .nameTooLong ∧ game.AimsAtFiles s pattern) ∧
      ∀ file ∈ (s.listing game.base).filter (Pattern.finds pattern), ∃ a, s.archiveIn game.base file = .ok a) := by
  refine GoesOn.along (fun pattern _ z => ?_) z
  refine GoesOn.bind (still_globArchives _ _) fun files hglob => ?_
  obtain ⟨hfits, haims, rfl⟩ := run_globArchives_eq_ok hglob
  exact GoesOn.mono (GoesOn.along (fun file _ z => goesOn_searchArchive file) z) fun hfiles => ⟨⟨hfits, haims⟩, hfiles⟩

/-- A search that comes to an end met nothing that would have ended it. -/
theorem searchable_of_run {found : List (String × Entry)} {t : Session}
    (h : (game.entriesWith archives patterns).run.run s = (.ok found, t)) : game.Searchable archives patterns s := by
  have hrun : (game.searchWith archives patterns gatherEntry []).run.run s = (.ok found, t) := h
  obtain ⟨w, u, hwalk, hrun⟩ := run_bind_eq_ok hrun
  obtain ⟨rfl, ⟨z, rfl⟩, hfolders⟩ := GoesOn.along (fun folder _ z => goesOn_searchFolder folder) ([], []) w u hwalk
  obtain ⟨w, u, hwalk, -⟩ := run_bind_eq_ok hrun
  obtain ⟨-, -, harchives⟩ := goesOn_searchArchives w u hwalk
  refine ⟨fun hne pattern hpattern => ?_, fun hne folder hfolder => ?_,
    fun folder hfolder pattern hpattern name hname hfinds => ?_, fun hne => ?_,
    fun pattern hpattern => (harchives pattern hpattern).1.2, fun file hfile => ?_⟩
  · obtain ⟨folder, hfolder⟩ := List.exists_mem_of_ne_nil _ hne
    exact (hfolders folder hfolder pattern hpattern).1.1
  · obtain ⟨pattern, hpattern⟩ := List.exists_mem_of_ne_nil _ hne
    exact (hfolders folder hfolder pattern hpattern).1.2
  · exact (hfolders folder hfolder pattern hpattern).2 name (List.mem_filter.2 ⟨hname, hfinds⟩)
  · obtain ⟨pattern, hpattern⟩ := List.exists_mem_of_ne_nil _ hne
    exact (harchives pattern hpattern).1.1
  · obtain ⟨pattern, hpattern, hfile⟩ := List.mem_flatMap.1 hfile
    exact (harchives pattern hpattern).2 file hfile

end

/-! ## Visits of the found entries -/

section

variable {σ : Type} {s : Session} {visit : σ → String → Entry → Work σ} {game : Game} {patterns : List String}
  {found : List (String × Entry)}

theorem searchable_of_entries (hfound : ((game.entries patterns).run.run s).1 = .ok found) :
    game.Searchable archivePatterns patterns s ∧ found = unseen [] (game.offers archivePatterns patterns s) := by
  have hsearchable : game.Searchable archivePatterns patterns s := searchable_of_run (run_eq_of_result hfound)
  have hentries : game.entries patterns = game.entriesWith archivePatterns patterns := rfl
  rw [hentries, run_entriesWith hsearchable] at hfound
  exact ⟨hsearchable, (Except.ok.inj hfound).symm⟩

/-- The first entry is the first of those that are found. -/
theorem run_first?_of_found {pattern : String} (hfound : ((game.entries [pattern]).run.run s).1 = .ok found) :
    (game.first? pattern).run.run s = (.ok (found.head?.map Prod.snd), s) := by
  obtain ⟨hsearchable, rfl⟩ := searchable_of_entries hfound
  have hquiet : ∀ x pattern e, Quiet (takeFirst x pattern e) := fun _ _ _ => (Work.still_pure _).quiet
  refine (run_searchWith hquiet hsearchable none).trans ?_
  cases unseen [] (game.offers archivePatterns [pattern] s) with
  | nil => rfl
  | cons item items => rfl

/-- The visitor that is never done. -/
def visitOn (visit : σ → String → Entry → Work σ) (x : σ) (pattern : String) (e : Entry) : Work (Walk σ) :=
  return .on (← visit x pattern e)

/-- Visits items one after the other. -/
def visitAll (visit : σ → String → Entry → Work σ) (items : List (String × Entry)) (x : σ) : Work σ :=
  items.foldlM (fun x item => visit x item.1 item.2) x

theorem result_along_visitOn (items : List (String × Entry)) (x : σ) :
    Walk.result <$> Walk.along (fun x item => visitOn visit x item.1 item.2) items x = visitAll visit items x := by
  induction items generalizing x with
  | nil => rfl
  | cons item items ih =>
    rw [Walk.along_cons, visitOn, bind_assoc, map_bind, visitAll, List.foldlM_cons]
    refine bind_congr fun y => ?_
    rw [pure_bind]
    exact ih y

/-- A search by a visitor that leaves the disk alone visits the entries that are found, one after the other. -/
theorem run_each_of_found (hquiet : ∀ x pattern e, Quiet (visit x pattern e))
    (hfound : ((game.entries patterns).run.run s).1 = .ok found) (x : σ) :
    (game.each patterns visit x).run.run s = (visitAll visit found x).run.run s := by
  obtain ⟨hsearchable, rfl⟩ := searchable_of_entries hfound
  have hquiet' : ∀ x pattern e, Quiet (visitOn visit x pattern e) := fun x pattern e =>
    (hquiet x pattern e).bind Work.frame_sameDisk fun _ => (Work.still_pure _).quiet
  refine (run_searchWith hquiet' hsearchable x).trans ?_
  rw [result_along_visitOn]

/-- What a visit makes of a found entry in a session. -/
def visitIn (visit : σ → String → Entry → Work σ) (s : Session) (x : σ) (item : String × Entry) : Except Fault σ :=
  ((visit x item.1 item.2).run.run s).1

theorem run_visitAll_of_still (hstill : ∀ x pattern e, Still (visit x pattern e)) (items : List (String × Entry))
    (x : σ) : (visitAll visit items x).run.run s = (items.foldlM (visitIn visit s) x, s) := by
  induction items generalizing x with
  | nil => rfl
  | cons item items ih =>
    have hvisit : (visit x item.1 item.2).run.run s = (visitIn visit s x item, s) := (hstill x item.1 item.2).run_eq rfl
    show (visit x item.1 item.2 >>= visitAll visit items).run.run s = _
    rw [List.foldlM_cons]
    cases hx : visitIn visit s x item with
    | error e =>
      rw [hx] at hvisit
      exact run_bind_of_error hvisit
    | ok y =>
      rw [hx] at hvisit
      rw [run_bind_of_ok hvisit]
      exact ih y

theorem run_each_of_entries (hstill : ∀ x pattern e, Still (visit x pattern e))
    (hfound : ((game.entries patterns).run.run s).1 = .ok found) (x : σ) :
    (game.each patterns visit x).run.run s = (found.foldlM (visitIn visit s) x, s) :=
  (run_each_of_found (fun x pattern e => (hstill x pattern e).quiet) hfound x).trans (run_visitAll_of_still hstill found x)

end

end Game

end AdventureKit
