import AdventureKit.Game.Graphics
import AdventureKit.Proofs.Game.Session

/-!
# Searches

A search moves the session as its visitor does (`Game.moves_searchWith`), so a visitor that only reads makes a search that
only reads (`Game.still_each`).  What every visit keeps of the gathered things, a search keeps (`Game.result_of_each`).
-/

namespace AdventureKit

open Work (Still Moves)

theorem Entry.still_read (e : Entry) : Still e.read := by
  cases e with
  | loose folder name => exact Work.still_readData _
  | stored archive file name => exact Work.still_ofExcept _

theorem Entry.still_openArchive (e : Entry) : Still e.openArchive := by
  cases e with
  | loose folder name => exact (Entry.still_read _).bind fun _ => Work.still_ofExcept _
  | stored archive file name => exact Work.still_throw _

theorem Walk.moves_along {R : Session → Session → Prop} (hR : Work.Frame R) {σ α : Type} {step : σ → α → Work (Walk σ)}
    (h : ∀ s a, Moves R (step s a)) (as : List α) (s : σ) : Moves R (Walk.along step as s) := by
  induction as generalizing s with
  | nil => exact (Work.still_pure _).moves hR
  | cons a as ih =>
    refine (h s a).bind hR fun w => ?_
    cases w with
    | on s => exact ih s
    | done s => exact (Work.still_pure _).moves hR

section

variable {σ α : Type} {step : σ → α → Work (Walk σ)} {s : Session} {x y : σ}

theorem Walk.run_along_of_on {as : List α} (h : ∀ a ∈ as, (step x a).run.run s = (.ok (.on x), s)) :
    (Walk.along step as x).run.run s = (.ok (.on x), s) := by
  induction as with
  | nil => rfl
  | cons a as ih =>
    obtain ⟨ha, has⟩ := List.forall_mem_cons.1 h
    unfold Walk.along
    rw [run_bind_of_ok ha]
    exact ih has

/-- A walk keeps what each of its steps keeps. -/
theorem Walk.result_of_along {P : σ → Prop}
    (hstep : ∀ {s t x a w}, P x → (step x a).run.run s = (.ok w, t) → P w.result) {as : List α} {w : Walk σ}
    {t : Session} (hx : P x) (h : (Walk.along step as x).run.run s = (.ok w, t)) : P w.result := by
  induction as generalizing x s with
  | nil =>
    cases h
    exact hx
  | cons a as ih =>
    unfold Walk.along at h
    obtain ⟨v, u, hrun, h⟩ := run_bind_eq_ok h
    have hv := hstep hx hrun
    cases v with
    | on y => exact ih hv h
    | done y =>
      cases h
      exact hv

theorem Walk.run_along_singleton {a : α} (h : (step x a).run.run s = (.ok (.on y), s)) :
    (Walk.along step [a] x).run.run s = (.ok (.on y), s) := by
  unfold Walk.along
  rw [run_bind_of_ok h]
  rfl

end

namespace Game

variable {σ : Type} {visit : σ → String → Entry → Work (Walk σ)}

theorem still_glob (folder pattern : String) : Still (glob folder pattern) :=
  (Work.still_ofExcept _).bind fun _ => (Work.still_namesIn folder).bind fun _ => Work.still_pure _

theorem still_globArchives (folder pattern : String) : Still (globArchives folder pattern) := by
  refine (still_glob folder pattern).bind fun files => ?_
  split
  · refine (Work.still_isFolder folder).bind fun isFolder => ?_
    split
    · exact (Work.still_throw _).bind fun _ => Work.still_pure _
    · exact Work.still_pure _
  · exact Work.still_pure _

theorem globArchives_of_names {folder pattern : String} (h : Pattern.aim pattern = .ok .names) :
    globArchives folder pattern = glob folder pattern := by
  unfold globArchives
  rw [h]
  exact bind_pure _

theorem aim_archivePatterns {pattern : String} (h : pattern ∈ archivePatterns) : Pattern.aim pattern = .ok .names := by
  have haim : ∀ pattern ∈ archivePatterns, (Pattern.aim pattern).toOption = some .names := by decide +kernel
  exact eq_ok_of_toOption (haim pattern h)

section Moves

variable {R : Session → Session → Prop} (hR : Work.Frame R)
include hR

theorem moves_visitNew (h : ∀ s pattern e, Moves R (visit s pattern e)) (pattern : String) (s : List String × σ)
    (e : Entry) : Moves R (visitNew visit pattern s e) := by
  unfold visitNew
  split
  · exact (Work.still_pure _).moves hR
  · exact (h _ _ _).bind hR fun _ => (Work.still_pure _).moves hR

theorem moves_searchFolder (h : ∀ s pattern e, Moves R (visit s pattern e)) (patterns : List String)
    (s : List String × σ) (folder : String) : Moves R (searchFolder patterns visit s folder) := by
  refine Walk.moves_along hR (fun s pattern => ?_) patterns s
  refine ((still_glob folder pattern).moves hR).bind hR fun names => Walk.moves_along hR (fun s name => ?_) names s
  refine ((Work.still_isFolder _).moves hR).bind hR fun isFolder => ?_
  split
  · exact (Work.still_pure _).moves hR
  · exact moves_visitNew hR h _ _ _

theorem moves_searchArchive (h : ∀ s pattern e, Moves R (visit s pattern e)) (base : String) (patterns : List String)
    (s : List String × σ) (file : String) : Moves R (searchArchive base patterns visit s file) := by
  refine ((Entry.still_openArchive _).moves hR).bind hR fun archive => ?_
  refine Walk.moves_along hR (fun s pattern => ?_) patterns s
  exact Walk.moves_along hR (fun s name => moves_visitNew hR h _ _ _) _ s

theorem moves_searchArchives (h : ∀ s pattern e, Moves R (visit s pattern e)) (base : String)
    (archives patterns : List String) (s : List String × σ) :
    Moves R (searchArchives base archives patterns visit s) := by
  refine Walk.moves_along hR (fun s archivePattern => ?_) archives s
  refine ((still_globArchives base archivePattern).moves hR).bind hR fun files => ?_
  exact Walk.moves_along hR (fun s file => moves_searchArchive hR h base patterns s file) files s

/-- A search moves the session as its visitor does. -/
theorem moves_searchWith (game : Game) (archives patterns : List String)
    (h : ∀ s pattern e, Moves R (visit s pattern e)) (s : σ) :
    Moves R (game.searchWith archives patterns visit s) := by
  refine (Walk.moves_along hR (fun s folder => moves_searchFolder hR h patterns s folder) _ _).bind hR fun w => ?_
  cases w with
  | done s => exact (Work.still_pure _).moves hR
  | on s => exact (moves_searchArchives hR h game.base archives patterns s).bind hR fun _ => (Work.still_pure _).moves hR

theorem moves_each (game : Game) (patterns : List String) {visit : σ → String → Entry → Work σ}
    (h : ∀ s pattern e, Moves R (visit s pattern e)) (s : σ) : Moves R (game.each patterns visit s) :=
  moves_searchWith hR game archivePatterns patterns
    (fun s pattern e => (h s pattern e).bind hR fun _ => (Work.still_pure _).moves hR) s

end Moves

theorem still_search (game : Game) (patterns : List String) (h : ∀ s pattern e, Still (visit s pattern e)) (s : σ) :
    Still (game.search patterns visit s) :=
  moves_searchWith Work.frame_eq game archivePatterns patterns h s

theorem still_first? (game : Game) (pattern : String) : Still (game.first? pattern) :=
  game.still_search _ (fun _ _ _ => Work.still_pure _) _

theorem still_each (game : Game) (patterns : List String) {visit : σ → String → Entry → Work σ}
    (h : ∀ s pattern e, Still (visit s pattern e)) (s : σ) : Still (game.each patterns visit s) :=
  moves_each Work.frame_eq game patterns h s

theorem still_contents (game : Game) (pattern : String) : Still (game.contents pattern) :=
  game.still_each _ (fun _ _ e => e.still_read.bind fun _ => Work.still_pure _) _

/-! ## A file that lies loose -/

variable {s : Session} {pattern : String}

theorem finds_of_names (h : Pattern.aim pattern = .ok .names) :
    Pattern.finds pattern = Pattern.acceptsLetters pattern := by
  funext name
  unfold Pattern.finds
  rw [h]
  rfl

theorem run_glob {folder : String} {place : Place} (haim : Pattern.aim pattern = .ok .names)
    (hfollow : s.follow folder = .ok place) (hfolder : s.disk.isFolder place = true) :
    (glob folder pattern).run.run s = (.ok ((s.disk.names place).filter (Pattern.acceptsLetters pattern)), s) := by
  unfold glob
  rw [haim, run_bind_of_ok (Work.run_ofExcept_ok _ s), run_bind_of_ok (Work.run_namesIn hfollow hfolder),
    finds_of_names haim]
  rfl

/-- In a folder without archives a search visits the loose file that its pattern matches. -/
theorem run_search_of_loose {game : Game} {name : String} {a b : σ} (hpatches : game.patchFolders = some [])
    (hglob : (glob game.base pattern).run.run s = (.ok [name], s))
    (hfile : (Work.isFolder (Path.under game.base name)).run.run s = (.ok false, s))
    (harchives : ∀ p ∈ archivePatterns, (glob game.base p).run.run s = (.ok [], s))
    (hvisit : (visit a pattern (.loose game.base name)).run.run s = (.ok (.on b), s)) :
    (game.search [pattern] visit a).run.run s = (.ok b, s) := by
  have hnew : (visitNew visit pattern ([], a) (.loose game.base name)).run.run s = (.ok (.on ([name], b)), s) := by
    show (visit a pattern (.loose game.base name) >>= _).run.run s = _
    rw [run_bind_of_ok hvisit]
    rfl
  have hfolder : (searchFolder [pattern] visit ([], a) game.base).run.run s = (.ok (.on ([name], b)), s) := by
    unfold searchFolder
    refine Walk.run_along_singleton ?_
    rw [run_bind_of_ok hglob]
    refine Walk.run_along_singleton ?_
    rw [run_bind_of_ok hfile]
    exact hnew
  have hnone : (searchArchives game.base archivePatterns [pattern] visit ([name], b)).run.run s = (.ok (.on ([name], b)), s) := by
    refine Walk.run_along_of_on fun p hp => ?_
    rw [globArchives_of_names (aim_archivePatterns hp), run_bind_of_ok (harchives p hp)]
    rfl
  have hfolders : game.folders = [game.base] := by
    rw [folders, hpatches]
    rfl
  unfold search searchWith
  rw [hfolders, run_bind_of_ok (Walk.run_along_singleton hfolder)]
  dsimp only
  rw [run_bind_of_ok hnone]
  rfl

/-! ## What is gathered -/

section Keeps

variable {game : Game} {patterns : List String} {P : σ → Prop} {x y : σ} {t : Session}

/-- Every visit keeps a property of what is gathered. -/
def Keeps (visit : σ → String → Entry → Work (Walk σ)) (P : σ → Prop) : Prop :=
  ∀ x pattern e s w t, P x → (visit x pattern e).run.run s = (.ok w, t) → P w.result

theorem Keeps.visitNew (hvisit : Keeps visit P) {z : List String × σ} {e : Entry} {w : Walk (List String × σ)}
    (hz : P z.2) (h : (visitNew visit pattern z e).run.run s = (.ok w, t)) : P w.result.2 := by
  unfold Game.visitNew at h
  split at h
  · cases h
    exact hz
  · obtain ⟨v, u, hrun, h⟩ := run_bind_eq_ok h
    cases h
    have hv := hvisit _ _ _ _ _ _ hz hrun
    cases v with
    | on y => exact hv
    | done y => exact hv

theorem Keeps.searchFolder (hvisit : Keeps visit P) {z : List String × σ} {folder : String}
    {w : Walk (List String × σ)} (hz : P z.2) (h : (searchFolder patterns visit z folder).run.run s = (.ok w, t)) :
    P w.result.2 := by
  refine Walk.result_of_along (P := fun z => P z.2) (fun hz h => ?_) hz h
  obtain ⟨names, u, -, h⟩ := run_bind_eq_ok h
  refine Walk.result_of_along (P := fun z => P z.2) (fun hz h => ?_) hz h
  obtain ⟨isFolder, u, -, h⟩ := run_bind_eq_ok h
  split at h
  · cases h
    exact hz
  · exact hvisit.visitNew hz h

theorem Keeps.searchArchives (hvisit : Keeps visit P) {z : List String × σ} {base : String} {archives : List String}
    {w : Walk (List String × σ)} (hz : P z.2)
    (h : (searchArchives base archives patterns visit z).run.run s = (.ok w, t)) : P w.result.2 := by
  refine Walk.result_of_along (P := fun z => P z.2) (fun hz h => ?_) hz h
  obtain ⟨files, u, -, h⟩ := run_bind_eq_ok h
  refine Walk.result_of_along (P := fun z => P z.2) (fun hz h => ?_) hz h
  obtain ⟨archive, u, -, h⟩ := run_bind_eq_ok h
  refine Walk.result_of_along (P := fun z => P z.2) (fun hz h => ?_) hz h
  exact Walk.result_of_along (P := fun z => P z.2) (fun hz h => hvisit.visitNew hz h) hz h

theorem result_of_search (hvisit : Keeps visit P) (hx : P x)
    (h : (game.search patterns visit x).run.run s = (.ok y, t)) : P y := by
  obtain ⟨w, u, hfolders, h⟩ := run_bind_eq_ok h
  have hw : P w.result.2 :=
    Walk.result_of_along (P := fun z => P z.2) (fun hz h => hvisit.searchFolder hz h) hx hfolders
  cases w with
  | done z =>
    cases h
    exact hw
  | on z =>
    obtain ⟨w', u', harchives, h⟩ := run_bind_eq_ok h
    cases h
    exact hvisit.searchArchives hw harchives

/-- What every visit keeps is kept by the whole search. -/
theorem result_of_each {visit : σ → String → Entry → Work σ}
    (hvisit : ∀ x pattern e s y t, P x → (visit x pattern e).run.run s = (.ok y, t) → P y) (hx : P x)
    (h : (game.each patterns visit x).run.run s = (.ok y, t)) : P y := by
  refine result_of_search (fun x pattern e s w t hx h => ?_) hx h
  obtain ⟨y, u, hrun, h⟩ := run_bind_eq_ok h
  cases h
  exact hvisit _ _ _ _ _ _ hx hrun

end Keeps

theorem still_scriptFile (e : Entry) : Still (scriptFile e) :=
  e.still_read.bind fun _ => Work.still_ofExcept _

theorem still_belongings (game : Game) (e : Entry) : Still (game.belongings e) := by
  refine (still_scriptFile e).bind fun file => (Work.still_ofExcept _).bind fun beside => ?_
  exact game.still_each _ (fun _ _ e => e.still_read.bind fun _ => Work.still_pure _) _

end Game

end AdventureKit
