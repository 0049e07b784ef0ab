import AdventureKit.Game.Session
import AdventureKit.Proofs.Effects
import AdventureKit.Proofs.Fault
import AdventureKit.Proofs.Table

/-!
# Files in a session

A step that only reads leaves the session as it is (`Work.Still`).  Writing a file changes what one place holds:
walks that led somewhere still lead there, and what other places hold stays (`Session.Shows.write_of_ne`).
-/

namespace AdventureKit

/-! ## Disks -/

namespace Disk

variable {d d' : Disk} {place : Place} {content : Content}

theorem write_eq_ok (h : d.write place content = .ok d') :
    d.isFolder place = false ∧ d' = { d with files := d.files.put place content } := by
  unfold write at h
  split at h
  · cases h
  · rename_i hfolder
    cases h
    exact ⟨Bool.eq_false_iff.2 hfolder, rfl⟩

theorem isFolder_of_write (h : d.write place content = .ok d') (q : Place) : d'.isFolder q = d.isFolder q := by
  rw [(write_eq_ok h).2]
  rfl

/-- A walk goes on as before after a file was written, except that it may end at the new file. -/
theorem walk_write_cases (h : d.write place content = .ok d') (q : Place) (parts : List String) :
    d'.walk q parts = d.walk q parts ∨ d.walk q parts = .error .noFile ∧ d'.walk q parts = .error .notDirectory := by
  induction parts generalizing q with
  | nil => exact .inl rfl
  | cons part parts ih =>
    have hfile : d'.files.has q = true ↔ q = place ∨ d.files.has q = true := by
      rw [(write_eq_ok h).2, Table.has_iff, Table.has_iff, Table.mem_keys_put]
    rw [walk, walk, isFolder_of_write h]
    by_cases hhas : d.files.has q = true
    · exact .inl (by rw [if_pos hhas, if_pos (hfile.2 (.inr hhas))])
    rw [if_neg hhas]
    by_cases hfolder : d.isFolder q = true
    · have hne : q ≠ place := by
        rintro rfl
        rw [(write_eq_ok h).1] at hfolder
        cases hfolder
      rw [if_neg (fun hnew => (hfile.1 hnew).elim hne hhas), hfolder]
      simp only [Bool.not_true, Bool.false_eq_true, if_false]
      split
      · exact ih _
      split
      · exact .inl rfl
      · exact ih _
    · rw [Bool.not_eq_true] at hfolder
      rw [hfolder]
      by_cases hnew : d'.files.has q = true
      · exact .inr ⟨rfl, if_pos hnew⟩
      · exact .inl (if_neg hnew)

theorem walk_of_write (h : d.write place content = .ok d') {q r : Place} {parts : List String}
    (hwalk : d.walk q parts = .ok r) : d'.walk q parts = .ok r := by
  rcases walk_write_cases h q parts with hsame | ⟨hfail, -⟩
  · rw [hsame, hwalk]
  · rw [hwalk] at hfail
    cases hfail

/-- A path still leads where it led after a file was written. -/
theorem follow_of_write {here q : Place} {path : String} (h : d.write place content = .ok d')
    (hfollow : d.follow here path = .ok q) : d'.follow here path = .ok q := by
  obtain ⟨parsed, hparsed, hwalk⟩ := bind_eq_ok.1 hfollow
  exact bind_eq_ok.2 ⟨parsed, hparsed, walk_of_write h hwalk⟩

theorem walk_append (d : Disk) (place : Place) (parts more : List String) :
    d.walk place (parts ++ more) = d.walk place parts >>= (d.walk · more) := by
  induction parts generalizing place with
  | nil => rfl
  | cons part parts ih =>
    rw [List.cons_append, walk, walk]
    split
    · rfl
    split
    · rfl
    split
    · exact ih _
    split
    · rfl
    · exact ih _

/-- A walk that does not go up leads down its parts. -/
theorem walk_eq_append {q r : Place} {parts : List String} (hparts : ".." ∉ parts) (h : d.walk q parts = .ok r) :
    r = q ++ parts := by
  induction parts generalizing q with
  | nil =>
    cases h
    rw [List.append_nil]
  | cons part parts ih =>
    rw [List.mem_cons, not_or] at hparts
    unfold walk at h
    split at h
    · cases h
    split at h
    · cases h
    split at h
    · rename_i hup
      exact absurd (beq_iff_eq.1 hup).symm hparts.1
    split at h
    · cases h
    rw [ih hparts.2 h, List.append_assoc]
    rfl

theorem read_of_write (h : d.write place content = .ok d') : d'.read place = .ok content := by
  unfold read
  rw [isFolder_of_write h, (write_eq_ok h).1, (write_eq_ok h).2]
  dsimp only
  rw [Table.get?_put_self]
  rfl

theorem read_of_write_of_ne (h : d.write place content = .ok d') {q : Place} (hq : q ≠ place) :
    d'.read q = d.read q := by
  unfold read
  rw [isFolder_of_write h, (write_eq_ok h).2]
  dsimp only
  rw [Table.get?_put_of_ne _ hq]

/-- The names in a folder, in any order. -/
theorem names_perm (d : Disk) (folder : Place) :
    (d.names folder).Perm (Sequence.distinct ((d.folders ++ d.files.keys).filterMap fun place =>
      if place.dropLast == folder then place.getLast? else none)) :=
  List.mergeSort_perm _ _

end Disk

/-! ## Steps -/

namespace Work

variable {α β : Type} {s t : Session}

theorem ofExcept_ok (a : α) : ofExcept (.ok a) = pure a := rfl

@[simp] theorem run_ofExcept_ok (a : α) (s : Session) : (ofExcept (.ok a)).run.run s = (.ok a, s) := rfl

@[simp] theorem run_ofExcept_error (e : Fault) (s : Session) :
    (ofExcept (.error e) : Work α).run.run s = (.error e, s) := rfl

theorem run_ofExcept (r : Except Fault α) (s : Session) : (ofExcept r).run.run s = (r, s) := by
  cases r with
  | error e => rfl
  | ok a => rfl

theorem run_say (m : String) (s : Session) :
    (say m).run.run s = (.ok (), { s with log := s.log ++ m ++ "\n" }) := rfl

theorem run_ofLogged (x : Logged α) (s : Session) :
    (ofLogged x).run.run s = ((x.run.run s.log).1, { s with log := (x.run.run s.log).2 }) := by
  show (ofExcept (x.run.run s.log).1).run.run { s with log := (x.run.run s.log).2 } = _
  rw [run_ofExcept]

theorem exists_run_of_toOption {x : Work α} {a : α} (h : (x.run.run s).1.toOption = some a) :
    ∃ t, x.run.run s = (.ok a, t) :=
  ⟨_, Prod.ext (eq_ok_of_toOption h) rfl⟩

/-- The step leaves the session as it is. -/
def Still (x : Work α) : Prop :=
  ∀ s, (x.run.run s).2 = s

theorem Still.run_eq {x : Work α} (h : Still x) {s : Session} {r : Except Fault α} (hr : (x.run.run s).1 = r) :
    x.run.run s = (r, s) :=
  Prod.ext hr (h s)

theorem Still.eq_of_run {x : Work α} (h : Still x) {r : Except Fault α} (hr : x.run.run s = (r, t)) : s = t := by
  have hs := h s
  rw [hr] at hs
  exact hs.symm

theorem Still.run_bind_eq_ok {x : Work α} {f : α → Work β} (hx : Still x) {b : β}
    (h : (x >>= f).run.run s = (.ok b, t)) : ∃ a, x.run.run s = (.ok a, s) ∧ (f a).run.run s = (.ok b, t) := by
  obtain ⟨a, u, hrun, h⟩ := AdventureKit.run_bind_eq_ok h
  obtain rfl := hx.eq_of_run hrun
  exact ⟨a, hrun, h⟩

theorem still_pure (a : α) : Still (pure a) := fun _ => rfl

theorem still_throw (e : Fault) : Still (throw e : Work α) := fun _ => rfl

theorem still_get : Still (get : Work Session) := fun _ => rfl

theorem still_ofExcept (r : Except Fault α) : Still (ofExcept r) := by
  intro s
  rw [run_ofExcept]

/-- A relation between sessions that steps can keep one after the other. -/
structure Frame (R : Session → Session → Prop) : Prop where
  refl : ∀ s, R s s
  trans : ∀ {s t u}, R s t → R t u → R s u

theorem frame_eq : Frame fun s t => t = s :=
  ⟨fun _ => rfl, fun h h' => h'.trans h⟩

/-- The step leads from every session to a related one, whether it fails or not. -/
def Moves (R : Session → Session → Prop) (x : Work α) : Prop :=
  ∀ s, R s (x.run.run s).2

section

variable {R : Session → Session → Prop}

theorem Moves.of_run {x : Work α} (h : Moves R x) {r : Except Fault α} (hrun : x.run.run s = (r, t)) : R s t := by
  have hs := h s
  rwa [hrun] at hs

theorem Still.moves (hR : Frame R) {x : Work α} (h : Still x) : Moves R x := by
  intro s
  rw [h s]
  exact hR.refl s

theorem Moves.bind (hR : Frame R) {x : Work α} {f : α → Work β} (hx : Moves R x) (hf : ∀ a, Moves R (f a)) :
    Moves R (x >>= f) := by
  intro s
  rcases hrun : x.run.run s with ⟨e | a, t⟩
  · rw [run_bind_of_error hrun]
    exact hx.of_run hrun
  · rw [run_bind_of_ok hrun]
    exact hR.trans (hx.of_run hrun) (hf a t)

theorem Still.bind {x : Work α} {f : α → Work β} (hx : Still x) (hf : ∀ a, Still (f a)) : Still (x >>= f) :=
  Moves.bind frame_eq hx hf

theorem moves_foldlM (hR : Frame R) {f : β → α → Work β} (h : ∀ b a, Moves R (f b a)) (as : List α) (b : β) :
    Moves R (as.foldlM f b) := by
  induction as generalizing b with
  | nil => exact (still_pure b).moves hR
  | cons a as ih =>
    rw [List.foldlM_cons]
    exact (h b a).bind hR ih

end

theorem run_ofExcept_bind_eq_ok {r : Except Fault α} {f : α → Work β} {b : β}
    (h : (ofExcept r >>= f).run.run s = (.ok b, t)) : ∃ a, r = .ok a ∧ (f a).run.run s = (.ok b, t) := by
  obtain ⟨a, hrun, h⟩ := (still_ofExcept r).run_bind_eq_ok h
  rw [run_ofExcept] at hrun
  exact ⟨a, (Prod.mk.inj hrun).1, h⟩

theorem run_locate (path : String) (s : Session) : (locate path).run.run s = (s.follow path, s) :=
  run_ofExcept _ s

theorem still_locate (path : String) : Still (locate path) := by
  intro s
  rw [run_locate]

theorem run_locate_bind_eq_ok {path : String} {f : Place → Work α} {a : α}
    (h : (locate path >>= f).run.run s = (.ok a, t)) :
    ∃ place, s.follow path = .ok place ∧ (f place).run.run s = (.ok a, t) := by
  obtain ⟨place, hrun, h⟩ := (still_locate path).run_bind_eq_ok h
  rw [run_locate] at hrun
  exact ⟨place, (Prod.mk.inj hrun).1, h⟩

theorem still_has (path : String) : Still (has path) := by
  refine still_get.bind fun session => ?_
  split
  · exact still_pure _
  · exact still_throw _
  · exact still_pure _

theorem has_withLog (path : String) (s : Session) (log : String) :
    ((has path).run.run { s with log := log }).1 = ((has path).run.run s).1 := by
  have hfollow : ({ s with log := log } : Session).follow path = s.follow path := rfl
  unfold has
  rw [run_bind_of_ok (run_get s), run_bind_of_ok (run_get _), hfollow]
  split
  · rfl
  · rfl
  · rfl

theorem still_isFolder (path : String) : Still (isFolder path) := by
  refine still_get.bind fun session => ?_
  split
  · exact still_pure _
  · exact still_throw _
  · exact still_pure _

theorem still_namesIn (path : String) : Still (namesIn path) := by
  refine still_get.bind fun session => ?_
  split
  · exact still_pure _
  · exact still_throw _
  · exact still_pure _

theorem still_readData (path : String) : Still (readData path) :=
  still_get.bind fun _ => (still_locate path).bind fun _ => (still_ofExcept _).bind fun _ => still_ofExcept _

theorem run_readData {path : String} {place : Place} {bytes : Bytes} (hfollow : s.follow path = .ok place)
    (hread : s.disk.read place = .ok (.data bytes)) : (readData path).run.run s = (.ok bytes, s) := by
  have hlocate : (locate path).run.run s = (.ok place, s) := by rw [run_locate, hfollow]
  unfold readData
  rw [run_bind_of_ok (run_get s), run_bind_of_ok hlocate, hread, run_bind_of_ok (run_ofExcept_ok _ s)]
  rfl

theorem run_isFolder {path : String} {place : Place} (hfollow : s.follow path = .ok place) :
    (isFolder path).run.run s = (.ok (s.disk.isFolder place), s) := by
  unfold isFolder
  rw [run_bind_of_ok (run_get s), hfollow]
  rfl

theorem run_namesIn {path : String} {place : Place} (hfollow : s.follow path = .ok place)
    (hfolder : s.disk.isFolder place = true) : (namesIn path).run.run s = (.ok (s.disk.names place), s) := by
  unfold namesIn
  rw [run_bind_of_ok (run_get s), hfollow]
  dsimp only
  rw [if_pos hfolder]
  rfl

theorem still_readPicture (path : String) : Still (readPicture path) := by
  refine still_get.bind fun session => (still_locate path).bind fun place => (still_ofExcept _).bind fun content => ?_
  cases content with
  | picture p palette => exact still_pure _
  | data bytes => exact still_throw _

/-- After a remark a run goes on in a session that differs in the log. -/
theorem run_say_bind_eq_ok {m : String} {f : Unit → Work α} {a : α} (h : (say m >>= f).run.run s = (.ok a, t)) :
    ∃ log, (f ()).run.run { s with log := log } = (.ok a, t) :=
  ⟨_, run_bind_of_ok (run_say m s) ▸ h⟩

theorem run_ofLogged_bind_eq_ok {x : Logged α} {f : α → Work β} {b : β}
    (h : (ofLogged x >>= f).run.run s = (.ok b, t)) :
    ∃ a log log', x.run.run log = (.ok a, log') ∧ (f a).run.run { s with log := log' } = (.ok b, t) := by
  obtain ⟨a, u, hx, h⟩ := run_bind_eq_ok h
  rw [run_ofLogged] at hx
  obtain ⟨ha, rfl⟩ := Prod.mk.inj hx
  exact ⟨a, s.log, _, Prod.ext ha rfl, h⟩

theorem run_has {path : String} {place : Place} (hfollow : s.follow path = .ok place) :
    (has path).run.run s = (.ok (s.disk.has place), s) := by
  unfold has
  rw [run_bind_of_ok (run_get s), hfollow]
  rfl

theorem run_write {path : String} {place : Place} {content : Content} {d : Disk}
    (hfollow : s.follow path = .ok place) (hwrite : s.disk.write place content = .ok d) :
    (write path content).run.run s = (.ok (), { s with disk := d }) := by
  have hlocate : (locate path).run.run s = (.ok place, s) := by rw [run_locate, hfollow]
  unfold write
  rw [run_bind_of_ok hlocate, run_bind_of_ok (run_get s), hwrite]
  rfl

theorem run_write_eq_ok {path : String} {content : Content} (h : (write path content).run.run s = (.ok (), t)) :
    ∃ place d, s.follow path = .ok place ∧ s.disk.write place content = .ok d ∧ t = { s with disk := d } := by
  obtain ⟨place, hfollow, h⟩ := run_locate_bind_eq_ok h
  obtain ⟨d, hdisk, h⟩ := run_ofExcept_bind_eq_ok (run_bind_of_ok (run_get s) ▸ h)
  cases h
  exact ⟨place, d, hfollow, hdisk, rfl⟩

end Work

/-! ## Pictures on the disk -/

namespace Session

variable {s t : Session} {path : String} {p : Picture}

theorem follow_of_write {place q : Place} {content : Content} {d : Disk} (hfollow : s.follow path = .ok q)
    (hwrite : s.disk.write place content = .ok d) : ({ s with disk := d } : Session).follow path = .ok q :=
  Disk.follow_of_write hwrite hfollow

/-- A path leads to a picture. -/
def Shows (s : Session) (path : String) (p : Picture) : Prop :=
  ∃ place palette, s.follow path = .ok place ∧ s.disk.read place = .ok (.picture p palette)

@[simp] theorem shows_withLog {log : String} : ({ s with log := log } : Session).Shows path p ↔ s.Shows path p :=
  Iff.rfl

theorem Shows.run_readPicture (h : s.Shows path p) : (Work.readPicture path).run.run s = (.ok p, s) := by
  obtain ⟨place, palette, hfollow, hread⟩ := h
  have hlocate : (Work.locate path).run.run s = (.ok place, s) := by rw [Work.run_locate, hfollow]
  unfold Work.readPicture
  rw [run_bind_of_ok (run_get s), run_bind_of_ok hlocate, hread, run_bind_of_ok (Work.run_ofExcept_ok _ s)]
  rfl

theorem shows_of_readPicture (h : ((Work.readPicture path).run.run s).1 = .ok p) : s.Shows path p := by
  have hrun := (Work.still_readPicture path).run_eq h
  unfold Work.readPicture at hrun
  rw [run_bind_of_ok (run_get s)] at hrun
  obtain ⟨place, hfollow, hrun⟩ := Work.run_locate_bind_eq_ok hrun
  obtain ⟨content, hread, hrun⟩ := Work.run_ofExcept_bind_eq_ok hrun
  cases content with
  | data bytes => cases hrun
  | picture p' palette =>
    cases hrun
    exact ⟨place, palette, hfollow, hread⟩

theorem shows_of_write {palette : Bytes} (h : (Work.write path (.picture p palette)).run.run s = (.ok (), t)) :
    t.Shows path p := by
  obtain ⟨place, d, hfollow, hwrite, rfl⟩ := Work.run_write_eq_ok h
  exact ⟨place, palette, follow_of_write hfollow hwrite, Disk.read_of_write hwrite⟩

theorem Shows.write_of_ne (hs : s.Shows path p) {other : String} {content : Content}
    (h : (Work.write other content).run.run s = (.ok (), t)) (hne : s.follow path ≠ s.follow other) :
    t.Shows path p := by
  obtain ⟨place, d, hother, hwrite, rfl⟩ := Work.run_write_eq_ok h
  obtain ⟨q, palette, hfollow, hread⟩ := hs
  have hq : q ≠ place := by
    rintro rfl
    exact hne (hfollow.trans hother.symm)
  exact ⟨q, palette, follow_of_write hfollow hwrite, (Disk.read_of_write_of_ne hwrite hq).trans hread⟩

end Session

end AdventureKit
