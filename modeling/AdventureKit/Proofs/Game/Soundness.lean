import AdventureKit.Game.Patch
import AdventureKit.Proofs.Game.Entries

/-!
# Sound sessions

On a sound disk all names can be names of files, and nothing is a file and a folder at once.  Tools write files and make
folders in no other way than by paths, so they keep a session sound (`Work.moves_write`, `Work.moves_makeFolders`).  In a
sound session the files that a search sees in the working folder are those that lie there
(`Session.Sound.mem_names_iff`).
-/

namespace AdventureKit

namespace Disk

variable {d d' : Disk} {place q : Place} {parts : List String}

/-- A name that a file can have and that is not too long. -/
def FitName (name : String) : Prop :=
  IsName name ∧ name.utf8ByteSize ≤ maxName

instance (name : String) : Decidable (FitName name) :=
  inferInstanceAs (Decidable (IsName name ∧ name.utf8ByteSize ≤ maxName))

theorem fitName_concat {part : String} (hplace : ∀ name ∈ place, FitName name)
    (hpart : Path.IsPart part ∧ '\x00' ∉ part.toList) (hup : ¬ (part == "..") = true)
    (hlong : ¬ maxName < part.utf8ByteSize) : ∀ name ∈ place ++ [part], FitName name := by
  intro name hname
  rcases List.mem_append.1 hname with hold | hnew
  · exact hplace name hold
  · obtain rfl := List.mem_singleton.1 hnew
    exact ⟨⟨hpart.1, hpart.2, by simpa using hup⟩, Nat.le_of_not_lt hlong⟩

theorem fitName_of_walk (hplace : ∀ name ∈ place, FitName name)
    (hparts : ∀ part ∈ parts, Path.IsPart part ∧ '\x00' ∉ part.toList) (h : d.walk place parts = .ok q) :
    ∀ name ∈ q, FitName name := by
  induction parts generalizing place with
  | nil =>
    cases h
    exact hplace
  | cons part parts ih =>
    obtain ⟨hpart, hparts⟩ := List.forall_mem_cons.1 hparts
    rw [walk] at h
    split at h
    · cases h
    split at h
    · cases h
    split at h
    · exact ih (fun name hname => hplace name (List.dropLast_subset _ hname)) hparts h
    split at h
    · cases h
    · rename_i hup hlong
      exact ih (fitName_concat hplace hpart hup hlong) hparts h

/-- All names on a disk can be names of files, and no file is a folder. -/
structure Sound (d : Disk) : Prop where
  names : ∀ place ∈ d.folders ++ d.files.keys, ∀ name ∈ place, FitName name
  apart : ∀ place ∈ d.files.keys, d.isFolder place = false

theorem Sound.write (hd : d.Sound) (hplace : ∀ name ∈ place, FitName name) {content : Content}
    (h : d.write place content = .ok d') : d'.Sound := by
  obtain ⟨hfolder, rfl⟩ := write_eq_ok h
  constructor
  · intro q hq
    rw [List.mem_append, Table.mem_keys_put] at hq
    rcases hq with hq | rfl | hq
    · exact hd.names q (List.mem_append_left _ hq)
    · exact hplace
    · exact hd.names q (List.mem_append_right _ hq)
  · intro q hq
    rcases Table.mem_keys_put.1 hq with rfl | hq
    · exact hfolder
    · exact hd.apart q hq

theorem Sound.addFolder (hd : d.Sound) (hplace : ∀ name ∈ place, FitName name) (hfile : d.files.has place = false) :
    ({ d with folders := d.folders ++ [place] } : Disk).Sound := by
  constructor
  · intro q hq
    rw [List.mem_append, List.mem_append, List.mem_singleton] at hq
    rcases hq with (hq | rfl) | hq
    · exact hd.names q (List.mem_append_left _ hq)
    · exact hplace
    · exact hd.names q (List.mem_append_right _ hq)
  · intro q hq
    have hne : q ≠ place := by
      rintro rfl
      exact Bool.eq_false_iff.1 hfile (Table.has_iff.2 hq)
    have hold := hd.apart q hq
    simp only [isFolder, Bool.or_eq_false_iff, List.contains_eq_mem, decide_eq_false_iff_not] at hold ⊢
    simp [hold, hne]

/-- What is kept by every folder that is added is kept by making folders. -/
theorem makeFoldersFrom_induction {P : Disk → Prop}
    (hstep : ∀ e q, P e → (∀ name ∈ q, FitName name) → e.files.has q = false →
      P { e with folders := e.folders ++ [q] })
    (hplace : ∀ name ∈ place, FitName name) (hparts : ∀ part ∈ parts, Path.IsPart part ∧ '\x00' ∉ part.toList)
    (hd : P d) (h : d.makeFoldersFrom place parts = .ok d') : P d' := by
  induction parts generalizing d place with
  | nil =>
    cases h
    exact hd
  | cons part parts ih =>
    obtain ⟨hpart, hparts⟩ := List.forall_mem_cons.1 hparts
    rw [makeFoldersFrom] at h
    dsimp only at h
    split at h
    · cases h
    rename_i hlong
    have hnext : ∀ name ∈ (if part == ".." then place.dropLast else place ++ [part]), FitName name := by
      split
      · exact fun name hname => hplace name (List.dropLast_subset _ hname)
      · rename_i hup
        exact fitName_concat hplace hpart hup hlong
    generalize (if part == ".." then place.dropLast else place ++ [part]) = next at h hnext
    split at h
    · cases h
    rename_i hfile
    refine ih hnext hparts ?_ h
    split
    · exact hd
    · exact hstep d _ hd hnext (Bool.eq_false_iff.2 hfile)

/-- Making folders keeps a disk sound and its files as they are, and takes no folder away. -/
theorem Sound.makeFoldersFrom (hd : d.Sound) (hplace : ∀ name ∈ place, FitName name)
    (hparts : ∀ part ∈ parts, Path.IsPart part ∧ '\x00' ∉ part.toList) (h : d.makeFoldersFrom place parts = .ok d') :
    d'.Sound ∧ d'.files = d.files ∧ ∀ q, d.isFolder q = true → d'.isFolder q = true := by
  refine makeFoldersFrom_induction (P := fun e => e.Sound ∧ e.files = d.files ∧
    ∀ q, d.isFolder q = true → e.isFolder q = true) ?_ hplace hparts ⟨hd, rfl, fun _ hq => hq⟩ h
  rintro e q ⟨he, hfiles, hfolders⟩ hq hfile
  refine ⟨he.addFolder hq hfile, hfiles, fun r hr => ?_⟩
  have hold := hfolders r hr
  simp only [isFolder, Bool.or_eq_true, List.contains_eq_mem, decide_eq_true_eq, List.mem_append] at hold ⊢
  exact hold.imp_right .inl

end Disk

/-! ## Sessions -/

theorem Path.fit_of_mem_parts {path : String} {parsed : Path} (h : Disk.pathOf path = .ok parsed) :
    ∀ part ∈ parsed.parts, Path.IsPart part ∧ '\x00' ∉ part.toList := by
  unfold Disk.pathOf at h
  split at h
  · cases h
  rename_i hzero
  cases h
  intro part hpart
  refine ⟨Path.isPart_of_mem hpart, fun hin => hzero (List.contains_iff_mem.2 ?_)⟩
  obtain ⟨piece, hpiece, rfl⟩ := List.mem_map.1 (List.mem_filter.1 hpart).1
  rw [String.toList_ofList] at hin
  exact (Path.mem_splitFrom_iff (by decide)).1 ⟨piece, hpiece, hin⟩ |>.resolve_left List.not_mem_nil

namespace Session

variable {s t : Session}

/-- A session on a sound disk, in a folder that is there. -/
structure Sound (s : Session) : Prop where
  disk : s.disk.Sound
  here : ∀ name ∈ s.here, Disk.FitName name
  folder : s.disk.isFolder s.here = true

theorem Sound.origin (hs : s.Sound) (path : Path) : ∀ name ∈ Disk.origin s.here path, Disk.FitName name := by
  unfold Disk.origin
  split
  · exact hs.here
  · exact nofun

/-- The sessions work in the same folder, and the second one is sound if the first one is. -/
def KeepsSound (s t : Session) : Prop :=
  t.here = s.here ∧ (s.Sound → t.Sound)

end Session

namespace Work

theorem frame_keepsSound : Frame Session.KeepsSound :=
  ⟨fun _ => ⟨rfl, id⟩, fun h h' => ⟨h'.1.trans h.1, fun hs => h'.2 (h.2 hs)⟩⟩

/-- Writing a file leads to the place of its path, or nowhere. -/
theorem run_write_cases (path : String) (content : Content) (s : Session) :
    ((write path content).run.run s).2 = s ∨ ∃ place d, s.follow path = .ok place ∧
      s.disk.write place content = .ok d ∧ ((write path content).run.run s).2 = { s with disk := d } := by
  cases hfollow : s.follow path with
  | error e =>
    have hlocate : (locate path).run.run s = (.error e, s) := by rw [run_locate, hfollow]
    exact .inl (congrArg Prod.snd (run_bind_of_error hlocate))
  | ok place =>
    cases hwrite : s.disk.write place content with
    | error e =>
      have hlocate : (locate path).run.run s = (.ok place, s) := by rw [run_locate, hfollow]
      left
      unfold write
      rw [run_bind_of_ok hlocate, run_bind_of_ok (run_get s), hwrite]
      rfl
    | ok d => exact .inr ⟨place, d, rfl, hwrite, congrArg Prod.snd (run_write hfollow hwrite)⟩

theorem moves_write (path : String) (content : Content) : Moves Session.KeepsSound (write path content) := by
  intro s
  rcases run_write_cases path content s with hsame | ⟨place, d, hfollow, hwrite, hnew⟩
  · rw [hsame]
    exact frame_keepsSound.refl s
  · rw [hnew]
    refine ⟨rfl, fun hs => ?_⟩
    obtain ⟨parsed, hparsed, hwalk⟩ := bind_eq_ok.1 hfollow
    have hplace := Disk.fitName_of_walk (hs.origin parsed) (Path.fit_of_mem_parts hparsed) hwalk
    refine ⟨hs.disk.write hplace hwrite, hs.here, ?_⟩
    exact (Disk.isFolder_of_write hwrite s.here).trans hs.folder

theorem run_makeFolders_cases (path : String) (s : Session) :
    ((makeFolders path).run.run s).2 = s ∨ ∃ d, s.disk.makeFolders s.here path = .ok d ∧
      ((makeFolders path).run.run s).2 = { s with disk := d } := by
  unfold makeFolders
  rw [run_bind_of_ok (run_get s)]
  cases s.disk.makeFolders s.here path with
  | error e => exact .inl rfl
  | ok d => exact .inr ⟨d, rfl, rfl⟩

theorem files_of_makeFolders {path : String} {s t : Session} (hs : s.Sound)
    (h : (makeFolders path).run.run s = (.ok (), t)) : t.disk.files = s.disk.files := by
  have ht : ((makeFolders path).run.run s).2 = t := congrArg Prod.snd h
  rcases run_makeFolders_cases path s with hsame | ⟨d, hmake, hnew⟩
  · rw [← ht, hsame]
  · obtain ⟨parsed, hparsed, hmake⟩ := bind_eq_ok.1 hmake
    rw [← ht, hnew]
    exact (hs.disk.makeFoldersFrom (hs.origin parsed) (Path.fit_of_mem_parts hparsed) hmake).2.1

theorem moves_makeFolders (path : String) : Moves Session.KeepsSound (makeFolders path) := by
  intro s
  rcases run_makeFolders_cases path s with hsame | ⟨d, hmake, hnew⟩
  · rw [hsame]
    exact frame_keepsSound.refl s
  · rw [hnew]
    refine ⟨rfl, fun hs => ?_⟩
    obtain ⟨parsed, hparsed, hmake⟩ := bind_eq_ok.1 hmake
    obtain ⟨hsound, -, hfolders⟩ := hs.disk.makeFoldersFrom (hs.origin parsed) (Path.fit_of_mem_parts hparsed) hmake
    exact ⟨hsound, hs.here, hfolders _ hs.folder⟩

theorem Quiet.keepsSound {α : Type} {x : Work α} (h : Quiet x) : Moves Session.KeepsSound x := by
  intro s
  obtain ⟨hdisk, hhere⟩ := h s
  refine ⟨hhere, fun hs => ⟨?_, ?_, ?_⟩⟩
  · rw [hdisk]
    exact hs.disk
  · rw [hhere]
    exact hs.here
  · rw [hdisk, hhere]
    exact hs.folder

end Work

/-! ## Files of the working folder -/

namespace Session

variable {s : Session} {name : String}

/-- A file of this name lies in the working folder. -/
def HasFile (s : Session) (name : String) : Prop :=
  s.here ++ [name] ∈ s.disk.files.keys

instance (s : Session) (name : String) : Decidable (s.HasFile name) :=
  inferInstanceAs (Decidable (s.here ++ [name] ∈ s.disk.files.keys))

theorem follow_outputFolder (s : Session) : s.follow Game.outputFolder = .ok s.here := by
  have hpath : Disk.pathOf Game.outputFolder = .ok ⟨"", []⟩ := eq_ok_of_toOption (by decide +kernel)
  unfold follow Disk.follow
  rw [hpath]
  rfl

theorem Sound.listing_outputFolder (hs : s.Sound) : s.listing Game.outputFolder = s.disk.names s.here := by
  unfold listing
  rw [follow_outputFolder]
  exact if_pos hs.folder

theorem Sound.fitName (hs : s.Sound) (h : name ∈ s.listing Game.outputFolder) : Disk.FitName name := by
  rw [hs.listing_outputFolder, Disk.mem_names_iff] at h
  exact hs.disk.names _ h name (List.mem_append_right _ List.mem_cons_self)

theorem Sound.follow_name (hs : s.Sound) (hname : Disk.FitName name) :
    s.follow (Path.under Game.outputFolder name) = .ok (s.here ++ [name]) := by
  have hfile : s.disk.files.has s.here = false := by
    refine Bool.eq_false_iff.2 fun hhas => ?_
    have hapart := hs.disk.apart _ (Table.has_iff.1 hhas)
    rw [hs.folder] at hapart
    cases hapart
  rw [follow_under hname.1, follow_outputFolder]
  show s.disk.walk s.here [name] = _
  rw [Disk.walk, hfile, hs.folder, if_neg Bool.false_ne_true, if_neg (by simp), if_neg (by simpa using hname.1.ne_up),
    if_neg (Nat.not_lt_of_le hname.2), Disk.walk]

/-- A search sees the files that lie in the working folder. -/
theorem Sound.mem_names_iff (hs : s.Sound) :
    name ∈ (Game.Container.folder Game.outputFolder).names s ↔ s.HasFile name := by
  rw [Game.Container.names, List.mem_filter]
  constructor
  · rintro ⟨hlisted, hfile⟩
    have hfit := hs.fitName hlisted
    rw [hs.listing_outputFolder, Disk.mem_names_iff, List.mem_append] at hlisted
    refine hlisted.resolve_left fun hfolder => ?_
    have hleads : s.leadsToFolder (Path.under Game.outputFolder name) = true := by
      rw [leadsToFolder, hs.follow_name hfit]
      show s.disk.isFolder (s.here ++ [name]) = true
      simp [Disk.isFolder, hfolder]
    rw [hleads] at hfile
    cases hfile
  · intro hfile
    have hlisted : name ∈ s.listing Game.outputFolder := by
      rw [hs.listing_outputFolder, Disk.mem_names_iff]
      exact List.mem_append_right _ hfile
    refine ⟨hlisted, ?_⟩
    rw [leadsToFolder, hs.follow_name (hs.fitName hlisted)]
    show (!s.disk.isFolder (s.here ++ [name])) = true
    rw [hs.disk.apart _ hfile]
    rfl

/-- A file that can be opened as an archive lies in the working folder. -/
theorem Sound.hasFile_of_archiveIn (hs : s.Sound) (hlisted : name ∈ s.listing Game.outputFolder) {a : Archive}
    (h : s.archiveIn Game.outputFolder name = .ok a) : s.HasFile name := by
  obtain ⟨data, hdata, -⟩ := bind_eq_ok.1 h
  rw [bytesAt, hs.follow_name (hs.fitName hlisted)] at hdata
  obtain ⟨place, hplace, hdata⟩ := bind_eq_ok.1 hdata
  cases hplace
  obtain ⟨content, hread, -⟩ := bind_eq_ok.1 hdata
  rw [Disk.read] at hread
  split at hread
  · cases hread
  · cases hget : s.disk.files.get? (s.here ++ [name]) with
    | none =>
      rw [hget] at hread
      cases hread
    | some content => exact List.mem_map_of_mem (Table.mem_of_get? hget)

end Session

end AdventureKit
