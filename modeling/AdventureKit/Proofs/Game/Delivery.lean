import AdventureKit.Proofs.Archive.ReadBack
import AdventureKit.Proofs.Game.FirstEntry
import AdventureKit.Proofs.Game.Patch

/-!
# Where patches arrive

The name of a patch is a pattern for the search, but the patch is delivered under that name and not under the name of
the entry that was found.  So it arrives if it has the very name of the entry (`Game.patch_reaches_entry`); a name in
other letters finds the entry of an archive all the same, and the patch becomes a new file beside it
(`Game.patch_misses_entry`).
-/

namespace AdventureKit

/-! ## Gathered patches -/

namespace Patching

variable {p q : Patching} {name file : String} {data : Bytes}

/-- Patches without new names: each is kept under its name, once. -/
structure Plain (p : Patching) : Prop where
  same : ∀ item ∈ p.items, item.1.2 = item.1.1
  nodup : p.items.keys.Nodup

theorem Plain.add (hp : p.Plain) (h : p.add name data = .ok q) : q.Plain := by
  rcases addAs_cases h with rfl | rfl
  · exact hp
  · refine ⟨fun item hitem => ?_, Table.nodup_keys_put hp.nodup _ _⟩
    rcases Table.mem_put hitem with rfl | hold
    · rfl
    · exact hp.same item hold

theorem Plain.addAll {patches : List (String × Bytes)} (hp : p.Plain)
    (h : patches.foldlM (fun p patch => p.add patch.1 patch.2) p = .ok q) : q.Plain := by
  induction patches generalizing p with
  | nil =>
    cases h
    exact hp
  | cons patch patches ih =>
    obtain ⟨next, hadd, h⟩ := bind_eq_ok.1 h
    exact ih (hp.add hadd) h

theorem Plain.nodup_names (hp : p.Plain) : (p.items.map (·.1.2)).Nodup := by
  have hkeys := hp.nodup
  rw [Table.keys, List.Nodup, List.pairwise_map] at hkeys
  rw [List.Nodup, List.pairwise_map]
  refine hkeys.imp_of_mem fun ha hb hne heq => hne (Prod.ext ?_ heq)
  rw [← hp.same _ ha, ← hp.same _ hb, heq]

theorem Plain.file?_of_mem (hp : p.Plain) {item : (String × String) × Bytes} (h : item ∈ p.items) :
    p.file? item.1.1 = some item.2 := by
  have hsame : (item.1.1, item.1.1) = item.1 := Prod.ext rfl (hp.same item h).symm
  rw [file?, hsame]
  exact Table.get?_of_mem hp.nodup h

/-- The patch of a file that was gathered for an archive. -/
def gathered (archives : Table String (Table String Bytes)) (file name : String) : Option Bytes :=
  (archives.get? file).bind (Table.get? · name)

variable {archives : Table String (Table String Bytes)}

theorem gathered_put_self (archives : Table String (Table String Bytes)) (file name : String) (data : Bytes) :
    gathered (archives.put file (((archives.get? file).getD []).put name data)) file name = some data := by
  rw [gathered, Table.get?_put_self, Option.bind_some, Table.get?_put_self]

theorem gathered_put_of_ne {file' name' : String} (h : (file', name') ≠ (file, name)) :
    gathered (archives.put file (((archives.get? file).getD []).put name data)) file' name' =
      gathered archives file' name' := by
  unfold gathered
  by_cases hfile : file' = file
  · subst hfile
    have hname : name' ≠ name := by
      rintro rfl
      exact h rfl
    rw [Table.get?_put_self, Option.bind_some, Table.get?_put_of_ne _ hname]
    cases archives.get? file' with
    | none => rfl
    | some patches => rfl
  · rw [Table.get?_put_of_ne _ hfile]

end Patching

namespace Game

open Patching (gathered)
open Session (Steady)

variable {game : Game} {p : Patching} {target : String} {s u v w : Session}
  {items : List ((String × String) × Bytes)} {archives result : Table String (Table String Bytes)}

/-- The archive that a name is found in. -/
def archiveOf (game : Game) (s : Session) (name : String) : Option String :=
  ((game.first? name).run.run s).1.toOption.join.bind Entry.archive?

theorem archiveOf_eq {name : String} {e : Entry} (h : ((game.first? name).run.run s).1 = .ok (some e)) :
    game.archiveOf s name = e.archive? := by
  rw [archiveOf, h]
  rfl

theorem exists_first?_of_archiveOf {name file : String} (h : game.archiveOf s name = some file) :
    ∃ e, ((game.first? name).run.run s).1 = .ok (some e) ∧ e.archive? = some file := by
  unfold archiveOf at h
  rcases hfirst : ((game.first? name).run.run s).1 with e | found
  · rw [hfirst] at h
    cases h
  · rw [hfirst] at h
    cases found with
    | none => cases h
    | some e => exact ⟨e, rfl, h⟩

/-- Gathers a patch for the archive that its name is found in. -/
def gather (game : Game) (s : Session) (archives : Table String (Table String Bytes))
    (item : (String × String) × Bytes) : Table String (Table String Bytes) :=
  (game.archiveOf s item.1.1).elim archives fun file =>
    archives.put file (((archives.get? file).getD []).put item.1.2 item.2)

theorem gather_of_none {item : (String × String) × Bytes} (h : game.archiveOf s item.1.1 = none) :
    game.gather s archives item = archives := by
  rw [gather, h, Option.elim_none]

theorem gather_of_some {item : (String × String) × Bytes} {file : String}
    (h : game.archiveOf s item.1.1 = some file) :
    game.gather s archives item = archives.put file (((archives.get? file).getD []).put item.1.2 item.2) := by
  rw [gather, h, Option.elim_some]

theorem nodup_keys_foldl_gather (items : List ((String × String) × Bytes)) (h : archives.keys.Nodup) :
    (items.foldl (game.gather s) archives).keys.Nodup := by
  induction items generalizing archives with
  | nil => exact h
  | cons item items ih =>
    refine ih ?_
    cases hfile : game.archiveOf s item.1.1 with
    | none =>
      rw [gather_of_none hfile]
      exact h
    | some file =>
      rw [gather_of_some hfile]
      exact Table.nodup_keys_put h _ _

/-- The archives that patches are gathered for are those in which names are found. -/
theorem mem_keys_foldl_gather {file : String} (h : file ∈ (items.foldl (game.gather s) archives).keys) :
    file ∈ archives.keys ∨ ∃ item ∈ items, game.archiveOf s item.1.1 = some file := by
  induction items generalizing archives with
  | nil => exact .inl h
  | cons item items ih =>
    rcases ih h with hnow | ⟨later, hlater, hfile⟩
    · cases hfile : game.archiveOf s item.1.1 with
      | none =>
        rw [gather_of_none hfile] at hnow
        exact .inl hnow
      | some file' =>
        rw [gather_of_some hfile, Table.mem_keys_put] at hnow
        rcases hnow with rfl | hold
        · exact .inr ⟨item, List.mem_cons_self, hfile⟩
        · exact .inl hold
    · exact .inr ⟨later, List.mem_cons_of_mem _ hlater, hfile⟩

theorem gathered_foldl_of_notMem {file name : String} (h : name ∉ items.map (·.1.2)) :
    gathered (items.foldl (game.gather s) archives) file name = gathered archives file name := by
  induction items generalizing archives with
  | nil => rfl
  | cons item items ih =>
    rw [List.map_cons, List.mem_cons, not_or] at h
    rw [List.foldl_cons, ih h.2]
    cases hfile : game.archiveOf s item.1.1 with
    | none => rw [gather_of_none hfile]
    | some file' =>
      rw [gather_of_some hfile]
      refine Patching.gathered_put_of_ne fun heq => h.1 ?_
      exact (Prod.mk.inj heq).2

/-- What is gathered for an archive comes from a patch whose name is found in it. -/
theorem mem_of_gathered_foldl {file name : String} {data : Bytes}
    (h : gathered (items.foldl (game.gather s) archives) file name = some data) :
    gathered archives file name = some data ∨
      ∃ item ∈ items, item.1.2 = name ∧ item.2 = data ∧ game.archiveOf s item.1.1 = some file := by
  induction items generalizing archives with
  | nil => exact .inl h
  | cons item items ih =>
    rcases ih h with hnow | ⟨later, hlater, hrest⟩
    · cases hfile : game.archiveOf s item.1.1 with
      | none =>
        rw [gather_of_none hfile] at hnow
        exact .inl hnow
      | some file' =>
        rw [gather_of_some hfile] at hnow
        by_cases heq : (file, name) = (file', item.1.2)
        · obtain ⟨rfl, rfl⟩ := Prod.mk.inj heq
          rw [Patching.gathered_put_self] at hnow
          exact .inr ⟨item, List.mem_cons_self, rfl, Option.some.inj hnow, hfile⟩
        · rw [Patching.gathered_put_of_ne heq] at hnow
          exact .inl hnow
    · exact .inr ⟨later, List.mem_cons_of_mem _ hlater, hrest⟩

/-- A patch is gathered for the archive that its name is found in. -/
theorem gathered_foldl_of_mem (hnodup : (items.map (·.1.2)).Nodup) {item : (String × String) × Bytes}
    (hitem : item ∈ items) {file : String} (hfile : game.archiveOf s item.1.1 = some file) :
    gathered (items.foldl (game.gather s) archives) file item.1.2 = some item.2 := by
  induction items generalizing archives with
  | nil => cases hitem
  | cons first items ih =>
    obtain ⟨hfresh, hnodup⟩ := List.nodup_cons.1 hnodup
    rcases List.mem_cons.1 hitem with rfl | hitem
    · rw [List.foldl_cons, gathered_foldl_of_notMem hfresh, gather_of_some hfile, Patching.gathered_put_self]
    · exact ih hnodup hitem

/-! ## One patch after the other -/

/-- A patch that is delivered makes the file of its name, or is gathered for an archive. -/
theorem rebuildLoose_cons {name newName : String} {data : Bytes}
    (h : (game.rebuildLoose target (((name, newName), data) :: items) archives).run.run u = (.ok result, v)) :
    ∃ e, (game.first? name).run.run u = (.ok (some e), u) ∧
      ((e.archive? = none ∧ ∃ w, (Work.writeData (Path.under target newName) data).run.run u = (.ok (), w) ∧
          (game.rebuildLoose target items archives).run.run w = (.ok result, v)) ∨
        ∃ file, e.archive? = some file ∧
          (game.rebuildLoose target items (archives.put file (((archives.get? file).getD []).put newName data))).run.run
            u = (.ok result, v)) := by
  unfold rebuildLoose at h
  obtain ⟨found, hfirst, h⟩ := (game.still_first? name).run_bind_eq_ok h
  cases found with
  | none => cases h
  | some e =>
    refine ⟨e, hfirst, ?_⟩
    dsimp only at h
    cases harchive : e.archive? with
    | none =>
      rw [harchive] at h
      obtain ⟨_, w, hwrite, h⟩ := run_bind_eq_ok h
      exact .inl ⟨rfl, w, hwrite, h⟩
    | some file =>
      rw [harchive] at h
      exact .inr ⟨file, rfl, h⟩

theorem rebuildArchives_cons {file : String} {patches : Table String Bytes}
    {rest : List (String × Table String Bytes)}
    (h : (game.rebuildArchives target ((file, patches) :: rest)).run.run u = (.ok (), v)) :
    ∃ e a data left w, (game.first? file).run.run u = (.ok (some e), u) ∧ e.openArchive.run.run u = (.ok a, u) ∧
      Archive.rebuild a u.now patches false = .ok (data, left) ∧
      (Work.writeData (Path.under target e.name) data).run.run u = (.ok (), w) ∧
      (game.rebuildArchives target rest).run.run w = (.ok (), v) := by
  unfold rebuildArchives at h
  obtain ⟨found, hfirst, h⟩ := (game.still_first? file).run_bind_eq_ok h
  cases found with
  | none => cases h
  | some e =>
    obtain ⟨a, hopen, h⟩ := e.still_openArchive.run_bind_eq_ok h
    rw [run_bind_of_ok (run_get u)] at h
    obtain ⟨⟨data, left⟩, hrebuild, h⟩ := Work.run_ofExcept_bind_eq_ok h
    obtain ⟨_, w, hwrite, h⟩ := run_bind_eq_ok h
    exact ⟨e, a, data, left, w, hfirst, hopen, hrebuild, hwrite, h⟩

/-! ## Names that reach their entry -/

/-- An archive that is rebuilt: the name of a patch is found in it. -/
def Rebuilt (game : Game) (p : Patching) (s : Session) (file : String) : Prop :=
  ∃ name, p.file? name ≠ none ∧ game.archiveOf s name = some file

/-- A file can be put into the target folder: where it is new to a search, nothing else that is looked for matches it. -/
def Settled (game : Game) (p : Patching) (target : String) (s : Session) (file : String) : Prop :=
  ∀ folder ∈ game.folders, s.follow folder = s.follow target → file ∈ s.listing folder ∨
    ∀ other, p.file? other ≠ none ∨ game.Rebuilt p s other → other ≠ file → Pattern.acceptsLetters other file = false

/-- When a patch reaches the entry that its name finds. -/
structure Reaches (game : Game) (p : Patching) (target : String) (s : Session) (name : String) (e : Entry) : Prop where
  /-- The entry has the very name of the patch. -/
  named : e.name = name
  /-- The archive of the entry is the first entry of its own name, and it is not patched as a whole. -/
  archive : ∀ file, e.archive? = some file →
    ((game.first? file).run.run s).1 = .ok (some (.loose game.base file)) ∧ p.file? file = none
  /-- The file that is written does not hide what is looked for. -/
  settled : game.Settled p target s (e.archive?.getD name)
  /-- A loose file that is written is not an archive that is searched. -/
  apart : e.archive? = none → s.follow game.base = s.follow target →
    ∀ pattern ∈ archivePatterns, Pattern.acceptsLetters pattern name = false

variable {name file : String} {e : Entry} {data : Bytes}

theorem Found.eq_loose (h : game.Found s e) (hloose : e.archive? = none) :
    ∃ folder ∈ game.folders, e = .loose folder e.name ∧ e.name ∈ s.listing folder := by
  cases h with
  | @loose folder name hfolder hname => exact ⟨folder, hfolder, rfl, hname⟩
  | stored _ _ _ => cases hloose

theorem Found.eq_stored (h : game.Found s e) (hstored : e.archive? = some file) :
    ∃ a, e = .stored a file e.name ∧ game.HasArchive s file ∧
      s.bytesAt (Path.under game.base file) >>= Archive.ofBytes = .ok a ∧ e.name ∈ a.names := by
  cases h with
  | loose _ _ => cases hstored
  | @stored a file' name hfile hopen hname =>
    cases hstored
    exact ⟨a, rfl, hfile, hopen, hname⟩

theorem isName_of_mem_listing {folder : String} (hnamed : s.disk.Named) (h : name ∈ s.listing folder) :
    Disk.IsName name := by
  obtain ⟨q, -, -, hmem⟩ := Session.mem_listing h
  exact hnamed.isName hmem

/-- What is looked for while loose files are written: the names of patches to come and of archives in the folders for
loose files, and archives in the folder of the game. -/
def LooseScope (game : Game) (p : Patching) (s : Session) (items : List ((String × String) × Bytes))
    (folder pattern : String) : Prop :=
  folder ∈ game.folders ∧ (pattern ∈ items.map (·.1.2) ∨ game.Rebuilt p s pattern) ∨
    folder = game.base ∧ pattern ∈ archivePatterns

/-- While loose files are written, what is looked for is found as at the beginning. -/
structure Delivering (game : Game) (p : Patching) (s : Session) (items : List ((String × String) × Bytes))
    (u : Session) : Prop where
  steady : Steady (game.LooseScope p s items) s u
  archives : game.SameArchives s u

theorem Delivering.later {item : (String × String) × Bytes} (h : game.Delivering p s (item :: items) u) :
    game.Delivering p s items u where
  steady := h.steady.mono fun _ _ hin =>
    hin.imp_left fun hloose => ⟨hloose.1, hloose.2.imp_left (List.mem_cons_of_mem _)⟩
  archives := h.archives

/-- A step of the delivery finds what was there at the beginning. -/
theorem Delivering.first? (h : game.Delivering p s items u) (hname : name ∈ items.map (·.1.2))
    (hfirst : (game.first? name).run.run u = (.ok (some e), u)) :
    ((game.first? name).run.run s).1 = .ok (some e) := by
  obtain ⟨r, hs, hu, -⟩ := agree_first? h.steady (fun folder hfolder => .inl ⟨hfolder, .inl hname⟩)
    (fun pattern hpattern => .inr ⟨rfl, hpattern⟩) h.archives
  rw [hu] at hfirst
  obtain rfl : r = .ok (some e) := (Prod.mk.inj hfirst).1
  rw [hs]

variable {scope : String → String → Prop}

/-- Writing a loose file leaves the archives as they are. -/
theorem SameArchives.write (harchives : game.SameArchives s u)
    (hsteady : Steady scope s u) (hnamed : s.disk.Named) (hname : Disk.IsName name)
    (hapart : s.follow game.base = s.follow target →
      ∀ pattern ∈ archivePatterns, Pattern.acceptsLetters pattern name = false)
    (h : (Work.writeData (Path.under target name) data).run.run u = (.ok (), w)) : game.SameArchives s w := by
  rintro file ⟨hmem, pattern, hpattern, haccepts⟩
  rw [← harchives file ⟨hmem, pattern, hpattern, haccepts⟩]
  have hfile := isName_of_mem_listing hnamed hmem
  have hthere := hsteady.follow_ne_noFile (Session.follow_ne_noFile hfile hmem)
  refine Session.bytesAt_under_of_write hname hfile h hthere ?_
  rintro hsame rfl
  obtain ⟨place, -, hfollow, -, -⟩ := Work.run_write_eq_ok h
  obtain ⟨q, htarget, -, -⟩ := Session.follow_under_eq_ok hname hfollow
  have hbase : s.follow game.base = s.follow target := by
    rw [hsteady.follow_iff.1 htarget, hsteady.follow_iff.1 (hsame.trans htarget)]
  rw [hapart hbase pattern hpattern] at haccepts
  cases haccepts

theorem Rebuilt.hasArchive (h : game.Rebuilt p s file) : game.HasArchive s file := by
  obtain ⟨name, -, hfile⟩ := h
  obtain ⟨e, hfirst, he⟩ := exists_first?_of_archiveOf hfile
  obtain ⟨a, -, hhas, -, -⟩ := (found_of_first? hfirst).eq_stored he
  exact hhas

section

variable (hnamed : s.disk.Named)
  (hreach : ∀ name data e, p.file? name = some data → ((game.first? name).run.run s).1 = .ok (some e) →
    game.Reaches p target s name e)

include hreach

theorem exists_reaches_of_rebuilt (h : game.Rebuilt p s file) :
    ∃ name e, ((game.first? name).run.run s).1 = .ok (some e) ∧ e.archive? = some file ∧
      game.Reaches p target s name e := by
  obtain ⟨name, hname, hfile⟩ := h
  obtain ⟨data, hdata⟩ := Option.ne_none_iff_exists'.1 hname
  obtain ⟨e, hfirst, he⟩ := exists_first?_of_archiveOf hfile
  exact ⟨name, e, hfirst, he, hreach name data e hdata hfirst⟩

/-- An archive that is rebuilt is not patched as a whole. -/
theorem ne_of_rebuilt (h : game.Rebuilt p s file) (hdata : p.file? name = some data) : file ≠ name := by
  rintro rfl
  obtain ⟨_, e, -, he, hr⟩ := exists_reaches_of_rebuilt hreach h
  rw [(hr.archive file he).2] at hdata
  cases hdata

include hnamed

/-! ## Loose files -/

/-- A loose file that is written does not hide what is looked for later. -/
theorem Delivering.write (h : game.Delivering p s items u)
    (hitems : ∀ item ∈ items, item.1.2 = item.1.1 ∧ p.file? item.1.1 = some item.2)
    (hfresh : name ∉ items.map (·.1.2)) (hdata : p.file? name = some data)
    (hfirst : ((game.first? name).run.run s).1 = .ok (some e)) (hloose : e.archive? = none)
    (hwrite : (Work.writeData (Path.under target name) data).run.run u = (.ok (), w)) :
    Disk.IsName name ∧ game.Delivering p s items w := by
  have hr := hreach name data e hdata hfirst
  obtain ⟨folder, -, -, hlisted⟩ := (found_of_first? hfirst).eq_loose hloose
  rw [hr.named] at hlisted
  have hname := isName_of_mem_listing hnamed hlisted
  have hsettled := hr.settled
  rw [hloose, Option.getD_none] at hsettled
  refine ⟨hname, h.steady.write hname hwrite ?_, h.archives.write h.steady hnamed hname (hr.apart hloose) hwrite⟩
  rintro folder pattern (⟨hfolder, hsought⟩ | ⟨rfl, hpattern⟩) hsame
  · refine (hsettled folder hfolder hsame).imp_right fun hother => hother pattern ?_ ?_
    · refine hsought.imp_left fun hmem => ?_
      obtain ⟨item, hitem, rfl⟩ := List.mem_map.1 hmem
      rw [(hitems item hitem).1, (hitems item hitem).2]
      exact Option.some_ne_none _
    · rintro rfl
      exact hsought.elim hfresh fun hrebuilt => ne_of_rebuilt hreach hrebuilt hdata rfl
  · exact .inr (hr.apart hloose hsame pattern hpattern)

theorem rebuildLoose_delivers (hitems : ∀ item ∈ items, item.1.2 = item.1.1 ∧ p.file? item.1.1 = some item.2)
    (hnodup : (items.map (·.1.2)).Nodup) (hdelivering : game.Delivering p s items u)
    (h : (game.rebuildLoose target items archives).run.run u = (.ok result, v)) :
    result = items.foldl (game.gather s) archives ∧ game.Delivering p s [] v ∧
      (∀ item ∈ items, ∃ e, ((game.first? item.1.1).run.run s).1 = .ok (some e) ∧
        (e.archive? = none → v.bytesAt (Path.under target item.1.2) = .ok item.2)) ∧
      ∀ name data, Disk.IsName name → name ∉ items.map (·.1.2) → u.bytesAt (Path.under target name) = .ok data →
        v.bytesAt (Path.under target name) = .ok data := by
  induction items generalizing u archives with
  | nil =>
    cases h
    exact ⟨rfl, hdelivering, nofun, fun _ _ _ _ hdata => hdata⟩
  | cons item items ih =>
    obtain ⟨⟨name, newName⟩, data⟩ := item
    obtain ⟨⟨hnew, hdata⟩, hlater⟩ := List.forall_mem_cons.1 hitems
    obtain rfl : newName = name := hnew
    obtain ⟨hfresh, hnodup⟩ := List.nodup_cons.1 hnodup
    obtain ⟨e, hfirst, hnext⟩ := rebuildLoose_cons h
    have hfirst := hdelivering.first? List.mem_cons_self hfirst
    rcases hnext with ⟨hloose, w, hwrite, h⟩ | ⟨file, hstored, h⟩
    · obtain ⟨hname, hw⟩ := hdelivering.later.write hnamed hreach hlater hfresh hdata hfirst hloose hwrite
      obtain ⟨hresult, hv, hrest, hkept⟩ := ih hlater hnodup hw h
      have hgather : game.gather s archives ((newName, newName), data) = archives :=
        gather_of_none ((archiveOf_eq hfirst).trans hloose)
      refine ⟨?_, hv, ?_, ?_⟩
      · rw [hresult, List.foldl_cons, hgather]
      · refine List.forall_mem_cons.2 ⟨⟨e, hfirst, fun _ => ?_⟩, hrest⟩
        exact hkept _ _ hname hfresh (Session.bytesAt_of_write hwrite)
      · intro other bytes hother hnot hbytes
        rw [List.map_cons, List.mem_cons, not_or] at hnot
        exact hkept other bytes hother hnot.2 (Session.bytesAt_of_write_under hname hother hwrite hnot.1 hbytes)
    · obtain ⟨hresult, hv, hrest, hkept⟩ := ih hlater hnodup hdelivering.later h
      have hgather : game.gather s archives ((newName, newName), data) = _ :=
        gather_of_some ((archiveOf_eq hfirst).trans hstored)
      refine ⟨?_, hv, ?_, ?_⟩
      · rw [hresult, List.foldl_cons, hgather]
      · refine List.forall_mem_cons.2 ⟨⟨e, hfirst, fun hloose => ?_⟩, hrest⟩
        rw [hstored] at hloose
        cases hloose
      · intro other bytes hother hnot
        rw [List.map_cons, List.mem_cons, not_or] at hnot
        exact hkept other bytes hother hnot.2

/-! ## Archives -/

/-- While archives are rebuilt, those that are still to be rebuilt are found and read as at the beginning. -/
structure Rebuilding (game : Game) (p : Patching) (s : Session) (files : List String) (u : Session) : Prop where
  rebuilt : ∀ file ∈ files, game.Rebuilt p s file
  bytes : ∀ file ∈ files, u.bytesAt (Path.under game.base file) = s.bytesAt (Path.under game.base file)
  steady : Steady (fun folder pattern => folder ∈ game.folders ∧ pattern ∈ files) s u

/-- A rebuilt archive does not hide what is looked for later. -/
theorem Rebuilding.write {files : List String} (h : game.Rebuilding p s (file :: files) u) (hfresh : file ∉ files)
    (hwrite : (Work.writeData (Path.under target file) data).run.run u = (.ok (), w)) :
    game.Rebuilding p s files w := by
  obtain ⟨hfile, hfiles⟩ := List.forall_mem_cons.1 h.rebuilt
  have hname := isName_of_mem_listing hnamed hfile.hasArchive.1
  obtain ⟨_, e, -, he, hr⟩ := exists_reaches_of_rebuilt hreach hfile
  have hsettled := hr.settled
  rw [he, Option.getD_some] at hsettled
  have hsmaller : Steady (fun folder pattern => folder ∈ game.folders ∧ pattern ∈ files) s u :=
    h.steady.mono fun _ _ hin => ⟨hin.1, List.mem_cons_of_mem file hin.2⟩
  refine ⟨hfiles, fun other hother => ?_, hsmaller.write hname hwrite ?_⟩
  · have hlisted := (hfiles other hother).hasArchive.1
    have hotherName := isName_of_mem_listing hnamed hlisted
    rw [← h.bytes other (List.mem_cons_of_mem _ hother)]
    refine Session.bytesAt_under_of_write hname hotherName hwrite
      (h.steady.follow_ne_noFile (Session.follow_ne_noFile hotherName hlisted)) fun _ heq => hfresh ?_
    rwa [← heq]
  · rintro folder pattern ⟨hfolder, hmem⟩ hsame
    refine (hsettled folder hfolder hsame).imp_right fun hother => hother pattern (.inr (hfiles pattern hmem)) ?_
    rintro rfl
    exact hfresh hmem

theorem rebuildArchives_delivers {list : List (String × Table String Bytes)}
    (hrebuilding : game.Rebuilding p s (list.map Prod.fst) u) (hnodup : (list.map Prod.fst).Nodup)
    (h : (game.rebuildArchives target list).run.run u = (.ok (), v)) :
    (∀ q ∈ list, ∃ a now data left, s.bytesAt (Path.under game.base q.1) >>= Archive.ofBytes = .ok a ∧
      Archive.rebuild a now q.2 false = .ok (data, left) ∧ v.bytesAt (Path.under target q.1) = .ok data) ∧
    ∀ name data, Disk.IsName name → name ∉ list.map Prod.fst → u.bytesAt (Path.under target name) = .ok data →
      v.bytesAt (Path.under target name) = .ok data := by
  induction list generalizing u with
  | nil =>
    cases h
    exact ⟨nofun, fun _ _ _ _ hdata => hdata⟩
  | cons q list ih =>
    obtain ⟨file, patches⟩ := q
    obtain ⟨hfresh, hnodup⟩ := List.nodup_cons.1 hnodup
    have hfile : game.Rebuilt p s file := hrebuilding.rebuilt file List.mem_cons_self
    have hname := isName_of_mem_listing hnamed hfile.hasArchive.1
    obtain ⟨_, e₀, -, he₀, hr⟩ := exists_reaches_of_rebuilt hreach hfile
    obtain ⟨e, a, data, left, w, hfirst, hopen, hrebuild, hwrite, h⟩ := rebuildArchives_cons h
    obtain rfl : e = .loose game.base file := by
      rw [first?_loose_of_steady hrebuilding.steady (fun folder hfolder => ⟨hfolder, List.mem_cons_self⟩)
        (hr.archive file he₀).1] at hfirst
      cases hfirst
      rfl
    rw [run_openArchive, hrebuilding.bytes file List.mem_cons_self] at hopen
    have hopen : s.bytesAt (Path.under game.base file) >>= Archive.ofBytes = .ok a := (Prod.mk.inj hopen).1
    obtain ⟨hrest, hkept⟩ := ih (hrebuilding.write hnamed hreach hfresh hwrite) hnodup h
    refine ⟨List.forall_mem_cons.2 ⟨⟨a, u.now, data, left, hopen, hrebuild, ?_⟩, hrest⟩, ?_⟩
    · exact hkept file data hname hfresh (Session.bytesAt_of_write hwrite)
    · intro other bytes hother hnot hdata
      rw [List.map_cons, List.mem_cons, not_or] at hnot
      exact hkept other bytes hother hnot.2 (Session.bytesAt_of_write_under hname hother hwrite hnot.1 hdata)

end

/-- A patch of a file that an archive has is read back from the rebuilt archive. -/
theorem read_of_rebuild {bytes rebuilt : Bytes} {a : Archive} {now : Archive.Timestamp}
    {patches left : Table String Bytes} (ha : Archive.ofBytes bytes = .ok a) (hv : a.version = .first)
    (hshared : (a.index.map Prod.snd).Nodup) (hchunked : ∀ q ∈ a.index, q.2.compression ≠ Archive.chunked)
    (hmark : ¬ Archive.ShowsMark a.names) (hknown : ∀ name ∈ patches.keys, name ∈ a.names)
    (hdata : patches.get? name = some data)
    (h : Archive.rebuild a now patches false = .ok (rebuilt, left)) :
    ∃ b, Archive.ofBytes rebuilt = .ok b ∧ b.read name = .ok data := by
  obtain ⟨hleft, -, hopened⟩ := Archive.opened_of_rebuild ha hv hchunked
    (fun name hname hnew => absurd (hknown name hname) hnew) h
  have hnone : left.keys = [] := by
    rw [hleft, List.eq_nil_iff_forall_not_mem]
    intro name hname
    obtain ⟨hin, hnew⟩ := Table.mem_keys_without hname
    exact hnew (hknown name hin)
  rw [hnone, List.append_nil] at hopened
  obtain ⟨b, hb, -, -, -, hread⟩ := hopened hmark
  have hmem : name ∈ a.names := hknown name (List.mem_map_of_mem (Table.mem_of_get? hdata))
  obtain ⟨⟨_, entry⟩, hentry, rfl⟩ := List.mem_map.1 hmem
  obtain ⟨first, content, hfind, hwanted, hcontent⟩ := hread _ hentry
  rw [Archive.eq_of_find?_entry hshared hentry hfind, Archive.wanted, hdata] at hwanted
  cases hwanted
  exact ⟨b, hb, hcontent⟩

/-! ## All patches -/

section

variable {s₀ t : Session} (hplain : p.Plain)
  (hreach : ∀ name data e, p.file? name = some data → ((game.first? name).run.run s).1 = .ok (some e) →
    game.Reaches p target s name e)

include hplain

theorem rebuilt_of_mem_keys (h : file ∈ (p.items.foldl (game.gather s) []).keys) : game.Rebuilt p s file := by
  obtain ⟨item, hitem, hfile⟩ := (mem_keys_foldl_gather h).resolve_left List.not_mem_nil
  refine ⟨item.1.1, ?_, hfile⟩
  rw [hplain.file?_of_mem hitem]
  exact Option.some_ne_none _

include hreach

/-- What is gathered for an archive are patches of files that it has. -/
theorem mem_names_of_gathered {a : Archive} (hopen : s.bytesAt (Path.under game.base file) >>= Archive.ofBytes = .ok a)
    {patches : Table String Bytes} (hpatches : (p.items.foldl (game.gather s) []).get? file = some patches)
    (h : name ∈ patches.keys) : name ∈ a.names := by
  obtain ⟨data, hdata⟩ := Table.exists_get?_of_mem_keys h
  have hgathered : gathered (p.items.foldl (game.gather s) []) file name = some data := by
    rw [gathered, hpatches, Option.bind_some, hdata]
  obtain ⟨item, hitem, rfl, -, hfile⟩ := (mem_of_gathered_foldl hgathered).resolve_left (by simp [gathered, Table.get?])
  obtain ⟨e, hfirst, he⟩ := exists_first?_of_archiveOf hfile
  obtain ⟨a', -, -, hopen', hname⟩ := (found_of_first? hfirst).eq_stored he
  rw [hopen] at hopen'
  cases hopen'
  rwa [(hreach _ _ e (hplain.file?_of_mem hitem) hfirst).named, ← hplain.same item hitem] at hname

/-- Patches of loose files are written, and every archive with patches is rebuilt. -/
theorem rebuild_delivers (hmake : (Work.makeFolders target).run.run s₀ = (.ok (), s)) (hnamed : s.disk.Named)
    (h : (game.rebuild p target).run.run s₀ = (.ok (), t)) :
    (∀ item ∈ p.items, ∃ e, ((game.first? item.1.1).run.run s).1 = .ok (some e) ∧
      (e.archive? = none → t.bytesAt (Path.under target item.1.2) = .ok item.2)) ∧
    ∀ q ∈ p.items.foldl (game.gather s) [], ∃ a now data left,
      s.bytesAt (Path.under game.base q.1) >>= Archive.ofBytes = .ok a ∧
      Archive.rebuild a now q.2 false = .ok (data, left) ∧ t.bytesAt (Path.under target q.1) = .ok data := by
  unfold rebuild at h
  rw [run_bind_of_ok hmake] at h
  obtain ⟨archives, v, hloose, h⟩ := run_bind_eq_ok h
  obtain ⟨rfl, hdelivered, hitems, -⟩ := rebuildLoose_delivers hnamed hreach
    (fun item hitem => ⟨hplain.same item hitem, hplain.file?_of_mem hitem⟩) hplain.nodup_names
    ⟨Steady.refl _ s, fun _ _ => rfl⟩ hloose
  have hrebuilding : game.Rebuilding p s (p.items.foldl (game.gather s) []).keys v :=
    ⟨fun _ hfile => rebuilt_of_mem_keys hplain hfile,
      fun file hfile => hdelivered.archives file (rebuilt_of_mem_keys hplain hfile).hasArchive,
      hdelivered.steady.mono fun _ _ hin => .inl ⟨hin.1, .inr (rebuilt_of_mem_keys hplain hin.2)⟩⟩
  obtain ⟨hdone, hkept⟩ := rebuildArchives_delivers hnamed hreach hrebuilding
    (nodup_keys_foldl_gather p.items List.nodup_nil) h
  refine ⟨fun item hitem => ?_, hdone⟩
  obtain ⟨e, hfirst, hbytes⟩ := hitems item hitem
  refine ⟨e, hfirst, fun hnone => ?_⟩
  obtain ⟨folder, -, -, hlisted⟩ := (found_of_first? hfirst).eq_loose hnone
  rw [(hreach _ _ e (hplain.file?_of_mem hitem) hfirst).named, ← hplain.same item hitem] at hlisted
  refine hkept _ _ (isName_of_mem_listing hnamed hlisted) (fun hmem => ?_) (hbytes hnone)
  exact ne_of_rebuilt hreach (rebuilt_of_mem_keys hplain hmem) (hplain.file?_of_mem hitem) (hplain.same item hitem)

end

section

variable {s₀ t : Session} {allowed restricted : List String} {patches : List (String × Bytes)}

/-- **A patch reaches the entry that it was made for**, if it has the very name of the entry: a loose file is written
under its name, and the rebuilt archive gives the patch for the name of the entry.  The archives that are rebuilt must
be the first entries of their own names and not patched themselves, and a file that is written into a folder that is
searched must not come before anything else that is looked for. -/
theorem patch_reaches_entry
    (hp : patches.foldlM (fun p patch => p.add patch.1 patch.2)
      ({ allowed := allowed, restricted := restricted } : Patching) = .ok p)
    (hmake : (Work.makeFolders target).run.run s₀ = (.ok (), s)) (hnamed : s.disk.Named)
    (hreach : ∀ name data e, p.file? name = some data → ((game.first? name).run.run s).1 = .ok (some e) →
      game.Reaches p target s name e)
    (h : (game.rebuild p target).run.run s₀ = (.ok (), t)) (hdata : p.file? name = some data) :
    ∃ e, ((game.first? name).run.run s).1 = .ok (some e) ∧
      (e.archive? = none → ((Work.readData (Path.under target e.name)).run.run t).1 = .ok data) ∧
      ∀ a file, e = .stored a file e.name → a.version = .first → (a.index.map Prod.snd).Nodup →
        (∀ q ∈ a.index, q.2.compression ≠ Archive.chunked) → ¬ Archive.ShowsMark a.names →
        ∃ b, ((Entry.openArchive (.loose target file)).run.run t).1 = .ok b ∧ b.read e.name = .ok data := by
  have hempty : ({ allowed := allowed, restricted := restricted } : Patching).Plain :=
    ⟨fun item hitem => absurd hitem List.not_mem_nil, List.nodup_nil⟩
  have hplain : p.Plain := hempty.addAll hp
  have hitem : ((name, name), data) ∈ p.items := Table.mem_of_get? hdata
  obtain ⟨hitems, hrebuilt⟩ := rebuild_delivers hplain hreach hmake hnamed h
  obtain ⟨e, hfirst, hbytes⟩ := hitems _ hitem
  have hname : e.name = name := (hreach name data e hdata hfirst).named
  refine ⟨e, hfirst, fun hloose => ?_, ?_⟩
  · rw [hname, Session.run_readData_eq]
    exact hbytes hloose
  · intro a file he hversion hshared hchunked hmark
    have hfile : e.archive? = some file := by rw [he, Entry.archive?]
    have hopen : s.bytesAt (Path.under game.base file) >>= Archive.ofBytes = .ok a := by
      obtain ⟨a', he', -, hopen, -⟩ := (found_of_first? hfirst).eq_stored hfile
      rw [he] at he'
      cases he'
      exact hopen
    obtain ⟨patches, hpatches, hpatch⟩ : ∃ patches, (p.items.foldl (game.gather s) []).get? file = some patches ∧
        patches.get? name = some data :=
      Option.bind_eq_some_iff.1
        (gathered_foldl_of_mem hplain.nodup_names hitem ((archiveOf_eq hfirst).trans hfile))
    obtain ⟨a', now, rebuilt, left, hopen', hrebuild, hwritten⟩ := hrebuilt _ (Table.mem_of_get? hpatches)
    rw [hopen] at hopen'
    cases hopen'
    obtain ⟨bytes, -, hbytes⟩ := bind_eq_ok.1 hopen
    obtain ⟨b, hb, hread⟩ := read_of_rebuild hbytes hversion hshared hchunked hmark
      (fun _ => mem_names_of_gathered hplain hreach hopen hpatches) hpatch hrebuild
    refine ⟨b, ?_, by rw [hname, hread]⟩
    rw [run_openArchive, hwritten]
    exact hb

end

/-- A game with an archive in its folder and a loose file in a folder of patches. -/
def moddedGame : Game where
  base := "game"
  patchFolders := some ["/mods"]

/-- The disk with the game and other folders. -/
def moddedSession (more : List Place) : Session :=
  .start ⟨[["game"], ["mods"]] ++ more, [(["mods", "N.TXT"], .data [9]), (["game", "X.STK"], .data Archive.twoFiles)]⟩ []
    ⟨3, 2, 2001, 4, 5, 6⟩

/-- Patches of a file of the archive and of the loose file. -/
def bothPatches : Patching where
  items := [(("B", "B"), [3]), (("N.TXT", "N.TXT"), [4])]

theorem makeFolders_moddedSession :
    (Work.makeFolders "out").run.run (moddedSession []) = (.ok (), moddedSession [["out"]]) :=
  Prod.ext (eq_ok_of_toOption (by decide +kernel)) (by decide +kernel)

theorem settled_moddedSession (p : Patching) (file : String) :
    moddedGame.Settled p "out" (moddedSession [["out"]]) file := by
  have hapart : ∀ folder ∈ moddedGame.folders,
      ((moddedSession [["out"]]).follow folder).toOption ≠ ((moddedSession [["out"]]).follow "out").toOption := by
    decide +kernel
  intro folder hfolder hsame
  exact absurd (congrArg Except.toOption hsame) (hapart folder hfolder)

theorem patch_reaches_entry_both :
    ∃ t b, (moddedGame.rebuild bothPatches "out").run.run (moddedSession []) = (.ok (), t) ∧
      ((Work.readData (Path.under "out" "N.TXT")).run.run t).1 = .ok [4] ∧
      ((Entry.openArchive (.loose "out" "X.STK")).run.run t).1 = .ok b ∧ b.read "B" = .ok [3] := by
  obtain ⟨t, hrun⟩ : ∃ t, (moddedGame.rebuild bothPatches "out").run.run (moddedSession []) = (.ok (), t) :=
    Work.exists_run_of_toOption (by decide +kernel)
  have hstored : ((moddedGame.first? "B").run.run (moddedSession [["out"]])).1 =
      .ok (some (.stored Archive.twoFilesOpened "X.STK" "B")) :=
    eq_ok_of_toOption (by decide +kernel)
  have hloose : ((moddedGame.first? "N.TXT").run.run (moddedSession [["out"]])).1 =
      .ok (some (.loose "/mods" "N.TXT")) :=
    eq_ok_of_toOption (by decide +kernel)
  have harchive : ((moddedGame.first? "X.STK").run.run (moddedSession [["out"]])).1 =
      .ok (some (.loose "game" "X.STK")) :=
    eq_ok_of_toOption (by decide +kernel)
  have hreach : ∀ name data e, bothPatches.file? name = some data →
      ((moddedGame.first? name).run.run (moddedSession [["out"]])).1 = .ok (some e) →
      moddedGame.Reaches bothPatches "out" (moddedSession [["out"]]) name e := by
    intro name data e hdata hfirst
    have hmem := Table.mem_of_get? hdata
    simp only [bothPatches, List.mem_cons, Prod.mk.injEq, List.not_mem_nil, or_false] at hmem
    rcases hmem with ⟨⟨rfl, -⟩, -⟩ | ⟨⟨rfl, -⟩, -⟩
    · rw [hstored] at hfirst
      cases hfirst
      refine ⟨rfl, ?_, settled_moddedSession _ _, nofun⟩
      rintro file ⟨⟩
      exact ⟨harchive, by decide⟩
    · rw [hloose] at hfirst
      cases hfirst
      refine ⟨rfl, nofun, settled_moddedSession _ _, fun _ _ => by decide⟩
  have hadds : [("B", [3]), ("N.TXT", [4])].foldlM (fun p patch => p.add patch.1 patch.2) ({} : Patching) =
      .ok bothPatches := rfl
  have hnamed : (moddedSession [["out"]]).disk.Named := by decide
  obtain ⟨e, hfirst, hwritten, -⟩ := patch_reaches_entry hadds makeFolders_moddedSession hnamed hreach hrun
    (show bothPatches.file? "N.TXT" = some [4] from rfl)
  rw [hloose] at hfirst
  cases hfirst
  obtain ⟨e, hfirst, -, hrebuilt⟩ := patch_reaches_entry hadds makeFolders_moddedSession hnamed hreach hrun
    (show bothPatches.file? "B" = some [3] from rfl)
  rw [hstored] at hfirst
  cases hfirst
  obtain ⟨b, hb, hread⟩ := hrebuilt _ _ rfl rfl (by decide) (by decide) (by decide)
  exact ⟨t, b, hrun, hwritten rfl, hb, hread⟩

/-- An archive with the one file `A.TOT`. -/
def oneScript : Bytes :=
  [1, 0] ++ (Bytes.padTo 13 (Bytes.ofAscii "A.TOT") ++ [1, 0, 0, 0, 24, 0, 0, 0, 0]) ++ [1]

/-- The archive of `oneScript`. -/
def oneScriptOpened : Archive :=
  ⟨oneScript, .first, [("A.TOT", ⟨24, 1, 0, none⟩)]⟩

/-- A game of that archive. -/
def oneScriptGame : Game where
  base := "game"

/-- The disk with the game and other folders. -/
def oneScriptSession (more : List Place) : Session :=
  .start ⟨[["game"]] ++ more, [(["game", "X.STK"], .data oneScript)]⟩ [] ⟨3, 2, 2001, 4, 5, 6⟩

/-- A patch whose name is written in small letters finds the file of an archive, but the rebuilt archive gives the old
content for that file, and the patch for a new file beside it. -/
theorem patch_misses_entry :
    ((oneScriptGame.first? "a.tot").run.run (oneScriptSession [["out"]])).1 =
        .ok (some (.stored oneScriptOpened "X.STK" "A.TOT")) ∧
      ∃ p t b, ({} : Patching).add "a.tot" [2] = .ok p ∧
        (oneScriptGame.rebuild p "out").run.run (oneScriptSession []) = (.ok (), t) ∧
        ((Entry.openArchive (.loose "out" "X.STK")).run.run t).1 = .ok b ∧
        b.read "A.TOT" = .ok [1] ∧ b.read "a.tot" = .ok [2] := by
  refine ⟨eq_ok_of_toOption (by decide +kernel), { items := [(("a.tot", "a.tot"), [2])] }, ?_⟩
  obtain ⟨t, hrun⟩ : ∃ t, (oneScriptGame.rebuild { items := [(("a.tot", "a.tot"), [2])] } "out" >>= fun _ =>
      Entry.openArchive (.loose "out" "X.STK") >>= fun b =>
        Work.ofExcept (b.read "A.TOT" >>= fun old => b.read "a.tot" >>= fun new => pure (old, new))).run.run
          (oneScriptSession []) = (.ok ([1], [2]), t) :=
    Work.exists_run_of_toOption (by decide +kernel)
  obtain ⟨_, t, hrebuild, hrun⟩ := run_bind_eq_ok hrun
  obtain ⟨b, hopen, hrun⟩ := (Entry.still_openArchive _).run_bind_eq_ok hrun
  rw [Work.run_ofExcept] at hrun
  obtain ⟨old, hold, hrest⟩ := bind_eq_ok.1 (Prod.mk.inj hrun).1
  obtain ⟨new, hnew, hpair⟩ := bind_eq_ok.1 hrest
  cases hpair
  exact ⟨t, b, rfl, hrebuild, by rw [hopen], hold, hnew⟩

end Game

end AdventureKit
