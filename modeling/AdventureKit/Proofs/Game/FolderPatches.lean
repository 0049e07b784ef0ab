import AdventureKit.Proofs.Archive.ReadBack
import AdventureKit.Proofs.Game.Overlay

/-!
# A folder in place of a table of patches

A rebuild takes every name of the archive out of its patches once, and then lists what is left.  The files of a folder
answer like the table of their contents as long as no name is asked for twice (`Overlay.Alike.take`), so both rebuilds go
in step from entry to entry (`Archive.rebuild_folder_eq_table`).
-/

namespace AdventureKit

namespace Archive

/-- Storing an entry asks the patches for its name and for nothing else. -/
theorem addEntry_of_take {π ρ : Type} [Patches π] [Patches ρ] {name : String} {p p' : π} {q q' : ρ}
    {patch : Option Bytes} (hp : Patches.take p name = .ok (patch, p')) (hq : Patches.take q name = .ok (patch, q'))
    (a : Archive) (force : Bool) (draft : Draft) (e : Entry) :
    (∃ fault, draft.addEntry a force p name e = .error fault ∧ draft.addEntry a force q name e = .error fault) ∨
      ∃ draft' n, draft.addEntry a force p name e = .ok (draft', p', n) ∧
        draft.addEntry a force q name e = .ok (draft', q', n) := by
  unfold Draft.addEntry
  cases e.content a.data with
  | error fault => exact .inl ⟨fault, rfl, rfl⟩
  | ok old =>
    rw [hp, hq]
    simp only [bind, Except.bind]
    cases storedFor a force e old (patch.getD old) with
    | error fault => exact .inl ⟨fault, rfl, rfl⟩
    | ok stored =>
      cases draft.stored.get? e with
      | some shared => exact .inr ⟨_, _, rfl, rfl⟩
      | none =>
        cases writtenName name e with
        | error fault => exact .inl ⟨fault, rfl, rfl⟩
        | ok written => exact .inr ⟨_, _, rfl, rfl⟩

/-- The patches that are left when the entries have been stored, or when one of them fails.  A patch is taken as soon as
the old content of its entry has been read. -/
def Draft.leftOver {π : Type} [Patches π] (a : Archive) (force : Bool) (draft : Draft) (patches : π) :
    List (String × Entry) → π
  | [] => patches
  | (name, e) :: items =>
    match draft.addEntry a force patches name e with
    | .ok (draft, patches, _) => draft.leftOver a force patches items
    | .error _ =>
      match e.content a.data, Patches.take patches name with
      | .ok _, .ok (_, patches) => patches
      | _, _ => patches

/-- If no entry fails, they are the patches that come out. -/
theorem leftOver_of_addEntries {π : Type} [Patches π] {a : Archive} {force : Bool} {draft draft' : Draft}
    {patches left : π} {last last' : Option (Entry × Nat)} {items : List (String × Entry)}
    (h : draft.addEntries a force patches last items = .ok (draft', left, last')) :
    draft.leftOver a force patches items = left := by
  induction items generalizing draft patches last with
  | nil =>
    cases h
    rfl
  | cons item items ih =>
    obtain ⟨⟨next, patches', n⟩, hentry, hrest⟩ := bind_eq_ok.1 h
    rw [Draft.leftOver, hentry]
    exact ih hrest

end Archive

namespace Overlay

variable {o : Overlay} {t : Table String Bytes} {name : String}

/-- The files of a folder are those of a table, in its order. -/
structure Alike (o : Overlay) (t : Table String Bytes) : Prop where
  keys : o.keys = t.keys
  nodup : t.keys.Nodup
  unset : o.contents = []
  file : ∀ item ∈ t, o.file item.1 = .ok item.2

theorem Alike.get (h : o.Alike t) {content : Bytes} (hitem : (name, content) ∈ t) : o.get name = .ok content := by
  have hkey : name ∈ o.keys := by
    rw [h.keys]
    exact List.mem_map_of_mem hitem
  have hlisted : o.listed.contains name = true := List.contains_iff_mem.2 (mem_keys_iff.1 hkey).1
  have hunset : o.contents.get? name = none := by
    rw [h.unset]
    rfl
  unfold Overlay.get
  rw [hunset]
  dsimp only
  rw [if_pos hlisted]
  exact h.file (name, content) hitem

/-- What is left is listed alike. -/
theorem Alike.items_eq (h : o.Alike t) : Archive.Patches.items o = Archive.Patches.items t := by
  show o.keys.map (fun name => (name, o.get name)) = t.map fun item => (item.1, .ok item.2)
  rw [h.keys, Table.keys, List.map_map]
  refine List.map_congr_left fun item hitem => ?_
  exact Prod.ext rfl (h.get hitem)

theorem Alike.erase (h : o.Alike t) (name : String) : (o.erase name).Alike (t.erase name) := by
  have hsub : (t.erase name).Sublist t := List.filter_sublist
  refine ⟨?_, h.nodup.sublist (hsub.map _), ?_, fun item hitem => h.file item (hsub.subset hitem)⟩
  · have hleft : (o.erase name).keys = o.keys.filter fun other => !(other == name) := by
      show o.listed.filter (fun other => !(name :: o.taken).contains other) = _
      rw [Overlay.keys, List.filter_filter]
      refine List.filter_congr fun other _ => ?_
      rw [List.contains_cons, Bool.not_or]
    rw [hleft, h.keys, Table.keys, Table.erase, Table.keys, List.filter_map]
    rfl
  · show o.contents.erase name = []
    rw [h.unset]
    rfl

/-- A name that was not taken before is taken alike. -/
theorem Alike.take (h : o.Alike t) (hname : name ∉ o.taken) :
    ∃ o', Archive.Patches.take o name = .ok (t.get? name, o') ∧ o'.Alike (t.erase name) ∧
      ∀ other ∈ o'.taken, other = name ∨ other ∈ o.taken := by
  cases hget : t.get? name with
  | some content =>
    refine ⟨o.erase name, ?_, h.erase name, fun other hother => List.mem_cons.1 hother⟩
    show (o.find? name >>= _) = _
    rw [find?_of_get (h.get (Table.mem_of_get? hget))]
    rfl
  | none =>
    have hkey : name ∉ t.keys := Table.get?_eq_none_iff.1 hget
    have hlisted : name ∉ o.listed := fun hlisted => hkey (h.keys ▸ mem_keys_iff.2 ⟨hlisted, hname⟩)
    have hsame : t.erase name = t := by
      refine List.filter_eq_self.2 fun item hitem => ?_
      have hne : item.1 ≠ name := fun heq => hkey (heq ▸ List.mem_map_of_mem hitem)
      simp [hne]
    refine ⟨o, ?_, hsame.symm ▸ h, fun other hother => .inr hother⟩
    have hunknown : o.get name = .error (unknown name) := by
      have hunset : o.contents.get? name = none := by
        rw [h.unset]
        rfl
      simp [Overlay.get, hunset, hlisted]
    show (o.find? name >>= _) = _
    rw [find?, hunknown]
    rfl

/-- The first of several entries takes its name alike, and the names of the others are still to be taken. -/
theorem Alike.take_first (h : o.Alike t) {item : String × Archive.Entry} {items : List (String × Archive.Entry)}
    (hnodup : ((item :: items).map Prod.fst).Nodup) (hfresh : ∀ later ∈ item :: items, later.1 ∉ o.taken) :
    ∃ o', Archive.Patches.take o item.1 = .ok (t.get? item.1, o') ∧ o'.Alike (t.erase item.1) ∧
      (items.map Prod.fst).Nodup ∧ ∀ later ∈ items, later.1 ∉ o'.taken := by
  obtain ⟨hnew, hnodup⟩ := List.nodup_cons.1 hnodup
  obtain ⟨hname, hfresh⟩ := List.forall_mem_cons.1 hfresh
  obtain ⟨o', htake, halike, htaken⟩ := h.take hname
  refine ⟨o', htake, halike, hnodup, fun later hlater hin => ?_⟩
  rcases htaken _ hin with heq | hold
  · exact hnew (heq ▸ List.mem_map_of_mem hlater)
  · exact hfresh later hlater hold

end Overlay

namespace Archive

open Overlay (Alike)

variable {a : Archive} {force : Bool} {o : Overlay} {t : Table String Bytes}

/-- Both ways the same entries are stored, or the same fault ends the rebuild. -/
theorem addEntries_of_alike {draft : Draft} {last : Option (Entry × Nat)} {items : List (String × Entry)}
    (h : o.Alike t) (hnodup : (items.map Prod.fst).Nodup) (hfresh : ∀ item ∈ items, item.1 ∉ o.taken) :
    (∃ fault, draft.addEntries a force o last items = .error fault ∧
        draft.addEntries a force t last items = .error fault) ∨
      ∃ draft' o' t' last', o'.Alike t' ∧ draft.addEntries a force o last items = .ok (draft', o', last') ∧
        draft.addEntries a force t last items = .ok (draft', t', last') := by
  -- along the entries: a name that is still to come was not taken yet
  induction items generalizing draft o t last with
  | nil => exact .inr ⟨draft, o, t, last, h, rfl, rfl⟩
  | cons item items ih =>
    obtain ⟨name, e⟩ := item
    obtain ⟨o', htake, halike, hnodup, hfresh⟩ := h.take_first hnodup hfresh
    have htake' : Patches.take t name = .ok (t.get? name, t.erase name) := rfl
    unfold Draft.addEntries
    rcases addEntry_of_take htake htake' a force draft e with ⟨fault, ho, ht⟩ | ⟨draft', n, ho, ht⟩
    · rw [ho, ht]
      exact .inl ⟨fault, rfl, rfl⟩
    · rw [ho, ht]
      exact ih halike hnodup hfresh

/-- Both ways the same patches are left, also where an entry fails. -/
theorem leftOver_alike {draft : Draft} {items : List (String × Entry)} (h : o.Alike t)
    (hnodup : (items.map Prod.fst).Nodup) (hfresh : ∀ item ∈ items, item.1 ∉ o.taken) :
    (draft.leftOver a force o items).Alike (draft.leftOver a force t items) := by
  induction items generalizing draft o t with
  | nil => exact h
  | cons item items ih =>
    obtain ⟨name, e⟩ := item
    obtain ⟨o', htake, halike, hnodup, hfresh⟩ := h.take_first hnodup hfresh
    have htake' : Patches.take t name = .ok (t.get? name, t.erase name) := rfl
    unfold Draft.leftOver
    rcases addEntry_of_take htake htake' a force draft e with ⟨fault, ho, ht⟩ | ⟨draft', n, ho, ht⟩
    · rw [ho, ht, htake, htake']
      cases e.content a.data with
      | error fault => exact h
      | ok old => exact halike
    · rw [ho, ht]
      exact ih halike hnodup hfresh

/-- The file of a draft and of the patches that are left when all entries are added. -/
def Draft.finish (a : Archive) (now : Timestamp) (draft : Draft) (last : Option (Entry × Nat))
    (items : List (String × Except Fault Bytes)) : Except Fault Bytes := do
  let draft ← draft.addNew a now last items
  match a.version with
  | .first => firstFile draft.index draft.contents
  | .dated => datedFile now draft.index draft.contents

theorem rebuild_of_ok {π : Type} [Patches π] {p left : π} {draft : Draft} {last : Option (Entry × Nat)}
    (h : Draft.addEntries a force ⟨[], [], []⟩ p none a.index = .ok (draft, left, last)) (now : Timestamp) :
    rebuild a now p force = (fun file => (file, left)) <$> draft.finish a now last (Patches.items left) := by
  have hpure : Draft.addEntries a force ⟨[], [], []⟩ p none a.index = pure (draft, left, last) := h
  unfold rebuild Draft.finish
  rw [hpure, pure_bind, map_bind]
  refine bind_congr fun draft' => ?_
  cases a.version with
  | first => exact (map_eq_pure_bind _ _).symm
  | dated => exact (map_eq_pure_bind _ _).symm

theorem rebuild_of_error {π : Type} [Patches π] {p : π} {fault : Fault}
    (h : Draft.addEntries a force ⟨[], [], []⟩ p none a.index = .error fault) (now : Timestamp) :
    rebuild a now p force = .error fault := by
  unfold rebuild
  rw [h]
  rfl

/-- A rebuild that succeeds gives back the patches that are left. -/
theorem left_of_rebuild {π : Type} [Patches π] {p left : π} {now : Timestamp} {file : Bytes}
    (h : rebuild a now p force = .ok (file, left)) : left = Draft.leftOver a force ⟨[], [], []⟩ p a.index := by
  cases hentries : Draft.addEntries a force ⟨[], [], []⟩ p none a.index with
  | error fault =>
    rw [rebuild_of_error hentries] at h
    cases h
  | ok result =>
    obtain ⟨draft, left', last⟩ := result
    rw [rebuild_of_ok hentries] at h
    rw [leftOver_of_addEntries hentries]
    cases hfinish : draft.finish a now last (Patches.items left') with
    | error fault =>
      rw [hfinish] at h
      cases h
    | ok file' =>
      rw [hfinish] at h
      cases h
      rfl

theorem rebuild_of_alike (h : o.Alike t) (hnodup : a.names.Nodup) (hfresh : o.taken = []) (now : Timestamp) :
    (rebuild a now o force).map (fun r => (r.1, r.2.keys)) = (rebuild a now t force).map fun r => (r.1, r.2.keys) := by
  have hstart : ∀ item ∈ a.index, item.1 ∉ o.taken := by simp [hfresh]
  rcases addEntries_of_alike h hnodup hstart with ⟨fault, ho, ht⟩ | ⟨draft, o', t', last, h', ho, ht⟩
  · rw [rebuild_of_error ho, rebuild_of_error ht]
    rfl
  · rw [rebuild_of_ok ho, rebuild_of_ok ht, h'.items_eq]
    cases draft.finish a now last (Patches.items t') with
    | error fault => rfl
    | ok file => exact congrArg (fun keys => Except.ok (file, keys)) h'.keys

section

variable {disk : Disk} {here : Place} {folder : String} {names : List String} {files : Table String Bytes}

theorem alike_ofFolder (hsorted : files.keys.Pairwise (· < ·)) (hnames : ∀ name, name ∈ names ↔ name ∈ files.keys)
    (hfiles : ∀ item ∈ files, (Overlay.ofFolder disk here folder names).file item.1 = .ok item.2) :
    (Overlay.ofFolder disk here folder names).Alike files := by
  have hne : ∀ {x y : String}, x < y → x ≠ y := fun hlt heq => String.lt_irrefl _ (heq ▸ hlt)
  have hnodup : files.keys.Nodup := hsorted.imp hne
  refine ⟨?_, hnodup, rfl, hfiles⟩
  -- both lists of names are sorted and have the same members
  rw [Overlay.keys_ofFolder]
  refine List.Perm.eq_of_pairwise (fun a b _ _ => String.le_antisymm) (Sequence.pairwise_mergeSort _)
    (hsorted.imp fun hlt => String.not_lt.1 (String.lt_asymm hlt)) ?_
  refine (List.perm_ext_iff_of_nodup ?_ hnodup).2 fun name => Overlay.mem_listed_ofFolder.trans (hnames name)
  exact (List.mergeSort_perm _ _).nodup_iff.2 (Sequence.nodup_distinct names)

/-- **A folder of files acts as a table of patches.**  The archive is rebuilt from the files of a folder as it is rebuilt
from the table of their contents in the order of their names: both give the same bytes and leave the same names, or both
fail with the same fault.  They go in step: after any number of entries the drafts agree and the same names are left.
The same names are left at the end, too, also where an entry fails. -/
theorem rebuild_folder_eq_table {data : Bytes} (ha : ofBytes data = .ok a) (hsorted : files.keys.Pairwise (· < ·))
    (hnames : ∀ name, name ∈ names ↔ name ∈ files.keys)
    (hfiles : ∀ item ∈ files, (Overlay.ofFolder disk here folder names).file item.1 = .ok item.2) (now : Timestamp)
    (force : Bool) :
    (rebuild a now (Overlay.ofFolder disk here folder names) force).map (fun r => (r.1, r.2.keys)) =
      (rebuild a now files force).map (fun r => (r.1, r.2.keys)) ∧
    (∀ n, (Draft.addEntries a force ⟨[], [], []⟩ (Overlay.ofFolder disk here folder names) none (a.index.take n)).map
        (fun r => (r.1, r.2.1.keys, r.2.2)) =
      (Draft.addEntries a force ⟨[], [], []⟩ files none (a.index.take n)).map fun r => (r.1, r.2.1.keys, r.2.2)) ∧
    (Draft.leftOver a force ⟨[], [], []⟩ (Overlay.ofFolder disk here folder names) a.index).keys =
      (Draft.leftOver a force ⟨[], [], []⟩ files a.index).keys ∧
    ∀ r, rebuild a now files force = .ok r → r.2 = Draft.leftOver a force ⟨[], [], []⟩ files a.index := by
  have halike := alike_ofFolder hsorted hnames hfiles
  have hnodup := nodup_names_of_ofBytes ha
  have hleft : (Draft.leftOver a force ⟨[], [], []⟩ (Overlay.ofFolder disk here folder names) a.index).Alike
      (Draft.leftOver a force ⟨[], [], []⟩ files a.index) :=
    leftOver_alike halike hnodup fun _ _ => List.not_mem_nil
  refine ⟨rebuild_of_alike halike hnodup rfl now, fun n => ?_, hleft.keys, fun r hr => left_of_rebuild hr⟩
  have hpart : ((a.index.take n).map Prod.fst).Nodup := hnodup.sublist ((List.take_sublist n _).map _)
  rcases addEntries_of_alike halike hpart fun _ _ => List.not_mem_nil with
    ⟨fault, ho, ht⟩ | ⟨draft, o', t', last, h', ho, ht⟩
  · rw [ho, ht]
    rfl
  · rw [ho, ht]
    simp only [Except.map, h'.keys]

end

/-- A folder with a patch for `B` and a new file. -/
def patchFolder : Disk :=
  ⟨[["patches"]], [(["patches", "C"], .data [4]), (["patches", "B"], .data [3])]⟩

theorem rebuild_folder_eq_table_two :
    ∃ file left, rebuild twoFilesOpened ⟨3, 2, 2001, 4, 5, 6⟩ (Overlay.ofFolder patchFolder [] "patches" ["C", "B"])
        false = .ok (file, left) ∧
      rebuild twoFilesOpened ⟨3, 2, 2001, 4, 5, 6⟩ ([("B", [3]), ("C", [4])] : Table String Bytes) false =
        .ok (file, [("C", [4])]) ∧ left.keys = ["C"] := by
  obtain ⟨file, htable⟩ : ∃ file, rebuild twoFilesOpened ⟨3, 2, 2001, 4, 5, 6⟩
      ([("B", [3]), ("C", [4])] : Table String Bytes) false = .ok (file, [("C", [4])]) :=
    ⟨[3, 0] ++ (Bytes.padTo 13 [65] ++ [2, 0, 0, 0, 68, 0, 0, 0, 0]) ++
      (Bytes.padTo 13 [66] ++ [1, 0, 0, 0, 70, 0, 0, 0, 0]) ++
      (Bytes.padTo 13 [67] ++ [1, 0, 0, 0, 72, 0, 0, 0, 0]) ++ [1, 2, 3, 0, 4, 0],
      eq_ok_of_toOption (by decide +kernel)⟩
  have hsorted : Table.keys ([("B", [3]), ("C", [4])] : Table String Bytes) |>.Pairwise (· < ·) := by decide
  have hfiles : ∀ item ∈ ([("B", [3]), ("C", [4])] : Table String Bytes),
      (Overlay.ofFolder patchFolder [] "patches" ["C", "B"]).file item.1 = .ok item.2 := by
    simp only [List.forall_mem_cons]
    exact ⟨eq_ok_of_toOption (by decide +kernel), eq_ok_of_toOption (by decide +kernel), nofun⟩
  have hboth := (rebuild_folder_eq_table (show ofBytes twoFiles = .ok twoFilesOpened from rfl) hsorted
    (fun name => by simp [Table.keys, or_comm]) hfiles ⟨3, 2, 2001, 4, 5, 6⟩ false).1
  rw [htable] at hboth
  cases hfolder : rebuild twoFilesOpened ⟨3, 2, 2001, 4, 5, 6⟩ (Overlay.ofFolder patchFolder [] "patches" ["C", "B"])
      false with
  | error fault =>
    rw [hfolder] at hboth
    cases hboth
  | ok result =>
    rw [hfolder] at hboth
    obtain ⟨hfile, hleft⟩ := Prod.ext_iff.1 (Except.ok.inj hboth)
    obtain ⟨file', left⟩ := result
    cases hfile
    exact ⟨file, left, rfl, htable, hleft⟩

end Archive

end AdventureKit
