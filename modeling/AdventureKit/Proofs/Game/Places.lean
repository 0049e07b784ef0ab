import AdventureKit.Name.Pattern
import AdventureKit.Proofs.Game.Session
import AdventureKit.Proofs.Paths
import AdventureKit.Proofs.Sequence

/-!
# What writing a file leaves

A name in a folder leads from where the folder leads down to the name (`Session.follow_under`).  Writing a file leaves
the folders as they are and makes no path lead elsewhere.  A folder lists the same names after it, unless the file is
new in that folder; so sessions before and after are alike for whoever looks for other names (`Session.Steady`).
-/

namespace AdventureKit

/-! ## Names on a disk -/

namespace Disk

variable {d d' : Disk} {place q : Place} {content : Content} {name : String}

/-- A name that a file can have. -/
structure IsName (name : String) : Prop extends Path.IsPart name where
  no_zero : '\x00' ∉ name.toList
  ne_up : name ≠ ".."

theorem isName_iff :
    IsName name ↔ ('/' ∉ name.toList ∧ name ≠ "" ∧ name ≠ ".") ∧ '\x00' ∉ name.toList ∧ name ≠ ".." :=
  ⟨fun h => ⟨⟨h.no_slash, h.ne_empty, h.ne_dot⟩, h.no_zero, h.ne_up⟩,
    fun h => ⟨⟨h.1.1, h.1.2.1, h.1.2.2⟩, h.2.1, h.2.2⟩⟩

instance (name : String) : Decidable (IsName name) :=
  decidable_of_iff _ isName_iff.symm

/-- All that is on a disk has a name that a file can have. -/
def Named (d : Disk) : Prop :=
  ∀ place ∈ d.folders ++ d.files.keys, ∀ name ∈ place.getLast?, IsName name

instance (d : Disk) : Decidable d.Named :=
  inferInstanceAs (Decidable (∀ place ∈ d.folders ++ d.files.keys, ∀ name ∈ place.getLast?, IsName name))

theorem mem_names_iff : name ∈ d.names q ↔ q ++ [name] ∈ d.folders ++ d.files.keys := by
  rw [(d.names_perm q).mem_iff, Sequence.mem_distinct, List.mem_filterMap]
  constructor
  · rintro ⟨place, hplace, hname⟩
    split at hname
    · rename_i hq
      rw [← beq_iff_eq.1 hq, List.dropLast_append_getLast? name hname]
      exact hplace
    · cases hname
  · intro h
    exact ⟨q ++ [name], h, by simp⟩

theorem Named.isName (hd : d.Named) (h : name ∈ d.names q) : IsName name :=
  hd _ (mem_names_iff.1 h) name (by simp)

theorem walk_name (hname : IsName name) {r : Place} (h : d.walk q [name] = .ok r) :
    d.isFolder q = true ∧ r = q ++ [name] := by
  have hr : r = q ++ [name] := walk_eq_append (by simpa using hname.ne_up.symm) h
  refine ⟨?_, hr⟩
  rw [walk] at h
  split at h
  · cases h
  split at h
  · cases h
  · rename_i hfolder
    simpa using hfolder

theorem pairwise_names (d : Disk) (q : Place) : (d.names q).Pairwise (· ≤ ·) :=
  Sequence.pairwise_mergeSort _

/-- Names of a kind are listed alike if they are the same names. -/
theorem filter_names_congr {p : String → Bool}
    (h : ∀ name, p name = true → (name ∈ d'.names q ↔ name ∈ d.names q)) :
    (d'.names q).filter p = (d.names q).filter p := by
  have hnodup : ∀ d : Disk, ((d.names q).filter p).Nodup := fun d =>
    (((d.names_perm q).nodup_iff).2 (Sequence.nodup_distinct _)).filter p
  refine List.Perm.eq_of_pairwise (fun a b _ _ => String.le_antisymm) ((d'.pairwise_names q).filter p)
    ((d.pairwise_names q).filter p) ?_
  refine (List.perm_ext_iff_of_nodup (hnodup d') (hnodup d)).2 fun name => ?_
  rw [List.mem_filter, List.mem_filter]
  exact and_congr_left (h name)

/-- A folder lists the same names of a kind after a file was written, if the file is of another kind or not new. -/
theorem filter_names_of_write {p : String → Bool} (h : d.write (place ++ [name]) content = .ok d')
    (hkept : place = q → name ∈ d.names q ∨ p name = false) :
    (d'.names q).filter p = (d.names q).filter p := by
  refine filter_names_congr fun other hother => ?_
  have hkeys : ∀ r, r ∈ d'.folders ++ d'.files.keys ↔ r = place ++ [name] ∨ r ∈ d.folders ++ d.files.keys := by
    intro r
    rw [(write_eq_ok h).2, List.mem_append, List.mem_append, Table.mem_keys_put]
    tauto
  rw [mem_names_iff, mem_names_iff, hkeys, or_iff_right_of_imp]
  intro hnew
  obtain ⟨rfl, hlast⟩ := List.append_inj' hnew rfl
  obtain rfl : other = name := List.singleton_inj.1 hlast
  rcases hkept rfl with hold | hrefused
  · exact mem_names_iff.1 hold
  · rw [hother] at hrefused
    cases hrefused

end Disk

/-! ## Names in a folder -/

namespace Session

variable {s t u : Session} {folder name path : String} {place q : Place} {content : Content}

theorem follow_under (hname : Disk.IsName name) :
    s.follow (Path.under folder name) = s.follow folder >>= fun place => s.disk.walk place [name] := by
  have hzero : (Path.under folder name).toList.contains '\x00' = folder.toList.contains '\x00' := by
    rw [Bool.eq_iff_iff, List.contains_iff_mem, List.contains_iff_mem,
      Path.mem_under_iff hname.toIsPart (by decide) (by decide), or_iff_left hname.no_zero]
  unfold follow Disk.follow Disk.pathOf
  rw [hzero]
  split
  · rfl
  · rw [Path.ofString_under hname.toIsPart]
    exact Disk.walk_append _ _ _ _

theorem follow_under_eq_ok (hname : Disk.IsName name) (h : s.follow (Path.under folder name) = .ok place) :
    ∃ q, s.follow folder = .ok q ∧ s.disk.isFolder q = true ∧ place = q ++ [name] := by
  rw [follow_under hname] at h
  obtain ⟨q, hq, hwalk⟩ := bind_eq_ok.1 h
  exact ⟨q, hq, Disk.walk_name hname hwalk⟩

/-- The names that are seen in a folder; none if it is not there. -/
def listing (s : Session) (folder : String) : List String :=
  (s.follow folder).toOption.elim [] fun place => if s.disk.isFolder place then s.disk.names place else []

theorem run_namesIn_eq (h : s.follow folder ≠ .error .nameTooLong) :
    (Work.namesIn folder).run.run s = (.ok (s.listing folder), s) := by
  unfold Work.namesIn listing
  rw [run_bind_of_ok (run_get s)]
  rcases hfollow : s.follow folder with fault | place
  · cases fault with
    | nameTooLong => exact absurd hfollow h
    | _ => rfl
  · rfl

theorem run_namesIn_of_long (h : s.follow folder = .error .nameTooLong) :
    (Work.namesIn folder).run.run s = (.error .nameTooLong, s) := by
  unfold Work.namesIn
  rw [run_bind_of_ok (run_get s), h]
  rfl

theorem mem_listing (h : name ∈ s.listing folder) :
    ∃ q, s.follow folder = .ok q ∧ s.disk.isFolder q = true ∧ name ∈ s.disk.names q := by
  unfold listing at h
  rcases hfollow : s.follow folder with e | q
  · rw [hfollow] at h
    cases h
  · rw [hfollow] at h
    have hin : name ∈ if s.disk.isFolder q then s.disk.names q else [] := h
    split at hin
    · exact ⟨q, rfl, ‹_›, hin⟩
    · cases hin

theorem follow_ne_noFile (hname : Disk.IsName name) (h : name ∈ s.listing folder) :
    s.follow (Path.under folder name) ≠ .error .noFile := by
  obtain ⟨q, hq, hfolder, -⟩ := mem_listing h
  rw [follow_under hname, hq]
  show s.disk.walk q [name] ≠ _
  rw [Disk.walk, hfolder]
  split
  · simp
  · simp only [Bool.not_true, Bool.false_eq_true, if_false, beq_iff_eq, hname.ne_up]
    split
    · simp
    · simp [Disk.walk]

/-! ## Sessions that are alike -/

theorem follow_write_cases {d : Disk} (h : s.disk.write place content = .ok d) (path : String) :
    ({ s with disk := d } : Session).follow path = s.follow path ∨
      s.follow path = .error .noFile ∧ ({ s with disk := d } : Session).follow path = .error .notDirectory := by
  unfold follow Disk.follow
  cases Disk.pathOf path with
  | error e => exact .inl rfl
  | ok parsed => exact Disk.walk_write_cases h _ _

/-- Paths lead where they led, up to where they get stuck, the folders are the same, and they show the same names for
the patterns that are looked for in them. -/
structure Steady (scope : String → String → Prop) (s t : Session) : Prop where
  follow : ∀ path, t.follow path = s.follow path ∨ s.follow path = .error .noFile ∧ t.follow path = .error .notDirectory
  isFolder : ∀ place, t.disk.isFolder place = s.disk.isFolder place
  listing : ∀ folder pattern, scope folder pattern →
    (t.listing folder).filter (Pattern.acceptsLetters pattern) =
      (s.listing folder).filter (Pattern.acceptsLetters pattern)

variable {scope scope' : String → String → Prop}

theorem Steady.refl (scope : String → String → Prop) (s : Session) : Steady scope s s :=
  ⟨fun _ => .inl rfl, fun _ => rfl, fun _ _ _ => rfl⟩

theorem Steady.mono (h : Steady scope s t) (hscope : ∀ folder pattern, scope' folder pattern → scope folder pattern) :
    Steady scope' s t :=
  ⟨h.follow, h.isFolder, fun folder pattern hin => h.listing folder pattern (hscope folder pattern hin)⟩

theorem Steady.trans (h : Steady scope s t) (h' : Steady scope t u) : Steady scope s u := by
  refine ⟨fun path => ?_, fun place => (h'.isFolder place).trans (h.isFolder place),
    fun folder pattern hin => (h'.listing folder pattern hin).trans (h.listing folder pattern hin)⟩
  rcases h.follow path with hs | ⟨hs, ht⟩
  · rw [← hs]
    exact h'.follow path
  · refine .inr ⟨hs, ?_⟩
    rcases h'.follow path with hu | ⟨hno, -⟩
    · rw [hu, ht]
    · rw [ht] at hno
      cases hno

theorem Steady.follow_iff (h : Steady scope s t) : t.follow path = .ok q ↔ s.follow path = .ok q := by
  rcases h.follow path with hsame | ⟨hs, ht⟩
  · rw [hsame]
  · rw [hs, ht]
    simp

theorem Steady.follow_ne_noFile (h : Steady scope s t) (hs : s.follow path ≠ .error .noFile) :
    t.follow path ≠ .error .noFile := by
  rcases h.follow path with hsame | ⟨hno, -⟩
  · rwa [hsame]
  · exact absurd hno hs

theorem Steady.long_iff (h : Steady scope s t) :
    t.follow path = .error .nameTooLong ↔ s.follow path = .error .nameTooLong := by
  rcases h.follow path with hsame | ⟨hs, ht⟩
  · rw [hsame]
  · rw [hs, ht]
    simp

theorem Steady.run_isFolder (h : Steady scope s t) (path : String) :
    ((Work.isFolder path).run.run t).1 = ((Work.isFolder path).run.run s).1 := by
  unfold Work.isFolder
  rw [run_bind_of_ok (run_get t), run_bind_of_ok (run_get s)]
  rcases h.follow path with hsame | ⟨hs, ht⟩
  · rw [hsame]
    rcases s.follow path with e | q
    · cases e <;> rfl
    · show Except.ok (t.disk.isFolder q) = Except.ok (s.disk.isFolder q)
      rw [h.isFolder]
  · rw [hs, ht]
    rfl

/-- Writing a file leaves the session as it was for whoever does not look for the file where it is new. -/
theorem steady_of_write {target : String} (hname : Disk.IsName name)
    (h : (Work.write (Path.under target name) content).run.run s = (.ok (), t))
    (hkept : ∀ folder pattern, scope folder pattern → s.follow folder = s.follow target →
      name ∈ s.listing folder ∨ Pattern.acceptsLetters pattern name = false) :
    Steady scope s t := by
  obtain ⟨place, d, hfollow, hwrite, rfl⟩ := Work.run_write_eq_ok h
  obtain ⟨q, htarget, -, rfl⟩ := follow_under_eq_ok hname hfollow
  refine ⟨follow_write_cases hwrite, Disk.isFolder_of_write hwrite, fun folder pattern hin => ?_⟩
  rcases hq : s.follow folder with e | r
  · have hstuck : ({ s with disk := d } : Session).listing folder = [] := by
      rcases follow_write_cases hwrite folder with hsame | ⟨-, ht⟩
      · rw [listing, hsame, hq]
        rfl
      · rw [listing, ht]
        rfl
    rw [hstuck, listing, hq]
    rfl
  · rw [listing, listing, follow_of_write hq hwrite, hq]
    show (if d.isFolder r then d.names r else []).filter _ = (if s.disk.isFolder r then s.disk.names r else []).filter _
    rw [Disk.isFolder_of_write hwrite]
    split
    · refine Disk.filter_names_of_write hwrite ?_
      rintro rfl
      refine (hkept folder pattern hin (hq.trans htarget.symm)).imp_left fun hlisted => ?_
      obtain ⟨r, hr, -, hmem⟩ := mem_listing hlisted
      rw [hq] at hr
      cases hr
      exact hmem
    · rfl

theorem Steady.write {target : String} (h : Steady scope s t) (hname : Disk.IsName name)
    (hwrite : (Work.write (Path.under target name) content).run.run t = (.ok (), u))
    (hkept : ∀ folder pattern, scope folder pattern → s.follow folder = s.follow target →
      name ∈ s.listing folder ∨ Pattern.acceptsLetters pattern name = false) :
    Steady scope s u := by
  obtain ⟨place, -, hfollow, -, -⟩ := Work.run_write_eq_ok hwrite
  obtain ⟨q, htarget, -, -⟩ := follow_under_eq_ok hname hfollow
  refine h.trans (steady_of_write hname hwrite fun folder pattern hin hsame => ?_)
  have hplaces : s.follow folder = s.follow target := by
    rw [h.follow_iff.1 htarget, h.follow_iff.1 (hsame.trans htarget)]
  by_cases haccepts : Pattern.acceptsLetters pattern name = true
  · have hlisted := (hkept folder pattern hin hplaces).resolve_right (by rw [haccepts]; decide)
    have hfilter := h.listing folder pattern hin
    have hmem : name ∈ (t.listing folder).filter (Pattern.acceptsLetters pattern) := by
      rw [hfilter]
      exact List.mem_filter.2 ⟨hlisted, haccepts⟩
    exact .inl (List.mem_filter.1 hmem).1
  · exact .inr (Bool.eq_false_iff.2 haccepts)

/-! ## The bytes of a file -/

/-- The bytes of the file that a path leads to. -/
def bytesAt (s : Session) (path : String) : Except Fault Bytes := do
  (← s.disk.read (← s.follow path)).bytes

theorem run_readData_eq (s : Session) (path : String) : (Work.readData path).run.run s = (s.bytesAt path, s) := by
  unfold Work.readData bytesAt
  rw [run_bind_of_ok (run_get s)]
  rcases hfollow : s.follow path with e | place
  · exact run_bind_of_error (by rw [Work.run_locate, hfollow])
  · rw [run_bind_of_ok (by rw [Work.run_locate, hfollow])]
    show _ = (s.disk.read place >>= Content.bytes, s)
    cases s.disk.read place with
    | error e => rfl
    | ok content =>
      rw [run_bind_of_ok (Work.run_ofExcept_ok _ s), Work.run_ofExcept]
      rfl

theorem bytesAt_of_write {data : Bytes} (h : (Work.writeData path data).run.run s = (.ok (), t)) :
    t.bytesAt path = .ok data := by
  obtain ⟨place, d, hfollow, hwrite, rfl⟩ := Work.run_write_eq_ok h
  have hread := Work.run_readData (follow_of_write hfollow hwrite) (Disk.read_of_write hwrite)
  rw [run_readData_eq] at hread
  exact (Prod.mk.inj hread).1

/-- Files elsewhere keep their bytes. -/
theorem bytesAt_of_write_of_ne {other : String} (h : (Work.write other content).run.run s = (.ok (), t))
    (hthere : s.follow path ≠ .error .noFile) (hne : s.follow path ≠ s.follow other) :
    t.bytesAt path = s.bytesAt path := by
  obtain ⟨place, d, hfollow, hwrite, rfl⟩ := Work.run_write_eq_ok h
  have hsame := (follow_write_cases hwrite path).resolve_right fun hstuck => hthere hstuck.1
  unfold bytesAt
  rw [hsame]
  rcases hq : s.follow path with e | q
  · rfl
  · have hq : q ≠ place := by
      rintro rfl
      exact hne (hq.trans hfollow.symm)
    show (d.read q >>= Content.bytes) = (s.disk.read q >>= Content.bytes)
    rw [Disk.read_of_write_of_ne hwrite hq]

/-- A file in a folder keeps its bytes when one of another name or in another folder is written. -/
theorem bytesAt_under_of_write {target other : String} (hname : Disk.IsName name) (hother : Disk.IsName other)
    (h : (Work.write (Path.under target name) content).run.run s = (.ok (), t))
    (hthere : s.follow (Path.under folder other) ≠ .error .noFile)
    (hne : s.follow folder = s.follow target → other ≠ name) :
    t.bytesAt (Path.under folder other) = s.bytesAt (Path.under folder other) := by
  refine bytesAt_of_write_of_ne h hthere fun hsame => ?_
  obtain ⟨place, -, hfollow, -, -⟩ := Work.run_write_eq_ok h
  obtain ⟨q, htarget, -, rfl⟩ := follow_under_eq_ok hname hfollow
  obtain ⟨r, hfolder, -, hplace⟩ := follow_under_eq_ok hother (hsame.trans hfollow)
  obtain ⟨rfl, hlast⟩ := List.append_inj' hplace rfl
  exact hne (hfolder.trans htarget.symm) (List.singleton_inj.1 hlast).symm

/-- A file of another name that is there keeps its bytes. -/
theorem bytesAt_of_write_under {target other : String} {data : Bytes} (hname : Disk.IsName name)
    (hother : Disk.IsName other) (h : (Work.write (Path.under target name) content).run.run s = (.ok (), t))
    (hne : other ≠ name) (hdata : s.bytesAt (Path.under folder other) = .ok data) :
    t.bytesAt (Path.under folder other) = .ok data := by
  rw [bytesAt_under_of_write hname hother h (fun hno => ?_) fun _ => hne, hdata]
  rw [bytesAt, hno] at hdata
  cases hdata

end Session

end AdventureKit
