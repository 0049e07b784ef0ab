import AdventureKit.Proofs.Archive.ReadBack
import AdventureKit.Proofs.Game.Entries

/-!
# Entries that hide others

A name may be found in several containers and match several patterns.  A search gives it once: from the first container
that offers it, with the first pattern that matches it there (`Game.entriesWith_shadows`).
-/

namespace AdventureKit.Game

section

variable {seen : List String} {items : List (String × Entry)} {item : String × Entry}

/-- Of the items of one name the first one is left, unless the name was seen before. -/
theorem mem_unseen_iff :
    item ∈ unseen seen items ↔ item.2.name ∉ seen ∧ items.find? (fun other => other.2.name == item.2.name) = some item := by
  induction items generalizing seen with
  | nil => simp [unseen]
  | cons first items ih =>
    rw [unseen, List.find?_cons]
    by_cases hname : first.2.name = item.2.name
    · rw [beq_iff_eq.2 hname]
      split
      · rename_i hseen
        have hin : item.2.name ∈ seen := hname ▸ List.contains_iff_mem.1 hseen
        exact ⟨fun h => absurd hin (ih.1 h).1, fun h => absurd hin h.1⟩
      · rename_i hseen
        have hout : item.2.name ∉ seen := fun hin => hseen (List.contains_iff_mem.2 (hname ▸ hin))
        have hlater : item ∉ unseen (first.2.name :: seen) items := fun h => (ih.1 h).1 (hname ▸ List.mem_cons_self)
        rw [List.mem_cons, or_iff_left hlater, and_iff_right hout, Option.some.injEq, eq_comm]
    · rw [beq_false_of_ne hname]
      split
      · exact ih
      · have hne : item ≠ first := fun heq => hname (heq ▸ rfl)
        rw [List.mem_cons, or_iff_right hne, ih, List.mem_cons, not_or, and_iff_right (Ne.symm hname)]

theorem nodup_unseen (seen : List String) (items : List (String × Entry)) :
    ((unseen seen items).map fun item => item.2.name).Nodup := by
  induction items generalizing seen with
  | nil => exact List.nodup_nil
  | cons first items ih =>
    rw [unseen]
    split
    · exact ih seen
    · refine List.nodup_cons.2 ⟨fun hmem => ?_, ih _⟩
      obtain ⟨item, hitem, hname⟩ := List.mem_map.1 hmem
      exact (mem_unseen_iff.1 hitem).1 (hname ▸ List.mem_cons_self)

end

theorem findSome?_eq_bind {α β : Type} (f : α → Option β) (xs : List α) :
    xs.findSome? f = (xs.find? fun x => (f x).isSome).bind f := by
  induction xs with
  | nil => rfl
  | cons x xs ih =>
    rw [List.findSome?_cons, List.find?_cons]
    cases hx : f x with
    | none => simpa using ih
    | some y => simp [hx]

theorem find?_beq (names : List String) (name : String) :
    names.find? (· == name) = if names.contains name then some name else none := by
  induction names with
  | nil => rfl
  | cons first names ih =>
    rw [List.find?_cons, List.contains_cons, ih]
    by_cases hname : first = name
    · simp [hname]
    · rw [beq_false_of_ne hname, beq_false_of_ne (Ne.symm hname), Bool.false_or]

namespace Container

variable {s : Session} {patterns : List String} {name : String}

/-- Whether a container has a file of a name that some pattern matches. -/
def has (s : Session) (patterns : List String) (name : String) (c : Container) : Bool :=
  (c.names s).contains name && patterns.any (c.accepts · name)

theorem find?_matching (c : Container) (pattern : String) :
    (((c.names s).filter (c.accepts pattern)).map fun other => (pattern, c.entry other)).find?
        (fun item => item.2.name == name) =
      if (c.names s).contains name && c.accepts pattern name then some (pattern, c.entry name) else none := by
  have hcomp : ((fun item : String × Entry => item.2.name == name) ∘ fun other => (pattern, c.entry other)) =
      (· == name) :=
    funext fun other => congrArg (· == name) (c.name_entry other)
  rw [List.find?_map, hcomp]
  have hcontains : ((c.names s).filter (c.accepts pattern)).contains name =
      ((c.names s).contains name && c.accepts pattern name) := by
    rw [Bool.eq_iff_iff]
    simp
  rw [find?_beq, hcontains]
  split <;> rfl

theorem find?_offered (c : Container) :
    (c.offered s patterns).find? (fun item => item.2.name == name) =
      if (c.names s).contains name then (patterns.find? (c.accepts · name)).map fun pattern => (pattern, c.entry name)
      else none := by
  unfold offered
  induction patterns with
  | nil => simp
  | cons pattern patterns ih =>
    rw [List.flatMap_cons, List.find?_append, find?_matching, ih, List.find?_cons]
    cases (c.names s).contains name <;> cases c.accepts pattern name <;> rfl

theorem isSome_find?_offered (c : Container) :
    ((c.offered s patterns).find? fun item => item.2.name == name).isSome = c.has s patterns name := by
  rw [find?_offered, has]
  cases (c.names s).contains name with
  | false => rfl
  | true =>
    rw [if_pos rfl, Option.isSome_map, Bool.true_and, Bool.eq_iff_iff, List.find?_isSome, List.any_eq_true]

theorem has_iff {c : Container} :
    c.has s patterns name = true ↔ name ∈ c.names s ∧ ∃ pattern ∈ patterns, c.accepts pattern name = true := by
  simp [has]

end Container

variable {game : Game} {archives patterns : List String} {s : Session}

/-- The first offer of a name is made by the first container that has it. -/
theorem find?_offers (name : String) :
    (game.offers archives patterns s).find? (fun item => item.2.name == name) =
      ((game.containers archives s).find? (Container.has s patterns name)).bind fun c =>
        (c.offered s patterns).find? fun item => item.2.name == name := by
  rw [offers, List.find?_flatMap, findSome?_eq_bind]
  simp only [Container.isSome_find?_offered]

theorem find?_offers_eq_some_iff {pattern name : String} {e : Entry} :
    (game.offers archives patterns s).find? (fun item => item.2.name == name) = some (pattern, e) ↔
      ∃ c, (game.containers archives s).find? (Container.has s patterns name) = some c ∧
        patterns.find? (c.accepts · name) = some pattern ∧ e = c.entry name := by
  rw [find?_offers, Option.bind_eq_some_iff]
  refine exists_congr fun c => and_congr_right fun hc => ?_
  have hname : name ∈ c.names s := (Container.has_iff.1 (List.find?_some hc)).1
  rw [Container.find?_offered, if_pos (List.contains_iff_mem.2 hname), Option.map_eq_some_iff]
  constructor
  · rintro ⟨p, hp, heq⟩
    cases heq
    exact ⟨hp, rfl⟩
  · rintro ⟨hp, rfl⟩
    exact ⟨pattern, hp, rfl⟩

theorem mem_found_iff {pattern : String} {e : Entry} :
    (pattern, e) ∈ unseen [] (game.offers archives patterns s) ↔
      ∃ c, (game.containers archives s).find? (Container.has s patterns e.name) = some c ∧
        patterns.find? (c.accepts · e.name) = some pattern ∧ e = c.entry e.name := by
  rw [mem_unseen_iff, and_iff_right List.not_mem_nil]
  exact find?_offers_eq_some_iff

/-- A name is found if some container has it. -/
theorem exists_found_iff {name : String} :
    (∃ item ∈ unseen [] (game.offers archives patterns s), item.2.name = name) ↔
      ∃ c ∈ game.containers archives s, name ∈ c.names s ∧ ∃ pattern ∈ patterns, c.accepts pattern name = true := by
  constructor
  · rintro ⟨⟨pattern, e⟩, hitem, rfl⟩
    obtain ⟨c, hc, -, -⟩ := mem_found_iff.1 hitem
    exact ⟨c, List.mem_of_find?_eq_some hc, Container.has_iff.1 (List.find?_some hc)⟩
  · rintro ⟨c, hc, hhas⟩
    obtain ⟨first, hfirst⟩ := Option.isSome_iff_exists.1 (List.find?_isSome.2 ⟨c, hc, Container.has_iff.2 hhas⟩)
    obtain ⟨-, p, hp, haccepts⟩ := Container.has_iff.1 (List.find?_some hfirst)
    obtain ⟨pattern, hpattern⟩ :=
      Option.isSome_iff_exists.1 (List.find?_isSome (p := (first.accepts · name)) |>.2 ⟨p, hp, haccepts⟩)
    refine ⟨(pattern, first.entry name), mem_found_iff.2 ⟨first, ?_, ?_, ?_⟩, first.name_entry name⟩
    all_goals rw [first.name_entry]
    · exact hfirst
    · exact hpattern

theorem pairwise_listing (s : Session) (folder : String) : (s.listing folder).Pairwise (· < ·) := by
  have hnames : ∀ place, (s.disk.names place).Pairwise (· < ·) := by
    intro place
    have hnodup : (s.disk.names place).Nodup := (s.disk.names_perm place).nodup_iff.2 (Sequence.nodup_distinct _)
    refine ((s.disk.pairwise_names place).and hnodup).imp ?_
    rintro a b ⟨hle, hne⟩
    exact String.not_le.1 fun hge => hne (String.le_antisymm hle hge)
  unfold Session.listing
  cases s.follow folder with
  | error e => exact List.Pairwise.nil
  | ok place =>
    show (if s.disk.isFolder place then s.disk.names place else []).Pairwise (· < ·)
    split
    · exact hnames place
    · exact List.Pairwise.nil

/-- **A search shadows.**  A search leaves the session as it is, and comes to an end if and only if nothing ends it
early.  Then no name is found twice; a name is found if and only if some container has it and some pattern matches it
there; and it is found in the first such container, with the first pattern that matches it there.  The containers are
the patch folders, the folder of the game, and its archives by their patterns and in the order of their names.  In a
folder a pattern that looks for folders matches no name. -/
theorem entriesWith_shadows (game : Game) (archives patterns : List String) (s : Session) :
    ((∃ found, (game.entriesWith archives patterns).run.run s = (.ok found, s)) ↔
      game.Searchable archives patterns s) ∧
    (s.listing game.base).Pairwise (· < ·) ∧
    ∀ found t, (game.entriesWith archives patterns).run.run s = (.ok found, t) →
      t = s ∧ (found.map fun item => item.2.name).Nodup ∧
      (∀ name, (∃ item ∈ found, item.2.name = name) ↔
        ∃ c ∈ game.containers archives s, name ∈ c.names s ∧ ∃ pattern ∈ patterns, c.accepts pattern name = true) ∧
      ∀ pattern e, (pattern, e) ∈ found ↔
        ∃ c, (game.containers archives s).find? (Container.has s patterns e.name) = some c ∧
          patterns.find? (c.accepts · e.name) = some pattern ∧ e = c.entry e.name := by
  refine ⟨⟨fun ⟨found, hrun⟩ => searchable_of_run hrun, fun h => ⟨_, run_entriesWith h⟩⟩, pairwise_listing s _, ?_⟩
  intro found t hrun
  rw [run_entriesWith (searchable_of_run hrun)] at hrun
  obtain ⟨hfound, rfl⟩ := Prod.mk.inj hrun
  obtain rfl := Except.ok.inj hfound
  exact ⟨rfl, nodup_unseen [] _, fun name => exists_found_iff, fun pattern e => mem_found_iff⟩

/-- A disk with a game whose archive has a file `A`, and a folder with another one. -/
def shadowedSession : Session :=
  .start ⟨[["game"], ["mods"]], [(["mods", "A"], .data [9]), (["game", "X.STK"], .data Archive.twoFiles)]⟩ []
    ⟨3, 2, 2001, 4, 5, 6⟩

theorem entriesWith_shadows_patched :
    ∃ found, (entriesWith ⟨"game", some ["/mods"]⟩ archivePatterns ["B*", "*"]).run.run shadowedSession =
        (.ok found, shadowedSession) ∧
      ("*", .loose "/mods" "A") ∈ found ∧ ("B*", .stored Archive.twoFilesOpened "X.STK" "B") ∈ found ∧
      ∀ pattern, (pattern, .stored Archive.twoFilesOpened "X.STK" "A") ∉ found := by
  have hcontainers : containers ⟨"game", some ["/mods"]⟩ archivePatterns shadowedSession =
      [.folder "/mods", .folder "game", .archive Archive.twoFilesOpened "X.STK"] := by
    decide +kernel
  have hopens : ∀ file ∈ archiveFiles ⟨"game", some ["/mods"]⟩ archivePatterns shadowedSession,
      shadowedSession.archiveIn "game" file = .ok Archive.twoFilesOpened := by
    have hfiles : archiveFiles ⟨"game", some ["/mods"]⟩ archivePatterns shadowedSession = ["X.STK"] := by decide +kernel
    rw [hfiles]
    exact List.forall_mem_singleton.2 (eq_ok_of_toOption (by decide +kernel))
  obtain ⟨hends, -, hfound⟩ := entriesWith_shadows ⟨"game", some ["/mods"]⟩ archivePatterns ["B*", "*"] shadowedSession
  have haims : ∀ pattern ∈ ["B*", "*"], ∃ aim, Pattern.aim pattern = .ok aim := by
    refine List.forall_mem_cons.2 ⟨⟨.names, eq_ok_of_toOption (by decide)⟩, List.forall_mem_singleton.2 ?_⟩
    exact ⟨.names, eq_ok_of_toOption (by decide)⟩
  obtain ⟨found, hrun⟩ := hends.2 ⟨fun _ => haims, by decide +kernel, by decide +kernel, by decide +kernel,
    fun pattern hpattern => .inl (aim_archivePatterns hpattern), fun file hfile => ⟨_, hopens file hfile⟩⟩
  obtain ⟨-, -, -, hmem⟩ := hfound found _ hrun
  rw [hcontainers] at hmem
  have hfirst : [Container.folder "/mods", .folder "game", .archive Archive.twoFilesOpened "X.STK"].find?
      (Container.has shadowedSession ["B*", "*"] "A") = some (.folder "/mods") := by
    decide +kernel
  refine ⟨found, hrun, (hmem _ _).2 ⟨.folder "/mods", hfirst, by decide +kernel, rfl⟩,
    (hmem _ _).2 ⟨.archive Archive.twoFilesOpened "X.STK", by decide +kernel, by decide +kernel, rfl⟩, ?_⟩
  intro pattern hin
  obtain ⟨c, hc, -, heq⟩ := (hmem _ _).1 hin
  cases hfirst.symm.trans hc
  cases heq

end AdventureKit.Game
