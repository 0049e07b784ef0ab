import AdventureKit.Proofs.Dialogue.TurnedBack
import AdventureKit.Proofs.Failing
import AdventureKit.Proofs.Game.OwnTexts

/-!
# Languages that new ones are built on

A filled column of a sheet that the game has no texts for is built on the first other filled column, whether the game
has texts for that one or not.  All new columns find texts just if the first filled column has some, or is itself the
only new one (`basis_mem_iff`).  Otherwise taking the rows back fails where the texts are looked up.
-/

namespace AdventureKit

/-! ## Filled columns -/

theorem anyM_eq_ok {α : Type} {p : α → Except Fault Bool} {q : α → Bool} {xs : List α}
    (h : ∀ x ∈ xs, p x = .ok (q x)) : xs.anyM p = .ok (xs.any q) := by
  induction xs with
  | nil => rfl
  | cons x xs ih =>
    obtain ⟨hx, hxs⟩ := List.forall_mem_cons.1 h
    refine bind_eq_ok.2 ⟨q x, hx, ?_⟩
    rw [List.any_cons]
    cases q x with
    | true => rfl
    | false => exact ih hxs

theorem filterAuxM_eq_ok {α : Type} {p : α → Except Fault Bool} {q : α → Bool} {xs : List α}
    (h : ∀ x ∈ xs, p x = .ok (q x)) (found : List α) :
    xs.filterAuxM p found = .ok ((xs.filter q).reverse ++ found) := by
  induction xs generalizing found with
  | nil => rfl
  | cons x xs ih =>
    obtain ⟨hx, hxs⟩ := List.forall_mem_cons.1 h
    refine bind_eq_ok.2 ⟨q x, hx, ?_⟩
    cases hq : q x with
    | true =>
      rw [List.filter_cons_of_pos hq, List.reverse_cons, List.append_assoc]
      exact ih hxs (x :: found)
    | false =>
      rw [List.filter_cons_of_neg (by simp [hq])]
      exact ih hxs found

theorem filterM_eq_ok {α : Type} {p : α → Except Fault Bool} {q : α → Bool} {xs : List α}
    (h : ∀ x ∈ xs, p x = .ok (q x)) : xs.filterM p = .ok (xs.filter q) := by
  refine bind_eq_ok.2 ⟨_, filterAuxM_eq_ok h [], ?_⟩
  rw [List.append_nil, List.reverse_reverse]
  rfl

namespace Row

/-- Every row has a cell for each column of the first one. -/
def IsTable (rows : List Row) : Prop :=
  ∀ row ∈ rows, ∀ language ∈ (rows.headD []).keys, (row.get? language).isSome

instance (rows : List Row) : Decidable (IsTable rows) :=
  inferInstanceAs (Decidable (∀ row ∈ rows, ∀ language ∈ (rows.headD []).keys, (row.get? language).isSome))

/-- The columns in which some row has a text, in their order. -/
def filled (rows : List Row) : List String :=
  (rows.headD []).keys.filter fun language => rows.any fun row => (row.get? language).join.isSome

variable {rows : List Row} {language : String}

theorem IsTable.cell_eq (h : IsTable rows) {row : Row} (hrow : row ∈ rows)
    (hlanguage : language ∈ (rows.headD []).keys) :
    cell row language = .ok (row.get? language).join := by
  obtain ⟨text, htext⟩ := Option.isSome_iff_exists.1 (h row hrow language hlanguage)
  rw [cell, htext]
  rfl

theorem mem_keys_of_mem_filled (h : language ∈ filled rows) : language ∈ (rows.headD []).keys :=
  (List.mem_filter.1 h).1

theorem IsTable.filledLanguages_eq (h : IsTable rows) : Game.filledLanguages rows = .ok (filled rows) := by
  refine filterM_eq_ok fun language hlanguage => anyM_eq_ok fun row hrow => ?_
  rw [h.cell_eq hrow hlanguage]
  rfl

end Row

namespace Game

/-! ## The choice of a basis -/

/-- The first filled column has texts of the game, or all others have. -/
def FirstServes (there filled : List String) : Prop :=
  ∀ first ∈ filled.head?, first ∈ there ∨ ∀ language ∈ filled, language ≠ first → language ∈ there

instance (there filled : List String) : Decidable (FirstServes there filled) :=
  inferInstanceAs (Decidable (∀ first ∈ filled.head?, first ∈ there ∨
    ∀ language ∈ filled, language ≠ first → language ∈ there))

variable {there filled : List String} {language base first : String}

theorem basis_of_mem (h : language ∈ there) : basis there filled language = .ok language := by
  rw [basis, if_pos (List.contains_iff_mem.2 h)]

theorem basis_of_notMem (h : language ∉ there) (hbase : filled.find? (· != language) = some base) :
    basis there filled language = .ok base := by
  rw [basis, if_neg (by simpa using h), hbase]

/-- A new column behind the first one is built on the first one. -/
theorem basis_of_ne_head (h : language ∉ there) (hfirst : filled.head? = some first) (hne : language ≠ first) :
    basis there filled language = .ok first := by
  obtain ⟨rest, rfl⟩ := List.head?_eq_some_iff.1 hfirst
  refine basis_of_notMem h ?_
  rw [List.find?_cons_of_pos (by simpa using hne.symm)]

/-- A new column is built on another filled one, if not all are new. -/
theorem exists_basis (hsome : ∃ other ∈ filled, other ∈ there) (h : language ∉ there) :
    ∃ base ∈ filled, base ≠ language ∧ basis there filled language = .ok base := by
  have hother : (filled.find? (· != language)).isSome := by
    obtain ⟨other, hmem, hthere⟩ := hsome
    have hne : other ≠ language := fun he => h (he ▸ hthere)
    exact List.find?_isSome.2 ⟨other, hmem, by simpa using hne⟩
  obtain ⟨base, hbase⟩ := Option.isSome_iff_exists.1 hother
  exact ⟨base, List.mem_of_find?_eq_some hbase, by simpa using List.find?_some hbase, basis_of_notMem h hbase⟩

theorem exists_basis_mem_filled (hsome : ∃ other ∈ filled, other ∈ there) :
    ∀ language ∈ filled, ∃ base ∈ filled, basis there filled language = .ok base := by
  intro language hlanguage
  by_cases hthere : language ∈ there
  · exact ⟨language, hlanguage, basis_of_mem hthere⟩
  · obtain ⟨base, hbase, -, hbasis⟩ := exists_basis hsome hthere
    exact ⟨base, hbase, hbasis⟩

/-- All filled columns find texts of the game just if the first one serves the others or needs them alone. -/
theorem basis_mem_iff (hsome : ∃ language ∈ filled, language ∈ there) :
    (∀ language ∈ filled, ∃ base ∈ there, basis there filled language = .ok base) ↔ FirstServes there filled := by
  constructor
  · intro h first hfirst
    by_cases hnew : first ∈ there
    · exact .inl hnew
    · right
      intro language hmem hne
      by_contra hlanguage
      obtain ⟨base, hbase, hbasis⟩ := h language hmem
      rw [basis_of_ne_head hlanguage hfirst hne] at hbasis
      cases hbasis
      exact hnew hbase
  · intro h language hmem
    by_cases hthere : language ∈ there
    · exact ⟨language, hthere, basis_of_mem hthere⟩
    · obtain ⟨first, rest, rfl⟩ := List.exists_cons_of_ne_nil (List.ne_nil_of_mem hmem)
      by_cases hne : language = first
      · -- the first column is new itself, so all others have texts
        subst hne
        have hothers := (h language rfl).resolve_left hthere
        obtain ⟨base, hbase, hdistinct, hbasis⟩ := exists_basis hsome hthere
        exact ⟨base, hothers base hbase hdistinct, hbasis⟩
      · refine ⟨first, ?_, basis_of_ne_head hthere rfl hne⟩
        by_contra hnew
        exact hthere (((h first rfl).resolve_left hnew) language hmem hne)

/-! ## Faults of taking rows back -/

/-- A lookup without a result. -/
def IsLookup (e : Fault) : Prop :=
  e = .noCandidate ∨ ∃ key, e = .unknownKey key

theorem failsOnly_toBody (text : Bytes) : FailsOnly (· = .tooWide) (Markup.toBody text) := by
  intro e h
  rw [Markup.toBody_eq] at h
  cases hturned : Markup.turned 0 0 (Markup.markLines text) with
  | error e' =>
    rw [hturned] at h
    cases h
    exact Markup.turned_fault hturned
  | ok t =>
    rw [hturned] at h
    cases h

theorem failsOnly_replace (line : Line) (written : Option Bytes) : FailsOnly (· = .tooWide) (line.replace written) := by
  unfold Line.replace
  split
  · exact (failsOnly_toBody _).bind fun _ _ => failsOnly_ok _
  · exact failsOnly_ok _

/-- The cells of a column are taken back unless a position does not fit. -/
theorem failsOnly_replaceLines {rows : List Row} (hrows : Row.IsTable rows)
    (hlanguage : language ∈ (rows.headD []).keys) (lines : List Line) :
    FailsOnly (· = .tooWide) (Row.replaceLines language rows lines) := by
  refine failsOnly_mapM fun item hitem => ?_
  obtain ⟨line, row⟩ := item
  dsimp only
  rw [hrows.cell_eq (List.of_mem_zip hitem).2 hlanguage]
  exact failsOnly_replace line _

theorem failsOnly_save (lines : List Line) : FailsOnly (¬ IsLookup ·) (TextBlock.save lines) := by
  refine (failsOnly_putLE (by simp [IsLookup]) 2 _).bind fun _ _ =>
    (failsOnly_mapM fun line _ => ?_).bind fun _ _ => failsOnly_ok _
  unfold TextBlock.recordBytes
  split
  · exact failsOnly_ok _
  · exact failsOnly_error (by simp [IsLookup])

theorem failsOnly_savedLines (lines : List Line) : FailsOnly (¬ IsLookup ·) (savedLines lines) := by
  refine (failsOnly_save lines).bind fun saved _ => ?_
  obtain ⟨block, lines⟩ := saved
  dsimp only
  split
  · exact failsOnly_ok _
  · exact failsOnly_error (by simp [IsLookup])

theorem failsOnly_replaceTexts (file old new : Bytes) : FailsOnly (¬ IsLookup ·) (replaceTexts file old new) := by
  unfold replaceTexts
  split
  · exact failsOnly_error (by simp [IsLookup])
  · dsimp only
    split
    · exact failsOnly_ok _
    · exact (failsOnly_putLE (by simp [IsLookup]) 4 _).bind fun _ _ => failsOnly_ok _

theorem failsOnly_matchesAny (name : String) (patterns : List String) :
    FailsOnly (¬ IsLookup ·) (Patching.matchesAny name patterns) := by
  refine failsOnly_anyM fun pattern _ => ?_
  unfold Path.matchesPattern
  dsimp only
  split
  · exact failsOnly_error (by simp [IsLookup])
  · split
    · exact failsOnly_ok _
    · exact failsOnly_ok _

theorem failsOnly_addAs (p : Patching) (name newName : String) (data : Bytes) :
    FailsOnly (¬ IsLookup ·) (p.addAs name newName data) := by
  have hrestricted : ∀ (newName : String) (q : Patching), FailsOnly (¬ IsLookup ·)
      (Patching.matchesAny newName p.restricted >>= fun restricted =>
        if restricted = true then pure p else pure q) := by
    intro newName q
    refine (failsOnly_matchesAny newName p.restricted).bind fun restricted _ => ?_
    split
    · exact failsOnly_ok p
    · exact failsOnly_ok q
  unfold Patching.addAs
  dsimp only
  split
  · refine (failsOnly_matchesAny _ p.allowed).bind fun allowed _ => ?_
    split
    · exact failsOnly_ok p
    · exact hrestricted _ _
  · exact hrestricted _ _

/-! ## Taking the rows of a script back -/

section Steps

variable {α β : Type} {P : Fault → Prop} {s : Session}

theorem failsOnly_run_ofExcept {r : Except Fault α} (h : FailsOnly P r) :
    FailsOnly P ((Work.ofExcept r).run.run s).1 := by
  rw [Work.run_ofExcept]
  exact h

theorem failsOnly_run_bind {x : Work α} {f : α → Work β} (hx : Work.Still x) (h : FailsOnly P (x.run.run s).1)
    (hf : ∀ a, (x.run.run s).1 = .ok a → FailsOnly P ((f a).run.run s).1) :
    FailsOnly P ((x >>= f).run.run s).1 := by
  rcases hrun : (x.run.run s).1 with e | a
  · rw [run_bind_of_error (hx.run_eq hrun)]
    exact failsOnly_error (h e hrun)
  · rw [run_bind_of_ok (hx.run_eq hrun)]
    exact hf a hrun

theorem failsOnly_run_ofExcept_bind {r : Except Fault α} {f : α → Work β} (h : FailsOnly P r)
    (hf : ∀ a, r = .ok a → FailsOnly P ((f a).run.run s).1) : FailsOnly P ((Work.ofExcept r >>= f).run.run s).1 :=
  failsOnly_run_bind (Work.still_ofExcept r) (failsOnly_run_ofExcept h) fun a ha => hf a (by rwa [Work.run_ofExcept] at ha)

theorem failsOnly_run_foldlM {f : β → α → Work β} {xs : List α} (hstill : ∀ b a, Work.Still (f b a))
    (h : ∀ a ∈ xs, ∀ b, FailsOnly P ((f b a).run.run s).1) (b : β) : FailsOnly P ((xs.foldlM f b).run.run s).1 := by
  induction xs generalizing b with
  | nil => exact failsOnly_ok b
  | cons a xs ih =>
    obtain ⟨ha, hxs⟩ := List.forall_mem_cons.1 h
    rw [List.foldlM_cons]
    exact failsOnly_run_bind (hstill b a) (ha b) fun c _ => ih hxs c

end Steps

variable {game : Game} {e : Entry} {file : Bytes} {texts : Table String (List Line)} {rows : List Row} {s : Session}

theorem linesOf_of_mem (h : base ∈ texts.keys) : ∃ lines, linesOf texts base = .ok lines := by
  cases hget : texts.get? base with
  | none => exact absurd h (Table.get?_eq_none_iff.1 hget)
  | some lines => exact ⟨lines, by rw [linesOf, hget]⟩

theorem linesOf_of_notMem (h : base ∉ texts.keys) : linesOf texts base = .error (.unknownKey (Quoted.string base)) := by
  rw [linesOf, Table.get?_eq_none_iff.2 h]

theorem failsOnly_injectLanguage (hread : (e.read.run.run s).1 = .ok file) (hbase : base ∈ texts.keys) (name : Path)
    (p : Patching) (language : String) (lines : List Line) :
    FailsOnly (¬ IsLookup ·) ((injectLanguage e name texts p language base lines).run.run s).1 := by
  obtain ⟨olds, holds⟩ := linesOf_of_mem hbase
  unfold injectLanguage
  split
  · split
    · exact failsOnly_ok p
    · refine failsOnly_run_ofExcept_bind (failsOnly_savedLines lines) fun new _ => ?_
      rw [run_bind_of_ok (e.still_read.run_eq hread), holds, Work.ofExcept_ok, pure_bind]
      refine failsOnly_run_ofExcept_bind (failsOnly_save olds) fun old _ => ?_
      refine failsOnly_run_ofExcept_bind (failsOnly_replaceTexts _ _ _) fun patched _ => ?_
      exact failsOnly_run_ofExcept (failsOnly_addAs p _ _ patched)
  · refine failsOnly_run_ofExcept_bind (failsOnly_savedLines lines) fun new _ => ?_
    exact failsOnly_run_ofExcept (failsOnly_addAs p _ _ new)

/-- What is done with the rows of a script once the texts of the game are there. -/
def injectRows (e : Entry) (name : Path) (texts : Table String (List Line)) (p : Patching) (rows : List Row) :
    Work Patching := do
  let bases ← Work.ofExcept ((Row.filled rows).mapM fun language => do
    return (language, ← basis texts.keys (Row.filled rows) language))
  let new ← Work.ofExcept (bases.mapM fun (language, base) => do
    return (language, base, ← Row.replaceLines language rows (← linesOf texts base)))
  new.foldlM (fun p (language, base, lines) => injectLanguage e name texts p language base lines) p

theorem run_injectScript {fileName : String}
    (hentry : ((game.first? (Path.ofString fileName).name).run.run s).1 = .ok (some e))
    (htexts : ((game.scriptTexts e).run.run s).1 = .ok texts) (hrows : Row.IsTable rows) (p : Patching) :
    (game.injectScript p fileName rows).run.run s =
      (injectRows e (Path.ofString fileName) texts p rows).run.run s := by
  have hentry' : (game.first? (Path.ofString fileName).name).run.run s = (.ok (some e), s) :=
    (game.still_search _ (fun _ _ _ => Work.still_pure _) _).run_eq hentry
  unfold injectScript
  dsimp only
  rw [run_bind_of_ok hentry']
  dsimp only
  rw [run_bind_of_ok ((still_scriptTexts game e).run_eq htexts), hrows.filledLanguages_eq, Work.ofExcept_ok, pure_bind]
  rfl

/-- The columns with their bases, if every one has its base among the given languages. -/
theorem mem_of_bases {there filled known : List String} {bases : List (String × String)}
    (hbases : ∀ language ∈ filled, ∃ base ∈ known, basis there filled language = .ok base)
    (h : (filled.mapM fun language => do return (language, ← basis there filled language)) = .ok bases) :
    ∀ item ∈ bases, item.1 ∈ filled ∧ item.2 ∈ known := by
  refine forall_of_mapM_eq_ok h fun language hlanguage item hitem => ?_
  obtain ⟨base, hbase, hbasis⟩ := hbases language hlanguage
  rw [hbasis] at hitem
  cases hitem
  exact ⟨hlanguage, hbase⟩

/-- If every filled column finds texts of the game, no lookup fails. -/
theorem failsOnly_injectRows (hread : (e.read.run.run s).1 = .ok file) (hrows : Row.IsTable rows)
    (hbases : ∀ language ∈ Row.filled rows, ∃ base ∈ texts.keys,
      basis texts.keys (Row.filled rows) language = .ok base) (name : Path) (p : Patching) :
    FailsOnly (¬ IsLookup ·) ((injectRows e name texts p rows).run.run s).1 := by
  refine failsOnly_run_ofExcept_bind ?_ fun bases hmapM => ?_
  · refine failsOnly_mapM fun language hlanguage => ?_
    obtain ⟨base, -, hbase⟩ := hbases language hlanguage
    rw [hbase]
    exact failsOnly_ok _
  have hserved := mem_of_bases hbases hmapM
  refine failsOnly_run_ofExcept_bind ?_ fun items hmapM => ?_
  · refine failsOnly_mapM fun item hitem => ?_
    obtain ⟨hlanguage, hbase⟩ := hserved item hitem
    obtain ⟨olds, holds⟩ := linesOf_of_mem hbase
    dsimp only
    rw [holds]
    refine ((failsOnly_replaceLines hrows (Row.mem_keys_of_mem_filled hlanguage) olds).mono ?_).bind fun _ _ =>
      failsOnly_ok _
    rintro _ rfl
    simp [IsLookup]
  have hbase : ∀ item ∈ items, item.2.1 ∈ texts.keys := by
    refine forall_of_mapM_eq_ok hmapM fun served hitem item hnew => ?_
    obtain ⟨olds, -, hnew⟩ := bind_eq_ok.1 hnew
    obtain ⟨lines, -, hnew⟩ := bind_eq_ok.1 hnew
    cases hnew
    exact (hserved served hitem).2
  exact failsOnly_run_foldlM (fun q item => still_injectLanguage e name texts q item.1 item.2.1 item.2.2)
    (fun item hitem q => failsOnly_injectLanguage hread (hbase item hitem) name q item.1 item.2.2) p

/-- How a new column that is built on another new one ends. -/
def IsUnserved (there filled : List String) (fault : Fault) : Prop :=
  fault = .tooWide ∨ ∃ base ∈ filled, base ∉ there ∧ fault = .unknownKey (Quoted.string base)

/-- If a new column is not served by the first one, taking the rows back fails. -/
theorem run_injectRows_of_unserved (hrows : Row.IsTable rows)
    (hsome : ∃ language ∈ Row.filled rows, language ∈ texts.keys)
    (hunserved : ¬ FirstServes texts.keys (Row.filled rows)) (name : Path) (p : Patching) :
    ∃ fault, (injectRows e name texts p rows).run.run s = (.error fault, s) ∧
      IsUnserved texts.keys (Row.filled rows) fault := by
  have hbases := exists_basis_mem_filled hsome
  obtain ⟨language, hlanguage, hnone⟩ : ∃ language ∈ Row.filled rows, ∀ base ∈ texts.keys,
      basis texts.keys (Row.filled rows) language ≠ .ok base := by
    simpa only [not_forall, not_exists, not_and, exists_prop] using mt (basis_mem_iff hsome).1 hunserved
  obtain ⟨base, hbase, hbasis⟩ := hbases language hlanguage
  have hmissing : base ∉ texts.keys := fun hmem => hnone base hmem hbasis
  obtain ⟨bases, hmapM, hmem⟩ := @exists_mapM_eq_ok _ _ (fun language => do
      return (language, ← basis texts.keys (Row.filled rows) language)) (Row.filled rows) fun language hlanguage => by
    obtain ⟨base, -, hbasis⟩ := hbases language hlanguage
    exact ⟨(language, base), bind_eq_ok.2 ⟨base, hbasis, rfl⟩⟩
  have hfound := mem_of_bases hbases hmapM
  have hitem : (language, base) ∈ bases := hmem language hlanguage _ (bind_eq_ok.2 ⟨base, hbasis, rfl⟩)
  have hfault : FailsOnly (IsUnserved texts.keys (Row.filled rows)) (bases.mapM fun item => do
      return (item.1, item.2, ← Row.replaceLines item.1 rows (← linesOf texts item.2))) := by
    refine failsOnly_mapM fun item hitem => ?_
    obtain ⟨hfirst, hsecond⟩ := hfound item hitem
    by_cases hthere : item.2 ∈ texts.keys
    · obtain ⟨olds, holds⟩ := linesOf_of_mem hthere
      rw [holds]
      exact ((failsOnly_replaceLines hrows (Row.mem_keys_of_mem_filled hfirst) olds).mono fun _ => .inl).bind fun _ _ =>
        failsOnly_ok _
    · rw [linesOf_of_notMem hthere]
      exact failsOnly_error (.inr ⟨item.2, hsecond, hthere, rfl⟩)
  obtain ⟨fault, hnew⟩ := @exists_mapM_eq_error _ _ (fun item => do
      return (item.1, item.2, ← Row.replaceLines item.1 rows (← linesOf texts item.2))) bases _ _ hitem (by
    dsimp only
    rw [linesOf_of_notMem hmissing]
    rfl)
  refine ⟨fault, ?_, hfault fault hnew⟩
  unfold injectRows
  rw [hmapM, Work.ofExcept_ok, pure_bind]
  refine run_bind_of_error ?_
  rw [Work.run_ofExcept]
  exact congrArg (·, s) hnew

/-- If the first column is built on a language without texts, that language is named. -/
theorem run_injectRows_of_missing {language : String} {bases : List (String × String)} {name : Path} {p : Patching}
    (hbases : (Row.filled rows).mapM (fun language => do
      return (language, ← basis texts.keys (Row.filled rows) language)) = .ok ((language, base) :: bases))
    (hmissing : base ∉ texts.keys) :
    (injectRows e name texts p rows).run.run s = (.error (.unknownKey (Quoted.string base)), s) := by
  unfold injectRows
  rw [hbases, Work.ofExcept_ok, pure_bind]
  refine run_bind_of_error ?_
  rw [Work.run_ofExcept, List.mapM_cons]
  dsimp only
  rw [linesOf_of_notMem hmissing]
  rfl

/-- **When new columns find texts to be built on.**  Let some filled column of the rows of a script be a language that
the game has texts for.  Then every filled column is built on a language with texts just if the first filled one has
texts, or is the only one without; no lookup fails in this case.  In the other case some new column is built on a new
one, and taking the rows back fails: the texts of that language are not there, if not a position before does not fit. -/
theorem new_columns_find_texts_iff {fileName : String}
    (hentry : ((game.first? (Path.ofString fileName).name).run.run s).1 = .ok (some e))
    (htexts : ((game.scriptTexts e).run.run s).1 = .ok texts) (hrows : Row.IsTable rows)
    (hsome : ∃ language ∈ Row.filled rows, language ∈ texts.keys) (p : Patching) :
    filledLanguages rows = .ok (Row.filled rows) ∧
      ((∀ language ∈ Row.filled rows, ∃ base ∈ texts.keys, basis texts.keys (Row.filled rows) language = .ok base) ↔
        FirstServes texts.keys (Row.filled rows)) ∧
      (FirstServes texts.keys (Row.filled rows) →
        ∀ fault t, (game.injectScript p fileName rows).run.run s = (.error fault, t) → ¬ IsLookup fault) ∧
      (¬ FirstServes texts.keys (Row.filled rows) →
        ∃ fault, (game.injectScript p fileName rows).run.run s = (.error fault, s) ∧
          IsUnserved texts.keys (Row.filled rows) fault) := by
  have hiff := basis_mem_iff hsome
  rw [run_injectScript hentry htexts hrows p]
  refine ⟨hrows.filledLanguages_eq, hiff, fun hserves fault t hrun => ?_, fun hunserved => ?_⟩
  · obtain ⟨parts, hparts, -⟩ := (still_scriptFile e).run_bind_eq_ok ((still_scriptTexts game e).run_eq htexts)
    obtain ⟨file, hread, -⟩ := read_of_scriptFile (congrArg Prod.fst hparts)
    exact failsOnly_injectRows (congrArg Prod.fst hread) hrows (hiff.2 hserves) (Path.ofString fileName) p fault
      (congrArg Prod.fst hrun)
  · exact run_injectRows_of_unserved hrows hsome hunserved (Path.ofString fileName) p

/-- An archive with a script and its texts in one language. -/
def languageArchive (language : String) (block : Bytes) : Archive where
  data := [2, 0] ++ storedRecord "X.TOT" 128 46 ++ storedRecord ("X." ++ language) block.length 174 ++ bareScript ++
    block
  version := .first
  index := [("X.TOT", ⟨46, 128, 0, none⟩), ("X." ++ language, ⟨174, block.length, 0, none⟩)]

def americanArchive : Archive :=
  languageArchive "USA" (talkBlock [0x41])

def americanTexts : Table String (List Line) :=
  [("USA", [talkLine [0x41]])]

/-- One row with a text in each column. -/
def filledRow (columns : List String) : List Row :=
  [columns.map fun language => (language, some [0x42])]

theorem texts_americanArchive :
    ((smallGame.first? "X.TOT").run.run (smallSession americanArchive)).1.toOption =
        some (some (smallScript americanArchive)) ∧
      ((smallGame.scriptTexts (smallScript americanArchive)).run.run (smallSession americanArchive)).1.toOption =
        some americanTexts := by
  decide +kernel

theorem new_columns_find_texts_iff_american :
    Row.filled (filledRow ["USA", "DAT", "ALL"]) = ["USA", "DAT", "ALL"] ∧
      (∀ language ∈ ["USA", "DAT", "ALL"], ∃ base ∈ americanTexts.keys,
        basis americanTexts.keys ["USA", "DAT", "ALL"] language = .ok base) ∧
      ∃ fault, (smallGame.injectScript {} "X.TOT" (filledRow ["DAT", "ALL", "USA"])).run.run
        (smallSession americanArchive) = (.error fault, smallSession americanArchive) := by
  obtain ⟨hentry, htexts⟩ := texts_americanArchive
  have hserved := @new_columns_find_texts_iff smallGame (smallScript americanArchive) americanTexts
    (filledRow ["USA", "DAT", "ALL"]) (smallSession americanArchive) "X.TOT" (eq_ok_of_toOption hentry)
    (eq_ok_of_toOption htexts) (by decide) ⟨"USA", by decide, by decide⟩ {}
  have hunserved := @new_columns_find_texts_iff smallGame (smallScript americanArchive) americanTexts
    (filledRow ["DAT", "ALL", "USA"]) (smallSession americanArchive) "X.TOT" (eq_ok_of_toOption hentry)
    (eq_ok_of_toOption htexts) (by decide) ⟨"USA", by decide, by decide⟩ {}
  obtain ⟨fault, hrun, -⟩ := hunserved.2.2.2 (by decide)
  exact ⟨by decide, hserved.2.1.2 (by decide), fault, hrun⟩

/-- The first of two new columns is built on the second one, for which there are no texts. -/
theorem new_columns_miss_texts :
    ((smallGame.scriptTexts (smallScript americanArchive)).run.run (smallSession americanArchive)).1 =
        .ok americanTexts ∧
      Row.IsTable (filledRow ["DAT", "ALL", "USA"]) ∧ "USA" ∈ Row.filled (filledRow ["DAT", "ALL", "USA"]) ∧
      "USA" ∈ americanTexts.keys ∧
      (smallGame.injectScript {} "X.TOT" (filledRow ["DAT", "ALL", "USA"])).run.run (smallSession americanArchive) =
        (.error (.unknownKey "'ALL'"), smallSession americanArchive) := by
  obtain ⟨hentry, htexts⟩ := texts_americanArchive
  have htable : Row.IsTable (filledRow ["DAT", "ALL", "USA"]) := by decide
  have hbases : (Row.filled (filledRow ["DAT", "ALL", "USA"])).mapM (fun language => do
      return (language, ← basis americanTexts.keys (Row.filled (filledRow ["DAT", "ALL", "USA"])) language)) =
        .ok [("DAT", "ALL"), ("ALL", "DAT"), ("USA", "USA")] :=
    eq_ok_of_toOption (by decide)
  have hrun := @run_injectScript smallGame (smallScript americanArchive) americanTexts
    (filledRow ["DAT", "ALL", "USA"]) (smallSession americanArchive) "X.TOT" (eq_ok_of_toOption hentry)
    (eq_ok_of_toOption htexts) htable {}
  have hquoted : Quoted.string "ALL" = "'ALL'" := by decide
  refine ⟨eq_ok_of_toOption htexts, htable, by decide, by decide, hrun.trans ?_⟩
  rw [run_injectRows_of_missing hbases (by decide), hquoted]

end Game

end AdventureKit
