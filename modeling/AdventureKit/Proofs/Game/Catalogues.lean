import AdventureKit.Proofs.Dialogue.CatalogueCells
import AdventureKit.Proofs.Game.Entries
import AdventureKit.Proofs.Game.Patch

/-!
# Catalogues of a game

The rows that are extracted of a catalogue, with an empty cell for each language that has no message, are taken back
as one group (`Sheet.group_of_one_file`) and patch the entry that they came from (`catalogue_survives`).  Rows that were
edited go to the places of their messages, or are refused as a whole (`injectCatalogue_exact`).
-/

namespace AdventureKit

theorem Sheet.group_of_one_file (file : String) (before rows : List Row) :
    group file before (rows.map fun row => .ok (file, row)) = .ok (before.reverse ++ rows, []) := by
  induction rows generalizing before with
  | nil =>
    rw [List.append_nil]
    rfl
  | cons row rows ih =>
    rw [List.map_cons, group, if_pos rfl, ih, List.reverse_cons, List.append_assoc]
    rfl

namespace Game

variable {game : Game} {e : Entry} {s : Session}

theorem injectGroups_of_one_file (inject : Patching → String → List Row → Work Patching) (p : Patching)
    (file : String) {rows : List Row} (hrows : rows ≠ []) :
    injectGroups inject p (rows.map fun row => .ok (file, row)) = inject p file rows := by
  obtain ⟨row, rest, rfl⟩ := List.exists_cons_of_ne_nil hrows
  have hgroup := Sheet.group_of_one_file file [row] rest
  rw [List.map_cons, injectGroups]
  split
  · rename_i hfault
    rw [hgroup] at hfault
    cases hfault
  · rename_i hsome
    rw [hgroup] at hsome
    cases hsome
    simp only [injectGroups, bind_pure]
    rfl

/-- The rows of a catalogue patch the entry with what is written of them. -/
theorem run_injectCatalogue_eq {file : Bytes} {name pattern : String} {rows : List Row}
    (hread : (e.read.run.run s).1 = .ok file)
    (hfound : ((game.entries [(Path.components name).getLastD ""]).run.run s).1 = .ok [(pattern, e)])
    (patches : Table (String × String) Bytes) :
    (game.injectCatalogue { items := patches } name rows).run.run s =
      ((Catalogue.write file rows).map fun new => { items := patches.put (e.name, e.name) new }, s) := by
  refine (run_each_of_entries (fun p _ e => ?_) hfound _).trans ?_
  · exact e.still_read.bind fun _ => (Work.still_ofExcept _).bind fun _ => Work.still_ofExcept _
  · have hvisit : visitIn (fun (p : Patching) _ e => do
        let new ← Work.ofExcept (Catalogue.write (← e.read) rows)
        Work.ofExcept (p.add e.name new)) s { items := patches } (pattern, e) =
        (Catalogue.write file rows).map fun new => { items := patches.put (e.name, e.name) new } := by
      unfold visitIn
      dsimp only
      rw [run_bind_of_ok (e.still_read.run_eq hread)]
      cases Catalogue.write file rows with
      | error fault => rfl
      | ok new => rfl
    rw [List.foldlM_cons, hvisit]
    cases Catalogue.write file rows with
    | error fault => rfl
    | ok new => rfl

theorem run_injectCatalogue {file : Bytes} {name pattern : String} {rows : List Row} {new : Bytes}
    (hread : (e.read.run.run s).1 = .ok file)
    (hfound : ((game.entries [(Path.components name).getLastD ""]).run.run s).1 = .ok [(pattern, e)])
    (hnew : Catalogue.write file rows = .ok new) (patches : Table (String × String) Bytes) :
    (game.injectCatalogue { items := patches } name rows).run.run s =
      (.ok { items := patches.put (e.name, e.name) new }, s) := by
  rw [run_injectCatalogue_eq hread hfound, hnew]
  rfl

/-- **A catalogue survives extraction and injection.**  The rows of a catalogue without waves in its messages, with an
empty cell for each language that a row lacks, are taken back without a fault.  They patch the entry with the header
and the messages that it had, with zeros where the file was too short; a file of the full length comes out as it
was. -/
theorem catalogue_survives {file : Bytes} {n : UInt8} {name pattern : String}
    (hread : (e.read.run.run s).1 = .ok file) (hlong : 18 ≤ file.length) (hn : file[4]? = some n) (hpos : 1 ≤ n)
    (hfree : 0x7E ∉ (file.drop 18).take (400 * n.toNat))
    (hfound : ((game.entries [(Path.components name).getLastD ""]).run.run s).1 = .ok [(pattern, e)])
    (patches : Table (String × String) Bytes) :
    ∃ rows new, (catalogueRows e).run.run s = (.ok rows, s) ∧ rows.length = n.toNat ∧
      (injectGroups game.injectCatalogue { items := patches }
        (rows.map fun row => .ok (name, Catalogue.completed row))).run.run s =
          (.ok { items := patches.put (e.name, e.name) new }, s) ∧
      new = Bytes.padTo (18 + 400 * n.toNat) (file.take (18 + 400 * n.toNat)) ∧
      (file.length = 18 + 400 * n.toNat → new = file) := by
  obtain ⟨rows, hrows, hlength, hwrite⟩ := Catalogue.write_completed hlong hn hfree
  refine ⟨rows, _, ?_, hlength, ?_, rfl, fun hfull => ?_⟩
  · unfold catalogueRows
    rw [run_bind_of_ok (e.still_read.run_eq hread), hrows, Work.ofExcept_ok]
    rfl
  · have hsome : rows.map Catalogue.completed ≠ [] := by
      rw [ne_eq, List.map_eq_nil_iff, ← List.length_eq_zero_iff, hlength]
      have h := UInt8.le_iff_toNat_le.1 hpos
      exact Nat.ne_of_gt h
    have hone := injectGroups_of_one_file game.injectCatalogue { items := patches } name hsome
    rw [List.map_map] at hone
    rw [show (fun row => Except.ok (name, Catalogue.completed row)) =
      (fun row => (Except.ok (name, row) : Except Fault (String × Row))) ∘ Catalogue.completed from rfl, hone]
    exact run_injectCatalogue hread hfound hwrite patches
  · rw [← hfull, List.take_length, Bytes.padTo, Nat.sub_self, List.replicate_zero, List.append_nil]

/-- A catalogue of two messages that is cut off in the second language. -/
def cutCatalogue : Bytes :=
  [1, 0, 0, 0, 2] ++ List.replicate 13 9 ++ List.replicate 80 65 ++ [66, 0, 67]

/-- A game of one catalogue. -/
def catalogueSession : Session :=
  .start ⟨[["game"], ["work"]], [(["game", "A.CAT"], .data cutCatalogue)]⟩ ["work"] ⟨1, 1, 2000, 0, 0, 0⟩

theorem read_cutCatalogue :
    ((Entry.loose "../game" "A.CAT").read.run.run catalogueSession).1 = .ok cutCatalogue :=
  eq_ok_of_toOption (by decide +kernel)

theorem entries_catalogueSession :
    ((Game.entries { base := "../game" } [(Path.components "texts/A.CAT").getLastD ""]).run.run catalogueSession).1 =
      .ok [("A.CAT", .loose "../game" "A.CAT")] :=
  eq_ok_of_toOption (by decide +kernel)

theorem catalogue_survives_of_cut :
    ∃ rows, (catalogueRows (.loose "../game" "A.CAT")).run.run catalogueSession = (.ok rows, catalogueSession) ∧
      rows.length = 2 ∧
      (injectGroups (Game.injectCatalogue { base := "../game" }) {}
        (rows.map fun row => .ok ("texts/A.CAT", Catalogue.completed row))).run.run catalogueSession =
          (.ok { items := [(("A.CAT", "A.CAT"), Bytes.padTo 818 cutCatalogue)] }, catalogueSession) := by
  have hn : cutCatalogue[4]? = some 2 := rfl
  obtain ⟨rows, new, hrows, hlength, hrun, hnew, -⟩ :=
    catalogue_survives read_cutCatalogue (by decide) hn (by decide) (by decide) entries_catalogueSession []
  rw [List.take_of_length_le (by decide)] at hnew
  rw [hnew] at hrun
  exact ⟨rows, hrows, hlength, hrun⟩

/-- **Where edited messages go, and what is refused.**  Rows with a cell for each language patch the entry just if
there are as many as the header counts messages, and no cell has anything but zeros, plain or written as waves, beyond
its forty bytes.  The patch then has the header and, at the place that language and row give, the message of each cell,
zeros for an empty one.  All other rows are refused, and nothing is patched. -/
theorem injectCatalogue_exact {file : Bytes} {n : UInt8} {name pattern : String} {rows : List Row}
    (hread : (e.read.run.run s).1 = .ok file) (hlong : 18 ≤ file.length) (hn : file[4]? = some n)
    (hfound : ((game.entries [(Path.components name).getLastD ""]).run.run s).1 = .ok [(pattern, e)])
    (hrows : Catalogue.Complete rows) (patches : Table (String × String) Bytes) :
    (Catalogue.Placeable n.toNat rows →
      ∃ new, (game.injectCatalogue { items := patches } name rows).run.run s =
          (.ok { items := patches.put (e.name, e.name) new }, s) ∧
        new.length = 18 + 400 * n.toNat ∧ new.take 18 = file.take 18 ∧
        ∀ k i language row, Catalogue.languages[k]? = some language → rows[i]? = some row →
          (new.drop (18 + (k * n.toNat + i) * 40)).take 40 = Catalogue.stored (row.get? language).join) ∧
      (¬ Catalogue.Placeable n.toNat rows →
        ∃ fault, (game.injectCatalogue { items := patches } name rows).run.run s = (.error fault, s) ∧
          Catalogue.IsMisfit fault) := by
  have hrun := @run_injectCatalogue_eq game e s file name pattern rows hread hfound patches
  have hheader : (file.take Catalogue.headerSize).length = 18 := List.length_take_of_le hlong
  constructor
  · intro hplaceable
    have hwrite := (Catalogue.write_eq_ok_iff hrows hn).2 ⟨hplaceable, rfl⟩
    refine ⟨_, run_injectCatalogue hread hfound hwrite patches, ?_, List.take_left' hheader, ?_⟩
    · rw [List.length_append, hheader, Catalogue.length_flatten_storedColumn, hplaceable.length_eq]
    · intro k i language row hk hi
      rw [← List.drop_drop, List.drop_left' hheader, ← hplaceable.length_eq]
      exact Catalogue.take_drop_storedColumn hk hi
  · intro hmisfit
    cases hwrite : Catalogue.write file rows with
    | ok new => exact absurd ((Catalogue.write_eq_ok_iff hrows hn).1 hwrite).1 hmisfit
    | error fault =>
      rw [hwrite] at hrun
      exact ⟨fault, hrun, Catalogue.failsOnly_write hrows hn fault hwrite⟩

/-- The rows of two messages, of which only the first one has a text, in one language. -/
def greetingRows : List Row :=
  [Catalogue.languages.map fun language => (language, if language = "DAT" then some [0x41, 0x7E, 0x42] else none),
    Catalogue.languages.map fun language => (language, none)]

theorem injectCatalogue_exact_greeting :
    (∃ new, (Game.injectCatalogue { base := "../game" } {} "texts/A.CAT" greetingRows).run.run catalogueSession =
        (.ok { items := [(("A.CAT", "A.CAT"), new)] }, catalogueSession) ∧
      new.length = 818 ∧ new.take 18 = cutCatalogue.take 18 ∧
      (new.drop 18).take 40 = [0x41, 0, 0x42] ++ List.replicate 37 0 ∧ (new.drop 778).take 40 = List.replicate 40 0) ∧
    ∃ fault, (Game.injectCatalogue { base := "../game" } {} "texts/A.CAT" (greetingRows.take 1)).run.run
      catalogueSession = (.error fault, catalogueSession) := by
  have hn : cutCatalogue[4]? = some 2 := rfl
  have hrows : Catalogue.Complete greetingRows := by decide
  have hplaceable : Catalogue.Placeable 2 greetingRows := ⟨rfl, by decide +kernel⟩
  obtain ⟨new, hrun, hlength, hheader, hplaces⟩ :=
    (injectCatalogue_exact read_cutCatalogue (by decide) hn entries_catalogueSession hrows []).1 hplaceable
  have hshort : ¬ Catalogue.Placeable 2 (greetingRows.take 1) := fun h => absurd h.length_eq (by decide)
  obtain ⟨fault, hfault, -⟩ :=
    (injectCatalogue_exact read_cutCatalogue (by decide) hn entries_catalogueSession
      (fun row hrow => hrows row (List.mem_of_mem_take hrow)) []).2 hshort
  exact ⟨⟨new, hrun, hlength, hheader, hplaces 0 0 _ _ rfl rfl, hplaces 9 1 _ _ rfl rfl⟩, fault, hfault⟩

end Game

end AdventureKit
