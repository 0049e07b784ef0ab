import AdventureKit.Proofs.Script.Layout
import AdventureKit.Proofs.Script.Tour

/-!
# Decompiling ends

On any bytes at all every step of the decompiler comes to an end: it gives a value or finds a fault in the script before
its bound is reached, and it does not end before the place where it started.  So do the two ways to list a script, which
visit finitely many places.
-/

namespace AdventureKit.Script

variable {α : Type} {k : Nat} {m : Machine}

/-- From `m` the step gives a value or fails before a bound is reached, and it does not end before the place where it
started. -/
structure Ends (p : Script α) (m : Machine) : Prop where
  lasts : (p.run.run m).1 ≠ .error .exhausted
  forward : m.cursor.pos ≤ (p.run.run m).2.cursor.pos

theorem Compared.ends {p q : Script α} (h : Compared Kindred k p q) (hleft : m.cursor.left < k) : Ends p m where
  lasts := h.lasts hleft rfl
  forward := (h.ahead hleft rfl).forward

theorem Steady.ends {p : Script α} (h : Steady k p) (hleft : m.cursor.left < k) : Ends p m :=
  (comparison_kindred.steady h).ends hleft

/-- Behind the code stands one byte more. -/
theorem length_le_size_start (code : Bytes) (s : Surroundings) (p : Progress) :
    code.length ≤ (Machine.start code s p).cursor.data.size := by
  show code.length ≤ (code ++ closing).toArray.size
  rw [List.size_toArray, List.length_append]
  exact Nat.le_add_right _ _

theorem exportedPlaces_lt {data : Bytes} {file : ScriptFile} (h : ScriptFile.ofBytes data = .ok file) :
    ∀ x ∈ exportedPlaces file.functions, x < placeLimit :=
  fun x hx => ScriptFile.functions_lt h x (List.mem_filter.1 hx).1

/-- **Decompiling ends.** From any place of any bytes an expression, a variable, an instruction of any instruction set
and a block come to an end, not before the place where they started.  The listing of a file ends too, whether block by
block, where each block lies behind the one before it, or call by call, where each place is visited at most once. -/
theorem decompiling_ends (m : Machine) :
    (∀ stop, Ends (expressionTo stop) m) ∧ Ends variableName m ∧
      (∀ version set, instructionSet? version = some set → ∀ entry ∈ set, Ends (entry.2.run block) m) ∧
      Ends block m ∧
      ∀ data file, ScriptFile.ofBytes data = .ok file → ∀ (s : Surroundings) (p : Progress),
        let start := Machine.start file.code s { p with calls := exportedPlaces file.functions }
        let opened := start.wrote (opening start.progress.calls)
        (∃ xs r n, (listing false file.code.length).run.run start = (r, n) ∧ r ≠ .error .exhausted ∧
          Tour (nextBlock file.code.length) (fun _ => subroutine) [] opened xs r n ∧
          xs.Pairwise (· < ·) ∧ ∀ x ∈ xs, x + 1 < file.code.length) ∧
        ∃ xs r n, (listing true file.code.length).run.run start = (r, n) ∧ r ≠ .error .exhausted ∧
          Tour nextCall visitCall [] opened xs r n ∧ xs.Nodup ∧ ∀ x ∈ xs, x < placeLimit := by
  have hleft := Nat.lt_succ_self m.cursor.left
  refine ⟨fun stop => (steady_expressionTo stop).ends hleft, steady_variableName.ends hleft, ?_,
    (kindred_block _).ends hleft, fun data file hfile s p => ?_⟩
  · intro version set hset entry hentry
    exact (Instruction.kindred_run (kindred_block _) (Instruction.isForward_of_mem hset hentry)).ends hleft
  intro start opened
  have hlength : file.code.length ≤ opened.cursor.data.size := length_le_size_start file.code s p
  have hcalls : ∀ x ∈ opened.progress.calls, x < placeLimit := exportedPlaces_lt hfile
  constructor
  · obtain ⟨xs, r, n, hrun, htour, hr⟩ := exists_tour_nextBlock hlength
    obtain ⟨hpairwise, hxs⟩ := htour.increasing hlength
    exact ⟨xs, r, n, (run_listing false _ start).trans hrun, hr, htour, hpairwise, fun x hx => (hxs x hx).2⟩
  · obtain ⟨xs, r, n, hrun, htour, hr⟩ := exists_tour_nextCall hcalls
    exact ⟨xs, r, n, (run_listing true _ start).trans hrun, hr, htour, htour.nodup.1, htour.lt_placeLimit hcalls⟩

/-- Three subroutines: the first calls the second twice, and the second calls the third and the first. -/
def callingCode : Bytes :=
  [1, 2, 8, 0, 0, 138, 0, 0, 138, 0,
   1, 2, 8, 0, 0, 148, 0, 0, 128, 0,
   1, 0, 2, 0]

/-- A script file that exports the first of these subroutines twice, and a place in its header. -/
def callingFile : Bytes :=
  List.replicate 41 0 ++ [49] ++ List.replicate 58 0 ++ [128, 0, 128, 0, 5, 0] ++ List.replicate 22 0xFF ++ callingCode

def callingParts : ScriptFile where
  code := callingCode
  functions := [128, 128, 5] ++ List.replicate 11 0xFFFF
  texts := none
  resources := none
  imNumber := 0
  exNumber := 0

theorem ofBytes_callingFile : ScriptFile.ofBytes callingFile = .ok callingParts :=
  eq_ok_of_toOption (by decide +kernel)

theorem decompiling_ends_of_calls :
    let m := Machine.start callingCode ⟨some 49, [], none, none, [], none⟩ ⟨0, 0, none, none, [128, 128]⟩
    (0x1F, .setCommandCount) ∈ instructions49 ∧ Ends (Instruction.setCommandCount.run block) m ∧
      ∃ xs r n, (listing true callingCode.length).run.run m = (r, n) ∧ r ≠ .error .exhausted ∧
        Tour nextCall visitCall [] (m.wrote (opening m.progress.calls)) xs r n ∧ xs.Nodup ∧ ∀ x ∈ xs, x < placeLimit := by
  intro m
  have hmem : (0x1F, .setCommandCount) ∈ instructions49 := by decide
  obtain ⟨-, -, hrun, -, hlisting⟩ := decompiling_ends m
  exact ⟨hmem, hrun 49 instructions49 rfl _ hmem,
    (hlisting callingFile callingParts ofBytes_callingFile m.surroundings m.progress).2⟩

end AdventureKit.Script
