import AdventureKit.Proofs.Script.Operands
import AdventureKit.Proofs.Table
import AdventureKit.Script.Block

/-!
# Instructions without blocks

Six instructions steer: they hold blocks, note a call or set the counts of their block.  All others are steady.
-/

namespace AdventureKit.Script

variable {k : Nat} {m n : Machine} {R : Machine → Machine → Prop}

/-! ## Printed texts -/

/-- Looking at a byte leaves the machine, and taking it leaves one byte less. -/
theorem left_took_of_peek {b : Nat} (h : (Reading.peek : Script Nat).run.run m = (.ok b, n)) :
    m = n ∧ (m.cursor.took 1).left < m.cursor.left := by
  rw [run_peek] at h
  obtain ⟨hb, hm⟩ := Prod.mk.inj h
  refine ⟨hm, ?_⟩
  split at hb
  · cases hb
  · rename_i c cs hnext
    exact Cursor.left_took_lt hnext

theorem decode_lasts (page : CodePage) (bs : Bytes) : page.decode bs ≠ .error .exhausted := by
  unfold CodePage.decode
  induction bs with
  | nil => exact fun h => nomatch h
  | cons b bs ih =>
    have hb : page.decodeByte b ≠ .error .exhausted := by
      unfold CodePage.decodeByte
      split
      · exact fun h => nomatch h
      · split
        · exact fun h => nomatch h
        · exact fun h => nomatch h
    rw [List.mapM_cons]
    cases h : page.decodeByte b with
    | error e =>
      rw [h] at hb
      simpa [bind, Except.bind] using hb
    | ok c =>
      cases h' : bs.mapM page.decodeByte with
      | error e =>
        rw [h'] at ih
        simpa [bind, Except.bind] using ih
      | ok cs => simp [bind, Except.bind, pure, Except.pure]

theorem steady_plainText : ∀ k, Steady k (plainText k)
  | 0 => steady_zero _
  | k + 1 => by
    unfold plainText
    intro R hR m n hmn hleft
    refine (steady_peek hR hmn hleft).bind fun b m' n' hpeek hmn' _ => ?_
    obtain ⟨rfl, hless⟩ := left_took_of_peek hpeek
    split
    · exact alike_pure hmn' _
    · refine (steady_read 1 hR hmn' hleft).bind fun bs m'' n'' hread hmn'' _ => ?_
      rw [run_read] at hread
      obtain ⟨-, rfl⟩ := Prod.mk.inj hread
      have hleft' : (m.cursor.took 1).left < k := by omega
      exact ((steady_lift (decode_lasts _ _)).bind fun t => (steady_plainText k).bind fun _ => steady_pure _)
        hR hmn'' hleft'

theorem steady_variableHere : Steady k variableHere := by
  refine steady_peek.bind fun code => ?_
  split
  · exact steady_variableName
  · exact steady_pure ""

theorem steady_markedVariable : Steady k markedVariable :=
  (steady_read 1).bind fun _ => steady_variableHere.bind fun _ => (steady_read 1).bind fun _ => steady_pure _

theorem steady_textPart : Steady k textPart := by
  refine steady_left_bind fun l => (steady_plainText (l + 1)).bind fun text => steady_peek.bind fun b => ?_
  split
  · exact steady_pure _
  · exact steady_markedVariable.bind fun _ => steady_pure _

/-- A part of a text takes a byte, or it ends before the byte that ends the text. -/
theorem textPart_cases {s : String} (h : textPart.run.run m = (.ok s, n)) :
    n.cursor.left < m.cursor.left ∨ (Reading.peek : Script Nat).run.run n = (.ok endOfText, n) := by
  unfold textPart at h
  rw [run_bind_of_ok (run_left m)] at h
  obtain ⟨text, u, htext, h⟩ := run_bind_eq_ok h
  have hahead := (steady_plainText (m.cursor.left + 1)).ahead (Nat.lt_succ_self m.cursor.left) htext
  obtain ⟨b, v, hpeek, h⟩ := run_bind_eq_ok h
  obtain ⟨rfl, hless⟩ := left_took_of_peek hpeek
  split at h
  · rename_i hb
    cases h
    rw [hb] at hpeek
    exact .inr hpeek
  · left
    obtain ⟨name, w, hname, h⟩ := run_bind_eq_ok h
    cases h
    unfold markedVariable at hname
    rw [run_bind_of_ok (run_read 1 u)] at hname
    have hbehind : Steady u.cursor.left (do
        let name ← variableHere
        let _ ← Source.read 1
        return name) := steady_variableHere.bind fun _ => (steady_read 1).bind fun _ => steady_pure _
    have hleft := hahead.left_le
    have hleft' : n.cursor.left ≤ (u.cursor.took 1).left := (hbehind.ahead hless hname).left_le
    omega

/-- Where a text goes on, a part of it takes a byte. -/
theorem consumed_of_textPart {s : String} {b : Nat} (hpeek : (Reading.peek : Script Nat).run.run m = (.ok b, m))
    (hb : b ≠ endOfText) (h : textPart.run.run m = (.ok s, n)) : n.cursor.left < m.cursor.left := by
  obtain hless | hend := textPart_cases h
  · exact hless
  · -- a part that took nothing would end where the text goes on
    have hahead := steady_textPart.ahead (Nat.lt_succ_self m.cursor.left) h
    refine Nat.lt_of_not_le fun hnot => ?_
    have hcursor : n.cursor = m.cursor := by
      have hdata := hahead.data
      have hpos : n.cursor.pos = m.cursor.pos := by
        have hforward := hahead.forward
        have hless := (left_took_of_peek hpeek).2
        unfold Cursor.left at hnot hless
        rw [hdata] at hnot
        omega
      show Cursor.mk n.cursor.data n.cursor.pos = m.cursor
      rw [hdata, hpos]
    rw [run_peek, hcursor] at hend
    rw [run_peek] at hpeek
    have hsame := (Prod.mk.inj hpeek).1.symm.trans (Prod.mk.inj hend).1
    cases hsame
    exact hb rfl

theorem steady_textPartsFrom : ∀ k, Steady k (textPartsFrom k)
  | 0 => steady_zero _
  | k + 1 => by
    unfold textPartsFrom
    intro R hR m n hmn hleft
    refine (steady_peek hR hmn hleft).bind fun b m' n' hpeek hmn' _ => ?_
    obtain ⟨rfl, -⟩ := left_took_of_peek hpeek
    split
    · exact alike_pure hmn' _
    · rename_i hb
      refine (steady_textPart hR hmn' hleft).bind fun part m'' n'' hpart hmn'' _ => ?_
      have hless := consumed_of_textPart hpeek hb hpart
      exact ((steady_textPartsFrom k).bind fun _ => steady_pure _) hR hmn'' (by omega)

theorem steady_joinedPartsFrom : ∀ k, Steady k (joinedPartsFrom k)
  | 0 => steady_zero _
  | k + 1 => by
    unfold joinedPartsFrom
    intro R hR m n hmn hleft
    refine (steady_textPart hR hmn hleft).bind fun part m' n' hpart hmn' hahead => ?_
    have hleft' := Nat.lt_of_le_of_lt hahead.left_le hleft
    refine (steady_peek hR hmn' hleft').bind fun b m'' n'' hpeek hmn'' _ => ?_
    obtain ⟨rfl, -⟩ := left_took_of_peek hpeek
    split
    · exact alike_pure hmn'' _
    · rename_i hb
      obtain hless | hend := textPart_cases hpart
      · exact ((steady_joinedPartsFrom k).bind fun _ => steady_pure _) hR hmn'' (by omega)
      · rw [hpeek] at hend
        cases hend
        exact absurd rfl hb

/-! ## Operations of tables -/

theorem steady_textHint (number : Nat) : Steady k (textHint number) := by
  refine steady_get_bind fun R hR m n hmn hleft => ?_
  dsimp only
  rw [← hR.surroundings hmn]
  split
  · exact alike_throw hmn (by simp)
  split
  · exact alike_pure hmn _
  split
  · exact alike_pure hmn _
  · exact alike_throw hmn (by simp)

/-- The operations of a table do not go back. -/
def IsForward (table : List (Nat × Operation)) : Prop :=
  ∀ item ∈ table, item.2.arguments ≠ .repeated

instance (table : List (Nat × Operation)) : Decidable (IsForward table) :=
  inferInstanceAs (Decidable (∀ item ∈ table, _))

theorem steady_runFrom {table : List (Nat × Operation)} (h : IsForward table) (kind : String) (code : Nat) :
    Steady k (runFrom kind table code) := by
  unfold runFrom
  split
  · rename_i op hop
    exact steady_operation (h _ (Table.mem_of_get? hop))
  · exact steady_throw (by simp [missingOperation])

theorem isForward_draw : IsForward drawOperations := by decide

theorem isForward_firstGoblin : IsForward firstGoblinOperations := by decide

theorem isForward_geisha : IsForward geishaOperations := by decide

theorem steady_runFirstGoblin : Steady k runFirstGoblin := by
  have hrun (command : Nat) (named : Bool) : Steady k (
      if command < 40 ∧ named = false then line ["o1_goblinFunc", toString command]
      else runFrom "goblin" firstGoblinOperations command) := by
    split
    · exact steady_line _
    · exact steady_runFrom isForward_firstGoblin _ _
  refine steady_word.bind fun command => (steady_read 2).bind fun _ => ?_
  dsimp only
  split
  · exact (steady_read 4).bind fun _ => (steady_pure _).bind fun named => hrun _ _
  split
  · exact (steady_read 4).bind fun _ => (steady_pure _).bind fun named => hrun _ _
  split
  · exact (steady_read 2).bind fun _ => (steady_pure _).bind fun named => hrun _ _
  split
  · exact (steady_read 2).bind fun _ => (steady_pure _).bind fun named => hrun _ _
  · exact (steady_pure _).bind fun named => hrun _ _

/-- Going back two bytes to a number that lies in the script and reading it again does not go back in the end. -/
theorem alike_repeated (hR : Likeness R) (hmn : R m n) (hpos : m.cursor.pos ≤ m.cursor.data.size) :
    Alike R Arguments.repeated.read Arguments.repeated.read m n := by
  have hback : m.cursor.move (-2) .current = .ok ⟨m.cursor.data, m.cursor.pos - 2⟩ := by
    have h : ((m.cursor.pos : Int) + -2).toNat = m.cursor.pos - 2 := by omega
    show (Except.ok ⟨_, ((m.cursor.pos : Int) + -2).toNat⟩ : Except Fault Cursor) = _
    rw [h]
  generalize hc : (⟨m.cursor.data, m.cursor.pos - 2⟩ : Cursor) = c at hback
  have hreread : Ahead m (m.moved (c.read 2).2) := by
    have hlength := Cursor.length_next 2 c
    subst hc
    refine ⟨rfl, rfl, ?_, ?_, ⟨"", by rw [String.append_empty]; rfl⟩⟩
    · show _ ≤ m.cursor.pos - 2 + (Cursor.next 2 _).length
      rw [hlength]
      unfold Cursor.left
      dsimp only
      omega
    · show m.cursor.pos - 2 + (Cursor.next 2 _).length ≤ _
      rw [hlength]
      unfold Cursor.left
      dsimp only
      omega
  have hskip (count : Nat) : Steady ((m.moved (c.read 2).2).cursor.left + 1) (do
      return (← Source.read (count * 2)).map fun b => toString b.toNat) := (steady_read _).bind fun _ => steady_pure _
  have hback' : n.cursor.move (-2) .current = .ok c := by rw [← hR.cursor hmn, hback]
  have hend := hskip (c.read 2).1.toNatLE hR (hR.moved hmn (c.read 2).2) (Nat.lt_succ_self _)
  unfold Arguments.read
  rcases hrun : (do
      return (← Source.read ((c.read 2).1.toNatLE * 2)).map fun b => toString b.toNat : Script (List String)).run.run
      (m.moved (c.read 2).2) with ⟨r, m'⟩
  obtain ⟨n', hrun', hmn', hahead, hr⟩ := hend.run_eq hrun
  refine .of_runs ?_ ?_ hmn' (hreread.trans hahead) hr
  · rw [run_bind_of_ok (run_seek_of_ok hback), run_bind_of_ok (run_word _)]
    exact hrun
  · rw [run_bind_of_ok (run_seek_of_ok hback'), run_bind_of_ok (run_word _)]
    exact hrun'

/-- A number that is not zero lies in the script. -/
theorem inside_of_word {v : Nat} (h : (Reading.word : Script Nat).run.run m = (.ok v, n)) (hv : v ≠ 0) :
    n.cursor.pos ≤ n.cursor.data.size := by
  rw [run_word] at h
  obtain ⟨hvalue, rfl⟩ := Prod.mk.inj h
  have hlength := Cursor.length_read_le 2 m.cursor
  show m.cursor.pos + (m.cursor.read 2).1.length ≤ m.cursor.data.size
  cases hbytes : (m.cursor.read 2).1 with
  | nil =>
    rw [hbytes] at hvalue
    cases hvalue
    exact absurd rfl hv
  | cons b bs =>
    rw [hbytes, List.length_cons] at hlength
    rw [List.length_cons]
    unfold Cursor.left at hlength
    omega

theorem steady_runGoblin : Steady k runGoblin := by
  intro R hR m n hmn hleft
  refine (steady_word hR hmn hleft).bind fun command m' n' hword hmn' hahead => ?_
  have hleft' := Nat.lt_of_le_of_lt hahead.left_le hleft
  refine (steady_read 2 hR hmn' hleft').bind fun _ m'' n'' _ hmn'' hahead' => ?_
  have hleft'' := Nat.lt_of_le_of_lt hahead'.left_le hleft'
  split
  · split
    · exact alike_throw hmn'' (by simp)
    rename_i number hnumber
    split
    · rename_i op hop
      by_cases hrepeated : op.arguments = .repeated
      · -- the command is not the one of zero, which a script that has ended gives, so its number lies in the script
        have hcommand : command ≠ 0 := by
          rintro rfl
          obtain rfl : 0 = number := Option.some.inj hnumber
          cases hop
          cases hrepeated
        have hinside := hahead'.pos_le (inside_of_word hword hcommand)
        unfold Operation.run
        rw [hrepeated]
        refine (alike_repeated hR hmn'' hinside).bind fun pieces o o' _ hoo _ => ?_
        exact steady_line _ hR hoo (Nat.lt_succ_self _)
      · exact steady_operation hrepeated hR hmn'' hleft''
    · exact alike_throw hmn'' (by simp [missingOperation])
  · exact alike_pure hmn'' ()

/-! ## Instructions -/

theorem steady_readFileField : Steady k readFileField := by
  refine (steady_read 9).bind fun field => ?_
  split
  · exact steady_pure _
  · exact steady_throw (by simp)

namespace Instruction

/-- An instruction that holds blocks, notes a call or sets the counts of its block. -/
def Steers : Instruction → Prop
  | .call | .choose | .repeatUntil | .whileDo | .ifElse | .setCommandCount => True
  | _ => False

/-- An instruction does not show an operation that goes back. -/
def IsForward : Instruction → Prop
  | .display op => op.arguments ≠ .repeated
  | _ => True

instance : DecidablePred IsForward := fun i => by
  cases i <;> unfold IsForward <;> infer_instance

theorem isForward_of_mem {version : Nat} {set : List (Nat × Instruction)} (h : instructionSet? version = some set)
    {item : Nat × Instruction} (hitem : item ∈ set) : item.2.IsForward := by
  have hall : ∀ item ∈ instructions48 ++ instructions52 ++ instructions51 ++ instructions50 ++ instructions49,
      item.2.IsForward := by decide
  apply hall
  unfold instructionSet? at h
  split at h
  · cases h
    simp only [List.mem_append] at hitem ⊢
    grind
  · cases h
    exact List.mem_append_right _ hitem
  · cases h
    simp only [List.mem_append] at hitem ⊢
    grind
  · cases h
    simp only [List.mem_append] at hitem ⊢
    grind
  · cases h
    simp only [List.mem_append] at hitem ⊢
    grind
  · cases h

theorem steady_run {i : Instruction} (hforward : i.IsForward) (hsteers : ¬ i.Steers) (block : Script Unit) :
    Steady k (i.run block) := by
  cases i with
  | call | choose | repeatUntil | whileDo | ifElse | setCommandCount => exact absurd trivial hsteers
  | display op => exact steady_operation hforward
  | unsupported name => exact steady_throw (by simp)
  | showText => exact steady_word.bind fun _ => (steady_textHint _).bind fun _ => steady_linePieces _
  | textPart =>
    exact steady_word.bind fun _ => steady_variableName.bind fun _ => steady_expression.bind fun _ =>
      (steady_textHint _).bind fun _ => steady_linePieces _
  | assign => exact steady_variableName.bind fun _ => steady_expression.bind fun _ => steady_line _
  | assignMany =>
    refine steady_peek.bind fun _ => steady_variableName.bind fun _ => (steady_skipIf _).bind fun b => ?_
    split
    · exact steady_byte.bind fun count => (steady_times steady_expression count).bind fun _ => steady_line _
    · exact steady_expression.bind fun _ => steady_line _
  | loadSprite =>
    exact (steady_mapM fun p _ => steady_param p).bind fun _ => (steady_line _).bind fun _ =>
      (steady_read 1).bind fun _ => steady_pure ()
  | printText =>
    exact (steady_times steady_expression 5).bind fun _ => steady_left_bind fun l =>
      (steady_textPartsFrom (l + 1)).bind fun _ => (steady_read 1).bind fun _ => steady_line _
  | printTextParts =>
    exact (steady_times steady_expression 5).bind fun _ => steady_left_bind fun l =>
      (steady_joinedPartsFrom (l + 1)).bind fun _ => (steady_read 1).bind fun _ => steady_line _
  | loadScript =>
    refine steady_code.bind fun length => ?_
    split
    · refine (steady_read _).bind fun name => ?_
      split
      · exact steady_line _
      · exact steady_throw (by simp)
    · exact steady_expression.bind fun _ => steady_line _
  | loadPalette =>
    refine steady_code.bind fun code => (steady_line _).bind fun _ => ?_
    split
    · exact (steady_read _).bind fun _ => steady_pure ()
    · exact steady_throw (by simp)
  | draw => exact steady_code.bind fun code => steady_runFrom isForward_draw _ code
  | goblin => exact steady_runFirstGoblin
  | goblinCommand => exact steady_runGoblin
  | geisha => exact steady_word.bind fun _ => (steady_read 2).bind fun _ => steady_runFrom isForward_geisha _ _
  | loadSound =>
    refine steady_expression.bind fun _ => steady_word.bind fun number => ?_
    split
    · exact steady_readFileField.bind fun _ => steady_line _
    · exact steady_line _
  | loadSoundFile =>
    refine steady_expression.bind fun _ => steady_word.bind fun number => ?_
    split
    · exact steady_readFileField.bind fun _ => steady_line _
    · exact steady_line _
  | textLength =>
    exact (steady_skipIf _).bind fun _ => steady_variableName.bind fun _ => steady_variableName.bind fun _ =>
      steady_line _

end Instruction

end AdventureKit.Script
