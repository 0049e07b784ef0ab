import AdventureKit.Proofs.Lzss.Extent
import AdventureKit.Proofs.Script.Steady
import AdventureKit.Script.Arguments

/-!
# Expressions and arguments are steady

An expression, the name of a variable and the arguments of an operation are read by steady steps: every turn of their
loops takes a byte.  The one exception is an operation that goes back to reread a number (`Arguments.repeated`); where
it stands behind that number it is steady too.
-/

namespace AdventureKit.Script

variable {α : Type} {k : Nat} {m n : Machine}

/-! ## Expressions -/

theorem steady_skipTo (stop : Nat) : ∀ k, Steady k (skipTo stop k)
  | 0 => steady_zero _
  | k + 1 => by
    unfold skipTo
    refine steady_code.bind_of_consumes consumes_code fun code => ?_
    split
    · exact steady_pure ()
    · exact steady_skipTo stop k

theorem steady_skipIf (code : Nat) : Steady k (skipIf code) := by
  refine steady_peek.bind fun b => ?_
  split
  · exact (steady_read 1).bind fun _ => steady_pure true
  · exact steady_pure false

section Inside

variable {index argument : Script String}

theorem steady_indicesFrom (hindex : Steady k index) (sizes : Bytes) (count : Nat) :
    Steady k (indicesFrom index sizes count) := by
  induction count generalizing sizes with
  | zero => exact steady_pure []
  | succ count ih => exact hindex.bind fun _ => (ih _).bind fun _ => steady_pure _

theorem steady_indices (hindex : Steady k index) : Steady k (indices index) :=
  steady_byte.bind fun count => (steady_read count).bind fun sizes =>
    (steady_indicesFrom hindex sizes count).bind fun _ => steady_pure _

theorem steady_displacement (hindex : Steady k index) : Steady k (displacement index) := by
  refine (steady_skipIf 13).bind fun b => ?_
  cases b with
  | false => exact steady_pure ""
  | true => exact hindex.bind fun _ => steady_pure _

theorem steady_memberPath (hindex : Steady k index) : Steady k (memberPath index) :=
  steady_word.bind fun _ => (steady_read 2).bind fun _ => steady_byte.bind fun count =>
    (steady_read count).bind fun _ => (steady_times hindex count).bind fun _ => steady_pure _

theorem steady_structureBase : Steady k structureBase :=
  steady_word.bind fun _ => (steady_read 2).bind fun _ => steady_pure _

theorem steady_operand (hindex : Steady k index) (hargument : Steady k argument) (code : Nat) :
    Steady k (operand index argument code) := by
  have hword (h : Nat → String) : Steady k (do return h (← Reading.word)) := steady_word.bind fun _ => steady_pure _
  have hindices (h : Nat → String → String) : Steady k (do return h (← Reading.word) (← indices index)) :=
    steady_word.bind fun _ => (steady_indices hindex).bind fun _ => steady_pure _
  unfold operand
  split
  · exact hword _
  · exact hword _
  · exact steady_dword.bind fun _ => steady_pure _
  · exact hword _
  · exact steady_byte.bind fun _ => steady_pure _
  · exact steady_asciiText.bind fun _ => steady_pure _
  · exact hword _
  · exact hword _
  · exact steady_word.bind fun _ => (steady_displacement hindex).bind fun _ => steady_pure _
  · exact hindices _
  · exact hindices _
  · exact hindices _
  · exact steady_word.bind fun _ => (steady_indices hindex).bind fun _ =>
      (steady_displacement hindex).bind fun _ => steady_pure _
  · exact steady_code.bind fun _ => hargument.bind fun _ => steady_pure _

end Inside

theorem steady_expressionFrom : ∀ (k stop : Nat) (opened : Int) (text : String),
    Steady k (expressionFrom k stop opened text)
  | 0, _, _, _ => steady_zero _
  | k + 1, stop, opened, text => by
    -- every call inside is behind a byte, so the smaller bound is enough for it
    have hon := steady_expressionFrom k
    have hinside (stop : Nat) : Steady k (do return parenthesized (← expressionFrom k stop 0 "")) :=
      (hon stop 0 "").bind fun _ => steady_pure _
    have hfinish (code : Nat) (opened : Int) (text : String) :
        Steady k (if code = stop ∧ (stop ≠ endOfArgument ∨ opened < 0) then pure (nameVariables text)
          else expressionFrom k stop opened text) := by
      split
      · exact steady_pure _
      · exact hon stop opened text
    unfold expressionFrom
    refine steady_byte.bind_of_consumes consumes_byte fun code => ?_
    split
    · exact steady_structureBase.bind fun _ => (steady_skipIf 97).bind fun _ => hon _ _ _
    split
    · exact (steady_memberPath (hinside _)).bind fun _ => (steady_skipIf 97).bind fun _ => hon _ _ _
    split
    · exact (steady_operand (hinside _) (hinside _) code).bind fun _ => hfinish _ _ _
    split
    · dsimp only
      split
      · exact hon _ _ _
      split
      · exact hfinish _ _ _
      · exact hon _ _ _
    · split
      · dsimp only
        split
        · exact (steady_write _).bind fun _ => hfinish _ _ _
        · exact hfinish _ _ _
      split
      · exact hfinish _ _ _
      · exact (steady_skipTo stop k).bind fun _ => steady_pure _

theorem steady_expressionTo (stop : Nat) : Steady k (expressionTo stop) :=
  steady_left_bind fun l => (steady_expressionFrom (l + 1) stop 0 "").bind fun _ => steady_pure _

theorem steady_expression : Steady k expression :=
  steady_expressionTo _

theorem steady_indexExpression : Steady k indexExpression :=
  steady_expressionTo _

/-! ## Variables -/

/-- Where the byte was skipped it was there. -/
theorem consumed_of_skipIf {code : Nat} (h : (skipIf code).run.run m = (.ok true, n)) :
    n.cursor.left < m.cursor.left := by
  unfold skipIf at h
  obtain ⟨b, u, hpeek, h⟩ := run_bind_eq_ok h
  rw [run_peek] at hpeek
  obtain ⟨hb, rfl⟩ := Prod.mk.inj hpeek
  split at hb
  · cases hb
  rename_i c cs hnext
  split at h
  · rw [run_bind_of_ok (run_read 1 m)] at h
    cases h
    exact Cursor.left_took_lt hnext
  · cases h

theorem steady_variableCode : ∀ (k : Nat) (path : String) (code : Nat), Steady k (variableCode k path code)
  | 0, _, _ => steady_zero _
  | k + 1, path, code => by
    unfold variableCode
    split
    · have hon (path : String) : Steady (k + 1) (do
          if ← skipIf 97 then variableCode k path (← Reading.byte) else return none) := by
        intro R hR m n hmn hleft
        refine (steady_skipIf 97 hR hmn hleft).bind fun b m' n' hrun hmn' hahead => ?_
        cases b with
        | false => exact alike_pure hmn' _
        | true =>
          have hless := consumed_of_skipIf hrun
          exact (steady_byte.bind fun code => steady_variableCode k path code) hR hmn' (by omega)
      dsimp only
      split
      · exact steady_structureBase.bind fun _ => hon _
      · exact (steady_memberPath steady_indexExpression).bind fun _ => hon _
    · exact steady_pure _

theorem steady_variablePlace (code : Nat) : Steady k (variablePlace code) := by
  have hword (h : Nat → String) : Steady k (do return h (← Reading.word)) := steady_word.bind fun _ => steady_pure _
  have hindices (h : Nat → String → String) :
      Steady k (do return h (← Reading.word) (← indices indexExpression)) :=
    steady_word.bind fun _ => (steady_indices steady_indexExpression).bind fun _ => steady_pure _
  unfold variablePlace
  split
  · exact hword _
  · exact hword _
  · exact steady_word.bind fun _ => (steady_displacement steady_indexExpression).bind fun _ => steady_pure _
  · exact hword _
  · exact hword _
  · exact hindices _
  · exact hindices _
  · exact hindices _
  · exact steady_word.bind fun _ => (steady_indices steady_indexExpression).bind fun _ =>
      (steady_displacement steady_indexExpression).bind fun _ => steady_pure _
  · exact steady_pure _

theorem steady_variableName : Steady k variableName := by
  refine steady_code.bind fun code => steady_left_bind fun l => ?_
  refine (steady_variableCode (l + 1) "" code).bind fun found => ?_
  cases found with
  | none => exact steady_pure _
  | some found => exact (steady_variablePlace found.1).bind fun _ => steady_pure _

/-! ## Resources -/

/-- A step that does not come to a bound of a loop. -/
def Lasts {σ : Type} (x : Reading σ α) : Prop :=
  ∀ s, (x.run.run s).1 ≠ .error .exhausted

section Lasting

variable {σ β : Type}

theorem lasts_pure (a : α) : Lasts (pure a : Reading σ α) := fun _ h => nomatch h

theorem Lasts.bind {x : Reading σ α} {f : α → Reading σ β} (hx : Lasts x) (hf : ∀ a, Lasts (f a)) :
    Lasts (x >>= f) := by
  intro s
  rcases hrun : x.run.run s with ⟨e | a, t⟩
  · have he := hx s
    rw [run_bind_of_error hrun]
    rw [hrun] at he
    simpa using he
  · rw [run_bind_of_ok hrun]
    exact hf a t

theorem lasts_read (j : Int) : Lasts (Source.read j : Reading Cursor Bytes) := by
  intro c h
  by_cases hcount : IsCount j
  · simp [Source.read, Cursor.fetch, hcount, ExceptT.run, StateT.run] at h
  · simp [Source.read, Cursor.fetch, hcount, ExceptT.run, StateT.run] at h

theorem lasts_seek (j : Int) : Lasts (Source.seek j .current : Reading Cursor Int) := by
  intro c h
  cases hseek : c.seek j .current with
  | ok c' => simp [Source.seek, hseek, ExceptT.run, StateT.run] at h
  | error e =>
    obtain rfl : e = .exhausted := by simpa [Source.seek, hseek, ExceptT.run, StateT.run] using h
    unfold Cursor.seek at hseek
    split at hseek
    · dsimp only [Cursor.move, bind, Except.bind] at hseek
      split at hseek
      · cases hseek
      · cases hseek
    · cases hseek

theorem lasts_code : Lasts (Reading.code : Reading Cursor Nat) := by
  have hbyte : Lasts (Reading.byteOr .code : Reading Cursor UInt8) := by
    refine (lasts_read 1).bind fun bs => ?_
    cases bs with
    | nil => exact fun s h => nomatch h
    | cons b bs => exact lasts_pure b
  exact hbyte.bind fun _ => lasts_pure _

theorem lasts_signedWord : Lasts (Reading.signedWord : Reading Cursor Int) :=
  (lasts_read 2).bind fun _ => lasts_pure _

theorem Lasts.readTimes {x : Reading σ α} (hx : Lasts x) (j : Nat) : Lasts (Resource.readTimes x j) := by
  induction j with
  | zero => exact lasts_pure []
  | succ j ih => exact hx.bind fun _ => ih.bind fun _ => lasts_pure _

theorem lasts_skipRecords (size : Nat) : Lasts (Mult.skipRecords size) :=
  lasts_signedWord.bind fun _ => (lasts_read _).bind fun _ => lasts_pure _

theorem lasts_readKey (size : Nat) : Lasts (Mult.readKey size) :=
  (lasts_seek 2).bind fun _ => lasts_signedWord.bind fun _ => (lasts_seek (-4)).bind fun _ =>
    (lasts_read size).bind fun _ => lasts_pure _

theorem lasts_readMult : Lasts Mult.read :=
  lasts_code.bind fun _ => lasts_code.bind fun _ => ((lasts_read 14).readTimes _).bind fun _ =>
    (lasts_read 2).bind fun _ => (lasts_skipRecords 4).bind fun _ => ((lasts_skipRecords 10).readTimes 4).bind fun _ =>
    (lasts_read 240).bind fun _ => (lasts_skipRecords 7).bind fun _ => (lasts_skipRecords 80).bind fun _ =>
    (lasts_skipRecords _).bind fun _ => lasts_signedWord.bind fun _ => ((lasts_readKey _).readTimes _).bind fun _ =>
    lasts_pure _

end Lasting

theorem ofBytes_lasts (data : Bytes) : Mult.ofBytes data ≠ .error .exhausted :=
  lasts_readMult _

theorem contentAt_lasts (file : Bytes) (place : Nat) (item : Resource.Item) :
    Resource.contentAt file place item ≠ .error .exhausted := by
  unfold Resource.contentAt
  dsimp only
  split
  · have hunpack : Lzss.unpackSized (file.drop place) ≠ .error .exhausted := Lzss.unpackFrom_lasts _ _ _
    cases hx : Lzss.unpackSized (file.drop place) with
    | error e =>
      rw [hx] at hunpack
      simpa [Except.map] using hunpack
    | ok r => simp [Except.map]
  · simp

theorem steady_readResource (items : List Resource.Item) (index : Int) (data : Bytes) (shared : Option Bytes) :
    Steady k (readResource items index data shared) := by
  have hitem : Resource.itemAt items index ≠ .error .exhausted := by
    unfold Resource.itemAt
    dsimp only
    split
    · simp
    · simp
  refine (steady_lift hitem).bind fun item => ?_
  split
  · refine (steady_say _ _).bind fun _ => ?_
    cases shared with
    | none => exact steady_throw (by simp)
    | some file => exact steady_lift (contentAt_lasts _ _ _)
  · exact steady_lift (contentAt_lasts _ _ _)

theorem steady_skipCounted (size : Nat) : Steady k (skipCounted size) :=
  steady_word.bind fun _ => (steady_read _).bind fun _ => steady_pure _

theorem steady_skipLayer : Steady k skipLayer :=
  steady_word.bind fun _ => (steady_read _).bind fun _ => steady_pure _

theorem steady_skipKeys (commands : List Int) : Steady k (skipKeys commands) := by
  induction commands with
  | nil => exact steady_pure ()
  | cons command commands ih =>
    refine Steady.bind ?_ fun _ => ih
    unfold skipKey
    split
    · exact (steady_read 2).bind fun _ => steady_pure ()
    split
    · exact (steady_read 4).bind fun _ => steady_pure ()
    · exact steady_pure ()

theorem steady_skipMult (mult : Mult) (version : Nat) : Steady k (skipMult mult version) := by
  have hstatic : Steady k (do
      let _ ← expression
      skipCounted 2
      skipLayer) := steady_expression.bind fun _ => (steady_skipCounted 2).bind fun _ => steady_skipLayer
  have hanimation : Steady k (do
      let _ ← expression
      skipLayer) := steady_expression.bind fun _ => steady_skipLayer
  refine (steady_times hstatic _).bind fun _ => (steady_times hanimation _).bind fun _ =>
    (steady_skipKeys _).bind fun _ => ?_
  split
  · refine (steady_skipCounted 2).bind fun _ => ?_
    split
    · exact steady_skipCounted 14
    · exact steady_pure ()
  · exact steady_pure ()

theorem steady_passMult (number : Nat) : Steady k (passMult number) := by
  have hloaded (s : Surroundings) (items : List Resource.Item) : Steady k (do
      let data ← readResource items ((number : Int) - firstResource) s.itemData s.shared
      let mult ← Mult.ofBytes data
      skipMult mult (s.version.getD 0)
      return [toString number]) :=
    (steady_readResource _ _ _ _).bind fun data => (steady_lift (ofBytes_lasts data)).bind fun mult =>
      (steady_skipMult _ _).bind fun _ => steady_pure _
  refine steady_get_bind fun R hR m n hmn hleft => ?_
  dsimp only
  rw [← hR.surroundings hmn]
  split
  · exact hloaded _ _ hR hmn hleft
  · exact (Steady.bind (steady_throw (by simp)) fun _ => hloaded _ _) hR hmn hleft

theorem steady_readMult : Steady k readMult := by
  refine steady_word.bind fun number => ?_
  dsimp only
  split
  · exact (steady_read 1).bind fun _ => steady_passMult _
  · exact steady_passMult _

/-! ## Arguments -/

theorem steady_readTotSub : Steady k readTotSub := by
  refine steady_code.bind fun length => ?_
  dsimp only
  split
  · exact (steady_expression.map _).bind fun _ => steady_code.bind fun _ => steady_pure _
  · exact ((steady_read _).map _).bind fun _ => steady_code.bind fun _ => steady_pure _

theorem steady_param (p : Param) : Steady k p.read := by
  cases p with
  | word => exact steady_word.bind fun _ => steady_pure _
  | byte => exact steady_code.bind fun _ => steady_pure _
  | expr => exact steady_expression
  | var => exact steady_variableName
  | totSub => exact steady_readTotSub
  | poppedVars => exact steady_code.bind fun count => (steady_times steady_variableName count).bind fun _ => steady_pure _

theorem steady_readPushed : Steady k readPushed := by
  refine steady_peek.bind fun code => ?_
  split
  · exact steady_variableName.bind fun _ => (steady_read 1).bind fun _ => steady_pure _
  · exact steady_expression.bind fun _ => steady_pure _

theorem steady_arguments {arguments : Arguments} (h : arguments ≠ .repeated) : Steady k arguments.read := by
  cases arguments with
  | each params => exact steady_mapM fun p _ => steady_param p
  | mult => exact steady_readMult
  | playedMult => exact steady_word.bind fun _ => steady_pure _
  | animation =>
    exact steady_expression.bind fun _ => steady_word.bind fun _ => steady_word.bind fun _ =>
      (steady_read _).bind fun _ => steady_pure _
  | multObject =>
    exact (steady_times steady_expression 3).bind fun _ => (steady_times steady_expression _).bind fun _ =>
      steady_pure _
  | staticLayer =>
    exact steady_expression.bind fun _ => steady_word.bind fun _ => (steady_read _).bind fun _ =>
      steady_word.bind fun _ => steady_word.bind fun _ => (steady_read _).bind fun _ => steady_pure _
  | pushedVars => exact steady_code.bind fun count => steady_times steady_readPushed count
  | mapObjects =>
    refine steady_variableName.bind fun _ => steady_word.bind fun _ => ?_
    dsimp only
    split
    · exact (steady_word.bind fun count => steady_times steady_word count).bind fun _ => steady_pure _
    · exact (steady_pure []).bind fun _ => steady_pure _
  | music => exact steady_word.bind fun _ => steady_pure _
  | goblins => exact steady_times (steady_word.bind fun _ => steady_pure _) 6
  | repeated => exact absurd rfl h

theorem steady_operation {op : Operation} (h : op.arguments ≠ .repeated) : Steady k op.run :=
  (steady_arguments h).bind fun _ => steady_line _

end AdventureKit.Script
