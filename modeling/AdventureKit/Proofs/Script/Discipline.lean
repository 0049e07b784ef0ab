import AdventureKit.Proofs.Fault
import AdventureKit.Proofs.Script.Nesting

/-!
# The discipline of blocks

A block that is decompiled leaves the depth and the counts of commands as they were, though the blocks and areas inside
it use the same ones.  A block of commands ends where its size says, or at the end of the script if that comes first.
All blocks inside it stay in these limits, and it runs as many commands as it announces, unless one of them changes
that number.
-/

namespace AdventureKit.Script

variable {α β : Type} {j k : Nat} {m n u : Machine}

/-! ## Runs that leave the progress in order -/

/-- The run of a step from `m` to `n` kept the depth, and the counts too if `counted`.  If it stayed between `first`
and `last`, the step `q` has the same run. -/
structure Keeps (counted : Prop) (first last : Nat) (q : Script α) (m : Machine) (a : α) (n : Machine) : Prop where
  ahead : Ahead m n
  depth : n.progress.depth = m.progress.depth
  counts : counted → n.progress.counts = m.progress.counts
  within : first ≤ m.cursor.pos → n.cursor.pos ≤ last → q.run.run m = (.ok a, n)

/-- If `p` gives a value, its run is in order. -/
def Orderly (counted : Prop) (first last : Nat) (α : Type) (p q : Script α) (m : Machine) : Prop :=
  ∀ ⦃a n⦄, p.run.run m = (.ok a, n) → Keeps counted first last q m a n

variable {counted : Prop} {first last : Nat}

theorem comparison_orderly : Comparison (Orderly counted first last) where
  steady_at {α k m p} hp hleft a n h :=
    { ahead := hp.ahead hleft h
      depth := by rw [hp.progress_eq hleft h]
      counts := fun _ => by rw [hp.progress_eq hleft h]
      within := fun _ _ => h }
  bind_at {α β m p q f g} hp hf b n h := by
    obtain ⟨a, u, ha, hb⟩ := run_bind_eq_ok h
    have hkept := hp ha
    have hkept' := hf a u ha hkept.ahead hb
    refine ⟨hkept.ahead.trans hkept'.ahead, hkept'.depth.trans hkept.depth,
      fun hc => (hkept'.counts hc).trans (hkept.counts hc), fun hfirst hlast => ?_⟩
    have hq := hkept.within hfirst (Nat.le_trans hkept'.ahead.forward hlast)
    rw [run_bind_of_ok hq]
    exact hkept'.within (Nat.le_trans hfirst hkept.ahead.forward) hlast

theorem Orderly.get_bind {f g : Machine → Script α} (h : Orderly counted first last α (f m) (g m) m) :
    Orderly counted first last α (get >>= f) (get >>= g) m := by
  intro a n hrun
  rw [run_bind_of_ok (run_get m)] at hrun
  obtain ⟨hahead, hdepth, hcounts, hwithin⟩ := h hrun
  refine ⟨hahead, hdepth, hcounts, fun hfirst hlast => ?_⟩
  rw [run_bind_of_ok (run_get m)]
  exact hwithin hfirst hlast

theorem Compared.uncounted {p q : Script α} (h : Compared (Orderly True first last) k p q) :
    Compared (Orderly False first last) k p q := by
  intro m hleft a n hrun
  obtain ⟨hahead, hdepth, -, hwithin⟩ := h hleft hrun
  exact ⟨hahead, hdepth, False.elim, hwithin⟩

theorem orderly_update {f : Progress → Progress} (hdepth : ∀ p, (f p).depth = p.depth)
    (hcounts : counted → ∀ p, (f p).counts = p.counts) :
    Compared (Orderly counted first last) k (update f) (update f) := by
  intro m _ a n h
  rw [run_update] at h
  cases h
  exact ⟨ahead_updated f m, hdepth _, fun hc => hcounts hc _, fun _ _ => run_update f m⟩

theorem orderly_mark : Compared (Orderly counted first last) k mark mark :=
  comparison_orderly.steady_bind steady_place fun _ => orderly_update (fun _ => rfl) fun _ _ => rfl

/-! ## Commands -/

variable {b b' : Script Unit}

theorem Instruction.orderly_run (hb : Compared (Orderly counted first last) k b b') {i : Instruction}
    (hforward : i.IsForward) (hcounted : counted → i ≠ .setCommandCount) :
    Compared (Orderly counted first last) k (i.run b) (i.run b') := by
  by_cases hcall : i = .call
  · subst hcall
    exact comparison_orderly.steady_bind steady_word fun _ => comparison_orderly.steady_bind (steady_line _) fun _ =>
      orderly_update (fun _ => rfl) fun _ _ => rfl
  by_cases hcount : i = .setCommandCount
  · subst hcount
    exact comparison_orderly.steady_bind steady_code fun _ => comparison_orderly.bind
      (orderly_update (fun _ => rfl) fun hc => absurd rfl (hcounted hc)) fun _ =>
        comparison_orderly.steady (steady_line _)
  · exact comparison_orderly.run hb hforward hcall hcount

theorem orderly_perform (hb : Compared (Orderly False first last) k b b') (code : Nat) :
    Compared (Orderly False first last) k (perform b code) (perform b' code) := by
  refine comparison_orderly.bind (orderly_update (fun _ => rfl) False.elim) fun _ =>
    comparison_orderly.bind orderly_mark fun _ m hleft => Orderly.get_bind ?_
  split
  · exact comparison_orderly.steady_at (steady_throw (by simp)) hleft
  · rename_i i hi
    have hrun := Instruction.orderly_run hb (isForward_of_instruction? hi) False.elim
    exact comparison_orderly.bind hrun (fun _ => orderly_mark) hleft

theorem orderly_command (hb : Compared (Orderly False first last) k b b') :
    Compared (Orderly False first last) k (command b) (command b') :=
  comparison_orderly.steady_bind steady_code fun code => orderly_perform hb (commandCode code)

theorem orderly_commandsFrom (hb : Compared (Orderly False first last) k b b') :
    ∀ j, Compared (Orderly False first last) k (commandsFrom b j) (commandsFrom b' j)
  | 0 => fun _ _ _ _ h => nomatch h
  | j + 1 => by
    unfold commandsFrom
    refine fun m hleft => Orderly.get_bind ?_
    dsimp only
    split
    · exact comparison_orderly.bind (orderly_command hb) (fun _ => orderly_commandsFrom hb j) hleft
    · exact comparison_orderly.steady_at (steady_pure ()) hleft

/-! ## Blocks -/

/-- The parts of the run of a block of commands. -/
theorem run_commands_eq_ok {start size count : Nat} (h : (commands b start size count).run.run m = (.ok (), n)) :
    ∃ v w, (commandsFrom b (m.cursor.left + 1)).run.run (m.updated (Progress.enter count)) = (.ok (), v) ∧
      (skipRest start size).run.run v = (.ok (), w) ∧ n = w.updated m.progress.leave := by
  unfold commands at h
  rw [run_bind_of_ok (run_get m), run_bind_of_ok (run_update _ m), run_bind_of_ok (run_left _)] at h
  obtain ⟨_, v, hv, h⟩ := run_bind_eq_ok h
  obtain ⟨_, w, hw, h⟩ := run_bind_eq_ok h
  rw [run_update] at h
  cases h
  exact ⟨v, w, hv, hw, rfl⟩

theorem counts_leave (outer p : Progress) : (outer.leave p).counts = outer.counts := rfl

theorem orderly_commands (hb : Compared (Orderly True first last) k b b') (start size count : Nat) :
    Compared (Orderly True first last) k (commands b start size count) (commands b' start size count) := by
  intro m hleft a n h
  obtain ⟨v, w, hv, hw, rfl⟩ := run_commands_eq_ok h
  have hentered := ahead_updated (Progress.enter count) m
  have hkept := orderly_commandsFrom hb.uncounted _ (Nat.lt_of_le_of_lt hentered.left_le hleft) hv
  have hskip := steady_skipRest (k := v.cursor.left + 1) start size
  have hpassed := hskip.ahead (Nat.lt_succ_self _) hw
  refine ⟨?_, ?_, fun _ => counts_leave _ _, fun hfirst hlast => ?_⟩
  · exact hentered.trans (hkept.ahead.trans (hpassed.trans (ahead_updated _ w)))
  · have hdepth : v.progress.depth = m.progress.depth + 1 := hkept.depth
    rw [← hskip.progress_eq (Nat.lt_succ_self _) hw] at hdepth
    show w.progress.depth - 1 = m.progress.depth
    omega
  · have hrun := hkept.within hfirst (Nat.le_trans hpassed.forward hlast)
    unfold commands
    rw [run_bind_of_ok (run_get m), run_bind_of_ok (run_update _ m), run_bind_of_ok (run_left _)]
    exact (run_bind_of_ok hrun).trans (run_bind_of_ok hw)

theorem orderly_areas (hb : Compared (Orderly True first last) k b b') (count : Nat) :
    Compared (Orderly True first last) k (areas b count) (areas b' count) := by
  intro m hleft a n h
  unfold areas at h
  rw [run_bind_of_ok (run_update _ m)] at h
  obtain ⟨_, u, hu, h⟩ := run_bind_eq_ok h
  rw [run_update] at h
  cases h
  have hentered := ahead_updated (fun p => { p with depth := p.depth + 1 }) m
  have hkept := comparison_orderly.areaList hb count (Nat.lt_of_le_of_lt hentered.left_le hleft) hu
  refine ⟨hentered.trans (hkept.ahead.trans (ahead_updated _ u)), ?_, hkept.counts, fun hfirst hlast => ?_⟩
  · have hdepth : u.progress.depth = m.progress.depth + 1 := hkept.depth
    show u.progress.depth - 1 = m.progress.depth
    omega
  · unfold areas
    rw [run_bind_of_ok (run_update _ m)]
    exact run_bind_of_ok (hkept.within hfirst hlast)

theorem orderly_blockWith (hb : Compared (Orderly True first last) k b b') :
    Compared (Orderly True first last) (k + 1) (blockWith b) (blockWith b') :=
  comparison_orderly.blockWith (orderly_areas hb) (orderly_commands hb)

/-! ## Blocks inside a block -/

/-- Runs a step that has to stay between `first` and `last`. -/
def within (first last : Nat) (p : Script Unit) : Script Unit := do
  if (← place) < first then throw (.disagreement .blockTag)
  p
  if last < (← place) then throw (.disagreement .blockTag)

/-- Decompiles a block.  It and all blocks inside it have to stay between `first` and `last`. -/
def blockInsideFrom (first last : Nat) : (bound : Nat) → Script Unit
  | 0 => throw .exhausted
  | bound + 1 => within first last (blockWith (blockInsideFrom first last bound))

/-- Decompiles the block at the cursor.  All blocks inside it have to stay between `first` and `last`. -/
def blockAround (first last : Nat) : Script Unit := do
  blockWith (blockInsideFrom first last (← left))

theorem run_within {p : Script Unit} (hfirst : first ≤ m.cursor.pos) (hlast : n.cursor.pos ≤ last)
    (h : p.run.run m = (.ok (), n)) : (within first last p).run.run m = (.ok (), n) := by
  unfold within
  rw [run_bind_of_ok (run_place m), if_neg (Nat.not_lt.2 hfirst)]
  refine (run_bind_of_ok h).trans ?_
  rw [run_bind_of_ok (run_place n), if_neg (Nat.not_lt.2 hlast)]
  rfl

theorem orderly_blockFrom : ∀ k, Compared (Orderly True first last) k (blockFrom k) (blockInsideFrom first last k)
  | 0 => compared_zero _ _
  | k + 1 => by
    intro m hleft a n h
    obtain ⟨hahead, hdepth, hcounts, hwithin⟩ := orderly_blockWith (orderly_blockFrom k) hleft h
    exact ⟨hahead, hdepth, hcounts, fun hfirst hlast => run_within hfirst hlast (hwithin hfirst hlast)⟩

theorem orderly_block (first last : Nat) : Compared (Orderly True first last) k block (blockAround first last) := by
  intro m _ a n h
  unfold block at h
  rw [run_bind_of_ok (run_left m)] at h
  obtain ⟨hahead, hdepth, hcounts, hwithin⟩ :=
    orderly_blockWith (orderly_blockFrom m.cursor.left) (Nat.lt_succ_self _) h
  refine ⟨hahead, hdepth, hcounts, fun hfirst hlast => ?_⟩
  unfold blockAround
  rw [run_bind_of_ok (run_left m)]
  exact hwithin hfirst hlast

/-! ## The commands of a block -/

/-- The instruction of the command at the cursor. -/
def Machine.instruction? (m : Machine) : Option Instruction :=
  (m.cursor.next 1).head?.bind fun b => m.surroundings.instruction? (commandCode b.toNat)

/-- The machine at the start of the instruction of the command at the cursor. -/
def Machine.started (m : Machine) : Machine :=
  (m.moved (m.cursor.took 1)).updated fun p =>
    { p with counter := some (p.counter.getD 0 + 1), offset := (m.cursor.took 1).pos }

/-- The parts of the run of a command. -/
theorem run_command_eq_ok (h : (command b).run.run m = (.ok (), n)) :
    ∃ i v, m.instruction? = some i ∧ (i.run b).run.run m.started = (.ok (), v) ∧
      n = v.updated fun p => { p with offset := v.cursor.pos } := by
  obtain ⟨code, u, hcode, h⟩ := run_bind_eq_ok h
  rw [run_code] at hcode
  obtain ⟨hcode, rfl⟩ := Prod.mk.inj hcode
  rcases hnext : m.cursor.next 1 with _ | ⟨byte, bytes⟩
  · rw [hnext] at hcode
    cases hcode
  rw [hnext] at hcode
  cases hcode
  unfold perform mark at h
  rw [run_bind_of_ok (run_update _ _), bind_assoc, run_bind_of_ok (run_place _),
    run_bind_of_ok (run_update _ _), run_bind_of_ok (run_get _)] at h
  split at h
  · cases h
  · rename_i i hi
    obtain ⟨_, v, hv, h⟩ := run_bind_eq_ok h
    cases h
    refine ⟨i, v, ?_, hv, rfl⟩
    rw [Machine.instruction?, hnext]
    exact hi

/-- A command that leaves the counts to the block is counted once. -/
theorem counts_of_command {i : Instruction} (hi : m.instruction? = some i) (hcount : i ≠ .setCommandCount)
    (h : (command block).run.run m = (.ok (), n)) :
    n.progress.counts = (m.progress.counts.1 + 1, m.progress.counts.2) := by
  obtain ⟨i', v, hi', hv, rfl⟩ := run_command_eq_ok h
  obtain rfl : i' = i := Option.some.inj (hi'.symm.trans hi)
  have hforward : i'.IsForward := by
    obtain ⟨byte, -, hbyte⟩ := Option.bind_eq_some_iff.1 hi
    exact isForward_of_instruction? hbyte
  have hrun := Instruction.orderly_run (orderly_block 0 0) hforward (fun _ => hcount)
    (Nat.lt_succ_self _) hv
  exact hrun.counts trivial

/-- From a machine in a block to its last command: the instructions that the block runs itself. -/
inductive Ran : Machine → List Instruction → Machine → Prop
  | done {m : Machine} : m.progress.counts.2 ≤ m.progress.counts.1 → Ran m [] m
  | step {m u n : Machine} {i : Instruction} {is : List Instruction} : m.progress.counts.1 < m.progress.counts.2 →
      m.instruction? = some i → (command block).run.run m = (.ok (), u) → Ran u is n → Ran m (i :: is) n

theorem ran_of_commandsFrom : ∀ {j : Nat} {m n : Machine}, (commandsFrom block j).run.run m = (.ok (), n) →
    ∃ is, Ran m is n
  | 0, _, _, h => nomatch h
  | j + 1, m, n, h => by
    unfold commandsFrom at h
    rw [run_bind_of_ok (run_get m)] at h
    dsimp only at h
    split at h
    · rename_i hless
      obtain ⟨_, u, hu, h⟩ := run_bind_eq_ok h
      obtain ⟨i, -, hi, -, -⟩ := run_command_eq_ok hu
      obtain ⟨is, his⟩ := ran_of_commandsFrom h
      exact ⟨i :: is, .step hless hi hu his⟩
    · rename_i hless
      cases h
      exact ⟨[], .done (Nat.le_of_not_lt hless)⟩

/-- A block runs as many commands as are left to start. -/
theorem Ran.length_eq {is : List Instruction} (h : Ran m is n) (hcount : .setCommandCount ∉ is)
    (hcounts : m.progress.counts.1 ≤ m.progress.counts.2) :
    m.progress.counts.1 + is.length = m.progress.counts.2 := by
  induction h with
  | done hdone => exact Nat.le_antisymm hcounts hdone
  | step hless hi hrun _ ih =>
    obtain ⟨hne, hmem⟩ := not_or.1 (mt List.mem_cons.2 hcount)
    have hcounted := counts_of_command hi (Ne.symm hne) hrun
    rw [hcounted] at ih
    have hlength := ih hmem hless
    rw [List.length_cons]
    omega

/-! ## The end of a block -/

theorem pos_of_skipRest {start size : Nat} (hstart : start ≤ m.cursor.pos) (hinside : m.cursor.pos ≤ m.cursor.data.size)
    (h : (skipRest start size).run.run m = (.ok (), n)) :
    m.cursor.pos ≤ start + size + 2 ∧ n.cursor.pos = min (start + size + 2) m.cursor.data.size := by
  unfold skipRest at h
  rw [run_bind_of_ok (run_place m)] at h
  dsimp only at h
  split at h
  · rename_i hused
    rw [run_bind_of_ok (run_read _ m), run_say] at h
    cases h
    refine ⟨by omega, ?_⟩
    show m.cursor.pos + (m.cursor.next (size + 2 - (m.cursor.pos - start))).length = _
    rw [Cursor.length_next, Cursor.left]
    omega
  split at h
  · cases h
  · cases h
    omega

theorem run_blockWith_of_commands {count : UInt8} {rest : Bytes} (h : m.cursor.rest = 1 :: count :: rest)
    (hcount : count ≠ 0) :
    (blockWith b).run.run m =
      (commands b m.cursor.pos (Bytes.word rest) count.toNat).run.run (m.moved (m.cursor.took 4)) := by
  have hleft : m.cursor.left ≠ 0 := by
    rw [← Cursor.length_rest, h]
    simp
  have hfront : m.cursor.rest = [1] ++ count :: rest := h
  have hkind : m.cursor.next 1 = [1] := Cursor.next_of_rest hfront rfl
  have hrest : (m.cursor.took 1).rest = [count] ++ rest := Cursor.rest_took hfront rfl
  have hnext : (m.cursor.took 1).next 1 = [count] := Cursor.next_of_rest hrest rfl
  have hrest' : ((m.cursor.took 1).took 1).rest = rest := Cursor.rest_took hrest rfl
  have hsize : ((m.cursor.took 1).took 1).next 2 = rest.take 2 := by
    rw [Cursor.next_eq_take, ← Cursor.rest_eq_drop, hrest']
  have hcount' : count.toNat ≠ 0 := fun h => hcount (UInt8.toNat_inj.1 h)
  unfold blockWith
  rw [run_bind_of_ok (run_place m), run_bind_of_ok (run_left m), if_neg hleft, run_bind_of_ok (run_byte_of_cons hkind)]
  unfold blockOf
  rw [run_bind_of_ok (run_byte_of_cons hnext)]
  show ((Reading.word : Script Nat) >>= fun size => if count.toNat ≠ 0 then _ else _).run.run _ = _
  rw [run_bind_of_ok (run_word _), if_pos hcount']
  show (commands b _ (((m.cursor.took 1).took 1).next 2).toNatLE _).run.run
    (m.moved (((m.cursor.took 1).took 1).took 2)) = _
  rw [hsize, Cursor.took_took, Cursor.took_took]
  rfl

/-- **Blocks are disciplined.** A block that is decompiled leaves the depth and the counts as they were.  A block of
commands ends behind its size or at the end of the script, all blocks inside it stay inside it, and it runs the number
of commands that it announces, if none of them changes that number. -/
theorem block_keeps_order (h : block.run.run m = (.ok (), n)) :
    n.progress.depth = m.progress.depth ∧ n.progress.counts = m.progress.counts ∧
      ∀ count rest, m.cursor.rest = 1 :: count :: rest → count ≠ 0 →
        let last := m.cursor.pos + Bytes.word rest + 2
        n.cursor.pos = min last m.cursor.data.size ∧
          (blockAround m.cursor.pos last).run.run m = (.ok (), n) ∧
          ∃ is u w, Ran ((m.moved (m.cursor.took 4)).updated (Progress.enter count.toNat)) is u ∧
            (skipRest m.cursor.pos (Bytes.word rest)).run.run u = (.ok (), w) ∧ n = w.updated m.progress.leave ∧
            (.setCommandCount ∉ is → is.length = count.toNat) := by
  have hkept (first last : Nat) := orderly_block first last (Nat.lt_succ_self _) h
  refine ⟨(hkept 0 0).depth, (hkept 0 0).counts trivial, fun count rest hrest hcount => ?_⟩
  rw [run_block, run_blockWith_of_commands hrest hcount] at h
  obtain ⟨u, w, hu, hw, rfl⟩ := run_commands_eq_ok h
  have hpos : m.cursor.pos < m.cursor.data.size := by
    have hlength := Cursor.length_rest m.cursor
    rw [hrest, List.length_cons, Cursor.left] at hlength
    omega
  have hahead := (orderly_commandsFrom (orderly_block 0 0).uncounted _ (Nat.lt_succ_self _) hu).ahead
  have hdata : u.cursor.data = m.cursor.data := hahead.data
  have hstart : m.cursor.pos ≤ u.cursor.pos := Nat.le_trans (Nat.le_add_right _ _) hahead.forward
  have hinside := hahead.pos_le (Cursor.pos_took_le (Nat.le_of_lt hpos) 4)
  obtain ⟨-, hend⟩ := pos_of_skipRest hstart hinside hw
  rw [hdata] at hend
  obtain ⟨is, his⟩ := ran_of_commandsFrom hu
  refine ⟨hend, (hkept _ _).within (Nat.le_refl _) (Nat.le_trans (Nat.le_of_eq hend) (Nat.min_le_left _ _)),
    is, u, w, his, hw, rfl, fun hcount => ?_⟩
  have hlength : 0 + is.length = count.toNat := his.length_eq hcount (Nat.zero_le _)
  omega

/-- A loop with a block inside it, a call, and a byte to skip. -/
def loopScript : Machine where
  cursor := .ofBytes [1, 2, 15, 0, 0x70, 99, 1, 1, 5, 0, 0, 200, 0, 0, 130, 0, 7, 0x24]
  listing := ""
  surroundings := ⟨some 49, [], none, none, [], none⟩
  progress := ⟨0, 3, some 5, some 9, []⟩

theorem block_keeps_order_of_loop :
    ∃ n, block.run.run loopScript = (.ok (), n) ∧ n.progress.calls = [200, 130] ∧ n.progress.depth = 3 ∧
      n.progress.counts = (5, 9) ∧ n.cursor.pos = 17 ∧ (blockAround 0 17).run.run loopScript = (.ok (), n) ∧
      ∃ is u w, Ran ((loopScript.moved (loopScript.cursor.took 4)).updated (Progress.enter 2)) is u ∧
        (skipRest 0 15).run.run u = (.ok (), w) ∧ n = w.updated loopScript.progress.leave ∧
        (.setCommandCount ∉ is → is.length = 2) := by
  have hrest : loopScript.cursor.rest = 1 :: 2 :: [15, 0, 0x70, 99, 1, 1, 5, 0, 0, 200, 0, 0, 130, 0, 7, 0x24] := by
    decide
  obtain ⟨n, hrun, hcalls⟩ : ∃ n, block.run.run loopScript = (.ok (), n) ∧ n.progress.calls = [200, 130] :=
    ⟨_, run_eq_of_result (eq_ok_of_toOption (by decide +kernel)), by decide +kernel⟩
  obtain ⟨hdepth, hcounts, hcommands⟩ := block_keeps_order hrun
  obtain ⟨hend, haround, hran⟩ := hcommands 2 _ hrest (by decide)
  exact ⟨n, hrun, hcalls, hdepth, hcounts, hend, haround, hran⟩

end AdventureKit.Script
