import AdventureKit.Proofs.Bytes
import AdventureKit.Proofs.Script.Steering
import AdventureKit.Script.Listing

/-!
# Blocks inside blocks

Blocks change the progress of a machine too.  What they do is said of two machines, for families of relations that
these changes keep (`Kinship`).  With equality this says that the bound of `blockFrom` does not matter, so that a block
obeys the equation `run_block` without any bound.  With a relation that leaves the listing, the depth and the earlier
calls open it says that the calls of a block depend on its place alone.
-/

namespace AdventureKit.Script

variable {α β : Type} {j k : Nat} {m n m' n' : Machine}

/-! ## Changes of the progress -/

/-- How many commands were started, and how many there are, zero if that was never set. -/
def Progress.counts (p : Progress) : Nat × Nat :=
  (p.counter.getD 0, p.commandCount.getD 0)

/-- What a line of the listing starts with. -/
def Progress.mark (p : Progress) : Nat × Int :=
  (p.offset, p.depth)

/-- A change that may add calls, and does the same to equal counts and to equal marks. -/
structure Mild (f : Progress → Progress) : Prop where
  calls : ∃ targets, (∀ t ∈ targets, t < placeLimit) ∧ ∀ p, (f p).calls = p.calls ++ targets
  counts : ∀ {p q : Progress}, p.counts = q.counts → (f p).counts = (f q).counts
  mark : ∀ {p q : Progress}, p.mark = q.mark → (f p).mark = (f q).mark

theorem mild_of_calls {f : Progress → Progress} (hcalls : ∀ p, (f p).calls = p.calls)
    (hcounts : ∀ {p q : Progress}, p.counts = q.counts → (f p).counts = (f q).counts)
    (hmark : ∀ {p q : Progress}, p.mark = q.mark → (f p).mark = (f q).mark) : Mild f :=
  ⟨⟨[], by simp, fun p => by rw [hcalls, List.append_nil]⟩, hcounts, hmark⟩

/-- A family of relations that the changes of a block keep.  Inside a block the counts are the same in both machines,
outside they need not be. -/
structure Kinship (R : (inside : Bool) → Machine → Machine → Prop) : Prop where
  likeness : ∀ c, Likeness (R c)
  outside : ∀ {c m n}, R true m n → R c m n
  counts : ∀ {m n}, R true m n → m.progress.counts = n.progress.counts
  updated : ∀ {c m n f}, Mild f → R c m n → R c (m.updated f) (n.updated f)
  enter : ∀ {c m n}, R c m n → ∀ count, R true (m.updated (Progress.enter count)) (n.updated (Progress.enter count))
  leave : ∀ {c m n m' n'}, R c m n → R true m' n' →
    R c (m'.updated m.progress.leave) (n'.updated n.progress.leave)

/-- From `m` and every machine of its kin, `p` and `q` do the same. -/
def Kindred (α : Type) (p q : Script α) (m : Machine) : Prop :=
  ∀ ⦃R⦄, Kinship R → ∀ ⦃c n⦄, R c m n → Alike (R c) p q m n

theorem comparison_kindred : Comparison Kindred where
  steady_at hp hleft _ hR _ _ hmn := hp (hR.likeness _) hmn hleft
  bind_at hp hf _ hR _ _ hmn := (hp hR hmn).bind fun a m' _ hrun hmn' hahead => hf a m' hrun hahead hR hmn'

theorem kinship_eq : Kinship fun _ => Eq where
  likeness _ := likeness_eq
  outside h := h
  counts h := by rw [h]
  updated _ h := by rw [h]
  enter h _ := by rw [h]
  leave h h' := by rw [h, h']

section Runs

variable {p q : Script α} {r : Except Fault α}

/-- Kindred steps from one machine are the same run. -/
theorem Compared.run_eq (h : Compared Kindred k p q) (hleft : m.cursor.left < k) : p.run.run m = q.run.run m := by
  have halike := h hleft kinship_eq (c := true) rfl
  exact Prod.ext halike.result halike.related

theorem Compared.ahead (h : Compared Kindred k p q) (hleft : m.cursor.left < k) (hrun : p.run.run m = (r, n)) :
    Ahead m n := by
  obtain ⟨-, -, -, hahead, -⟩ := (h hleft kinship_eq (c := true) rfl).run_eq hrun
  exact hahead

theorem Compared.lasts (h : Compared Kindred k p q) (hleft : m.cursor.left < k) (hrun : p.run.run m = (r, n)) :
    r ≠ .error .exhausted := by
  obtain ⟨-, -, -, -, hlasts⟩ := (h hleft kinship_eq (c := true) rfl).run_eq hrun
  exact hlasts

end Runs

theorem kindred_update {f : Progress → Progress} (hf : Mild f) : Compared Kindred k (update f) (update f) :=
  fun m _ _ hR _ n hmn =>
    .of_runs (run_update f m) (run_update f n) (hR.updated hf hmn) (ahead_updated f m) (by simp)

theorem kindred_mark : Compared Kindred k mark mark :=
  comparison_kindred.steady_bind steady_place fun here =>
    kindred_update (mild_of_calls (fun _ => rfl) id fun h => congrArg (fun mark => (here, mark.2)) h)

/-! ## Instructions -/

variable {b b' : Script Unit}

theorem word_lt_placeLimit (m : Machine) : (m.cursor.read 2).1.toNatLE < placeLimit := by
  have hword : (m.cursor.next 2).toNatLE = Bytes.word m.cursor.rest := by
    rw [Cursor.next_eq_take, ← Cursor.rest_eq_drop]
    rfl
  show (m.cursor.next 2).toNatLE < Bytes.limit 2
  rw [hword]
  exact Bytes.word_lt _

theorem kindred_call : Compared Kindred k (Instruction.call.run b) (Instruction.call.run b') := by
  intro m hleft
  refine comparison_kindred.bind_at (comparison_kindred.steady_at steady_word hleft) fun target m' hrun hahead => ?_
  rw [run_word] at hrun
  have htarget : target < placeLimit := by
    cases hrun
    exact word_lt_placeLimit m
  have hmild : Mild fun p => { p with calls := p.calls ++ [target] } :=
    ⟨⟨[target], by simpa using htarget, fun _ => rfl⟩, id, id⟩
  exact comparison_kindred.steady_bind (steady_line _) (fun _ => kindred_update hmild)
    (Nat.lt_of_le_of_lt hahead.left_le hleft)

theorem Instruction.kindred_run (hb : Compared Kindred k b b') {i : Instruction} (hforward : i.IsForward) :
    Compared Kindred k (i.run b) (i.run b') := by
  by_cases hcall : i = .call
  · subst hcall
    exact kindred_call
  by_cases hcount : i = .setCommandCount
  · subst hcount
    refine comparison_kindred.steady_bind steady_code fun count =>
      comparison_kindred.bind (kindred_update ?_) fun _ => comparison_kindred.steady (steady_line _)
    exact mild_of_calls (fun _ => rfl) (fun _ => rfl) id
  · exact comparison_kindred.run hb hforward hcall hcount

theorem isForward_of_instruction? {s : Surroundings} {code : Nat} {i : Instruction}
    (h : s.instruction? code = some i) : i.IsForward := by
  unfold Surroundings.instruction? at h
  cases hset : s.version.bind instructionSet? with
  | none =>
    rw [hset] at h
    cases h
  | some set =>
    rw [hset] at h
    obtain ⟨version, -, hversion⟩ := Option.bind_eq_some_iff.1 hset
    exact Instruction.isForward_of_mem hversion (Table.mem_of_get? h)

/-! ## Commands -/

theorem kindred_perform (hb : Compared Kindred k b b') (code : Nat) :
    Compared Kindred k (perform b code) (perform b' code) := by
  have hmild : Mild fun p => { p with counter := some (p.counter.getD 0 + 1) } :=
    mild_of_calls (fun _ => rfl) (fun h => congrArg (fun counts => (counts.1 + 1, counts.2)) h) id
  refine comparison_kindred.bind (kindred_update hmild) fun _ => comparison_kindred.bind kindred_mark fun _ => ?_
  intro m hleft R hR c n hmn
  refine Alike.get_bind ?_
  rw [← (hR.likeness c).surroundings hmn]
  split
  · exact alike_throw hmn (by simp)
  · rename_i i hi
    have hrun := Instruction.kindred_run hb (isForward_of_instruction? hi)
    exact comparison_kindred.bind hrun (fun _ => kindred_mark) hleft hR hmn

theorem kindred_command (hb : Compared Kindred k b b') : Compared Kindred (k + 1) (command b) (command b') :=
  comparison_kindred.steady_bind_of_consumes steady_code consumes_code fun code =>
    kindred_perform hb (commandCode code)

/-- Every command takes a byte. -/
theorem consumed_of_command (hb : Compared Kindred k b b') (hleft : m.cursor.left < k + 1)
    (h : (command b).run.run m = (.ok (), n)) : n.cursor.left < m.cursor.left := by
  obtain ⟨code, u, hcode, h⟩ := run_bind_eq_ok h
  have hless := consumes_code hcode
  have hahead := (kindred_perform hb (commandCode code)).ahead (by omega) h
  exact Nat.lt_of_le_of_lt hahead.left_le hless

theorem alike_commandsFrom {R : Bool → Machine → Machine → Prop} (hR : Kinship R) (hb : Compared Kindred k b b') :
    ∀ j, j ≤ k + 1 → ∀ ⦃m n⦄, R true m n → m.cursor.left < j →
      Alike (R true) (commandsFrom b j) (commandsFrom b' j) m n
  | 0, _ => fun _ _ _ hleft => absurd hleft (Nat.not_lt_zero _)
  | j + 1, hj => by
    intro m n hmn hleft
    unfold commandsFrom
    refine Alike.get_bind ?_
    obtain ⟨hcounter, hcount⟩ := Prod.mk.inj (hR.counts hmn)
    dsimp only
    rw [← hcounter, ← hcount]
    split
    · have hb' := hb.mono (Nat.le_of_succ_le_succ hj)
      refine (kindred_command hb' hleft hR hmn).bind fun _ m' n' hrun hmn' _ => ?_
      have hless := consumed_of_command hb' hleft hrun
      exact alike_commandsFrom hR hb j (Nat.le_of_succ_le hj) hmn' (by omega)
    · exact alike_pure hmn ()

theorem steady_skipRest (start size : Nat) : Steady k (skipRest start size) := by
  refine steady_place.bind fun here => ?_
  dsimp only
  split
  · exact (steady_read _).bind fun _ => steady_say _ _
  split
  · exact steady_throw (by simp)
  · exact steady_pure ()

theorem kindred_commands (hb : Compared Kindred k b b') (start size count : Nat) :
    Compared Kindred k (commands b start size count) (commands b' start size count) := by
  intro m hleft R hR c n hmn
  unfold commands
  refine Alike.get_bind ?_
  -- inside the block the counts are the same, behind it each machine has its own ones back
  have henter : Alike (R true) (update (Progress.enter count)) (update (Progress.enter count)) m n :=
    .of_runs (run_update _ m) (run_update _ n) (hR.enter hmn count) (ahead_updated _ m) (by simp)
  refine henter.bind_change hR.outside fun _ m₁ n₁ _ hmn₁ hahead₁ => ?_
  have hleft₁ := Nat.lt_of_le_of_lt hahead₁.left_le hleft
  refine (steady_left (hR.likeness true) hmn₁ hleft₁).bind_change hR.outside fun l m₂ n₂ hrun hmn₂ _ => ?_
  rw [run_left] at hrun
  cases hrun
  have hcommands := alike_commandsFrom hR hb (m₁.cursor.left + 1) (Nat.succ_le_succ (Nat.le_of_lt hleft₁)) hmn₂
    (Nat.lt_succ_self _)
  refine hcommands.bind_change hR.outside fun _ m₃ n₃ _ hmn₃ _ => ?_
  have hskip := steady_skipRest start size (hR.likeness true) hmn₃ (Nat.lt_succ_self _)
  refine hskip.bind_change hR.outside fun _ m₄ n₄ _ hmn₄ _ => ?_
  exact .of_runs (run_update _ m₄) (run_update _ n₄) (hR.leave hmn hmn₄) (ahead_updated _ m₄) (by simp)

/-! ## Blocks -/

theorem kindred_areas (hb : Compared Kindred k b b') (count : Nat) :
    Compared Kindred k (areas b count) (areas b' count) := by
  have hdepth (f : Int → Int) : Mild fun p => { p with depth := f p.depth } :=
    mild_of_calls (fun _ => rfl) id fun h => congrArg (fun mark => (mark.1, f mark.2)) h
  exact comparison_kindred.bind (kindred_update (hdepth (· + 1))) fun _ =>
    comparison_kindred.bind (comparison_kindred.areaList hb count) fun _ => kindred_update (hdepth (· - 1))

theorem kindred_blockWith (hb : Compared Kindred k b b') : Compared Kindred (k + 1) (blockWith b) (blockWith b') :=
  comparison_kindred.blockWith (kindred_areas hb) (kindred_commands hb)

/-- Above the number of bytes left the bound of a block does not matter. -/
theorem kindred_blockFrom : ∀ {j k k'}, j ≤ k → j ≤ k' → Compared Kindred j (blockFrom k) (blockFrom k')
  | 0, _, _, _, _ => compared_zero _ _
  | _ + 1, _ + 1, _ + 1, h, h' =>
    kindred_blockWith (kindred_blockFrom (Nat.le_of_succ_le_succ h) (Nat.le_of_succ_le_succ h'))

theorem kindred_block (k : Nat) : Compared Kindred k block block :=
  comparison_kindred.left_bind fun _ _ => kindred_blockFrom (Nat.le_refl _) (Nat.le_refl _)

theorem run_blockFrom (hleft : m.cursor.left < k) : (blockFrom k).run.run m = block.run.run m := by
  unfold block
  rw [run_bind_of_ok (run_left m)]
  exact (kindred_blockFrom (k := k) hleft (Nat.le_refl _)).run_eq (Nat.lt_succ_self _)

theorem kindred_blockFrom_block (k : Nat) : Compared Kindred k (blockFrom k) block := by
  intro m hleft R hR c n hmn
  have halike := kindred_block k hleft hR hmn
  rcases hrun : block.run.run m with ⟨r, m'⟩
  obtain ⟨n', hn', hR', hahead, hr⟩ := halike.run_eq hrun
  exact .of_runs ((run_blockFrom hleft).trans hrun) hn' hR' hahead hr

/-- A block is decompiled with the blocks inside it, without any bound. -/
theorem run_block (m : Machine) : block.run.run m = (blockWith block).run.run m := by
  rw [← run_blockFrom (Nat.lt_succ_self _)]
  exact (kindred_blockWith (kindred_blockFrom_block _)).run_eq (Nat.lt_succ_self _)

/-- A block that is there takes a byte. -/
theorem consumed_of_block (hleft : m.cursor.left ≠ 0) (h : block.run.run m = (.ok (), n)) :
    n.cursor.left < m.cursor.left := by
  rw [run_block] at h
  unfold blockWith at h
  rw [run_bind_of_ok (run_place m), run_bind_of_ok (run_left m), if_neg hleft] at h
  obtain ⟨kind, u, hkind, h⟩ := run_bind_eq_ok h
  have hbehind := comparison_kindred.blockOf (kindred_areas (kindred_block (u.cursor.left + 1)))
    (kindred_commands (kindred_block _)) m.cursor.pos kind
  have hahead := hbehind.ahead (Nat.lt_succ_self _) h
  exact Nat.lt_of_le_of_lt hahead.left_le (consumes_byte hkind)

/-! ## Calls -/

/-- Machines at the same place of the same script whose calls go on alike behind `cs` and `ds`.  Inside a block the
counts are the same too. -/
structure Calling (cs ds : List Nat) (inside : Bool) (m n : Machine) : Prop where
  cursor : m.cursor = n.cursor
  surroundings : m.surroundings = n.surroundings
  calls : ∃ ts, (∀ t ∈ ts, t < placeLimit) ∧ m.progress.calls = cs ++ ts ∧ n.progress.calls = ds ++ ts
  counts : inside = true → m.progress.counts = n.progress.counts

theorem kinship_calling (cs ds : List Nat) : Kinship (Calling cs ds) where
  likeness _ :=
    { cursor := fun h => h.cursor
      surroundings := fun h => h.surroundings
      moved := fun h _ => ⟨rfl, h.surroundings, h.calls, h.counts⟩
      wrote := fun h _ => ⟨h.cursor, h.surroundings, h.calls, h.counts⟩
      margin := fun h => ⟨h.cursor, h.surroundings, h.calls, h.counts⟩ }
  outside h := ⟨h.cursor, h.surroundings, h.calls, fun _ => h.counts rfl⟩
  counts h := h.counts rfl
  updated {c m n f} hf h := by
    obtain ⟨us, hus, hcalls⟩ := hf.calls
    obtain ⟨ts, hts, hm, hn⟩ := h.calls
    refine ⟨h.cursor, h.surroundings, ⟨ts ++ us, ?_, ?_, ?_⟩, fun hc => hf.counts (h.counts hc)⟩
    · exact fun t ht => (List.mem_append.1 ht).elim (hts t) (hus t)
    · exact (hcalls _).trans (by rw [hm, List.append_assoc])
    · exact (hcalls _).trans (by rw [hn, List.append_assoc])
  enter h _ := ⟨h.cursor, h.surroundings, h.calls, fun _ => rfl⟩
  leave h h' := ⟨h'.cursor, h'.surroundings, h'.calls, h.counts⟩

/-- Which calls a step notes depends on the script and the place alone. -/
theorem Compared.calls {p q : Script α} {r : Except Fault α} (h : Compared Kindred k p q) (hleft : m.cursor.left < k)
    (hcursor : m'.cursor = m.cursor) (hsurroundings : m'.surroundings = m.surroundings)
    (hrun : p.run.run m = (r, n)) :
    ∃ n' ts, q.run.run m' = (r, n') ∧ (∀ t ∈ ts, t < placeLimit) ∧ n.progress.calls = m.progress.calls ++ ts ∧
      n'.progress.calls = m'.progress.calls ++ ts := by
  have hstart : Calling m.progress.calls m'.progress.calls false m m' :=
    ⟨hcursor.symm, hsurroundings.symm, ⟨[], by simp, by simp, by simp⟩, by simp⟩
  obtain ⟨n', hn', hend, -, -⟩ := (h hleft (kinship_calling _ _) hstart).run_eq hrun
  obtain ⟨ts, hts, hcalls, hcalls'⟩ := hend.calls
  exact ⟨n', ts, hn', hts, hcalls, hcalls'⟩

/-! ## Text -/

theorem margin_eq_of_mark {p q : Progress} (h : p.mark = q.mark) : margin p = margin q := by
  obtain ⟨hoffset, hdepth⟩ := Prod.mk.inj h
  unfold margin
  rw [hoffset, hdepth]

/-- Machines at the same place of the same script with the same mark, whose listings go on alike behind `a` and `b`.
Inside a block the counts are the same too. -/
structure Writing (a b : String) (inside : Bool) (m n : Machine) : Prop where
  cursor : m.cursor = n.cursor
  surroundings : m.surroundings = n.surroundings
  mark : m.progress.mark = n.progress.mark
  listing : ∃ text, m.listing = a ++ text ∧ n.listing = b ++ text
  counts : inside = true → m.progress.counts = n.progress.counts

theorem Writing.wrote {a b : String} {c : Bool} (h : Writing a b c m n) (s : String) :
    Writing a b c (m.wrote s) (n.wrote s) := by
  obtain ⟨text, hm, hn⟩ := h.listing
  refine ⟨h.cursor, h.surroundings, h.mark, ⟨text ++ s, ?_, ?_⟩, h.counts⟩
  · rw [← String.append_assoc, ← hm]
    rfl
  · rw [← String.append_assoc, ← hn]
    rfl

theorem kinship_writing (a b : String) : Kinship (Writing a b) where
  likeness _ :=
    { cursor := fun h => h.cursor
      surroundings := fun h => h.surroundings
      moved := fun h _ => ⟨rfl, h.surroundings, h.mark, h.listing, h.counts⟩
      wrote := fun h s => h.wrote s
      margin := fun h => by rw [margin_eq_of_mark h.mark]; exact h.wrote _ }
  outside h := ⟨h.cursor, h.surroundings, h.mark, h.listing, fun _ => h.counts rfl⟩
  counts h := h.counts rfl
  updated hf h := ⟨h.cursor, h.surroundings, hf.mark h.mark, h.listing, fun hc => hf.counts (h.counts hc)⟩
  enter h _ := ⟨h.cursor, h.surroundings, congrArg (fun mark => (mark.1, mark.2 + 1)) h.mark, h.listing, fun _ => rfl⟩
  leave h h' := ⟨h'.cursor, h'.surroundings, congrArg (fun mark => (mark.1, mark.2 - 1)) h'.mark, h'.listing, h.counts⟩

/-- What a step writes depends on the script, the place and the mark alone. -/
theorem Compared.text {p q : Script α} {r : Except Fault α} (h : Compared Kindred k p q) (hleft : m.cursor.left < k)
    (hcursor : m'.cursor = m.cursor) (hsurroundings : m'.surroundings = m.surroundings)
    (hmark : m'.progress.mark = m.progress.mark) (hrun : p.run.run m = (r, n)) :
    ∃ n' text, q.run.run m' = (r, n') ∧ n'.progress.mark = n.progress.mark ∧ n.listing = m.listing ++ text ∧
      n'.listing = m'.listing ++ text := by
  have hstart : Writing m.listing m'.listing false m m' :=
    ⟨hcursor.symm, hsurroundings.symm, hmark.symm, ⟨"", by simp, by simp⟩, by simp⟩
  obtain ⟨n', hn', hend, -, -⟩ := (h hleft (kinship_writing _ _) hstart).run_eq hrun
  obtain ⟨text, htext, htext'⟩ := hend.listing
  exact ⟨n', text, hn', hend.mark.symm, htext, htext'⟩

end AdventureKit.Script
