import AdventureKit.Proofs.Fault
import AdventureKit.Proofs.Script.Operands

/-!
# Expressions end by themselves

An expression is read up to the byte that ends it, and what follows that byte does not matter.  Two kinds of steps
make this up.  A step that looks ahead (`LooksAhead`) may depend on one byte behind those that it takes, and one that
comes to the end of the script may do as it likes: what is read behind it fails.  A delimited step (`Delimited`) takes
a last byte of its own and depends on nothing behind it.

The loops of the decompiler have bounds, which differ where more or fewer bytes follow.  So a step is given for every
bound, and one that takes some bytes does so under every bound from their number on.
-/

namespace AdventureKit.Script

variable {α β : Type} {k stop : Nat} {m n u m' : Machine} {used used' : Bytes} {s s' : String}

/-- The machine behind its next `count` bytes, with `s` written. -/
def Machine.after (m : Machine) (count : Nat) (s : String) : Machine :=
  (m.moved ⟨m.cursor.data, m.cursor.pos + count⟩).wrote s

namespace Machine

theorem after_zero (m : Machine) : m.after 0 "" = m := by
  simp only [after, moved, wrote, Nat.add_zero, String.append_empty]

theorem after_after (m : Machine) (i j : Nat) (s t : String) : (m.after i s).after j t = m.after (i + j) (s ++ t) := by
  simp only [after, moved, wrote, Nat.add_assoc, String.append_assoc]

theorem rest_after {behind : Bytes} (h : m.cursor.rest = used ++ behind) (s : String) :
    (m.after used.length s).cursor.rest = behind := by
  show Cursor.rest ⟨m.cursor.data, m.cursor.pos + used.length⟩ = behind
  rw [Cursor.rest_eq_drop, ← List.drop_drop, ← Cursor.rest_eq_drop, h, List.drop_left]

theorem moved_took (m : Machine) (j : Nat) : m.moved (m.cursor.took j) = m.after (m.cursor.next j).length "" := by
  simp only [after, moved, wrote, Cursor.took, String.append_empty]

end Machine

/-! ## Steps that depend on what they take -/

/-- A run from `m` to `m'` took the bytes `used`, wrote `s` and gave `a`.  From every machine where these bytes come
next, with bytes behind them that `Q` holds of, it is the same. -/
structure Taken (p : Nat → Script α) (m m' : Machine) (a : α) (used : Bytes) (s : String) (Q : Bytes → Prop) :
    Prop where
  rest_eq : m.cursor.rest = used ++ m'.cursor.rest
  after_eq : m' = m.after used.length s
  again : ∀ j n more, used.length ≤ j → n.cursor.rest = used ++ more → Q more →
    (p j).run.run n = (.ok a, n.after used.length s)

variable {p : Nat → Script α} {f : Nat → α → Script β} {Q Q' : Bytes → Prop} {a : α} {b : β}

theorem Taken.mono (h : Taken p m m' a used s Q) (hQ : ∀ more, Q' more → Q more) : Taken p m m' a used s Q' where
  rest_eq := h.rest_eq
  after_eq := h.after_eq
  again j n more hj hn hmore := h.again j n more hj hn (hQ more hmore)

theorem Taken.bind (h : Taken p m u a used s Q) (h' : Taken (fun j => f j a) u m' b used' s' Q')
    (hQ : ∀ more, Q' more → Q (used' ++ more)) :
    Taken (fun j => p j >>= f j) m m' b (used ++ used') (s ++ s') Q' where
  rest_eq := by rw [h.rest_eq, h'.rest_eq, List.append_assoc]
  after_eq := by rw [h'.after_eq, h.after_eq, Machine.after_after, List.length_append]
  again j n more hj hn hmore := by
    rw [List.length_append] at hj
    rw [List.append_assoc] at hn
    rw [run_bind_of_ok (h.again j n _ (by omega) hn (hQ more hmore)),
      h'.again j _ more (by omega) (Machine.rest_after hn s) hmore, Machine.after_after, List.length_append]

/-- With bytes left behind it, the step depends on what it took and on the next one of them.  This is about runs with
the bound `k`. -/
def LooksAhead (k : Nat) (p : Nat → Script α) : Prop :=
  ∀ ⦃m a m'⦄, (p k).run.run m = (.ok a, m') → m'.cursor.rest ≠ [] →
    ∃ used s, Taken p m m' a used s fun more => more.head? = m'.cursor.rest.head?

/-- The step depends on what it took, and the last byte of that is `stop`. -/
def Delimited (stop k : Nat) (p : Nat → Script α) : Prop :=
  ∀ ⦃m a m'⦄, (p k).run.run m = (.ok a, m') →
    ∃ used s, used.getLast?.map UInt8.toNat = some stop ∧ Taken p m m' a used s fun _ => True

theorem Delimited.looksAhead (h : Delimited stop k p) : LooksAhead k p := by
  intro m a m' hrun _
  obtain ⟨used, s, -, htaken⟩ := h hrun
  exact ⟨used, s, htaken.mono fun _ _ => trivial⟩

theorem LooksAhead.bind (hp : LooksAhead k p) (hf : ∀ a, LooksAhead k fun j => f j a) :
    LooksAhead k fun j => p j >>= f j := by
  intro m b m' hrun hrest
  obtain ⟨a, u, ha, hb⟩ := run_bind_eq_ok hrun
  obtain ⟨used', s', h'⟩ := hf a hb hrest
  -- bytes are left behind the second step, so there are some behind the first one
  have hu : u.cursor.rest ≠ [] := by simp [h'.rest_eq, hrest]
  obtain ⟨used, s, h⟩ := hp ha hu
  refine ⟨_, _, h.bind h' fun more hmore => ?_⟩
  rw [h'.rest_eq, List.head?_append, List.head?_append, hmore]

/-- A delimited step takes the byte that the step before it looked at. -/
theorem LooksAhead.bind_delimited (hp : LooksAhead k p) (hf : ∀ a, Delimited stop k fun j => f j a) :
    Delimited stop k fun j => p j >>= f j := by
  intro m b m' hrun
  obtain ⟨a, u, ha, hb⟩ := run_bind_eq_ok hrun
  obtain ⟨used', s', hlast, h'⟩ := hf a hb
  cases used' with
  | nil => cases hlast
  | cons c later =>
    obtain ⟨used, s, h⟩ := hp ha (by simp [h'.rest_eq])
    refine ⟨used ++ c :: later, s ++ s', ?_, h.bind h' fun more _ => ?_⟩
    · rw [List.getLast?_cons] at hlast
      rw [List.getLast?_append, List.getLast?_cons, Option.some_or, hlast]
    · rw [h'.rest_eq]
      rfl

theorem taken_pure (m : Machine) (a : α) : Taken (fun _ => (pure a : Script α)) m m a [] "" Q where
  rest_eq := rfl
  after_eq := m.after_zero.symm
  again j n more _ _ _ := by
    rw [List.length_nil, n.after_zero]
    rfl

theorem looksAhead_pure (a : α) : LooksAhead k fun _ => (pure a : Script α) := by
  intro m a' m' hrun _
  cases hrun
  exact ⟨[], "", taken_pure m a⟩

theorem looksAhead_throw (e : Fault) : LooksAhead k fun _ => (throw e : Script α) := by
  intro m a m' hrun
  cases hrun

theorem Delimited.bind_pure (h : Delimited stop k p) (g : α → β) :
    Delimited stop k fun j => p j >>= fun a => pure (g a) := by
  intro m b m' hrun
  obtain ⟨a, u, ha, hb⟩ := run_bind_eq_ok hrun
  cases hb
  obtain ⟨used, s, hlast, htaken⟩ := h ha
  refine ⟨used, s, hlast, htaken.rest_eq, htaken.after_eq, fun j n more hj hn hmore => ?_⟩
  rw [run_bind_of_ok (htaken.again j n more hj hn hmore)]
  rfl

theorem looksAhead_write (t : String) : LooksAhead k fun _ => write t := by
  intro m a m' hrun _
  rw [run_write] at hrun
  cases hrun
  exact ⟨[], t, rfl, rfl, fun j n more _ _ _ => run_write t n⟩

/-! ## Reading -/

/-- A read that is not short. -/
theorem taken_read {count : Nat} (h : (m.cursor.next count).length = count) :
    Taken (fun _ => (Source.read count : Script Bytes)) m (m.moved (m.cursor.took count)) (m.cursor.next count)
      (m.cursor.next count) "" fun _ => True where
  rest_eq := by
    have hsplit : m.cursor.rest = m.cursor.next count ++ m.cursor.rest.drop count := by
      rw [Cursor.next_eq_take, ← Cursor.rest_eq_drop, List.take_append_drop]
    rw [Machine.moved_took, Machine.rest_after hsplit]
    exact hsplit
  after_eq := m.moved_took count
  again j n more _ hn _ := by
    rw [run_read, Cursor.read_eq, Machine.moved_took, Cursor.next_of_rest hn h]

/-- A short read leaves nothing. -/
theorem rest_took_of_short {c : Cursor} {count : Nat} (h : (c.next count).length < count) :
    (c.took count).rest = [] := by
  refine List.eq_nil_of_length_eq_zero ?_
  rw [Cursor.length_next] at h
  rw [Cursor.length_rest]
  show c.data.size - (c.pos + (c.next count).length) = 0
  rw [Cursor.length_next]
  unfold Cursor.left at h ⊢
  omega

theorem looksAhead_read (count : Nat) : LooksAhead k fun _ => (Source.read count : Script Bytes) := by
  intro m a m' hrun hrest
  rw [run_read, Cursor.read_eq] at hrun
  cases hrun
  have hlength : (m.cursor.next count).length = count :=
    Nat.le_antisymm (Cursor.length_next_le count m.cursor)
      (Nat.le_of_not_lt fun hshort => hrest (rest_took_of_short hshort))
  exact ⟨_, _, (taken_read hlength).mono fun _ _ => trivial⟩

theorem taken_read_one {b : UInt8} {bs : Bytes} (h : m.cursor.next 1 = b :: bs) :
    Taken (fun _ => (Source.read 1 : Script Bytes)) m (m.moved (m.cursor.took 1)) (b :: bs) [b] "" fun _ => True := by
  have hlength := Cursor.length_next_le 1 m.cursor
  rw [h] at hlength
  obtain rfl : bs = [] := List.eq_nil_of_length_eq_zero (by simpa using hlength)
  have hread := @taken_read m 1 (by rw [h]; rfl)
  rwa [h] at hread

theorem taken_byteOr {w : Missing} {b : UInt8} (h : (Reading.byteOr w : Script UInt8).run.run m = (.ok b, m')) :
    Taken (fun _ => (Reading.byteOr w : Script UInt8)) m m' b [b] "" fun _ => True := by
  rw [run_byteOr] at h
  obtain ⟨hb, rfl⟩ := Prod.mk.inj h
  rcases hnext : m.cursor.next 1 with _ | ⟨c, cs⟩
  · rw [hnext] at hb
    cases hb
  · rw [hnext] at hb
    cases hb
    have hread := taken_read_one hnext
    refine ⟨hread.rest_eq, hread.after_eq, fun j n more hj hn hmore => ?_⟩
    exact run_bind_of_ok (hread.again j n more hj hn hmore)

theorem looksAhead_byteOr (w : Missing) : LooksAhead k fun _ => (Reading.byteOr w : Script UInt8) :=
  fun _ _ _ h _ => ⟨_, _, (taken_byteOr h).mono fun _ _ => trivial⟩

theorem looksAhead_byte : LooksAhead k fun _ => (Reading.byte : Script Nat) :=
  (looksAhead_byteOr .byte).bind fun _ => looksAhead_pure _

theorem looksAhead_code : LooksAhead k fun _ => (Reading.code : Script Nat) :=
  (looksAhead_byteOr .code).bind fun _ => looksAhead_pure _

theorem looksAhead_word : LooksAhead k fun _ => (Reading.word : Script Nat) :=
  (looksAhead_read 2).bind fun _ => looksAhead_pure _

theorem looksAhead_dword : LooksAhead k fun _ => (Reading.dword : Script Nat) :=
  (looksAhead_read 4).bind fun _ => looksAhead_pure _

/-- The first byte ahead. -/
theorem next_one (c : Cursor) : c.next 1 = c.rest.head?.toList := by
  rw [Cursor.next_eq_take, ← Cursor.rest_eq_drop]
  cases c.rest <;> rfl

theorem looksAhead_peek : LooksAhead k fun _ => (Reading.peek : Script Nat) := by
  intro m a m' hrun _
  have hm : m' = m := by
    rw [run_peek] at hrun
    exact (Prod.mk.inj hrun).2.symm
  subst hm
  refine ⟨[], "", rfl, (Machine.after_zero _).symm, fun j n more _ hn hmore => ?_⟩
  rw [List.nil_append] at hn
  rw [run_peek, next_one] at hrun ⊢
  rw [hn, hmore, List.length_nil, Machine.after_zero]
  exact Prod.ext (Prod.mk.inj hrun).1 rfl

theorem looksAhead_skipIf (code : Nat) : LooksAhead k fun _ => skipIf code := by
  refine looksAhead_peek.bind fun c => ?_
  split
  · exact (looksAhead_read 1).bind fun _ => looksAhead_pure true
  · exact looksAhead_pure false

/-! ## Loops -/

/-- A turn of a loop that takes a byte: what is behind it needs one less. -/
theorem Taken.succ {q : Script β} {f : Nat → β → Script α} {b : β} {c : UInt8}
    (hp : ∀ j, p (j + 1) = q >>= f j) (h : Taken (fun _ => q) m u b [c] "" fun _ => True)
    (h' : Taken (fun j => f j b) u m' a used s Q) : Taken p m m' a (c :: used) s Q where
  rest_eq := by rw [h.rest_eq, h'.rest_eq]; rfl
  after_eq := by
    rw [h'.after_eq, h.after_eq, Machine.after_after, String.empty_append, List.length_cons, Nat.add_comm]
    rfl
  again j n more hj hn hmore := by
    obtain ⟨j, rfl⟩ := Nat.exists_eq_add_one.2 (Nat.lt_of_lt_of_le (Nat.succ_pos _) hj)
    have hfirst : n.cursor.rest = [c] ++ (used ++ more) := hn
    rw [hp, run_bind_of_ok (h.again 1 n _ (Nat.le_refl 1) hfirst trivial),
      h'.again j _ more (Nat.le_of_succ_le_succ hj) (Machine.rest_after hfirst "") hmore, Machine.after_after,
      String.empty_append, List.length_cons, Nat.add_comm]
    rfl

/-- A loop that starts with a bound above the number of bytes left. -/
theorem Taken.of_left {q : Script α} (h : Taken p m m' a used s Q)
    (hq : ∀ n, q.run.run n = (p (n.cursor.left + 1)).run.run n) : Taken (fun _ => q) m m' a used s Q where
  rest_eq := h.rest_eq
  after_eq := h.after_eq
  again _ n more _ hn hmore := by
    rw [hq]
    refine h.again _ n more ?_ hn hmore
    rw [← Cursor.length_rest, hn, List.length_append]
    omega

/-- A turn of the loop: without a byte it ends, as it does at a zero. -/
theorem upToZero_succ : ∃ turn : Nat → Bytes → Script (Bytes × Bool),
    (∀ j, Reading.upToZero (j + 1) = Source.read 1 >>= turn j) ∧ (∀ j, turn j [] = pure ([], false)) ∧
    ∀ j b bs, turn j (b :: bs) =
      if b = 0 then pure ([], true) else Reading.upToZero j >>= fun r => pure (b :: r.1, r.2) :=
  ⟨_, fun _ => rfl, fun _ => rfl, fun _ _ _ => rfl⟩

theorem looksAhead_upToZero : ∀ k, LooksAhead k (Reading.upToZero : Nat → Script (Bytes × Bool))
  | 0 => fun _ _ _ h => nomatch h
  | k + 1 => by
    intro m r m' hrun hrest
    obtain ⟨turn, hp, hnil, hcons⟩ := upToZero_succ
    rw [hp, run_bind_of_ok (run_read 1 m), Cursor.read_one] at hrun
    rcases hnext : m.cursor.next 1 with _ | ⟨b, bs⟩
    · rw [hnext, hnil] at hrun
      cases hrun
      exact absurd (rest_took_of_short (by rw [hnext]; exact Nat.one_pos)) hrest
    · have hturn : LooksAhead k fun j => turn j (b :: bs) := by
        simp only [hcons]
        split
        · exact looksAhead_pure _
        · exact (looksAhead_upToZero k).bind fun _ => looksAhead_pure _
      rw [hnext] at hrun
      obtain ⟨used, s, h⟩ := hturn hrun hrest
      exact ⟨b :: used, s, .succ hp (taken_read_one hnext) h⟩

theorem looksAhead_closedText : LooksAhead k fun _ => (Reading.closedText : Script Bytes) := by
  have hloop (k : Nat) : LooksAhead k fun j =>
      (Reading.upToZero j >>= fun r => if r.2 then pure r.1 else throw .notTerminated : Script Bytes) := by
    refine (looksAhead_upToZero k).bind fun r => ?_
    split
    · exact looksAhead_pure _
    · exact looksAhead_throw _
  intro m a m' hrun hrest
  obtain ⟨used, s, h⟩ := hloop _ ((run_bind_of_ok (run_get m)).symm.trans hrun) hrest
  exact ⟨used, s, h.of_left fun n => run_bind_of_ok (run_get n)⟩

theorem looksAhead_asciiText : LooksAhead k fun _ => (Reading.asciiText : Script String) :=
  looksAhead_closedText.bind fun _ => looksAhead_pure _

/-! ## Operands -/

section Inside

variable {index argument : Nat → Script String}

theorem looksAhead_indicesFrom (hindex : LooksAhead k index) (sizes : Bytes) (count : Nat) :
    LooksAhead k fun j => indicesFrom (index j) sizes count := by
  induction count generalizing sizes with
  | zero => exact looksAhead_pure []
  | succ count ih => exact hindex.bind fun _ => (ih _).bind fun _ => looksAhead_pure _

theorem looksAhead_indices (hindex : LooksAhead k index) : LooksAhead k fun j => indices (index j) :=
  looksAhead_byte.bind fun count => (looksAhead_read count).bind fun sizes =>
    (looksAhead_indicesFrom hindex sizes count).bind fun _ => looksAhead_pure _

theorem looksAhead_displacement (hindex : LooksAhead k index) : LooksAhead k fun j => displacement (index j) := by
  refine (looksAhead_skipIf 13).bind fun b => ?_
  cases b with
  | false => exact looksAhead_pure ""
  | true => exact hindex.bind fun _ => looksAhead_pure _

theorem looksAhead_times (hindex : LooksAhead k index) (count : Nat) : LooksAhead k fun j => times (index j) count := by
  induction count with
  | zero => exact looksAhead_pure []
  | succ count ih => exact hindex.bind fun _ => ih.bind fun _ => looksAhead_pure _

theorem looksAhead_memberPath (hindex : LooksAhead k index) : LooksAhead k fun j => memberPath (index j) :=
  looksAhead_word.bind fun _ => (looksAhead_read 2).bind fun _ => looksAhead_byte.bind fun count =>
    (looksAhead_read count).bind fun _ => (looksAhead_times hindex count).bind fun _ => looksAhead_pure _

theorem looksAhead_structureBase : LooksAhead k fun _ => structureBase :=
  looksAhead_word.bind fun _ => (looksAhead_read 2).bind fun _ => looksAhead_pure _

theorem looksAhead_operand (hindex : LooksAhead k index) (hargument : LooksAhead k argument) (code : Nat) :
    LooksAhead k fun j => operand (index j) (argument j) code := by
  have hword (h : Nat → String) : LooksAhead k fun _ => (do return h (← Reading.word) : Script String) :=
    looksAhead_word.bind fun _ => looksAhead_pure _
  have hindices (h : Nat → String → String) :
      LooksAhead k fun j => (do return h (← Reading.word) (← indices (index j)) : Script String) :=
    looksAhead_word.bind fun _ => (looksAhead_indices hindex).bind fun _ => looksAhead_pure _
  unfold operand
  split
  · exact hword _
  · exact hword _
  · exact looksAhead_dword.bind fun _ => looksAhead_pure _
  · exact hword _
  · exact looksAhead_byte.bind fun _ => looksAhead_pure _
  · exact looksAhead_asciiText.bind fun _ => looksAhead_pure _
  · exact hword _
  · exact hword _
  · exact looksAhead_word.bind fun _ => (looksAhead_displacement hindex).bind fun _ => looksAhead_pure _
  · exact hindices _
  · exact hindices _
  · exact hindices _
  · exact looksAhead_word.bind fun _ => (looksAhead_indices hindex).bind fun _ =>
      (looksAhead_displacement hindex).bind fun _ => looksAhead_pure _
  · exact looksAhead_code.bind fun _ => hargument.bind fun _ => looksAhead_pure _

end Inside

/-! ## Expressions -/

/-- Behind the byte `code` the step goes on to the byte `stop`, or it is through because that is the byte. -/
def Closes (stop code k : Nat) (p : Nat → Script α) : Prop :=
  Delimited stop k p ∨ code = stop ∧ ∃ a, ∀ j, p j = pure a

theorem Closes.delimited {code : Nat} (h : Closes stop code k p) (hne : code ≠ stop) : Delimited stop k p :=
  h.resolve_right fun hcode => hne hcode.1

/-- A loop that takes a byte with every turn and ends at the byte `stop`. -/
theorem delimited_succ {w : Missing} {f : Nat → Nat → Script α}
    (hp : ∀ j, p (j + 1) = (do return (← Reading.byteOr w).toNat) >>= f j)
    (hf : ∀ code, Closes stop code k fun j => f j code) : Delimited stop (k + 1) p := by
  intro m a m' hrun
  rw [hp] at hrun
  obtain ⟨code, u, hcode, hrun⟩ := run_bind_eq_ok hrun
  obtain ⟨b, u, hb, hpure⟩ := run_bind_eq_ok hcode
  cases hpure
  have hturn (j : Nat) : p (j + 1) = Reading.byteOr w >>= fun b => f j b.toNat := by
    rw [hp, bind_assoc]
    simp only [pure_bind]
  rcases hf b.toNat with hends | ⟨hstop, a', hpure⟩
  · obtain ⟨used, s, hlast, h⟩ := hends hrun
    refine ⟨b :: used, s, ?_, .succ hturn (taken_byteOr hb) h⟩
    cases used with
    | nil => cases hlast
    | cons c later => rw [List.getLast?_cons_cons, hlast]
  · have hall : (fun j => f j b.toNat) = fun _ => pure a' := funext hpure
    rw [show f k b.toNat = pure a' from hpure k] at hrun
    cases hrun
    refine ⟨[b], "", ?_, .succ hturn (taken_byteOr hb) ?_⟩
    · rw [List.getLast?_singleton, Option.map_some, hstop]
    · rw [hall]
      exact taken_pure _ _

theorem delimited_skipTo (stop : Nat) : ∀ k, Delimited stop k (skipTo stop)
  | 0 => fun _ _ _ h => nomatch h
  | k + 1 => by
    refine delimited_succ (w := .code) (fun j => by rw [skipTo]; rfl) fun code => ?_
    split
    · exact .inr ⟨by assumption, (), fun _ => rfl⟩
    · exact .inl (delimited_skipTo stop k)

/-- The bytes that expressions end with. -/
def stops : List Nat := [endOfArgument, endOfIndex, endOfExpression]

theorem delimited_expressionFrom : ∀ (k : Nat) {stop : Nat} (_ : stop ∈ stops) (opened : Int) (text : String),
    Delimited stop k fun j => expressionFrom j stop opened text
  | 0, _, _, _, _ => fun _ _ _ h => nomatch h
  | k + 1, stop, hstop, opened, text => by
    -- inside an operand other bytes end the expressions, so the induction is for all of `stops` at once
    have hon (opened : Int) (text : String) := delimited_expressionFrom k hstop opened text
    have hinside (stop : Nat) (hstop : stop ∈ stops) :
        LooksAhead k fun j => (do return parenthesized (← expressionFrom j stop 0 "") : Script String) :=
      ((delimited_expressionFrom k hstop 0 "").bind_pure parenthesized).looksAhead
    have hindex := hinside endOfIndex (by decide)
    have hargument := hinside endOfArgument (by decide)
    have hfinish (code : Nat) (opened : Int) (text : String) : Closes stop code k fun j =>
        if code = stop ∧ (stop ≠ endOfArgument ∨ opened < 0) then pure (nameVariables text)
          else expressionFrom j stop opened text := by
      split
      · rename_i hends
        exact .inr ⟨hends.1, _, fun _ => rfl⟩
      · exact .inl (hon opened text)
    refine delimited_succ (w := .byte) (fun j => by rw [expressionFrom]; rfl) fun code => ?_
    split
    · exact .inl (looksAhead_structureBase.bind_delimited fun _ =>
        (looksAhead_skipIf 97).bind_delimited fun _ => hon _ _)
    split
    · exact .inl ((looksAhead_memberPath hindex).bind_delimited fun _ =>
        (looksAhead_skipIf 97).bind_delimited fun _ => hon _ _)
    split
    · rename_i hcode
      -- no code of an operand ends an expression: what was looked at behind the operand is read next
      have hne : code ≠ stop := by
        rintro rfl
        simp only [stops, endOfArgument, endOfIndex, endOfExpression, List.mem_cons, List.not_mem_nil,
          or_false] at hstop
        omega
      exact .inl ((looksAhead_operand hindex hargument code).bind_delimited fun _ => (hfinish _ _ _).delimited hne)
    split
    · dsimp only
      split
      · exact .inl (hon _ _)
      split
      · exact hfinish _ _ _
      · exact .inl (hon _ _)
    · split
      · dsimp only
        split
        · rename_i hcode hstop'
          exact .inl ((looksAhead_write _).bind_delimited fun _ => (hfinish _ _ _).delimited (by omega))
        · exact hfinish _ _ _
      split
      · exact hfinish _ _ _
      · exact .inl ((delimited_skipTo stop k).bind_pure _)

/-- **Expressions end by themselves.**  The last byte that an expression takes is the one that ends it, and from every
machine where the same bytes come next the same text is read, whatever follows them. -/
theorem expressionTo_delimited {stop : Nat} (hstop : stop ∈ stops) {m m' : Machine} {text : String}
    (h : (expressionTo stop).run.run m = (.ok text, m')) :
    ∃ used s, used.getLast?.map UInt8.toNat = some stop ∧ m.cursor.rest = used ++ m'.cursor.rest ∧
      m' = m.after used.length s ∧ ∀ n more, n.cursor.rest = used ++ more →
        (expressionTo stop).run.run n = (.ok text, n.after used.length s) ∧
        (n.after used.length s).cursor.rest = more := by
  have hloop (k : Nat) :
      Delimited stop k fun j => (do return parenthesized (← expressionFrom j stop 0 "") : Script String) :=
    (delimited_expressionFrom k hstop 0 "").bind_pure parenthesized
  have hrun (n : Machine) := run_bind_of_ok (f := fun l => (do
    return parenthesized (← expressionFrom (l + 1) stop 0 "") : Script String)) (run_left n)
  obtain ⟨used, s, hlast, htaken⟩ := hloop _ ((hrun m).symm.trans h)
  refine ⟨used, s, hlast, htaken.rest_eq, htaken.after_eq, fun n more hn => ⟨?_, Machine.rest_after hn s⟩⟩
  exact (htaken.of_left hrun).again used.length n more (Nat.le_refl _) hn trivial

/-- An address with an offset, a bracket that was not opened, the end of the expression and a byte behind it. -/
def offsetAddress : Machine where
  cursor := .ofBytes [25, 1, 0, 13, 20, 5, 0, 12, 12, 99, 7]
  listing := ""
  surroundings := ⟨none, [], none, none, [], none⟩
  progress := ⟨0, 0, none, none, []⟩

theorem expressionTo_delimited_address :
    endOfExpression ∈ stops ∧
    (∃ m', (expressionTo endOfExpression).run.run offsetAddress = (.ok "(&var8_4)+\x7b*5\x7d\x7d", m') ∧
      m'.cursor.rest = [7]) ∧
    ∀ n more, n.cursor.rest = [25, 1, 0, 13, 20, 5, 0, 12, 12, 99] ++ more →
      ∃ n', (expressionTo endOfExpression).run.run n = (.ok "(&var8_4)+\x7b*5\x7d\x7d", n') ∧
        n'.cursor.rest = more := by
  obtain ⟨m', hrun, hrest⟩ : ∃ m', (expressionTo endOfExpression).run.run offsetAddress =
      (.ok "(&var8_4)+\x7b*5\x7d\x7d", m') ∧ m'.cursor.rest = [7] :=
    ⟨_, run_eq_of_result (eq_ok_of_toOption (by decide +kernel)), by decide +kernel⟩
  obtain ⟨used, s, -, hsplit, -, hagain⟩ := expressionTo_delimited (by decide) hrun
  have hcut : [25, 1, 0, 13, 20, 5, 0, 12, 12, 99] ++ [7] = used ++ [7] := by
    rw [← hrest, ← hsplit, hrest, offsetAddress, Cursor.rest_ofBytes]
    rfl
  have hused : [25, 1, 0, 13, 20, 5, 0, 12, 12, 99] = used := List.append_cancel_right hcut
  refine ⟨by decide, ⟨m', hrun, hrest⟩, fun n more hn => ?_⟩
  rw [hused] at hn
  exact ⟨_, hagain n more hn⟩

end AdventureKit.Script
