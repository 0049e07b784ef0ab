import AdventureKit.Proofs.Effects
import AdventureKit.Script.Machine

/-!
# Steady steps of the decompiler

A step of the decompiler is steady if it reads on, writes to the listing and does nothing else.  What a step does is
said of two machines that are alike: the two results are the same and the machines stay alike.  One such statement
serves many ends.  With a relation that looks at one machine only it says what the step keeps, and with one that
leaves something of the machines open it says what the step does not look at.

A loop has a bound that is above the number of bytes left.  `Steady k` is about machines with fewer than `k` bytes
left, and says too that no bound is reached.
-/

namespace AdventureKit

namespace Cursor

theorem length_next (j : Nat) (c : Cursor) : (c.next j).length = min j c.left := by
  rw [next_eq_take, List.length_take, List.length_drop, Array.length_toList]
  rfl

theorem length_rest (c : Cursor) : c.rest.length = c.left := by
  rw [rest, length_next, Nat.min_self]

/-- A read takes at most what is left. -/
theorem length_read_le (j : Int) (c : Cursor) : (c.read j).1.length ≤ c.left := by
  unfold read
  dsimp only
  split
  · exact Nat.le_of_eq (length_rest c)
  · rw [length_next]
    exact Nat.min_le_right _ _

theorem took_took (i j : Nat) (c : Cursor) : (c.took i).took j = c.took (i + j) := by
  have hlength : (c.next i).length + ((c.took i).next j).length = (c.next (i + j)).length := by
    rw [length_next j, length_next (i + j)]
    show _ + min j (c.data.size - (c.pos + (c.next i).length)) = _
    rw [length_next]
    unfold left
    omega
  show Cursor.mk c.data (c.pos + (c.next i).length + ((c.took i).next j).length) = _
  rw [Nat.add_assoc, hlength]
  rfl

theorem read_one (c : Cursor) : c.read 1 = (c.next 1, c.took 1) := rfl

/-- Without a byte left the cursor stays. -/
theorem took_of_next_nil {c : Cursor} {j : Nat} (h : c.next j = []) : c.took j = c := by
  rw [took, h]
  rfl

/-- Taking a byte that is there leaves one less. -/
theorem left_took_lt {c : Cursor} {b : UInt8} {bs : Bytes} (h : c.next 1 = b :: bs) : (c.took 1).left < c.left := by
  have hlength := length_next 1 c
  rw [h, List.length_cons] at hlength
  show c.data.size - (c.pos + (c.next 1).length) < c.left
  rw [h, List.length_cons]
  unfold left at hlength ⊢
  omega

end Cursor

namespace Script

variable {α β : Type} {k : Nat} {m n o : Machine}

/-! ## Machines -/

/-- The machine with another cursor. -/
def Machine.moved (m : Machine) (c : Cursor) : Machine :=
  { m with cursor := c }

/-- The machine after something was written. -/
def Machine.wrote (m : Machine) (s : String) : Machine :=
  { m with listing := m.listing ++ s }

/-- The machine after its progress was changed. -/
def Machine.updated (m : Machine) (f : Progress → Progress) : Machine :=
  { m with progress := f m.progress }

theorem run_read (j : Int) (m : Machine) :
    (Source.read j : Script Bytes).run.run m = (.ok (m.cursor.read j).1, m.moved (m.cursor.read j).2) := rfl

theorem run_word (m : Machine) :
    (Reading.word : Script Nat).run.run m = (.ok (m.cursor.read 2).1.toNatLE, m.moved (m.cursor.read 2).2) := rfl

theorem run_write (s : String) (m : Machine) : (write s).run.run m = (.ok (), m.wrote s) := rfl

theorem run_update (f : Progress → Progress) (m : Machine) : (update f).run.run m = (.ok (), m.updated f) := rfl

theorem run_left (m : Machine) : left.run.run m = (.ok m.cursor.left, m) := rfl

theorem run_place (m : Machine) : place.run.run m = (.ok m.cursor.pos, m) := rfl

theorem run_seek_of_ok {j : Int} {origin : Origin} {c : Cursor} (h : m.cursor.move j origin = .ok c) :
    (Source.seek j origin : Script Int).run.run m = (.ok c.pos, m.moved c) := by
  unfold Source.seek instSourceMachine
  simp only [ExceptT.run, StateT.run, h]
  rfl

theorem run_seek_of_error {j : Int} {origin : Origin} {e : Fault} (h : m.cursor.move j origin = .error e) :
    (Source.seek j origin : Script Int).run.run m = (.error e, m) := by
  unfold Source.seek instSourceMachine
  simp only [ExceptT.run, StateT.run, h]

theorem run_byteOr (w : Missing) (m : Machine) :
    (Reading.byteOr w : Script UInt8).run.run m =
      (match m.cursor.next 1 with | [] => .error (.ended w) | b :: _ => .ok b, m.moved (m.cursor.took 1)) := by
  unfold Reading.byteOr
  rw [run_bind_of_ok (run_read 1 m), Cursor.read_one]
  cases m.cursor.next 1 with
  | nil => rfl
  | cons b bs => rfl

theorem run_code (m : Machine) :
    (Reading.code : Script Nat).run.run m =
      (match m.cursor.next 1 with | [] => .error (.ended .code) | b :: _ => .ok b.toNat,
        m.moved (m.cursor.took 1)) := by
  unfold Reading.code
  rcases hnext : m.cursor.next 1 with _ | ⟨b, bs⟩
  · exact run_bind_of_error (by rw [run_byteOr, hnext])
  · exact run_bind_of_ok (by rw [run_byteOr, hnext])

theorem run_byte_of_cons {b : UInt8} {bs : Bytes} (h : m.cursor.next 1 = b :: bs) :
    (Reading.byte : Script Nat).run.run m = (.ok b.toNat, m.moved (m.cursor.took 1)) := by
  unfold Reading.byte
  exact run_bind_of_ok (by rw [run_byteOr, h])

/-- Pieces as they are written behind the first one of a line. -/
def pieceText : List String → String
  | [] => "\n"
  | piece :: pieces => " " ++ piece ++ pieceText pieces

theorem run_writePieces (pieces : List String) (m : Machine) :
    (writePieces (pieces.map some)).run.run m = (.ok (), m.wrote (pieceText pieces)) := by
  induction pieces generalizing m with
  | nil => rfl
  | cons piece pieces ih =>
    rw [List.map_cons, writePieces, run_bind_of_ok (run_write " " m), run_bind_of_ok (run_write piece _), ih]
    simp only [Machine.wrote, pieceText, String.append_assoc]

theorem run_say (first : String) (pieces : List String) (m : Machine) :
    (say first pieces).run.run m = (.ok (), m.wrote (first ++ pieceText pieces)) := by
  rw [say, run_bind_of_ok (run_write first m), run_writePieces]
  simp only [Machine.wrote, String.append_assoc]

theorem run_line (pieces : List String) (m : Machine) :
    (line pieces).run.run m = (.ok (), m.wrote (margin m.progress ++ pieceText pieces)) := by
  rw [line, linePieces, run_bind_of_ok (run_get m), run_bind_of_ok (run_write _ m), run_writePieces]
  simp only [Machine.wrote, String.append_assoc]

/-- A machine goes ahead: the script and what is known of it stay, the cursor neither goes back nor leaves the script,
and the listing grows. -/
structure Ahead (m n : Machine) : Prop where
  data : n.cursor.data = m.cursor.data
  surroundings : n.surroundings = m.surroundings
  forward : m.cursor.pos ≤ n.cursor.pos
  inside : n.cursor.pos ≤ max m.cursor.pos m.cursor.data.size
  listing : ∃ s, n.listing = m.listing ++ s

theorem Ahead.refl (m : Machine) : Ahead m m where
  data := rfl
  surroundings := rfl
  forward := Nat.le_refl _
  inside := Nat.le_max_left _ _
  listing := ⟨"", by rw [String.append_empty]⟩

theorem Ahead.trans (h : Ahead m n) (h' : Ahead n o) : Ahead m o where
  data := h'.data.trans h.data
  surroundings := h'.surroundings.trans h.surroundings
  forward := Nat.le_trans h.forward h'.forward
  inside := by
    have hn := h.inside
    have ho := h'.inside
    rw [h.data] at ho
    omega
  listing := by
    obtain ⟨s, hs⟩ := h.listing
    obtain ⟨t, ht⟩ := h'.listing
    exact ⟨s ++ t, by rw [ht, hs, String.append_assoc]⟩

theorem Ahead.left_le (h : Ahead m n) : n.cursor.left ≤ m.cursor.left := by
  unfold Cursor.left
  rw [h.data]
  exact Nat.sub_le_sub_left h.forward _

/-- A machine that goes ahead stays in the script. -/
theorem Ahead.pos_le (h : Ahead m n) (hm : m.cursor.pos ≤ m.cursor.data.size) : n.cursor.pos ≤ n.cursor.data.size := by
  rw [h.data]
  exact Nat.le_trans h.inside (Nat.max_le.2 ⟨hm, Nat.le_refl _⟩)

theorem ahead_read (j : Int) (m : Machine) : Ahead m (m.moved (m.cursor.read j).2) where
  data := rfl
  surroundings := rfl
  forward := Nat.le_add_right _ _
  inside := by
    have hlength := Cursor.length_read_le j m.cursor
    show m.cursor.pos + (m.cursor.read j).1.length ≤ _
    unfold Cursor.left at hlength
    omega
  listing := ⟨"", by rw [String.append_empty]; rfl⟩

theorem ahead_wrote (s : String) (m : Machine) : Ahead m (m.wrote s) where
  data := rfl
  surroundings := rfl
  forward := Nat.le_refl _
  inside := Nat.le_max_left _ _
  listing := ⟨s, rfl⟩

theorem ahead_updated (f : Progress → Progress) (m : Machine) : Ahead m (m.updated f) where
  data := rfl
  surroundings := rfl
  forward := Nat.le_refl _
  inside := Nat.le_max_left _ _
  listing := ⟨"", by rw [String.append_empty]; rfl⟩

/-! ## Two machines -/

/-- A relation between machines at the same place of the same script that lasts while both read on and write the
same. -/
structure Likeness (R : Machine → Machine → Prop) : Prop where
  cursor : ∀ {m n}, R m n → m.cursor = n.cursor
  surroundings : ∀ {m n}, R m n → m.surroundings = n.surroundings
  moved : ∀ {m n}, R m n → ∀ c, R (m.moved c) (n.moved c)
  wrote : ∀ {m n}, R m n → ∀ s, R (m.wrote s) (n.wrote s)
  margin : ∀ {m n}, R m n → R (m.wrote (margin m.progress)) (n.wrote (Script.margin n.progress))

/-- From `m` and `n` two steps come to the same result and to machines that are related again.  The first machine goes
ahead, and no bound is reached. -/
structure Alike (R : Machine → Machine → Prop) (p q : Script α) (m n : Machine) : Prop where
  result : (p.run.run m).1 = (q.run.run n).1
  related : R (p.run.run m).2 (q.run.run n).2
  ahead : Ahead m (p.run.run m).2
  lasts : (p.run.run m).1 ≠ .error .exhausted

variable {R : Machine → Machine → Prop} {p q : Script α} {f g : α → Script β}

theorem Alike.of_runs {r : Except Fault α} {m' n' : Machine} (hp : p.run.run m = (r, m')) (hq : q.run.run n = (r, n'))
    (hR : R m' n') (hahead : Ahead m m') (hr : r ≠ .error .exhausted) : Alike R p q m n where
  result := by rw [hp, hq]
  related := by rw [hp, hq]; exact hR
  ahead := by rw [hp]; exact hahead
  lasts := by rw [hp]; exact hr

theorem Alike.run_eq (h : Alike R p q m n) {r : Except Fault α} {m' : Machine} (hp : p.run.run m = (r, m')) :
    ∃ n', q.run.run n = (r, n') ∧ R m' n' ∧ Ahead m m' ∧ r ≠ .error .exhausted := by
  refine ⟨(q.run.run n).2, Prod.ext ?_ rfl, ?_, ?_, ?_⟩
  · rw [← h.result, hp]
  · have hR := h.related
    rwa [hp] at hR
  · have hahead := h.ahead
    rwa [hp] at hahead
  · have hlasts := h.lasts
    rwa [hp] at hlasts

theorem alike_pure (hR : R m n) (a : α) : Alike R (pure a) (pure a) m n :=
  .of_runs rfl rfl hR (.refl m) (by simp)

theorem alike_throw (hR : R m n) {e : Fault} (he : e ≠ .exhausted) : Alike R (throw e : Script α) (throw e) m n :=
  .of_runs rfl rfl hR (.refl m) (by simpa using he)

/-- The relation may be another one behind a step, if it says no more where the step fails. -/
theorem Alike.bind_change {S : Machine → Machine → Prop} (h : Alike R p q m n) (hS : ∀ {m' n'}, R m' n' → S m' n')
    (hf : ∀ a m' n', p.run.run m = (.ok a, m') → R m' n' → Ahead m m' → Alike S (f a) (g a) m' n') :
    Alike S (p >>= f) (q >>= g) m n := by
  rcases hp : p.run.run m with ⟨e | a, m'⟩
  · obtain ⟨n', hq, hR, hahead, he⟩ := h.run_eq hp
    exact .of_runs (run_bind_of_error hp) (run_bind_of_error hq) (hS hR) hahead (by simpa using he)
  · obtain ⟨n', hq, hR, hahead, -⟩ := h.run_eq hp
    have ha := hf a m' n' hp hR hahead
    rcases hfa : (f a).run.run m' with ⟨r, m''⟩
    obtain ⟨n'', hga, hR', hahead', hr⟩ := ha.run_eq hfa
    exact .of_runs ((run_bind_of_ok hp).trans hfa) ((run_bind_of_ok hq).trans hga) hR' (hahead.trans hahead') hr

theorem Alike.bind (h : Alike R p q m n)
    (hf : ∀ a m' n', p.run.run m = (.ok a, m') → R m' n' → Ahead m m' → Alike R (f a) (g a) m' n') :
    Alike R (p >>= f) (q >>= g) m n :=
  h.bind_change id hf

theorem Alike.get_bind {f g : Machine → Script α} (h : Alike R (f m) (g n) m n) :
    Alike R (get >>= f) (get >>= g) m n := by
  rcases hm : (f m).run.run m with ⟨r, m'⟩
  obtain ⟨n', hn, hR, hahead, hr⟩ := h.run_eq hm
  exact .of_runs ((run_bind_of_ok (run_get m)).trans hm) ((run_bind_of_ok (run_get n)).trans hn) hR hahead hr

/-! ## Steady steps -/

/-- From machines with fewer than `k` bytes left the step reads on, writes to the listing and does nothing else. -/
def Steady (k : Nat) (p : Script α) : Prop :=
  ∀ ⦃R⦄, Likeness R → ∀ ⦃m n⦄, R m n → m.cursor.left < k → Alike R p p m n

theorem steady_pure (a : α) : Steady k (pure a) := fun _ _ _ _ h _ => alike_pure h a

theorem steady_throw {e : Fault} (he : e ≠ .exhausted) : Steady k (throw e : Script α) :=
  fun _ _ _ _ h _ => alike_throw h he

/-- The step of a loop that is at its bound is never taken. -/
theorem steady_zero (p : Script α) : Steady 0 p := fun _ _ _ _ _ h => absurd h (Nat.not_lt_zero _)

theorem steady_lift {x : Except Fault α} (hx : x ≠ .error .exhausted) : Steady k (liftM x : Script α) :=
  fun _ _ _ _ h _ => .of_runs rfl rfl h (.refl _) hx

theorem Steady.bind (hp : Steady k p) (hf : ∀ a, Steady k (f a)) : Steady k (p >>= f) := by
  intro R hR m n hmn hleft
  refine (hp hR hmn hleft).bind fun a m' n' _ hmn' hahead => ?_
  exact hf a hR hmn' (Nat.lt_of_le_of_lt hahead.left_le hleft)

theorem Steady.map {γ : Type} (hp : Steady k p) (h : α → γ) : Steady k (h <$> p) := by
  rw [map_eq_pure_bind]
  exact hp.bind fun a => steady_pure (h a)

/-- A step that takes a byte if it gives a value. -/
def Consumes (p : Script α) : Prop :=
  ∀ ⦃m a m'⦄, p.run.run m = (.ok a, m') → m'.cursor.left < m.cursor.left

/-- Behind a step that takes a byte there is one byte less left. -/
theorem Steady.bind_of_consumes (hp : Steady (k + 1) p) (hc : Consumes p) (hf : ∀ a, Steady k (f a)) :
    Steady (k + 1) (p >>= f) := by
  intro R hR m n hmn hleft
  refine (hp hR hmn hleft).bind fun a m' n' hrun hmn' _ => ?_
  exact hf a hR hmn' (Nat.lt_of_lt_of_le (hc hrun) (Nat.le_of_lt_succ hleft))

theorem steady_get_bind {f : Machine → Script α}
    (hf : ∀ ⦃R⦄, Likeness R → ∀ ⦃m n⦄, R m n → m.cursor.left < k → Alike R (f m) (f n) m n) :
    Steady k (get >>= f) :=
  fun _ hR _ _ hmn hleft => (hf hR hmn hleft).get_bind

/-- A loop that starts with a bound above the number of bytes left. -/
theorem steady_left_bind {f : Nat → Script α} (hf : ∀ l, Steady (l + 1) (f l)) : Steady k (left >>= f) := by
  unfold left
  rw [bind_assoc]
  refine steady_get_bind fun R hR m n hmn _ => ?_
  rw [pure_bind, pure_bind, ← hR.cursor hmn]
  exact hf _ hR hmn (Nat.lt_succ_self _)

/-- Machines at the same place of the same script whose progress is related by `Q`. -/
structure Beside (Q : Progress → Progress → Prop) (m n : Machine) : Prop where
  cursor : m.cursor = n.cursor
  surroundings : m.surroundings = n.surroundings
  progress : Q m.progress n.progress

theorem likeness_beside (Q : Progress → Progress → Prop) : Likeness (Beside Q) where
  cursor h := h.cursor
  surroundings h := h.surroundings
  moved h _ := ⟨rfl, h.surroundings, h.progress⟩
  wrote h _ := ⟨h.cursor, h.surroundings, h.progress⟩
  margin h := ⟨h.cursor, h.surroundings, h.progress⟩

theorem likeness_eq : Likeness Eq where
  cursor h := by rw [h]
  surroundings h := by rw [h]
  moved h _ := by rw [h]
  wrote h _ := by rw [h]
  margin h := by rw [h]

theorem Steady.ahead (hp : Steady k p) (hleft : m.cursor.left < k) {r : Except Fault α}
    (h : p.run.run m = (r, n)) : Ahead m n := by
  obtain ⟨-, -, -, hahead, -⟩ := (hp likeness_eq rfl hleft).run_eq h
  exact hahead

theorem Steady.progress_eq (hp : Steady k p) (hleft : m.cursor.left < k) {r : Except Fault α}
    (h : p.run.run m = (r, n)) : n.progress = m.progress := by
  have hstart : Beside (fun q _ => q = m.progress) m m := ⟨rfl, rfl, rfl⟩
  obtain ⟨_, -, hend, -, -⟩ := (hp (likeness_beside _) hstart hleft).run_eq h
  exact hend.progress

/-! ## Reading and writing -/

theorem steady_read (j : Int) : Steady k (Source.read j : Script Bytes) := by
  intro R hR m n hmn _
  refine .of_runs (run_read j m) ?_ (hR.moved hmn _) (ahead_read j m) (by simp)
  rw [run_read, ← hR.cursor hmn]

theorem steady_byteOr (w : Missing) : Steady k (Reading.byteOr w : Script UInt8) := by
  unfold Reading.byteOr
  refine (steady_read 1).bind fun bs => ?_
  cases bs with
  | nil => exact steady_throw (by simp)
  | cons b bs => exact steady_pure b

theorem consumes_byteOr (w : Missing) : Consumes (Reading.byteOr w : Script UInt8) := by
  intro m a m' h
  rw [run_byteOr] at h
  obtain ⟨hr, rfl⟩ := Prod.mk.inj h
  split at hr
  · cases hr
  · rename_i b bs hnext
    exact Cursor.left_took_lt hnext

theorem Consumes.bind_pure {γ : Type} (hp : Consumes p) (h : α → γ) : Consumes (p >>= fun a => pure (h a)) := by
  intro m c m' hrun
  obtain ⟨a, u, ha, hrun⟩ := run_bind_eq_ok hrun
  cases hrun
  exact hp ha

theorem steady_byte : Steady k (Reading.byte : Script Nat) :=
  (steady_byteOr .byte).bind fun _ => steady_pure _

theorem consumes_byte : Consumes (Reading.byte : Script Nat) :=
  (consumes_byteOr .byte).bind_pure _

theorem steady_code : Steady k (Reading.code : Script Nat) :=
  (steady_byteOr .code).bind fun _ => steady_pure _

theorem consumes_code : Consumes (Reading.code : Script Nat) :=
  (consumes_byteOr .code).bind_pure _

theorem steady_word : Steady k (Reading.word : Script Nat) :=
  (steady_read 2).bind fun _ => steady_pure _

theorem steady_dword : Steady k (Reading.dword : Script Nat) :=
  (steady_read 4).bind fun _ => steady_pure _

/-- Looking at the next byte leaves the machine as it is. -/
theorem run_peek (m : Machine) :
    (Reading.peek : Script Nat).run.run m =
      (match m.cursor.next 1 with | [] => .error (.ended .code) | b :: _ => .ok b.toNat, m) := by
  have hcode := run_code m
  unfold Reading.peek
  have hlength := Cursor.length_next_le 1 m.cursor
  rcases hnext : m.cursor.next 1 with _ | ⟨b, bs⟩
  · rw [hnext] at hcode
    rw [run_bind_of_error hcode, Cursor.took_of_next_nil hnext]
    rfl
  · rw [hnext] at hcode hlength
    rw [run_bind_of_ok hcode]
    obtain rfl : bs = [] := List.eq_nil_of_length_eq_zero (by simpa using hlength)
    have hback : (m.moved (m.cursor.took 1)).cursor.move (-1) .current = .ok m.cursor := by
      have hpos : (((m.cursor.pos + 1 : Nat) : Int) + -1).toNat = m.cursor.pos := by omega
      show (Except.ok ⟨_, (((m.cursor.pos + (m.cursor.next 1).length : Nat) : Int) + -1).toNat⟩ : Except Fault Cursor) = _
      rw [hnext, List.length_singleton, hpos]
      rfl
    rw [run_bind_of_ok (run_seek_of_ok hback)]
    rfl

theorem steady_peek : Steady k (Reading.peek : Script Nat) := by
  intro R hR m n hmn _
  refine .of_runs (run_peek m) ?_ hmn (.refl m) ?_
  · rw [run_peek, ← hR.cursor hmn]
  · split
    · simp
    · simp

theorem steady_write (s : String) : Steady k (write s) :=
  fun _ hR m n hmn _ => .of_runs (run_write s m) (run_write s n) (hR.wrote hmn s) (ahead_wrote s m) (by simp)

theorem steady_writePieces (pieces : List (Option String)) : Steady k (writePieces pieces) := by
  induction pieces with
  | nil => exact steady_write "\n"
  | cons piece pieces ih =>
    cases piece with
    | none => exact (steady_write " ").bind fun _ => steady_throw (by simp)
    | some s => exact (steady_write " ").bind fun _ => (steady_write s).bind fun _ => ih

theorem steady_say (first : String) (pieces : List String) : Steady k (say first pieces) :=
  (steady_write first).bind fun _ => steady_writePieces _

theorem steady_linePieces (pieces : List (Option String)) : Steady k (linePieces pieces) := by
  refine steady_get_bind fun R hR m n hmn hleft => ?_
  have hmargin : Alike R (write (margin m.progress)) (write (margin n.progress)) m n :=
    .of_runs (run_write _ m) (run_write _ n) (hR.margin hmn) (ahead_wrote _ m) (by simp)
  refine hmargin.bind fun _ m' n' _ hmn' hahead => ?_
  exact steady_writePieces pieces hR hmn' (Nat.lt_of_le_of_lt hahead.left_le hleft)

theorem steady_line (pieces : List String) : Steady k (line pieces) :=
  steady_linePieces _

theorem steady_times (hp : Steady k p) (j : Nat) : Steady k (times p j) := by
  induction j with
  | zero => exact steady_pure []
  | succ j ih => exact hp.bind fun a => ih.bind fun as => steady_pure (a :: as)

theorem steady_mapM {xs : List β} {f : β → Script α} (hf : ∀ x ∈ xs, Steady k (f x)) : Steady k (xs.mapM f) := by
  induction xs with
  | nil =>
    rw [List.mapM_nil]
    exact steady_pure []
  | cons x xs ih =>
    obtain ⟨hx, hxs⟩ := List.forall_mem_cons.1 hf
    rw [List.mapM_cons]
    exact hx.bind fun a => (ih hxs).bind fun as => steady_pure (a :: as)

theorem steady_upToZero : ∀ k, Steady k (Reading.upToZero k : Script (Bytes × Bool))
  | 0 => steady_zero _
  | k + 1 => by
    unfold Reading.upToZero
    intro R hR m n hmn hleft
    refine (steady_read 1 hR hmn hleft).bind fun bs m' n' hrun hmn' hahead => ?_
    cases bs with
    | nil => exact alike_pure hmn' _
    | cons b bs =>
      -- a byte was there, so one less is left
      have hleft' : m'.cursor.left < k := by
        have hread : (Reading.byteOr .byte : Script UInt8).run.run m = (.ok b, m') := by
          unfold Reading.byteOr
          rw [run_bind_of_ok hrun]
          rfl
        exact Nat.lt_of_lt_of_le (consumes_byteOr _ hread) (Nat.le_of_lt_succ hleft)
      dsimp only
      split
      · exact alike_pure hmn' _
      · exact ((steady_upToZero k).bind fun _ => steady_pure _) hR hmn' hleft'

theorem steady_closedText : Steady k (Reading.closedText : Script Bytes) := by
  refine steady_get_bind fun R hR m n hmn hleft => ?_
  have hbound : Source.bound m = Source.bound n := by
    show m.cursor.left = n.cursor.left
    rw [hR.cursor hmn]
  rw [← hbound]
  refine (steady_upToZero _ hR hmn (Nat.lt_succ_self _)).bind fun r m' n' _ hmn' hahead => ?_
  obtain ⟨bs, closed⟩ := r
  dsimp only
  split
  · exact alike_pure hmn' bs
  · exact alike_throw hmn' (by simp)

theorem steady_asciiText : Steady k (Reading.asciiText : Script String) :=
  steady_closedText.bind fun _ => steady_pure _

end Script

end AdventureKit
