import AdventureKit.Proofs.Lzss.Packer

/-!
# Packing and unpacking in lockstep

At every state of its run the packer is in step with a reader of the commands so far: the reader has
taken exactly their bytes, has given as many bytes as are packed, and its window is the packer's but
for last cells that nobody has written (`InStep`).  No copy reads such a cell.  What the reader
has given is the data, as long as no part that was taken went beyond the cursor after a full turn.
-/

namespace AdventureKit.Lzss

/-- After `n` bytes, a cell at the end of the ring that was not written yet. -/
def Unwritten (n cell : Nat) : Prop :=
  Window.start + n ≤ cell

/-- The reader's window `v` and the bytes `out` that it has given are in step with the packer at `s`. -/
structure InStep (data : Bytes) (s : Packer) (v : Window) (out : Bytes) : Prop where
  /-- A reader that wants more takes the bytes of the commands and then stands behind them. -/
  passes : ∀ (wanted : Int) (rest : Bytes), wanted ≤ 0 ∨ out.length < wanted →
    unpack wanted (encodeCommands s.emitted ++ rest) =
      unpackFrom (unusedFlags s.emitted) ⟨v, out.reverse, wanted - out.length⟩ rest
  /-- A reader that wants no more ends behind them. -/
  ends : ∀ rest : Bytes, unpack out.length (encodeCommands s.emitted ++ rest) = .ok (out, rest)
  length_eq : out.length + s.rest.length = data.length
  rest_eq : s.rest = data.drop out.length
  cursors : v.cursor = s.window.cursor
  cells : ∀ cell : Fin 4096, ¬ Unwritten out.length cell → v.cells.get cell = s.window.cells.get cell

namespace Packer

variable {data : Bytes} {s : Packer}

theorem Reached.emitted_ne_nil (h : Reached data s) (hd : data ≠ []) : s.emitted ≠ [] := by
  induction h with
  | start =>
    obtain ⟨b, rest, rfl⟩ := List.exists_cons_of_ne_nil hd
    simp [Packer.start]
  | turn hs ht ih =>
    obtain ⟨c, -, -, he, -⟩ := ht.spec
    simp [he]

/-- A reader that does not stop on the way is in step. -/
theorem Reached.inStep (h : Reached data s) (hd : data ≠ []) :
    InStep data s ((Window.packing.replay s.emitted).foldl Window.push Window.unpacking)
      (Window.packing.replay s.emitted) := by
  have hne := h.emitted_ne_nil hd
  have hlen := Window.packing.length_replay s.emitted
  have hreads : ∀ (wanted : Int) (rest : Bytes),
      Progress.Lasts ⟨Window.unpacking, [], wanted⟩ (spans s.emitted) →
      unpack wanted (encodeCommands s.emitted ++ rest) =
        Progress.proceed (unusedFlags s.emitted)
          ⟨(Window.packing.replay s.emitted).foldl Window.push Window.unpacking,
            (Window.packing.replay s.emitted).reverse,
            wanted - (Window.packing.replay s.emitted).length⟩ rest := by
    intro wanted rest hlasts
    rw [unpack, unpackFrom_encodeCommands hne h.fits hlasts, h.replay_eq, Progress.feed, List.append_nil]
  have halike := Window.alike_start.foldl_push (Window.packing.replay s.emitted)
  rw [Nat.zero_add, ← h.window_eq] at halike
  refine ⟨fun wanted rest hw => ?_, fun rest => ?_, ?_, ?_, halike.cursors, fun cell hcell => ?_⟩
  · rw [hreads wanted rest fun k h0 hk => by simp only; omega, Progress.proceed, if_neg]
    have := spans_pos hne h.fits
    simp only
    omega
  · rw [hreads _ rest fun k h0 hk => by simp only; omega, Progress.proceed, if_pos (Int.sub_self _),
      List.reverse_reverse]
  · rw [hlen]
    exact h.spans_add_length
  · rw [hlen]
    exact h.rest_eq
  · have hmod : (cell : Nat) % 4096 = cell := Nat.mod_eq_of_lt cell.isLt
    have hb := halike.bytes cell cell.isLt (Nat.lt_of_not_le hcell)
    simpa only [Window.byteAt, hmod] using hb

/-- A part that stays on this side of the cursor is copied as it stands ahead. -/
theorem copied_eq_of_le {t : Packer} {m : Match} (hm : t.search = .ok (some m))
    (h : m.place + m.length ≤ 4096 + t.window.cursor) :
    t.window.copied m.place m.length = t.rest.take m.length := by
  obtain ⟨hc, hp⟩ := chosen_of_search hm
  exact (hc.occurs.copied_eq_iff hp).2 fun i hi hcross => by omega

end Packer

open Packer

/-- **Lockstep.**  At every state that the packer reaches, the commands so far are the first of all its
commands, and a reader of their bytes is in step with it.  No part that was taken has a cell that was
not written yet, and if none went beyond the cursor, the reader has given the data that are packed. -/
theorem packer_in_step {data : Bytes} {s : Packer} (hd : 4 ≤ data.length) (hs : Reached data s) :
    commands data = (commandsFrom s.window 0 s.rest).map (s.emitted ++ ·) ∧
    ∃ v out, InStep data s v out ∧
      (∀ t m, Took data t m s → ∀ i < m.length,
        ¬ Unwritten (data.length - t.rest.length) ((m.place + i) % 4096)) ∧
      ((∀ t m, Took data t m s → m.place + m.length ≤ 4096 + t.window.cursor) →
        out = data.take out.length) := by
  have hne : data ≠ [] := List.ne_nil_of_length_pos (by omega)
  refine ⟨hs.commands_eq, _, _, hs.inStep hne, ?_, ?_⟩
  · intro t m ht i hi
    have hcell := (chosen_of_search (ht.search_eq hs)).1.cell_lt ht.1.blank hi
    have hlen := ht.1.spans_add_length
    rw [← hlen, Nat.add_sub_cancel]
    exact Nat.not_le_of_lt hcell
  · intro hall
    rw [Window.length_replay]
    exact hs.replay_eq_take_iff.2 fun t m ht => copied_eq_of_le (ht.search_eq hs) (hall t m ht)

/-- Six spaces: behind the three literals the packer takes three spaces from the start of the ring. -/
theorem search_start_spaces :
    (Packer.start (List.replicate 6 0x20)).search = .ok (some ⟨0, 3⟩) := by
  have hb := (Reached.start : Reached (List.replicate 6 0x20) _).blank
  have hcur : ((Packer.start (List.replicate 6 0x20)).window.cursor : Nat) = 4081 := hb.cursor_eq
  have hchosen : Chosen (Packer.start (List.replicate 6 0x20)).window
      (Packer.start (List.replicate 6 0x20)).rest 0 3 := by
    refine ⟨⟨by decide, by decide, fun i hi => ?_, fun _ => ?_⟩, Nat.le_refl 3, fun p k h => ?_,
      fun p _ => Nat.zero_le p⟩
    · rw [hb.spaces (0 + i) (by change 3 ≤ _; omega)]
      exact List.getElem?_replicate_of_lt hi
    · rw [hcur]
      decide
    · exact h.count_le_length
  exact search_of_chosen (m := ⟨0, 3⟩) hchosen

theorem packer_in_step_spaces :
    4 ≤ (List.replicate 6 0x20 : Bytes).length ∧
    Reached (List.replicate 6 0x20) ((Packer.start (List.replicate 6 0x20)).addCopy ⟨0, 3⟩) ∧
    ∃ v, InStep (List.replicate 6 0x20) ((Packer.start (List.replicate 6 0x20)).addCopy ⟨0, 3⟩) v
      (List.replicate 6 0x20) := by
  have hs : Reached (List.replicate 6 0x20) ((Packer.start (List.replicate 6 0x20)).addCopy ⟨0, 3⟩) :=
    .turn .start (.copy (by decide) search_start_spaces)
  refine ⟨by decide, hs, ?_⟩
  obtain ⟨-, v, out, hstep, -, hout⟩ := packer_in_step (by decide) hs
  have hcur : ((Packer.start (List.replicate 6 0x20)).window.cursor : Nat) = 4081 :=
    (Reached.start : Reached (List.replicate 6 0x20) _).blank.cursor_eq
  have heq : out = (List.replicate 6 0x20 : Bytes).take out.length := by
    refine hout fun t m ht => ?_
    obtain ht | ⟨rfl, rfl⟩ := (took_addCopy .start).1 ht
    · exact absurd ht (not_took_start _ t m)
    · rw [hcur]
      decide
  have hlen : out.length = 6 := hstep.length_eq
  rw [hlen] at heq
  subst heq
  exact ⟨v, hstep⟩

end AdventureKit.Lzss
