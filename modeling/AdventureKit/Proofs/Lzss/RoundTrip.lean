import AdventureKit.Proofs.Bytes
import AdventureKit.Proofs.Fault
import AdventureKit.Proofs.Lzss.Lockstep
import AdventureKit.Proofs.Lzss.Writer
import Mathlib.Data.List.Induction

/-!
# When packing succeeds

Packed data always unpack to what was packed.  But there are data that are refused: the packer may take
a part that starts behind the last cell, or one that goes beyond the write cursor after a full turn of
the ring, where the copy meets its own bytes.  `Clean data` says that neither happens, or that the part
repeats what the copy writes there: these are the data that are packed.
-/

namespace AdventureKit.Lzss

open Packer

/-- Every part that the packer takes on its way starts in the ring, and its bytes beyond the cursor are
the ones that the copy itself has written there. -/
def Clean (data : Bytes) : Prop :=
  ∀ s place count, Reached data s → Chosen s.window s.rest place count →
    place < 4096 ∧ ∀ i < count, 4096 + s.window.cursor ≤ place + i →
      s.rest[i]? = s.rest[place + i - (4096 + s.window.cursor)]?

/-! ### The packer on data of more than three bytes -/

/-- The commands of the packer go out through the buffer. -/
theorem write_commands {data : Bytes} (hd : 4 ≤ data.length) {cs : List Command} (hcs : commands data = .ok cs) :
    (Writer.behind (data.take 3)).write (cs.drop 3) = .ok (encodeCommands cs) := by
  have hthree : (data.take 3).length = 3 := List.length_take_of_le (by omega)
  obtain ⟨more, rfl⟩ := (Reached.start : Reached data _).prefix_of_commands hcs
  obtain ⟨w, cs', h, hcs'⟩ | ⟨t, -, -, -, hcs'⟩ := commands_cases data
  · rw [hcs] at hcs'
    cases hcs'
    have hspans := h.spans_add_length
    have hne : more ≠ [] := by
      rintro rfl
      simp only [Packer.start, List.append_nil, spans_literals, hthree, List.length_nil] at hspans
      omega
    have hmore : ∀ c ∈ more, c.Fits := fun c hc => h.fits c (List.mem_append_right _ hc)
    have hcount : ((data.take 3).map Command.literal).length = 3 := by rw [List.length_map, hthree]
    rw [Packer.start, List.drop_left' hcount]
    exact Writer.write_eq_encode (Writer.collects_behind hthree) (by omega) (hthree.trans hcount.symm) hne hmore
  · rw [hcs] at hcs'
    cases hcs'

theorem packedCommands_eq {data : Bytes} (hd : 4 ≤ data.length) :
    packedCommands data = (commands data).map encodeCommands := by
  rw [packedCommands, if_neg (by omega)]
  cases hcs : commands data with
  | error e => rfl
  | ok cs => exact write_commands hd hcs

theorem pack_eq {data : Bytes} (hd : 4 ≤ data.length) (hlt : data.length < 0x100000000) :
    pack data = (commands data).bind fun cs =>
      (unpack data.length (encodeCommands cs)).bind fun p =>
        if p.1 = data then .ok (Bytes.ofNatLE 4 data.length ++ encodeCommands cs)
        else .error (.disagreement .packedContent) := by
  have hput : Bytes.putLE 4 data.length = .ok (Bytes.ofNatLE 4 data.length) := Bytes.putLE_of_lt hlt
  have h2 : ¬ data.length < 2 := by omega
  rw [pack, hput, packedCommands_eq hd]
  cases commands data with
  | error e => simp only [h2, bind, Except.bind, Except.map, if_false]
  | ok cs =>
    cases hread : unpack data.length (encodeCommands cs) with
    | error e => simp only [h2, hread, bind, Except.bind, Except.map, if_false]
    | ok p =>
      simp only [h2, hread, bind, Except.bind, Except.map, if_false, pure, Except.pure, throw, throwThe,
        MonadExceptOf.throw]

/-- Packed data are the length of the content and commands that give it. -/
theorem pack_eq_ok {data out : Bytes} (h : pack data = .ok out) :
    data.length < 0x100000000 ∧ ∃ body rest, out = Bytes.ofNatLE 4 data.length ++ body ∧
      unpack data.length body = .ok (data, rest) := by
  obtain ⟨header, hheader, h⟩ := bind_eq_ok.1 h
  obtain ⟨hlt, rfl⟩ := Bytes.putLE_eq_ok hheader
  refine ⟨hlt, ?_⟩
  dsimp only at h
  by_cases h2 : data.length < 2
  · rw [if_pos h2] at h
    cases h
  · rw [if_neg h2] at h
    obtain ⟨body, -, h⟩ := bind_eq_ok.1 h
    -- the packer has tried what it gives
    obtain ⟨⟨again, rest⟩, hread, h⟩ := bind_eq_ok.1 h
    split at h
    · rename_i heq
      cases h
      exact ⟨body, rest, rfl, by rw [hread, ← heq]⟩
    · cases h

/-- Whatever was packed is unpacked again. -/
theorem unpackSized_of_pack {data out : Bytes} (h : pack data = .ok out) :
    ∃ rest, unpackSized out = .ok (data, rest) := by
  obtain ⟨hlt, body, rest, rfl, hread⟩ := pack_eq_ok h
  have hfour : (Bytes.ofNatLE 4 data.length).length = 4 := Bytes.length_ofNatLE 4 _
  refine ⟨rest, ?_⟩
  rw [unpackSized, Bytes.dword, List.take_left' hfour, List.drop_left' hfour, Bytes.toNatLE_ofNatLE hlt,
    hread]

/-- The packer gives commands for all data exactly if no part behind the last cell is its choice. -/
theorem commands_isOk_iff {data : Bytes} :
    (∃ cs, commands data = .ok cs) ↔ ∀ s place count, Reached data s →
      Chosen s.window s.rest place count → place < 4096 := by
  constructor
  · rintro ⟨cs, hcs⟩ s place count hs hc
    refine Decidable.byContradiction fun hp => ?_
    -- the search fails at `s`, and with it the whole run
    have hsearch : s.search = .error (.disagreement .matchPosition) := by
      rw [search_of_chosen (m := ⟨place, count⟩) hc, if_neg hp]
    rw [hs.commands_eq, commandsFrom_of_search_error hc.ne_nil hsearch] at hcs
    cases hcs
  · intro hall
    obtain ⟨w, cs, -, hcs⟩ | ⟨t, ht, hr, he, -⟩ := commands_cases data
    · exact ⟨cs, hcs⟩
    · obtain ⟨m, hm, hp, -⟩ := chosen_of_search_error he
      exact absurd (hall t m.place m.length ht hm) hp

/-- If there are commands for all data, they give the data exactly if the data are clean. -/
theorem replay_eq_iff_clean {data : Bytes} {w : Window} {cs : List Command}
    (h : Reached data ⟨w, cs, []⟩) (hcs : commands data = .ok cs) :
    Window.packing.replay cs = data ↔ Clean data := by
  have hlen : spans cs = data.length := h.spans_add_length
  have htake : data.take (spans cs) = data := by rw [hlen, List.take_length]
  have hiff : Window.packing.replay cs = data.take (spans cs) ↔ _ := h.replay_eq_take_iff
  rw [htake] at hiff
  rw [hiff]
  constructor
  · intro hall s place count hs hc
    have hp : place < 4096 := commands_isOk_iff.1 ⟨cs, hcs⟩ s place count hs hc
    refine ⟨hp, (hc.occurs.copied_eq_iff hp).1 ?_⟩
    have hsearch : s.search = .ok (some ⟨place, count⟩) := by
      rw [search_of_chosen (m := ⟨place, count⟩) hc, if_pos hp]
    exact hall s ⟨place, count⟩ ⟨hs, (hs.turn (.copy hc.ne_nil hsearch)).prefix_of_commands hcs⟩
  · intro hclean t m ht
    obtain ⟨hc, hp⟩ := chosen_of_search (ht.search_eq h)
    exact (hc.occurs.copied_eq_iff hp).2 (hclean t m.place m.length ht.1 hc).2

/-- **Packing succeeds on clean data only.**  What is packed starts with the number of the bytes, and
the rest unpacks to these bytes and is used up; all other data are refused. -/
theorem pack_isOk_iff_clean {data : Bytes} (hd : 4 ≤ data.length) (hlt : data.length < 0x100000000) :
    ((∃ out, pack data = .ok out) ↔ Clean data) ∧
    (∀ out, pack data = .ok out → out.take 4 = Bytes.ofNatLE 4 data.length ∧
      unpack data.length (out.drop 4) = .ok (data, [])) ∧
    (¬ Clean data → pack data = .error (.disagreement .matchPosition) ∨
      pack data = .error (.disagreement .packedContent)) := by
  have hne : data ≠ [] := List.ne_nil_of_length_pos (by omega)
  obtain ⟨w, cs, h, hcs⟩ | ⟨t, ht, hr, he, hcs⟩ := commands_cases data
  · have hlen : (Window.packing.replay cs).length = data.length := by
      rw [Window.length_replay]
      exact h.spans_add_length
    have hread : unpack data.length (encodeCommands cs) = .ok (Window.packing.replay cs, []) := by
      have := (h.inStep hne).ends []
      rwa [List.append_nil, hlen] at this
    have hpack : pack data = if Window.packing.replay cs = data then
        .ok (Bytes.ofNatLE 4 data.length ++ encodeCommands cs)
        else .error (.disagreement .packedContent) := by
      rw [pack_eq hd hlt, hcs, Except.bind, hread, Except.bind]
    have hclean := replay_eq_iff_clean h hcs
    by_cases heq : Window.packing.replay cs = data
    · rw [if_pos heq] at hpack
      refine ⟨⟨fun _ => hclean.1 heq, fun _ => ⟨_, hpack⟩⟩, fun out hout => ?_, fun hn => ?_⟩
      · rw [hpack] at hout
        injection hout with hout
        have hfour : (Bytes.ofNatLE 4 data.length).length = 4 := Bytes.length_ofNatLE 4 data.length
        rw [← hout, List.take_left' hfour, List.drop_left' hfour, hread, heq]
        exact ⟨rfl, rfl⟩
      · exact absurd (hclean.1 heq) hn
    · rw [if_neg heq] at hpack
      refine ⟨⟨fun ⟨out, hout⟩ => ?_, fun hc => absurd (hclean.2 hc) heq⟩, fun out hout => ?_,
        fun _ => .inr hpack⟩
      · rw [hpack] at hout
        cases hout
      · rw [hpack] at hout
        cases hout
  · have hpack : pack data = .error (.disagreement .matchPosition) := by
      rw [pack_eq hd hlt, hcs, Except.bind]
    have hnot : ¬ Clean data := fun hc => by
      obtain ⟨m, hm, hp, -⟩ := chosen_of_search_error he
      exact hp (hc t m.place m.length ht hm).1
    refine ⟨⟨fun ⟨out, hout⟩ => ?_, fun hc => absurd hc hnot⟩, fun out hout => ?_, fun _ => .inl hpack⟩
    · rw [hpack] at hout
      cases hout
    · rw [hpack] at hout
      cases hout

/-- Up to twenty bytes are packed before the cursor comes round, so that nothing can go beyond it. -/
theorem clean_of_length_le {data : Bytes} (h : data.length ≤ 20) : Clean data := by
  intro s place count hs hc
  have hlen := hs.spans_add_length
  have hcount := hc.occurs.count_le_length
  have hthree := hc.three_le
  have hplace := hc.place_lt_cursor hs.blank (by omega)
  have hend := hc.occurs.uncut hplace
  have hcur := s.window.cursor.isLt
  exact ⟨by omega, fun i hi hcross => by omega⟩

theorem pack_isOk_iff_clean_spaces :
    4 ≤ (List.replicate 6 0x20 : Bytes).length ∧ (List.replicate 6 0x20 : Bytes).length < 0x100000000 ∧
    Clean (List.replicate 6 0x20) ∧ ∃ out, pack (List.replicate 6 0x20) = .ok out :=
  have hclean : Clean (List.replicate 6 0x20) := clean_of_length_le (by decide)
  ⟨by decide, by decide, hclean, (pack_isOk_iff_clean (by decide) (by decide)).1.2 hclean⟩

/-! ### Data that are refused -/

/-- A byte that no cell holds becomes a literal. -/
theorem Packer.search_of_fresh {s : Packer} {b : UInt8} (hb : s.rest.head? = some b)
    (hfresh : ∀ place, s.window.byteAt place ≠ b) : s.search = .ok none := by
  obtain ⟨hn, -⟩ | ⟨m, hm, -⟩ := s.search_cases
  · exact hn
  · have h3 := hm.three_le
    have h0 := hm.occurs.bytes 0 (by omega)
    rw [← List.head?_eq_getElem?, hb, Option.some.injEq] at h0
    exact absurd h0.symm (hfresh _)

/-- Bytes that are all different and no spaces become literals. -/
theorem Packer.reached_of_nodup {data : Bytes} (first more rest : Bytes)
    (hdata : data = first ++ more ++ rest) (h3 : first.length = 3) (hnodup : (first ++ more).Nodup)
    (hspace : 0x20 ∉ first ++ more) :
    Reached data ⟨(first ++ more).foldl Window.push Window.packing, (first ++ more).map .literal, rest⟩ := by
  induction more using List.reverseRecOn generalizing rest with
  | nil =>
    have hstart : Packer.start data = ⟨first.foldl Window.push Window.packing, first.map .literal, rest⟩ := by
      rw [Packer.start, hdata, List.append_nil, List.take_left' h3, List.drop_left' h3]
    rw [List.append_nil, ← hstart]
    exact .start
  | append_singleton more b ih =>
    rw [← List.append_assoc] at hnodup hspace ⊢
    rw [List.nodup_append] at hnodup
    have hs := ih (b :: rest) (by simp [hdata]) hnodup.1 fun h => hspace (List.mem_append_left _ h)
    have hfresh : ∀ place, ((first ++ more).foldl Window.push Window.packing).byteAt place ≠ b := by
      refine Window.byteAt_foldl_push_of_ne (fun hb => hnodup.2.2 b hb b (by simp) rfl) fun place => ?_
      rw [Window.byteAt_packing]
      rintro rfl
      exact hspace (by simp)
    have ht := hs.turn (.literal rfl (search_of_fresh rfl hfresh))
    simpa only [addLiteral, List.foldl_append, List.foldl_cons, List.foldl_nil, List.map_append,
      List.map_cons, List.map_nil, List.drop_succ_cons, List.drop_zero] using ht

/-- Two bytes in the first cells and a third one behind the cursor are found behind the last cell only. -/
theorem Packer.search_of_cut {w : Window} (cs : List Command) {a b c : UInt8} (hw : (w.cursor : Nat) = 0)
    (hfresh : ∀ place, w.byteAt place ≠ a) (hba : b ≠ a) (hc : w.byteAt 2 = c) :
    (⟨(w.push a).push b, cs, [a, b, c]⟩ : Packer).search = .error (.disagreement .matchPosition) := by
  have hcur1 : ((w.push a).cursor : Nat) = 1 := by rw [Window.push_cursor, hw]
  have hcur : (((w.push a).push b).cursor : Nat) = 2 := by rw [Window.push_cursor, hcur1]
  have hbyte : ∀ place, ((w.push a).push b).byteAt place =
      if place % 4096 = 1 then b else if place % 4096 = 0 then a else w.byteAt place := by
    intro place
    rw [Window.byteAt_push, Window.byteAt_push, hcur1, hw]
  have hchosen : Chosen ((w.push a).push b) [a, b, c] 4096 3 := by
    refine ⟨⟨by decide, by decide, fun i hi => ?_, fun h => ?_⟩, Nat.le_refl 3, fun p k h => ?_,
      fun p h => ?_⟩
    · rw [hbyte]
      obtain rfl | rfl | rfl : i = 0 ∨ i = 1 ∨ i = 2 := by omega
      · rfl
      · rfl
      · rw [← hc, ← Window.byteAt_mod w (4096 + 2)]
        rfl
    · rw [hcur] at h
      exact absurd h (by decide)
    · exact h.count_le_length
    · -- only cell 0 holds `a`, and from there the part would be cut
      have h0 := h.bytes 0 (by decide)
      rw [hbyte, Nat.add_zero, List.getElem?_cons_zero, Option.some.injEq] at h0
      have hcell : p % 4096 = 0 := by
        by_cases h1 : p % 4096 = 1
        · rw [if_pos h1] at h0
          exact absurd h0.symm hba
        · rw [if_neg h1] at h0
          by_cases h2 : p % 4096 = 0
          · exact h2
          · rw [if_neg h2] at h0
            exact absurd h0.symm (hfresh p)
      have huncut := h.uncut
      rw [hcur] at huncut
      omega
  have hsearch := search_of_chosen (s := ⟨(w.push a).push b, cs, [a, b, c]⟩) (m := ⟨4096, 3⟩) hchosen
  rwa [if_neg (by decide)] at hsearch

/-- The letters A to R. -/
def letters : Bytes :=
  [65, 66, 67, 68, 69, 70, 71, 72, 73, 74, 75, 76, 77, 78, 79, 80, 81, 82]

/-- **Not all data can be packed.**  Behind the letters and `ab` the ring holds `ab` and a space in its
first cells, where the cursor cuts them, and once more behind its last cell, where the packer finds
them and refuses. -/
theorem pack_refuses_cut_repeat :
    4 ≤ (letters ++ [97, 98] ++ [97, 98, 32]).length ∧
    (letters ++ [97, 98] ++ [97, 98, 32]).length < 0x100000000 ∧
    pack (letters ++ [97, 98] ++ [97, 98, 32]) = .error (.disagreement .matchPosition) := by
  refine ⟨by decide, by decide, ?_⟩
  have hs : Reached (letters ++ [97, 98] ++ [97, 98, 32])
      ⟨((letters.foldl Window.push Window.packing).push 97).push 98, (letters ++ [97, 98]).map .literal,
        [97, 98, 32]⟩ :=
    reached_of_nodup (letters.take 3) (letters.drop 3 ++ [97, 98]) [97, 98, 32] rfl rfl (by decide)
      (by decide)
  have hblank := Window.blank_packing.foldl_push letters
  have hfresh : ∀ place, (letters.foldl Window.push Window.packing).byteAt place ≠ 97 := by
    refine Window.byteAt_foldl_push_of_ne (by decide) fun place => ?_
    rw [Window.byteAt_packing]
    decide
  have hsearch := search_of_cut ((letters ++ [97, 98]).map .literal) hblank.cursor_eq hfresh
    (by decide : (98 : UInt8) ≠ 97) (hblank.spaces 2 (by decide))
  rw [pack_eq (by decide) (by decide), hs.commands_eq, commandsFrom_of_search_error (by simp) hsearch]
  rfl

end AdventureKit.Lzss
