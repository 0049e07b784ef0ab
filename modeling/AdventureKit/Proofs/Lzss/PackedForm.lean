import AdventureKit.Proofs.Lzss.History
import AdventureKit.Proofs.Lzss.RoundTrip

/-!
# The form and the size of packed data

Packed data are groups of eight commands, the last one of up to eight, each behind a byte whose bits tell the kinds
of its commands (`Grouped`).  No command is longer than the bytes that it stands for, so that packed data are longer
than the content by their length and the flag bytes at most (`packed_form`).
-/

namespace AdventureKit.Lzss

/-- The bytes of a command tell it: a literal is one byte, and the two bytes of a copy give its place and its
length. -/
def Command.Coded : Command → Prop
  | .literal b => (Command.literal b).bytes = [b]
  | .copy place length => place < 4096 ∧ 3 ≤ length ∧ length ≤ 18 ∧
    ∃ first second, (Command.copy place length).bytes = [first, second] ∧ copyPlace first second = place ∧
      copyLength second = length

/-- Commands behind a flag byte. -/
structure Group where
  flag : UInt8
  commands : List Command

namespace Group

def bytes (g : Group) : Bytes :=
  g.flag :: g.commands.flatMap Command.bytes

/-- Up to eight commands behind a byte with a bit for each of them, set for a literal.  The other bits are zero. -/
structure WellFormed (g : Group) : Prop where
  length_pos : 1 ≤ g.commands.length
  length_le : g.commands.length ≤ 8
  coded : ∀ c ∈ g.commands, c.Coded
  flags : ∀ i, g.flag.toNat.testBit i = (g.commands[i]?).any Command.isLiteral

end Group

/-- Groups of eight commands, the last one of up to eight. -/
structure Grouped (groups : List Group) : Prop where
  ne_nil : groups ≠ []
  wellFormed : ∀ g ∈ groups, g.WellFormed
  full : ∀ g ∈ groups.dropLast, g.commands.length = 8

theorem Command.Fits.coded {c : Command} (h : c.Fits) : c.Coded := by
  cases c with
  | literal b => rfl
  | copy place length => exact ⟨h.1, h.2.1, h.2.2, _, _, rfl, copyPlace_bytes h, copyLength_byte h⟩

/-- Up to eight commands behind their flag byte. -/
theorem wellFormed_flagByte {group : List Command} (hne : group ≠ []) (h8 : group.length ≤ 8)
    (hc : ∀ c ∈ group, c.Fits) : Group.WellFormed ⟨flagByte group, group⟩ := by
  refine ⟨List.length_pos_iff.2 hne, h8, fun c hmem => (hc c hmem).coded, fun i => ?_⟩
  show (flagByte group).toNat.testBit i = (group[i]?).any Command.isLiteral
  by_cases hi : i < 8
  · have hbit : (flagByte group).toNat.testBit i = ((flagsOf (flagByte group))[i]?).getD false := by
      simp [flagsOf, hi]
    rw [hbit, flagsOf_flagByte h8, List.getElem?_append, List.length_map, List.getElem?_map, List.getElem?_replicate]
    -- behind the kinds of the commands there are zeros
    by_cases hin : i < group.length
    · simp [hin]
    · rw [if_neg hin, List.getElem?_eq_none (Nat.le_of_not_lt hin)]
      split <;> rfl
  · have hlt : (flagByte group).toNat < 2 ^ i :=
      Nat.lt_of_lt_of_le (flagByte group).toNat_lt (Nat.pow_le_pow_right (by decide) (Nat.le_of_not_lt hi))
    rw [Nat.testBit_lt_two_pow hlt, List.getElem?_eq_none (by omega)]
    rfl

/-- The bytes of commands are those of groups. -/
theorem exists_groups {cs : List Command} (hne : cs ≠ []) (hc : ∀ c ∈ cs, c.Fits) :
    ∃ groups, Grouped groups ∧ groups.flatMap Group.commands = cs ∧
      groups.flatMap Group.bytes = encodeCommands cs := by
  induction cs, hne using group_induction with
  | hshort group hne h8 =>
    refine ⟨[⟨flagByte group, group⟩], ⟨by simp, ?_, by simp⟩, List.flatMap_singleton .., ?_⟩
    · simpa using wellFormed_flagByte hne h8 hc
    · rw [encodeCommands_group hne h8, List.flatMap_singleton]
      rfl
  | hlong group later h8 hlater ih =>
    have hne : group ≠ [] := List.ne_nil_of_length_pos (by omega)
    obtain ⟨groups, hgroups, hcommands, hbytes⟩ := ih fun c hmem => hc c (List.mem_append_right _ hmem)
    have hfirst := wellFormed_flagByte hne (by omega) fun c hmem => hc c (List.mem_append_left _ hmem)
    refine ⟨⟨flagByte group, group⟩ :: groups, ⟨by simp, ?_, ?_⟩, ?_, ?_⟩
    · exact List.forall_mem_cons.2 ⟨hfirst, hgroups.wellFormed⟩
    · rw [List.dropLast_cons_of_ne_nil hgroups.ne_nil]
      exact List.forall_mem_cons.2 ⟨h8, hgroups.full⟩
    · rw [List.flatMap_cons, hcommands]
    · rw [encodeCommands_append h8, List.flatMap_cons, hbytes]
      rfl

/-! ### The size -/

/-- No command is longer than the bytes that it stands for. -/
theorem Command.Fits.length_bytes_le {c : Command} (h : c.Fits) : c.bytes.length ≤ c.span := by
  cases c with
  | literal b => exact Nat.le_refl 1
  | copy place length => exact Nat.le_trans (by decide : 2 ≤ 3) h.2.1

theorem length_flatMap_bytes_le_spans {cs : List Command} (hc : ∀ c ∈ cs, c.Fits) :
    cs.length ≤ spans cs ∧ (cs.flatMap Command.bytes).length ≤ spans cs := by
  induction cs with
  | nil => exact ⟨Nat.le_refl 0, Nat.le_refl 0⟩
  | cons c cs ih =>
    obtain ⟨hfits, hlater⟩ := List.forall_mem_cons.1 hc
    obtain ⟨hcount, hbytes⟩ := ih hlater
    have hpos := hfits.span_pos
    have hle := hfits.length_bytes_le
    rw [List.flatMap_cons, List.length_append, List.length_cons, spans_cons]
    omega

/-- Each group of eight adds its flag byte. -/
theorem length_encodeCommands {cs : List Command} (hne : cs ≠ []) :
    (encodeCommands cs).length = (cs.flatMap Command.bytes).length + (cs.length + 7) / 8 := by
  induction cs, hne using group_induction with
  | hshort group hne h8 =>
    have hpos := List.length_pos_iff.2 hne
    rw [encodeCommands_group hne h8, List.length_cons]
    omega
  | hlong group later h8 hlater ih =>
    rw [encodeCommands_append h8, List.length_cons, List.length_append, ih, List.flatMap_append, List.length_append,
      List.length_append, h8]
    omega

/-! ### All data -/

/-- What can go wrong in the packer.  No cell behind the buffer and no value that is no byte is among it. -/
def packFaults : List Fault :=
  [.tooWide, .ended .byte, .ended .code, .disagreement .matchPosition, .disagreement .packedContent]

/-- The packer has no form for data of up to three bytes. -/
theorem pack_of_short {data : Bytes} (h : data.length ≤ 3) : ∃ fault ∈ packFaults, pack data = .error fault := by
  have hput : Bytes.putLE 4 data.length = .ok (Bytes.ofNatLE 4 data.length) :=
    Bytes.putLE_of_lt (Nat.lt_of_le_of_lt h (by decide))
  rw [pack, hput, packedCommands, if_pos h]
  by_cases h2 : data.length < 2
  · exact ⟨.ended .byte, by simp [packFaults], by simp only [h2, if_true]; rfl⟩
  · exact ⟨.ended .code, by simp [packFaults], by simp only [h2, if_false]; rfl⟩

/-- The packer fails, or it ends behind all data, and its commands unpack to them. -/
theorem pack_cases (data : Bytes) :
    (∃ fault ∈ packFaults, pack data = .error fault) ∨
      ∃ w cs, Packer.Reached data ⟨w, cs, []⟩ ∧ 4 ≤ data.length ∧ commands data = .ok cs ∧
        unpack data.length (encodeCommands cs) = .ok (data, []) ∧
        pack data = .ok (Bytes.ofNatLE 4 data.length ++ encodeCommands cs) := by
  by_cases hd : 4 ≤ data.length
  · by_cases hlt : data.length < 0x100000000
    · rw [pack_eq hd hlt]
      obtain ⟨w, cs, h, hcs⟩ | ⟨t, -, -, -, hcs⟩ := Packer.commands_cases data
      · have hlen : (Window.packing.replay cs).length = data.length := by
          rw [Window.length_replay]
          exact h.spans_add_length
        have hread := (h.inStep (List.ne_nil_of_length_pos (by omega))).ends []
        rw [List.append_nil, hlen] at hread
        -- a reader is in step up to the end, so only the content can differ
        rw [hcs, Except.bind, hread, Except.bind]
        by_cases heq : Window.packing.replay cs = data
        · rw [if_pos heq]
          exact .inr ⟨w, cs, h, hd, rfl, by rw [hread, heq], rfl⟩
        · rw [if_neg heq]
          exact .inl ⟨_, by simp [packFaults], rfl⟩
      · rw [hcs]
        exact .inl ⟨_, by simp [packFaults], rfl⟩
    · have hput : Bytes.putLE 4 data.length = .error .tooWide :=
        if_neg fun h => hlt (Int.ofNat_lt.1 h.2)
      rw [pack, hput]
      exact .inl ⟨_, by simp [packFaults], rfl⟩
  · exact .inl (pack_of_short (by omega))

/-- **The form and the size of packed data.**  The packer never writes behind the cells of its buffer.  Behind the
length its data are groups of commands, as they go through the buffer; unpacking reads all of them, and there is at
most one byte more for every eight bytes of the content. -/
theorem packed_form (data : Bytes) :
    (∀ fault, pack data = .error fault → fault ∈ packFaults) ∧
    ∀ out, pack data = .ok out → ∃ groups, Grouped groups ∧ out.drop 4 = groups.flatMap Group.bytes ∧
      commands data = .ok (groups.flatMap Group.commands) ∧
      (Writer.behind (data.take 3)).write ((groups.flatMap Group.commands).drop 3) = .ok (out.drop 4) ∧
      unpack data.length (out.drop 4) = .ok (data, []) ∧
      out.length ≤ 4 + data.length + (data.length + 7) / 8 := by
  obtain ⟨fault, hfault, hpack⟩ | ⟨w, cs, h, hd, hcs, hread, hpack⟩ := pack_cases data
  · rw [hpack]
    exact ⟨by rintro _ ⟨⟩; exact hfault, by rintro _ ⟨⟩⟩
  · rw [hpack]
    refine ⟨by rintro _ ⟨⟩, ?_⟩
    rintro _ ⟨⟩
    have hne : cs ≠ [] := h.emitted_ne_nil (List.ne_nil_of_length_pos (by omega))
    have hfits : ∀ c ∈ cs, c.Fits := h.fits
    have hspans : spans cs = data.length := h.spans_add_length
    have hfour : (Bytes.ofNatLE 4 data.length).length = 4 := Bytes.length_ofNatLE 4 data.length
    obtain ⟨groups, hgroups, hcommands, hbytes⟩ := exists_groups hne hfits
    obtain ⟨hcount, hlength⟩ := length_flatMap_bytes_le_spans hfits
    rw [List.drop_left' hfour]
    refine ⟨groups, hgroups, hbytes.symm, ?_, ?_, hread, ?_⟩
    · rw [hcommands, hcs]
    · rw [hcommands]
      exact write_commands hd hcs
    · rw [List.length_append, hfour, length_encodeCommands hne]
      omega

/-- Six spaces become one group: three literals and a copy of three. -/
theorem pack_spaces : pack (List.replicate 6 0x20) = .ok [6, 0, 0, 0, 7, 0x20, 0x20, 0x20, 0, 0] := by
  have hs : Packer.Reached (List.replicate 6 0x20) ((Packer.start (List.replicate 6 0x20)).addCopy ⟨0, 3⟩) :=
    .turn .start (.copy (by decide) search_start_spaces)
  have hcs : commands (List.replicate 6 0x20) =
      .ok [.literal 0x20, .literal 0x20, .literal 0x20, .copy 0 3] := hs.commands_eq
  have hread : unpack 6 [7, 0x20, 0x20, 0x20, 0, 0] = .ok (List.replicate 6 0x20, []) :=
    eq_ok_of_toOption ((History.unpackFrom_eq_decodeFrom 6 0 8 [] _ _ (History.follows_start 6)).trans (by decide))
  have hbytes : encodeCommands [.literal 0x20, .literal 0x20, .literal 0x20, .copy 0 3] =
      [7, 0x20, 0x20, 0x20, 0, 0] :=
    encodeCommands_group (by simp) (by decide)
  rw [pack_eq (by decide) (by decide), hcs, Except.bind, hbytes]
  show (unpack 6 [7, 0x20, 0x20, 0x20, 0, 0]).bind _ = _
  rw [hread]
  rfl

theorem packed_form_spaces :
    pack (List.replicate 6 0x20) = .ok [6, 0, 0, 0, 7, 0x20, 0x20, 0x20, 0, 0] ∧
    ∃ groups, Grouped groups ∧ [7, 0x20, 0x20, 0x20, 0, 0] = groups.flatMap Group.bytes ∧
      (Writer.behind [0x20, 0x20, 0x20]).write ((groups.flatMap Group.commands).drop 3) =
        .ok [7, 0x20, 0x20, 0x20, 0, 0] := by
  obtain ⟨groups, hgroups, hbytes, -, hwrite, -⟩ := (packed_form _).2 _ pack_spaces
  exact ⟨pack_spaces, groups, hgroups, hbytes, hwrite⟩

end AdventureKit.Lzss
