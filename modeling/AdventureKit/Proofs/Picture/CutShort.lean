import AdventureKit.Proofs.Picture.Runs

/-!
# Sprites that are cut short

The run form of a sprite is a row of codes, one for each piece of a run (`pieces`).  A beginning of it ends
between two codes or inside one of two bytes.  In the first case unpacking gives the pixels of the codes that
are there and fills up with zeros, in the second it fails (`unpackRuns_of_cut`); what is read is not compared
with its own run form.
-/

namespace AdventureKit.Sprite

open Sequence (expand runs)

/-! ## Pieces of runs -/

/-- The pieces of a run: as many as needed of full length, and one for what is left. -/
def runPieces (v : UInt8) (count : Nat) : List (UInt8 × Nat) :=
  List.replicate ((count - 1) / longestRun) (v, longestRun) ++ [(v, (count - 1) % longestRun + 1)]

/-- The pieces of pixels, each of which has a code of its own. -/
def pieces (px : Bytes) : List (UInt8 × Nat) :=
  (runs px).flatMap fun r => runPieces r.1 r.2

/-- The code of a piece: one byte for up to eight pixels, else two. -/
def pieceCode (p : UInt8 × Nat) : Bytes :=
  if p.2 ≤ 8 then [runByte p.1 (8 + (p.2 - 1))]
  else [runByte p.1 ((p.2 - 1) / 256), UInt8.ofNat ((p.2 - 1) % 256)]

/-- The codes of pieces one after the other. -/
def codesOf (ps : List (UInt8 × Nat)) : Bytes :=
  ps.flatMap pieceCode

/-- Pixels of four bits, as many as one code holds. -/
structure IsPiece (p : UInt8 × Nat) : Prop where
  value_lt : p.1.toNat < 16
  count_pos : 0 < p.2
  count_le : p.2 ≤ longestRun

theorem runPieces_of_long {count : Nat} (h : count > longestRun) (v : UInt8) :
    runPieces v count = (v, longestRun) :: runPieces v (count - longestRun) := by
  have hlong : 2048 < count := h
  have hpieces : (count - 1) / 2048 = (count - 2048 - 1) / 2048 + 1 := by omega
  have hlast : (count - 1) % 2048 = (count - 2048 - 1) % 2048 := by omega
  simp only [runPieces, longestRun, hpieces, hlast, List.replicate_succ, List.cons_append]

theorem runPieces_of_short {count : Nat} (hpos : 0 < count) (h : ¬ count > longestRun) (v : UInt8) :
    runPieces v count = [(v, count)] := by
  have hshort : count ≤ 2048 := Nat.not_lt.1 h
  have hpieces : (count - 1) / 2048 = 0 := by omega
  have hlast : (count - 1) % 2048 + 1 = count := by omega
  simp only [runPieces, longestRun, hpieces, hlast, List.replicate_zero, List.nil_append]

theorem isPiece_of_mem_runPieces {v : UInt8} (hv : v.toNat < 16) {count : Nat} {p : UInt8 × Nat}
    (h : p ∈ runPieces v count) : IsPiece p := by
  rcases List.mem_append.1 h with h | h
  · rw [(List.mem_replicate.1 h).2]
    exact ⟨hv, (by decide : 0 < longestRun), Nat.le_refl _⟩
  · rw [List.mem_singleton.1 h]
    exact ⟨hv, Nat.succ_pos _, Nat.mod_lt _ (by decide)⟩

theorem expand_runPieces (v : UInt8) {count : Nat} (hpos : 0 < count) :
    expand (runPieces v count) = List.replicate count v := by
  -- each piece of full length leaves a shorter run
  induction count using Nat.strongRecOn with
  | ind count ih =>
    by_cases hlong : count > longestRun
    · have hrest := ih (count - longestRun) (Nat.sub_lt hpos (by decide)) (Nat.sub_pos_of_lt hlong)
      rw [runPieces_of_long hlong, expand, List.flatMap_cons, ← expand, hrest, List.replicate_append_replicate,
        Nat.add_sub_cancel' (Nat.le_of_lt hlong)]
    · rw [runPieces_of_short hpos hlong]
      exact List.append_nil _

/-- A run is packed to the codes of its pieces. -/
theorem packRun_eq_codesOf {v : UInt8} (hv : v.toNat < 16) {count : Nat} (hpos : 0 < count) :
    packRun v count = .ok (codesOf (runPieces v count)) := by
  have hfull : pieceCode (v, longestRun) = [runByte v 7, 0xFF] := by
    have hhigh : (longestRun - 1) / 256 = 7 := by decide
    have hlow : UInt8.ofNat ((longestRun - 1) % 256) = 0xFF := by decide
    rw [pieceCode, if_neg (by decide : ¬ longestRun ≤ 8), hhigh, hlow]
  induction count using Nat.strongRecOn with
  | ind count ih =>
    rw [packRun]
    by_cases hlong : count > longestRun
    · rw [if_pos hlong, if_pos hv, ih (count - longestRun) (Nat.sub_lt hpos (by decide)) (Nat.sub_pos_of_lt hlong),
        runPieces_of_long hlong, codesOf, codesOf, List.flatMap_cons, hfull]
      rfl
    · rw [if_neg hlong, if_pos hv, runPieces_of_short hpos hlong]
      by_cases hform : count - 1 > 7
      · have hcount : ¬ count ≤ 8 := by omega
        simp only [if_pos hform, codesOf, List.flatMap_cons, List.flatMap_nil, pieceCode, if_neg hcount,
          List.append_nil]
      · have hcount : count ≤ 8 := by omega
        simp only [if_neg hform, codesOf, List.flatMap_cons, List.flatMap_nil, pieceCode, if_pos hcount,
          List.append_nil]

section Pixels

variable {px : Bytes} (hpx : ∀ v ∈ px, v < 16)
include hpx

theorem value_lt_of_mem_runs {r : UInt8 × Nat} (hr : r ∈ runs px) : r.1.toNat < 16 :=
  UInt8.lt_iff_toNat_lt.1 (hpx r.1 (Sequence.mem_of_mem_runs hr))

theorem isPiece_of_mem_pieces {p : UInt8 × Nat} (hp : p ∈ pieces px) : IsPiece p := by
  obtain ⟨r, hr, hp⟩ := List.mem_flatMap.1 hp
  exact isPiece_of_mem_runPieces (value_lt_of_mem_runs hpx hr) hp

/-- The run form of pixels is made of the codes of their pieces. -/
theorem packRuns_eq_codesOf : packRuns px = .ok (codesOf (pieces px)) := by
  have hparts : ∀ r ∈ runs px, packRun r.1 r.2 = pure (codesOf (runPieces r.1 r.2)) := fun r hr =>
    packRun_eq_codesOf (value_lt_of_mem_runs hpx hr) ((Sequence.maximalRuns px).pos r hr)
  have hflat : ((runs px).map fun r => codesOf (runPieces r.1 r.2)).flatten = codesOf (pieces px) := by
    rw [codesOf, pieces, List.flatMap_assoc]
    rfl
  rw [packRuns, mapM_eq_pure hparts, pure_bind, hflat]
  rfl

end Pixels

theorem expand_pieces (px : Bytes) : expand (pieces px) = px := by
  have hall : ∀ rs : List (UInt8 × Nat), (∀ r ∈ rs, 0 < r.2) →
      expand (rs.flatMap fun r => runPieces r.1 r.2) = expand rs := by
    intro rs hpos
    induction rs with
    | nil => rfl
    | cons r rs ih =>
      obtain ⟨hr, hrs⟩ := List.forall_mem_cons.1 hpos
      have hrest := ih hrs
      rw [expand] at hrest ⊢
      rw [List.flatMap_cons, List.flatMap_append, hrest, ← expand, expand_runPieces r.1 hr]
      rfl
  rw [pieces, hall _ (Sequence.maximalRuns px).pos, Sequence.expand_runs]

theorem codes_pieceCode {p : UInt8 × Nat} (hp : IsPiece p) : Codes (List.replicate p.2 p.1) (pieceCode p) := by
  have hpos := hp.count_pos
  have hle : p.2 ≤ 2048 := hp.count_le
  have hsucc : p.2 - 1 + 1 = p.2 := Nat.sub_add_cancel hpos
  rw [pieceCode]
  split
  · have hcodes := codes_short hp.value_lt (by omega : p.2 - 1 ≤ 7)
    rwa [hsucc] at hcodes
  · have hcodes := codes_long hp.value_lt (by omega : 7 < p.2 - 1) (by omega)
    rwa [hsucc] at hcodes

theorem codes_codesOf {ps : List (UInt8 × Nat)} (hps : ∀ p ∈ ps, IsPiece p) : Codes (expand ps) (codesOf ps) := by
  induction ps with
  | nil => exact codes_nil
  | cons p ps ih =>
    obtain ⟨hp, hps⟩ := List.forall_mem_cons.1 hps
    exact (codes_pieceCode hp).append (ih hps)

/-! ## Beginnings of codes -/

/-- The data end inside a code of two bytes. -/
def EndsInside (ps : List (UInt8 × Nat)) (d : Bytes) : Prop :=
  ∃ done p rest b b', ps = done ++ p :: rest ∧ pieceCode p = [b, b'] ∧ d = codesOf done ++ [b]

/-- A part of the codes that is not all of them ends before or inside some code. -/
theorem exists_cut {ps : List (UInt8 × Nat)} {d : Bytes} (h : d <+: codesOf ps) (hne : d ≠ codesOf ps) :
    ∃ done p rest part, ps = done ++ p :: rest ∧ d = codesOf done ++ part ∧ part <+: pieceCode p ∧
      part ≠ pieceCode p := by
  induction ps generalizing d with
  | nil => exact absurd (List.prefix_nil.1 h) hne
  | cons p ps ih =>
    have hsplit : codesOf (p :: ps) = pieceCode p ++ codesOf ps := rfl
    rw [hsplit] at h hne
    by_cases hp : pieceCode p <+: d
    · -- the first code is complete
      obtain ⟨later, rfl⟩ := hp
      rw [List.prefix_append_right_inj] at h
      obtain ⟨done, q, rest, part, rfl, rfl, hpart, hcut⟩ := ih h fun he => hne (by rw [he])
      exact ⟨p :: done, q, rest, part, rfl, (List.append_assoc _ _ _).symm, hpart, hcut⟩
    · have hpart : d <+: pieceCode p :=
        (List.prefix_or_prefix_of_prefix h (List.prefix_append _ _)).resolve_right hp
      exact ⟨[], p, ps, d, rfl, rfl, hpart, fun he => hp (he ▸ List.prefix_rfl)⟩

/-- A beginning of the codes ends inside a code of two bytes, or it is made of whole codes. -/
theorem endsInside_or_eq {ps : List (UInt8 × Nat)} {d : Bytes} (h : d <+: codesOf ps) (hne : d ≠ codesOf ps) :
    EndsInside ps d ∨ ∃ done p rest, ps = done ++ p :: rest ∧ d = codesOf done := by
  obtain ⟨done, p, rest, part, hps, hd, hpart, hcut⟩ := exists_cut h hne
  cases part with
  | nil => exact .inr ⟨done, p, rest, hps, by rw [hd, List.append_nil]⟩
  | cons b part =>
    rw [pieceCode] at hpart hcut
    split at hpart
    · rename_i hshort
      rw [if_pos hshort] at hcut
      rw [List.cons_prefix_cons, List.prefix_nil] at hpart
      exact absurd (by rw [hpart.1, hpart.2]) hcut
    · rename_i hlong
      rw [if_neg hlong] at hcut
      rw [List.cons_prefix_cons] at hpart
      obtain ⟨hb, hpart⟩ := hpart
      cases part with
      | nil => exact .inl ⟨done, p, rest, b, _, hps, by rw [pieceCode, if_neg hlong, hb], hd⟩
      | cons b' part =>
        rw [List.cons_prefix_cons, List.prefix_nil] at hpart
        exact absurd (by rw [hb, hpart.1, hpart.2]) hcut

/-! ## Unpacking a beginning -/

variable {done rest : List (UInt8 × Nat)} {p : UInt8 × Nat} {wanted : Nat}

/-- There are fewer pixels before a piece than in all. -/
theorem length_expand_lt (done rest : List (UInt8 × Nat)) (hp : IsPiece p) :
    (expand done).length < (expand (done ++ p :: rest)).length := by
  have hpos := hp.count_pos
  rw [expand, expand, List.flatMap_append, List.flatMap_cons, List.length_append, List.length_append,
    List.length_replicate]
  omega

theorem unpackRunsFrom_codesOf (hps : ∀ q ∈ done ++ p :: rest, IsPiece q)
    (hwanted : wanted = (expand (done ++ p :: rest)).length) :
    unpackRunsFrom wanted (codesOf done) = .ok (expand done, false) := by
  rw [List.forall_mem_append, List.forall_mem_cons] at hps
  have hlt := length_expand_lt done rest hps.2.1
  rw [← hwanted] at hlt
  have hrun := codes_codesOf hps.1 wanted [] (Nat.le_of_lt hlt)
  have hleft : (wanted - (expand done).length == 0) = false := by
    rw [beq_eq_false_iff_ne]
    omega
  rw [List.append_nil, unpackRunsFrom, hleft] at hrun
  rw [hrun]
  simp [Except.map, after]

theorem unpackRunsFrom_inside (hps : ∀ q ∈ done ++ p :: rest, IsPiece q)
    (hwanted : wanted = (expand (done ++ p :: rest)).length) {b b' : UInt8} (hcode : pieceCode p = [b, b']) :
    unpackRunsFrom wanted (codesOf done ++ [b]) = .error (.ended .byte) := by
  rw [List.forall_mem_append, List.forall_mem_cons] at hps
  have hlt := length_expand_lt done rest hps.2.1
  rw [← hwanted] at hlt
  have hrun := codes_codesOf hps.1 wanted [b] (Nat.le_of_lt hlt)
  have hleft : wanted - (expand done).length ≠ 0 := by omega
  -- the first byte of a code of two bytes does not have the bit of the short form
  have hlong : ¬ b.toNat / 8 % 2 = 1 := by
    have hpiece := hps.2.1
    have hle : p.2 ≤ 2048 := hpiece.count_le
    rw [pieceCode] at hcode
    split at hcode
    · cases hcode
    · cases hcode
      rw [toNat_runByte hpiece.value_lt (by omega)]
      omega
  have hone : unpackRunsFrom (wanted - (expand done).length) [b] = .error (.ended .byte) := by
    rw [unpackRunsFrom.eq_def]
    simp only [hleft, hlong, if_false]
  rw [hrun, hone]
  rfl

/-- What is said of a sprite with fewer pixels than wanted. -/
def remark (found wanted : Nat) : String :=
  "WARNING: incomplete sprite - " ++ toString found ++ " of " ++ toString wanted ++ "\n"

variable {width height : Nat} {px : Bytes}

/-- **Sprites that are cut short.**  All pixels of four bits have a run form, the codes of their pieces.  A part
of it from the start is refused if it ends inside a code; else it is made of whole codes, and what is unpacked
are their pixels and zeros behind them. -/
theorem unpackRuns_of_cut (hpx : Fills width height px) :
    packRuns px = .ok (codesOf (pieces px)) ∧ expand (pieces px) = px ∧
    ∀ d, d <+: codesOf (pieces px) → d ≠ codesOf (pieces px) → ∀ log,
      (EndsInside (pieces px) d → (unpackRuns d width height).run.run log = (.error (.ended .byte), log)) ∧
      (¬ EndsInside (pieces px) d → ∃ done, done <+: pieces px ∧ d = codesOf done ∧
        (unpackRuns d width height).run.run log =
          (.ok (expand done ++ List.replicate (width * height - (expand done).length) 0),
            log ++ remark (expand done).length (width * height))) := by
  have hpieces : ∀ p ∈ pieces px, IsPiece p := fun p hp => isPiece_of_mem_pieces hpx.range hp
  have hwanted : width * height = (expand (pieces px)).length := by rw [expand_pieces, hpx.length]
  refine ⟨packRuns_eq_codesOf hpx.range, expand_pieces px, fun d hd hne log => ⟨?_, fun hinside => ?_⟩⟩
  · rintro ⟨done, p, rest, b, b', hps, hcode, rfl⟩
    rw [hps] at hpieces hwanted
    unfold unpackRuns
    simp only [unpackRunsFrom_inside hpieces hwanted hcode, Logged.ofExcept_error]
    rfl
  · obtain ⟨done, p, rest, hps, hdone⟩ := (endsInside_or_eq hd hne).resolve_left hinside
    rw [hps] at hpieces hwanted
    have hunpack := unpackRunsFrom_codesOf hpieces hwanted
    rw [← hdone] at hunpack
    refine ⟨done, ⟨p :: rest, hps.symm⟩, hdone, ?_⟩
    rw [unpackRuns_of_incomplete hunpack]
    exact Logged.run_say _ _ log

theorem unpackRuns_of_cut_ten :
    Fills 5 2 tenPixels ∧ codesOf (pieces tenPixels) = [0x30, 8, 8] ∧
      EndsInside (pieces tenPixels) [0x30] ∧ (unpackRuns [0x30] 5 2).run.run "" = (.error (.ended .byte), "") ∧
      ¬ EndsInside (pieces tenPixels) [0x30, 8] ∧
      ∃ done, done <+: pieces tenPixels ∧ [0x30, 8] = codesOf done ∧
        (unpackRuns [0x30, 8] 5 2).run.run "" =
          (.ok (expand done ++ List.replicate (5 * 2 - (expand done).length) 0),
            "" ++ remark (expand done).length (5 * 2)) := by
  have hpx : Fills 5 2 tenPixels := ⟨rfl, by simp [tenPixels]⟩
  have hpieces : pieces tenPixels = [(3, 9), (0, 1)] := by decide
  have hcodes : codesOf (pieces tenPixels) = [0x30, 8, 8] := by decide
  have hcut := (unpackRuns_of_cut hpx).2.2
  rw [hcodes] at hcut
  have hinside : EndsInside (pieces tenPixels) [0x30] := ⟨[], (3, 9), [(0, 1)], 0x30, 8, hpieces, by decide, rfl⟩
  have hwhole : ¬ EndsInside (pieces tenPixels) [0x30, 8] := by
    rintro ⟨done, p, rest, b, b', hps, hcode, hd⟩
    rw [hpieces] at hps
    rcases done with _ | ⟨q, _ | ⟨q', done⟩⟩
    · cases hd
    · -- the second code has one byte
      cases hps
      cases hcode
    · have hlength := congrArg List.length hps
      simp at hlength
  exact ⟨hpx, hcodes, hinside, (hcut [0x30] (by decide) (by decide) "").1 hinside, hwhole,
    (hcut [0x30, 8] (by decide) (by decide) "").2 hwhole⟩

end AdventureKit.Sprite
