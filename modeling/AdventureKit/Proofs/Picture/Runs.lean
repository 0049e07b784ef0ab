import AdventureKit.Picture.Sprite
import AdventureKit.Proofs.Fault
import AdventureKit.Proofs.Sequence

/-!
# Sprites in run form

Unpacking accepts just what packing writes: a sprite is read without a remark if and only if it is the run
form of its pixels (`unpackRuns_eq_iff`).  The form of a sprite is told by its first two bytes, and these can
be the mark of the packed form by chance: pixels that start with a run of 259 zeros are not read back
(`decode_packPixels_iff`).
-/

namespace AdventureKit

@[simp] theorem Logged.ofExcept_ok {α : Type} (a : α) : Logged.ofExcept (.ok a) = pure a := rfl

@[simp] theorem Logged.ofExcept_error {α : Type} (e : Fault) : (Logged.ofExcept (.error e) : Logged α) = throw e := rfl

theorem Logged.run_say {α : Type} (s : String) (a : α) (log : String) :
    (do Logged.say s; return a : Logged α).run.run log = (.ok a, log ++ s) := rfl

namespace Sprite

open Sequence (expand runs)

/-! ## Codes -/

theorem toNat_runByte {v : UInt8} (hv : v.toNat < 16) {low : Nat} (hlow : low < 16) :
    (runByte v low).toNat = v.toNat * 16 + low := by
  rw [runByte, UInt8.toNat_ofNat']
  omega

theorem shiftRight_runByte {v : UInt8} (hv : v.toNat < 16) {low : Nat} (hlow : low < 16) :
    runByte v low >>> 4 = v := by
  refine UInt8.toNat_inj.1 ?_
  have hshift : (runByte v low >>> 4).toNat = (runByte v low).toNat / 2 ^ 4 := by
    rw [UInt8.toNat_shiftRight, Nat.shiftRight_eq_div_pow]
    rfl
  rw [hshift, toNat_runByte hv hlow]
  omega

/-- Puts pixels before what was unpacked. -/
def after (px : Bytes) (p : Bytes × Bool) : Bytes × Bool :=
  (px ++ p.1, p.2)

variable {wanted : Nat} {v : UInt8}

theorem unpackRunsFrom_short (hv : v.toNat < 16) {repeats : Nat} (hr : repeats ≤ 7) (hw : repeats + 1 ≤ wanted)
    (rest : Bytes) :
    unpackRunsFrom wanted (runByte v (8 + repeats) :: rest) =
      (unpackRunsFrom (wanted - (repeats + 1)) rest).map (after (List.replicate (repeats + 1) v)) := by
  have hbyte := toNat_runByte hv (by omega : 8 + repeats < 16)
  have hkind : (v.toNat * 16 + (8 + repeats)) / 8 % 2 = 1 := by omega
  have hlow : (v.toNat * 16 + (8 + repeats)) % 8 = repeats := by omega
  have hwanted : wanted ≠ 0 := by omega
  have hfits : ¬ repeats + 1 > wanted := by omega
  rw [unpackRunsFrom.eq_def]
  simp only [hbyte, hkind, hlow, hwanted, hfits, if_false, if_true, shiftRight_runByte hv (by omega : 8 + repeats < 16)]
  cases unpackRunsFrom (wanted - (repeats + 1)) rest with
  | error e => rfl
  | ok p => rfl

theorem unpackRunsFrom_long (hv : v.toNat < 16) {repeats : Nat} (hr : 7 < repeats) (hlt : repeats < 2048)
    (hw : repeats + 1 ≤ wanted) (rest : Bytes) :
    unpackRunsFrom wanted (runByte v (repeats / 256) :: UInt8.ofNat (repeats % 256) :: rest) =
      (unpackRunsFrom (wanted - (repeats + 1)) rest).map (after (List.replicate (repeats + 1) v)) := by
  have hbyte := toNat_runByte hv (by omega : repeats / 256 < 16)
  have hkind : ¬ (v.toNat * 16 + repeats / 256) / 8 % 2 = 1 := by omega
  have hlow : (v.toNat * 16 + repeats / 256) % 8 = repeats / 256 := by omega
  have hnext : (UInt8.ofNat (repeats % 256)).toNat = repeats % 256 := by simp
  have hsum : repeats / 256 * 256 + repeats % 256 = repeats := by omega
  have hwanted : wanted ≠ 0 := by omega
  have hform : ¬ repeats ≤ 7 := by omega
  have hfits : ¬ repeats + 1 > wanted := by omega
  rw [unpackRunsFrom.eq_def]
  simp only [hbyte, hkind, hlow, hnext, hsum, hwanted, hform, hfits, if_false,
    shiftRight_runByte hv (by omega : repeats / 256 < 16)]
  cases unpackRunsFrom (wanted - (repeats + 1)) rest with
  | error e => rfl
  | ok p => rfl

/-! ## Runs -/

/-- Codes that unpack to pixels, whatever stands behind them. -/
def Codes (px data : Bytes) : Prop :=
  ∀ wanted rest, px.length ≤ wanted →
    unpackRunsFrom wanted (data ++ rest) = (unpackRunsFrom (wanted - px.length) rest).map (after px)

theorem codes_nil : Codes [] [] := by
  intro wanted rest _
  cases h : unpackRunsFrom wanted rest with
  | error e => simp [h, Except.map]
  | ok p => simp [h, Except.map, after]

theorem Codes.append {px px' data data' : Bytes} (h : Codes px data) (h' : Codes px' data') :
    Codes (px ++ px') (data ++ data') := by
  intro wanted rest hw
  rw [List.length_append] at hw
  rw [List.append_assoc, h _ _ (by omega), h' _ _ (by omega), List.length_append, Nat.sub_add_eq]
  cases unpackRunsFrom (wanted - px.length - px'.length) rest with
  | error e => rfl
  | ok p => simp [Except.map, after]

theorem codes_short (hv : v.toNat < 16) {repeats : Nat} (hr : repeats ≤ 7) :
    Codes (List.replicate (repeats + 1) v) [runByte v (8 + repeats)] := by
  intro wanted rest hw
  rw [List.length_replicate] at hw ⊢
  exact unpackRunsFrom_short hv hr hw rest

theorem codes_long (hv : v.toNat < 16) {repeats : Nat} (hr : 7 < repeats) (hlt : repeats < 2048) :
    Codes (List.replicate (repeats + 1) v) [runByte v (repeats / 256), UInt8.ofNat (repeats % 256)] := by
  intro wanted rest hw
  rw [List.length_replicate] at hw ⊢
  exact unpackRunsFrom_long hv hr hlt hw rest

theorem codes_full (hv : v.toNat < 16) : Codes (List.replicate longestRun v) [runByte v 7, 0xFF] :=
  codes_long hv (by decide : 7 < 2047) (by decide)

/-- A run is packed, and its codes unpack to it. -/
theorem packRun_eq_ok (hv : v.toNat < 16) {count : Nat} (hcount : 0 < count) :
    ∃ data, packRun v count = .ok data ∧ Codes (List.replicate count v) data := by
  -- each code of full length leaves a shorter run
  induction count using Nat.strongRecOn with
  | ind count ih =>
    rw [packRun]
    by_cases hlong : count > longestRun
    · obtain ⟨data, hdata, hcodes⟩ := ih (count - longestRun) (Nat.sub_lt hcount (by decide)) (Nat.sub_pos_of_lt hlong)
      refine ⟨runByte v 7 :: 0xFF :: data, ?_, ?_⟩
      · rw [if_pos hlong, if_pos hv, hdata]
        rfl
      · have hsplit :
            List.replicate count v = List.replicate longestRun v ++ List.replicate (count - longestRun) v := by
          rw [List.replicate_append_replicate, Nat.add_sub_cancel' (Nat.le_of_lt hlong)]
        rw [hsplit]
        exact (codes_full hv).append hcodes
    · have hlong' : ¬ count > 2048 := hlong
      have hsucc : count - 1 + 1 = count := Nat.sub_add_cancel hcount
      rw [if_neg hlong, if_pos hv]
      by_cases hform : count - 1 > 7
      · have hcodes := codes_long hv hform (by omega)
        rw [hsucc] at hcodes
        exact ⟨_, if_pos hform, hcodes⟩
      · have hcodes := codes_short hv (by omega : count - 1 ≤ 7)
        rw [hsucc] at hcodes
        exact ⟨_, if_neg hform, hcodes⟩

theorem mapM_packRun_eq_ok {rs : List (UInt8 × Nat)} (hv : ∀ r ∈ rs, r.1.toNat < 16) (hpos : ∀ r ∈ rs, 0 < r.2) :
    ∃ parts, (rs.mapM fun (v, count) => packRun v count) = .ok parts ∧ Codes (expand rs) parts.flatten := by
  induction rs with
  | nil => exact ⟨[], rfl, codes_nil⟩
  | cons r rs ih =>
    obtain ⟨hr, hv⟩ := List.forall_mem_cons.1 hv
    obtain ⟨hrpos, hpos⟩ := List.forall_mem_cons.1 hpos
    obtain ⟨data, hdata, hcodes⟩ := packRun_eq_ok hr hrpos
    obtain ⟨parts, hparts, hrest⟩ := ih hv hpos
    exact ⟨data :: parts, mapM_cons_eq_ok.2 ⟨data, parts, hdata, hparts, rfl⟩, hcodes.append hrest⟩

/-- All pixels of four bits are packed, and unpack to what they were. -/
theorem packRuns_eq_ok {px : Bytes} (hpx : ∀ v ∈ px, v < 16) :
    ∃ data, packRuns px = .ok data ∧ unpackRunsFrom px.length data = .ok (px, true) := by
  have hv : ∀ r ∈ runs px, r.1.toNat < 16 :=
    fun r hr => UInt8.lt_iff_toNat_lt.1 (hpx r.1 (Sequence.mem_of_mem_runs hr))
  obtain ⟨parts, hparts, hcodes⟩ := mapM_packRun_eq_ok hv (Sequence.maximalRuns px).pos
  rw [Sequence.expand_runs] at hcodes
  refine ⟨parts.flatten, ?_, ?_⟩
  · rw [packRuns, hparts]
    rfl
  · have hrun := hcodes px.length [] (Nat.le_refl _)
    rw [List.append_nil, Nat.sub_self] at hrun
    rw [hrun]
    simp [unpackRunsFrom, Except.map, after]

/-! ## Unpacking -/

/-- Pixels of four bits, as many as wanted if they are complete. -/
structure Filled (wanted : Nat) (px : Bytes) (complete : Bool) : Prop where
  range : ∀ v ∈ px, v < 16
  length_le : px.length ≤ wanted
  length_eq : complete = true → px.length = wanted

theorem Filled.run {count : Nat} {px : Bytes} {complete : Bool} (h : Filled (wanted - count) px complete)
    (hcount : count ≤ wanted) (hv : v < 16) : Filled wanted (List.replicate count v ++ px) complete := by
  have hlength : (List.replicate count v ++ px).length = count + px.length := by
    rw [List.length_append, List.length_replicate]
  have hle := h.length_le
  refine ⟨?_, by omega, fun hc => ?_⟩
  · intro w hw
    rcases List.mem_append.1 hw with hw | hw
    · rw [(List.mem_replicate.1 hw).2]
      exact hv
    · exact h.range w hw
  · have heq := h.length_eq hc
    omega

theorem filled_of_unpackRunsFrom {data px : Bytes} {complete : Bool}
    (h : unpackRunsFrom wanted data = .ok (px, complete)) : Filled wanted px complete := by
  have hhigh : ∀ b : UInt8, b >>> 4 < 16 := by
    intro b
    have hb : b.toNat < 256 := b.toNat_lt
    rw [UInt8.lt_iff_toNat_lt, UInt8.toNat_shiftRight, Nat.shiftRight_eq_div_pow]
    exact Nat.div_lt_of_lt_mul hb
  fun_induction unpackRunsFrom wanted data generalizing px complete with
  | case1 wanted =>
    cases h
    exact ⟨List.forall_mem_nil _, Nat.zero_le _, fun hc => (beq_iff_eq.1 hc).symm⟩
  | case2 b rest =>
    cases h
    exact ⟨List.forall_mem_nil _, Nat.le_refl _, fun _ => rfl⟩
  | case4 =>
    rename_i b _ _ _ _ _ hfits ih
    obtain ⟨⟨later, c⟩, hlater, h⟩ := bind_eq_ok.1 h
    cases h
    exact (ih hlater).run (by omega) (hhigh b)
  | case8 =>
    rename_i b _ _ _ _ _ _ _ _ hfits ih
    obtain ⟨⟨later, c⟩, hlater, h⟩ := bind_eq_ok.1 h
    cases h
    exact (ih hlater).run (by omega) (hhigh b)
  | _ => cases h

variable {data px : Bytes} {width height : Nat}

theorem unpackRuns_of_complete (h : unpackRunsFrom (width * height) data = .ok (px, true)) (hpx : px ≠ []) :
    unpackRuns data width height = (do
      let back ← Logged.ofExcept (packRuns px)
      if back = data then return px else throw (.disagreement .canonical)) := by
  have hempty : px.isEmpty = false := by simpa using hpx
  unfold unpackRuns
  simp only [h, Logged.ofExcept_ok, pure_bind, hempty, if_true, Bool.false_eq_true, if_false]
  refine bind_congr fun back => ?_
  by_cases hback : back = data
  · simp [hback]
  · simp [hback]

theorem unpackRuns_of_incomplete (h : unpackRunsFrom (width * height) data = .ok (px, false)) :
    unpackRuns data width height = do
      Logged.say ("WARNING: incomplete sprite - " ++ toString px.length ++ " of " ++ toString (width * height) ++ "\n")
      return px ++ List.replicate (width * height - px.length) 0 := by
  unfold unpackRuns
  simp only [h, Logged.ofExcept_ok, pure_bind, Bool.false_eq_true, if_false]

/-- Pixels for every place of a frame, of four bits each. -/
structure Fills (width height : Nat) (px : Bytes) : Prop where
  length : px.length = width * height
  range : ∀ v ∈ px, v < 16

/-- What was packed is unpacked without a remark, and passes the check. -/
theorem unpackRuns_of_packRuns (hsize : 0 < width * height) (hpx : Fills width height px) (h : packRuns px = .ok data) :
    unpackRuns data width height = pure px := by
  obtain ⟨data', hpack, hunpack⟩ := packRuns_eq_ok hpx.range
  rw [h] at hpack
  cases hpack
  rw [hpx.length] at hunpack
  have hne : px ≠ [] := List.ne_nil_of_length_pos (hpx.length ▸ hsize)
  rw [unpackRuns_of_complete hunpack hne, h]
  simp

theorem packRuns_of_unpackRuns (hsize : 0 < width * height) {log : String}
    (h : (unpackRuns data width height).run.run log = (.ok px, log)) :
    Fills width height px ∧ packRuns px = .ok data := by
  cases hunpack : unpackRunsFrom (width * height) data with
  | error e =>
    unfold unpackRuns at h
    simp only [hunpack, Logged.ofExcept_error] at h
    cases h
  | ok p =>
    obtain ⟨px', complete⟩ := p
    have hfilled := filled_of_unpackRunsFrom hunpack
    cases complete with
    | false =>
      -- the remark is not empty
      rw [unpackRuns_of_incomplete hunpack, Logged.run_say] at h
      have hlog := congrArg String.length (Prod.mk.inj h).2
      simp only [String.length_append] at hlog
      have hremark : "WARNING: incomplete sprite - ".length = 29 := by decide
      omega
    | true =>
      have hlength := hfilled.length_eq rfl
      have hne : px' ≠ [] := List.ne_nil_of_length_pos (hlength ▸ hsize)
      rw [unpackRuns_of_complete hunpack hne] at h
      cases hpack : packRuns px' with
      | error e =>
        rw [hpack] at h
        cases h
      | ok back =>
        rw [hpack, Logged.ofExcept_ok, pure_bind] at h
        split at h
        · rename_i hback
          cases h
          exact ⟨⟨hlength, hfilled.range⟩, hpack.trans (congrArg Except.ok hback)⟩
        · cases h

/-- **The run form is exact.**  A sprite is unpacked without a remark just if it is the run form of the pixels
that come out; all pixels of four bits have a run form, and different ones have different ones. -/
theorem unpackRuns_eq_iff (hsize : 0 < width * height) :
    (∀ data px log, (unpackRuns data width height).run.run log = (.ok px, log) ↔
      Fills width height px ∧ packRuns px = .ok data) ∧
    (∀ px, Fills width height px → ∃ data, packRuns px = .ok data) ∧
    ∀ px px', Fills width height px → Fills width height px' → packRuns px = packRuns px' → px = px' := by
  refine ⟨fun data px log => ⟨packRuns_of_unpackRuns hsize, ?_⟩, ?_, ?_⟩
  · rintro ⟨hpx, h⟩
    rw [unpackRuns_of_packRuns hsize hpx h]
    rfl
  · intro px hpx
    obtain ⟨data, hpack, -⟩ := packRuns_eq_ok hpx.range
    exact ⟨data, hpack⟩
  · intro px px' hpx hpx' heq
    obtain ⟨data, hpack, hunpack⟩ := packRuns_eq_ok hpx.range
    obtain ⟨data', hpack', hunpack'⟩ := packRuns_eq_ok hpx'.range
    have hdata : data = data' := Except.ok.inj (hpack.symm.trans (heq.trans hpack'))
    rw [hpx.length, hdata] at hunpack
    rw [hpx'.length, hunpack] at hunpack'
    exact (Prod.mk.inj (Except.ok.inj hunpack')).1

/-- Nine pixels of one value and a tenth one. -/
def tenPixels : Bytes := [3, 3, 3, 3, 3, 3, 3, 3, 3, 0]

theorem unpackRuns_eq_iff_ten :
    0 < 5 * 2 ∧ Fills 5 2 tenPixels ∧ packRuns tenPixels = .ok [0x30, 8, 8] ∧
      (unpackRuns [0x30, 8, 8] 5 2).run.run "" = (.ok tenPixels, "") := by
  have hpack : packRuns tenPixels = .ok [0x30, 8, 8] := by
    have hruns : runs tenPixels = [(3, 9), (0, 1)] := by decide
    have hlong : packRun 3 9 = .ok [0x30, 8] := by
      rw [packRun]
      rfl
    have hshort : packRun 0 1 = .ok [8] := by
      rw [packRun]
      rfl
    rw [packRuns, hruns]
    simp [hlong, hshort]
    rfl
  have hpx : Fills 5 2 tenPixels := ⟨rfl, by simp [tenPixels]⟩
  exact ⟨by decide, hpx, hpack, ((unpackRuns_eq_iff (by decide : 0 < 5 * 2)).1 _ _ _).2 ⟨hpx, hpack⟩⟩

/-! ## Telling the two forms apart -/

theorem packRun_cases {count : Nat} (hv : v.toNat < 16) (hcount : 0 < count) (h : packRun v count = .ok data) :
    (2048 < count ∧ ∃ more, data = runByte v 7 :: more) ∨
    (8 < count ∧ count ≤ 2048 ∧ data = [runByte v ((count - 1) / 256), UInt8.ofNat ((count - 1) % 256)]) ∨
    (count ≤ 8 ∧ data = [runByte v (8 + (count - 1))]) := by
  rw [packRun] at h
  split at h
  · rename_i hlong
    obtain ⟨more, -, h⟩ := bind_eq_ok.1 h
    cases h
    exact .inl ⟨hlong, _, rfl⟩
  · rename_i hlong
    have hle : count ≤ 2048 := Nat.not_lt.1 hlong
    dsimp only at h
    split at h
    · cases h
      exact .inr (.inl ⟨by omega, hle, rfl⟩)
    · cases h
      exact .inr (.inr ⟨by omega, rfl⟩)

/-- The codes of a run start with its value. -/
theorem head_packRun {count : Nat} (hv : v.toNat < 16) (hcount : 0 < count) (h : packRun v count = .ok data) :
    ∃ b more, data = b :: more ∧ b.toNat / 16 = v.toNat := by
  rcases packRun_cases hv hcount h with ⟨hlow, more, rfl⟩ | ⟨hlow, hhigh, rfl⟩ | ⟨hhigh, rfl⟩
  · refine ⟨_, _, rfl, ?_⟩
    rw [toNat_runByte hv (by decide)]
    omega
  · refine ⟨_, _, rfl, ?_⟩
    rw [toNat_runByte hv (by omega)]
    omega
  · refine ⟨_, _, rfl, ?_⟩
    rw [toNat_runByte hv (by omega)]
    omega

theorem isPacked_eq_false {b : UInt8} (h : b.toNat ≠ 1) (rest : Bytes) : isPacked (b :: rest) = false := by
  refine Sequence.isPrefixOf_eq_false (fun he => h ?_) _ _
  rw [he]
  rfl

/-- The codes of just one run are the mark of the packed form. -/
theorem isPacked_packRun_iff {count : Nat} (hv : v.toNat < 16) (hcount : 0 < count) (h : packRun v count = .ok data)
    (rest : Bytes) : isPacked (data ++ rest) = true ↔ v = 0 ∧ count = 259 := by
  have hzero : v = 0 ↔ v.toNat = 0 := by
    rw [← UInt8.toNat_inj]
    rfl
  rw [hzero]
  rcases packRun_cases hv hcount h with ⟨hlow, more, rfl⟩ | ⟨hlow, hhigh, rfl⟩ | ⟨hhigh, rfl⟩
  · have hbyte := toNat_runByte hv (by decide : 7 < 16)
    rw [List.cons_append, isPacked_eq_false (by omega)]
    simp only [Bool.false_eq_true, false_iff]
    omega
  · have hbyte := toNat_runByte hv (by omega : (count - 1) / 256 < 16)
    have hnext : (UInt8.ofNat ((count - 1) % 256)).toNat = (count - 1) % 256 := by simp
    have hiff : isPacked ([runByte v ((count - 1) / 256), UInt8.ofNat ((count - 1) % 256)] ++ rest) = true ↔
        (runByte v ((count - 1) / 256)).toNat = 1 ∧ (UInt8.ofNat ((count - 1) % 256)).toNat = 2 := by
      simp only [isPacked, packedMark, List.cons_append, List.nil_append, List.isPrefixOf, Bool.and_true,
        Bool.and_eq_true, beq_iff_eq]
      rw [eq_comm, ← UInt8.toNat_inj, eq_comm (a := (2 : UInt8)), ← UInt8.toNat_inj]
      rfl
    rw [hiff, hbyte, hnext]
    omega
  · have hbyte := toNat_runByte hv (by omega : 8 + (count - 1) < 16)
    rw [List.cons_append, isPacked_eq_false (by omega)]
    simp only [Bool.false_eq_true, false_iff]
    omega

/-- The faults of a sprite whose mark is not followed by a known form. -/
def NoForm (e : Fault) : Prop :=
  e = .ended .byte ∨ ∃ code : Nat, e = .notThere (toString code)

/-- Behind codes that are the mark by chance no form is found: there is nothing, or a run of another value. -/
theorem unpack_parts {rs : List (UInt8 × Nat)} {parts : List Bytes} (hv : ∀ r ∈ rs, r.1.toNat < 16) {count : Nat}
    (hmax : Sequence.MaximalRuns ((0, count) :: rs)) (h : (rs.mapM fun (v, count) => packRun v count) = .ok parts)
    (width height : Nat) : ∃ e, unpack parts.flatten width height = .error e ∧ NoForm e := by
  cases rs with
  | nil =>
    cases h
    exact ⟨_, rfl, .inl rfl⟩
  | cons r rs =>
    obtain ⟨v, count⟩ := r
    obtain ⟨first, later, hfirst, -, rfl⟩ := mapM_cons_eq_ok.1 h
    have hr : v.toNat < 16 := hv (v, count) List.mem_cons_self
    have hcount : 0 < count := hmax.pos (v, count) (List.mem_cons_of_mem _ List.mem_cons_self)
    obtain ⟨b, more, rfl, hb⟩ := head_packRun hr hcount hfirst
    have hne : (0 : UInt8) ≠ v := (List.isChain_cons_cons.1 hmax.apart).1
    have hzero : v.toNat ≠ 0 := fun hz => hne (UInt8.toNat_inj.1 hz.symm)
    have hone : b ≠ 1 := by
      rintro rfl
      exact hzero hb.symm
    have htwo : b ≠ 2 := by
      rintro rfl
      exact hzero hb.symm
    refine ⟨.notThere (toString b.toNat), ?_, .inr ⟨b.toNat, rfl⟩⟩
    simp [unpack, hone, htwo]

/-- What the first run decides about reading back. -/
theorem decode_of_runs (hsize : 0 < width * height) (hpx : Fills width height px) (hpack : packRuns px = .ok data)
    {count : Nat} {rs : List (UInt8 × Nat)} (hruns : runs px = (v, count) :: rs) :
    if v = 0 ∧ count = 259 then ∃ e, decode data width height = throw e ∧ NoForm e
    else decode data width height = pure px := by
  have hv : ∀ r ∈ runs px, r.1.toNat < 16 :=
    fun r hr => UInt8.lt_iff_toNat_lt.1 (hpx.range r.1 (Sequence.mem_of_mem_runs hr))
  have hmax := Sequence.maximalRuns px
  have hunpack := unpackRuns_of_packRuns hsize hpx hpack
  obtain ⟨parts, hparts, hdata⟩ := bind_eq_ok.1 hpack
  rw [hruns] at hparts hv hmax
  obtain ⟨first, later, hfirst, hlater, rfl⟩ := mapM_cons_eq_ok.1 hparts
  obtain ⟨hr, hrest⟩ := List.forall_mem_cons.1 hv
  have hcount : 0 < count := hmax.pos (v, count) List.mem_cons_self
  have hpacked := isPacked_packRun_iff hr hcount hfirst later.flatten
  have hdata : data = first ++ later.flatten := (Except.ok.inj hdata).symm
  rw [← hdata] at hpacked
  split
  · rename_i hrun
    have htwo : first.length = 2 := by
      rcases packRun_cases hr hcount hfirst with ⟨hlow, -⟩ | ⟨-, -, rfl⟩ | ⟨hhigh, -⟩
      · omega
      · rfl
      · omega
    rw [hrun.1] at hmax
    obtain ⟨e, he, hform⟩ := unpack_parts hrest hmax hlater width height
    refine ⟨e, ?_, hform⟩
    rw [decode, if_pos (hpacked.2 hrun), hdata, List.drop_left' htwo, he, Logged.ofExcept_error]
  · rename_i hrun
    rw [decode, if_neg (fun h => hrun (hpacked.1 h)), hunpack]

/-- **The two forms can be mistaken for each other.**  The run form of pixels is read back just if they do not
start with a run of 259 zeros, whose codes are the mark of the packed form; else reading fails. -/
theorem decode_packPixels_iff (hwidth : 0 < width) (hheight : 0 < height) (hpx : Fills width height px) (log : String) :
    ∃ data, packPixels px = .ok data ∧ packRuns px = .ok data ∧
      ((decode data width height).run.run log = (.ok px, log) ↔ (px.takeWhile (· == 0)).length ≠ 259) ∧
      ((px.takeWhile (· == 0)).length = 259 →
        ∃ e, (decode data width height).run.run log = (.error e, log) ∧ NoForm e) := by
  have hsize : 0 < width * height := Nat.mul_pos hwidth hheight
  obtain ⟨data, hpack, -⟩ := packRuns_eq_ok hpx.range
  have hpixels : packPixels px = .ok data := by
    rw [packPixels, if_pos, hpack]
    simpa using hpx.range
  refine ⟨data, hpixels, hpack, ?_⟩
  cases hruns : runs px with
  | nil =>
    have hnil := Sequence.expand_runs px
    rw [hruns] at hnil
    rw [← hpx.length, ← hnil] at hsize
    exact absurd hsize (by decide)
  | cons r rs =>
    obtain ⟨v, count⟩ := r
    have hdecode := decode_of_runs hsize hpx hpack hruns
    have hzeros : (px.takeWhile (· == 0)).length = 259 ↔ v = 0 ∧ count = 259 := by
      rw [Sequence.length_takeWhile_of_runs hruns 0]
      by_cases hv : v = 0
      · simp [hv]
      · simp [hv]
    rw [ne_eq, hzeros]
    by_cases hrun : v = 0 ∧ count = 259
    · rw [if_pos hrun] at hdecode
      obtain ⟨e, he, hform⟩ := hdecode
      rw [he]
      refine ⟨⟨fun h => ?_, fun h => absurd hrun h⟩, fun _ => ⟨e, rfl, hform⟩⟩
      cases h
    · rw [if_neg hrun] at hdecode
      rw [hdecode]
      exact ⟨⟨fun _ => hrun, fun _ => rfl⟩, fun h => absurd h hrun⟩

/-- A line of 259 zeros. -/
def zeroLine : Bytes := List.replicate 259 0

theorem fills_zeroLine : Fills 259 1 zeroLine := by
  refine ⟨List.length_replicate, fun v hv => ?_⟩
  rw [(List.mem_replicate.1 hv).2]
  decide

theorem decode_packPixels_iff_zeroLine :
    Fills 259 1 zeroLine ∧ ∃ data, packPixels zeroLine = .ok data ∧ packRuns zeroLine = .ok data ∧
      ((decode data 259 1).run.run "" = (.ok zeroLine, "") ↔ (zeroLine.takeWhile (· == 0)).length ≠ 259) ∧
      ((zeroLine.takeWhile (· == 0)).length = 259 →
        ∃ e, (decode data 259 1).run.run "" = (.error e, "") ∧ NoForm e) :=
  ⟨fills_zeroLine, decode_packPixels_iff (by decide) (by decide) fills_zeroLine ""⟩

/-- A line of 259 zeros is packed to the mark of the other form, and cannot be read back. -/
theorem decode_refuses_zeroLine :
    Fills 259 1 zeroLine ∧ packPixels zeroLine = .ok packedMark ∧
      (decode packedMark 259 1).run.run "" = (.error (.ended .byte), "") := by
  have hcodes : packRun 0 259 = .ok packedMark := by
    rw [packRun]
    rfl
  have hpack : packRuns zeroLine = .ok packedMark := by
    rw [packRuns, zeroLine, Sequence.runs_replicate]
    simp [hcodes]
  refine ⟨fills_zeroLine, ?_, rfl⟩
  rw [packPixels, if_pos, hpack]
  simpa using fills_zeroLine.range

end Sprite

end AdventureKit
