import AdventureKit.Proofs.Lzss.Delimited

/-!
# Files of chunks

A file of chunks is one or more chunks, each with a header of six bytes and packed data.  The header gives
the number of the bytes behind its first two and the length of the content; the last chunk has the number 0xFFFF
in place of its own.  `Framed rest chunks` says that chunks can be read one after the other with `rest` behind
them.

Where a chunk ends is told twice, by its header and by the packed data themselves, and the reader compares the
two.  It accepts a file exactly if it starts with framed chunks, and gives their contents joined
(`unpackChunks_eq_ok_iff_framed`).  A header that is cut short is followed by no packed data, so it is never
accepted (`exists_chunk`).
-/

namespace AdventureKit.Lzss

/-- A chunk as it stands in a file. -/
structure Chunk where
  /-- The number that the chunk starts with. -/
  length : Nat
  /-- The length of the content. -/
  size : Nat
  /-- Two bytes that are not used. -/
  unused : Bytes
  /-- The packed data. -/
  payload : Bytes
  /-- What the packed data give. -/
  content : Bytes

namespace Chunk

/-- The bytes of a chunk. -/
def bytes (c : Chunk) : Bytes :=
  Bytes.ofNatLE 2 c.length ++ (Bytes.ofNatLE 2 c.size ++ (c.unused ++ c.payload))

/-- The chunk can be read where `behind` follows it: its numbers fit in their fields, and the packed data
give the announced number of bytes and end where the chunk does. -/
structure Reads (c : Chunk) (behind : Bytes) : Prop where
  length_lt : c.length < 0x10000
  size_lt : c.size < 0x10000
  size_pos : 1 ≤ c.size
  length_unused : c.unused.length = 2
  unpacks : unpack c.size (c.payload ++ behind) = .ok (c.content, behind)

variable {c : Chunk} {behind : Bytes}

theorem Reads.length_bytes (h : c.Reads behind) : c.bytes.length = c.payload.length + 6 := by
  simp only [bytes, List.length_append, Bytes.length_ofNatLE, h.length_unused]
  omega

theorem Reads.length_content (h : c.Reads behind) : c.content.length = c.size := by
  have hlength := length_of_unpack h.unpacks
  omega

theorem Reads.word_bytes (h : c.Reads behind) : Bytes.word (c.bytes ++ behind) = c.length := by
  rw [bytes, List.append_assoc, Bytes.word_ofNatLE h.length_lt]

theorem Reads.drop_bytes (h : c.Reads behind) :
    (c.bytes ++ behind).drop 2 = Bytes.ofNatLE 2 c.size ++ (c.unused ++ (c.payload ++ behind)) ∧
      (c.bytes ++ behind).drop 6 = c.payload ++ behind := by
  have htwo : (c.bytes ++ behind).drop 2 = Bytes.ofNatLE 2 c.size ++ (c.unused ++ (c.payload ++ behind)) := by
    simp only [bytes, List.append_assoc]
    rw [List.drop_left' (Bytes.length_ofNatLE 2 _)]
  refine ⟨htwo, ?_⟩
  rw [show 6 = 2 + (2 + 2) from rfl, ← List.drop_drop, htwo, ← List.drop_drop,
    List.drop_left' (Bytes.length_ofNatLE 2 _), List.drop_left' h.length_unused]

end Chunk

/-- Chunks one after the other with `rest` behind the last one.  Each but the last tells where it ends. -/
inductive Framed (rest : Bytes) : List Chunk → Prop where
  | last {c : Chunk} (hc : c.Reads rest) (hlength : c.length = 0xFFFF) : Framed rest [c]
  | more {c : Chunk} {chunks : List Chunk} (hc : c.Reads (chunks.flatMap Chunk.bytes ++ rest))
      (hfour : 4 ≤ c.length) (hlast : c.length < 0xFFFF) (hpayload : c.payload.length = c.length - 4)
      (hchunks : Framed rest chunks) : Framed rest (c :: chunks)

/-! ### One chunk -/

/-- What is read as a chunk is one: there are six bytes before the packed data. -/
theorem exists_chunk {data content rest : Bytes}
    (h : unpack (Bytes.word (data.drop 2)) (data.drop 6) = .ok (content, rest)) :
    ∃ c : Chunk, c.Reads rest ∧ data = c.bytes ++ rest := by
  obtain ⟨payload, hpayload, -⟩ := unpackFrom_eq_ok h
  have hlong : 6 ≤ data.length := by
    refine Nat.le_of_not_lt fun hshort => ?_
    rw [List.drop_eq_nil_of_le (Nat.le_of_lt hshort)] at h
    cases h
  have hpos : 1 ≤ Bytes.word (data.drop 2) := by
    refine Nat.pos_of_ne_zero fun hzero => ?_
    obtain ⟨fault, hfault⟩ := @unpackFrom_of_nonpos [] ⟨Window.unpacking, [], (0 : Nat)⟩ (Int.le_refl 0) (data.drop 6)
    rw [hzero, unpack, hfault] at h
    cases h
  refine ⟨⟨data.word, Bytes.word (data.drop 2), (data.drop 4).take 2, payload, content⟩,
    ⟨Bytes.word_lt _, Bytes.word_lt _, hpos, ?_, ?_⟩, ?_⟩
  · simp only [List.length_take, List.length_drop]
    omega
  · rw [← hpayload]
    exact h
  · have hlong' : 2 ≤ (data.drop 2).length := by
      rw [List.length_drop]
      omega
    calc data = data.take 2 ++ ((data.drop 2).take 2 ++ ((data.drop 4).take 2 ++ data.drop 6)) := by
          rw [← List.drop_drop (i := 2) (j := 4), List.take_append_drop, ← List.drop_drop (i := 2) (j := 2),
            List.take_append_drop, List.take_append_drop]
      _ = _ := by
          rw [← Bytes.ofNatLE_word (by omega), ← Bytes.ofNatLE_word hlong', hpayload]
          simp only [Chunk.bytes, List.append_assoc]

/-- The reader at a chunk. -/
theorem chunksFrom_chunk {c : Chunk} {behind : Bytes} (hc : c.Reads behind) (bound : Nat) :
    chunksFrom (bound + 1) (c.bytes ++ behind) =
      if c.length < 4 then .error (.disagreement .chunkHeader)
      else if c.length = 0xFFFF then .ok (c.content, c.size, behind)
      else if c.payload.length + 4 ≠ c.length then .error (.disagreement .chunkEnd)
      else (chunksFrom bound behind).map fun r => (c.content ++ r.1, c.size + r.2.1, r.2.2) := by
  obtain ⟨htwo, hsix⟩ := hc.drop_bytes
  have hused : (c.bytes ++ behind).length - behind.length = c.payload.length + 6 := by
    rw [List.length_append, hc.length_bytes, Nat.add_sub_cancel]
  have hend : (c.payload.length + 6 ≠ c.length + 2) = (c.payload.length + 4 ≠ c.length) := by
    refine propext ⟨fun h => ?_, fun h => ?_⟩ <;> omega
  rw [chunksFrom, hc.word_bytes, htwo, Bytes.word_ofNatLE hc.size_lt, hsix, hc.unpacks]
  by_cases hfour : c.length < 4
  · rw [if_pos hfour, if_pos hfour]
    rfl
  rw [if_neg hfour, if_neg hfour]
  by_cases hlast : c.length = 0xFFFF
  · rw [if_pos hlast]
    exact if_pos hlast
  have hlast' : ¬ c.length = lastChunk := hlast
  rw [if_neg hlast]
  dsimp only [bind, Except.bind]
  rw [if_neg hlast', hused]
  simp only [hend]
  split
  · rfl
  · cases chunksFrom bound behind <;> rfl

/-- The faults of data that are no file of chunks: the data end in a chunk, a chunk is too short for its header, or
it does not end where its header says. -/
def chunkFaults : List Fault :=
  [.ended .code, .ended .group, .disagreement .chunkHeader, .disagreement .chunkEnd]

/-- The reader fails, or it is at a chunk. -/
theorem chunksFrom_cases (bound : Nat) (data : Bytes) :
    (∃ fault ∈ chunkFaults, chunksFrom (bound + 1) data = .error fault) ∨
      ∃ (c : Chunk) (behind : Bytes), c.Reads behind ∧ data = c.bytes ++ behind := by
  cases hunpack : unpack (Bytes.word (data.drop 2)) (data.drop 6) with
  | error fault =>
    left
    rw [chunksFrom, hunpack]
    by_cases hfour : data.word < 4
    · rw [if_pos hfour]
      exact ⟨_, by simp [chunkFaults], rfl⟩
    · rw [if_neg hfour]
      refine ⟨fault, ?_, rfl⟩
      rcases fault_of_unpackFrom hunpack with rfl | rfl
      · simp [chunkFaults]
      · simp [chunkFaults]
  | ok r =>
    obtain ⟨c, hc, hdata⟩ := exists_chunk hunpack
    exact .inr ⟨c, r.2, hc, hdata⟩

/-! ### All chunks -/

/-- The bound of the loop is never reached: every chunk takes bytes. -/
theorem fault_of_chunksFrom {bound : Nat} {data : Bytes} {fault : Fault} (hbound : data.length < bound)
    (h : chunksFrom bound data = .error fault) : fault ∈ chunkFaults := by
  induction bound generalizing data with
  | zero => omega
  | succ bound ih =>
    obtain ⟨fault', hfault, hrun⟩ | ⟨c, behind, hc, rfl⟩ := chunksFrom_cases bound data
    · rw [hrun] at h
      cases h
      exact hfault
    rw [List.length_append, hc.length_bytes] at hbound
    rw [chunksFrom_chunk hc] at h
    split at h
    · cases h
      simp [chunkFaults]
    split at h
    · cases h
    split at h
    · cases h
      simp [chunkFaults]
    cases hrest : chunksFrom bound behind with
    | error fault' =>
      rw [hrest] at h
      cases h
      exact ih (by omega) hrest
    | ok r =>
      rw [hrest] at h
      cases h

/-- What the reader accepts are framed chunks, and their content has the announced length. -/
theorem framed_of_chunksFrom {bound announced : Nat} {data content rest : Bytes}
    (h : chunksFrom bound data = .ok (content, announced, rest)) :
    announced = content.length ∧ ∃ chunks, Framed rest chunks ∧ data = chunks.flatMap Chunk.bytes ++ rest ∧
      content = chunks.flatMap Chunk.content := by
  induction bound generalizing data content announced with
  | zero => cases h
  | succ bound ih =>
    obtain ⟨fault, -, hrun⟩ | ⟨c, behind, hc, rfl⟩ := chunksFrom_cases bound data
    · rw [hrun] at h
      cases h
    rw [chunksFrom_chunk hc] at h
    split at h
    · cases h
    rename_i hfour
    split at h
    · rename_i hlast
      cases h
      exact ⟨hc.length_content.symm, [c], .last hc hlast, by simp, by simp⟩
    rename_i hlast
    split at h
    · cases h
    rename_i hend
    cases hrest : chunksFrom bound behind with
    | error fault =>
      rw [hrest] at h
      cases h
    | ok r =>
      rw [hrest] at h
      cases h
      obtain ⟨hlength, chunks, hchunks, rfl, hcontent⟩ := ih hrest
      have hlt := hc.length_lt
      refine ⟨?_, c :: chunks, .more hc (by omega) (by omega) (by omega) hchunks, ?_, ?_⟩
      · rw [List.length_append, hc.length_content, hlength]
      · rw [List.flatMap_cons, List.append_assoc]
      · rw [List.flatMap_cons, hcontent]

/-- Framed chunks are accepted. -/
theorem Framed.chunksFrom_eq {rest : Bytes} {chunks : List Chunk} (h : Framed rest chunks) {bound : Nat}
    (hbound : (chunks.flatMap Chunk.bytes ++ rest).length < bound) :
    ∃ announced, chunksFrom bound (chunks.flatMap Chunk.bytes ++ rest) =
      .ok (chunks.flatMap Chunk.content, announced, rest) := by
  induction h generalizing bound with
  | last hc hlength =>
    rename_i c
    obtain ⟨bound, rfl⟩ : ∃ j, bound = j + 1 := ⟨bound - 1, by omega⟩
    refine ⟨c.size, ?_⟩
    rw [List.flatMap_singleton, List.flatMap_singleton, chunksFrom_chunk hc, if_neg (by omega), if_pos hlength]
  | more hc hfour hlast hpayload hchunks ih =>
    rename_i c chunks
    obtain ⟨bound, rfl⟩ : ∃ j, bound = j + 1 := ⟨bound - 1, by omega⟩
    rw [List.flatMap_cons, List.append_assoc, List.length_append, hc.length_bytes] at hbound
    have hbehind : (chunks.flatMap Chunk.bytes ++ rest).length < bound := by omega
    obtain ⟨announced, hrest⟩ := ih hbehind
    refine ⟨c.size + announced, ?_⟩
    rw [List.flatMap_cons, List.append_assoc, chunksFrom_chunk hc, if_neg (by omega), if_neg (by omega),
      if_neg (by omega), hrest, List.flatMap_cons]
    rfl

/-- The length that the headers announce is that of the content. -/
theorem unpackChunks_eq_chunksFrom (data : Bytes) :
    unpackChunks data = (chunksFrom (data.length + 1) data).map fun r => (r.1, r.2.2) := by
  rw [unpackChunks]
  cases h : chunksFrom (data.length + 1) data with
  | error fault => rfl
  | ok r =>
    obtain ⟨content, announced, rest⟩ := r
    exact if_pos (framed_of_chunksFrom h).1.symm

/-- **The reader of chunks accepts exactly its framing.**  On all data it ends, with a value or with a fault of the
data; the length that the headers announce is never found to disagree with the content.  It gives `content` and
leaves `rest` exactly if the data are framed chunks with `rest` behind them whose contents join to `content`. -/
theorem unpackChunks_eq_ok_iff_framed (data : Bytes) :
    (∀ fault, unpackChunks data = .error fault → fault ∈ chunkFaults) ∧
    ∀ content rest, unpackChunks data = .ok (content, rest) ↔
      ∃ chunks, Framed rest chunks ∧ data = chunks.flatMap Chunk.bytes ++ rest ∧
        content = chunks.flatMap Chunk.content := by
  rw [unpackChunks_eq_chunksFrom]
  constructor
  · intro fault h
    cases hrun : chunksFrom (data.length + 1) data with
    | error fault' =>
      rw [hrun] at h
      cases h
      exact fault_of_chunksFrom (Nat.lt_succ_self _) hrun
    | ok r =>
      rw [hrun] at h
      cases h
  · intro content rest
    constructor
    · intro h
      cases hrun : chunksFrom (data.length + 1) data with
      | error fault =>
        rw [hrun] at h
        cases h
      | ok r =>
        rw [hrun] at h
        cases h
        exact (framed_of_chunksFrom hrun).2
    · rintro ⟨chunks, hchunks, rfl, rfl⟩
      obtain ⟨announced, hrun⟩ := hchunks.chunksFrom_eq (Nat.lt_succ_self _)
      rw [hrun]
      rfl

/-- Two chunks of a literal each, and a byte behind them. -/
example : unpackChunks ([6, 0, 1, 0, 9, 9, 1, 65] ++ [0xFF, 0xFF, 1, 0, 9, 9, 1, 66] ++ [7]) = .ok ([65, 66], [7]) := by
  rfl

end AdventureKit.Lzss
