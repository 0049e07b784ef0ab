import AdventureKit.Proofs.Lzss.Extent
import AdventureKit.Proofs.Lzss.RoundTrip

/-!
# Packed content is no file of chunks

A reader that wants no bytes never has enough of them, so it goes on until the data end.  Packed content
starts with its length in four bytes; read as a chunk, the last two of them are the length of the content.
So what was packed out of fewer than 65536 bytes is refused as a file of chunks (`unpackChunks_of_pack`).
-/

namespace AdventureKit.Lzss

/-- Packed content of fewer than 65536 bytes cannot be read as chunks. -/
theorem unpackChunks_of_pack {data out : Bytes} (h : pack data = .ok out) (hlt : data.length < 0x10000) :
    ∃ fault, unpackChunks out = .error fault := by
  obtain ⟨-, body, -, rfl, -⟩ := pack_eq_ok h
  have hword : Bytes.word ((Bytes.ofNatLE 4 data.length ++ body).drop 2) = 0 := by
    have hhigh : data.length / 256 / 256 = 0 := by omega
    simp [Bytes.ofNatLE, Bytes.word, Bytes.toNatLE, hhigh]
  rw [unpackChunks, chunksFrom]
  by_cases hshort : Bytes.word (Bytes.ofNatLE 4 data.length ++ body) < 4
  · rw [if_pos hshort]
    exact ⟨_, rfl⟩
  · obtain ⟨fault, hfault⟩ := @unpackFrom_of_nonpos [] ⟨Window.unpacking, [], (0 : Nat)⟩ (Int.le_refl 0)
      ((Bytes.ofNatLE 4 data.length ++ body).drop 6)
    rw [if_neg hshort, hword, unpack, hfault]
    exact ⟨fault, rfl⟩

/-- Bytes that are all different and no spaces are packed as they are. -/
theorem pack_of_nodup {data : Bytes} (hd : 4 ≤ data.length) (hlt : data.length < 0x100000000)
    (hnodup : data.Nodup) (hspace : 0x20 ∉ data) :
    pack data = .ok (Bytes.ofNatLE 4 data.length ++ encodeCommands (data.map .literal)) := by
  have hsplit : data.take 3 ++ data.drop 3 = data := List.take_append_drop 3 data
  have hne : data ≠ [] := List.ne_nil_of_length_pos (by omega)
  have hs : Packer.Reached data ⟨data.foldl Window.push Window.packing, data.map .literal, []⟩ := by
    have hs := Packer.reached_of_nodup (data.take 3) (data.drop 3) [] (by rw [hsplit, List.append_nil])
      (by rw [List.length_take]; omega) (by rwa [hsplit]) (by rwa [hsplit])
    rwa [hsplit] at hs
  have hcommands : commands data = .ok (data.map .literal) := by
    rw [hs.commands_eq]
    simp [commandsFrom, Except.map]
  have hread : unpack data.length (encodeCommands (data.map .literal)) = .ok (data, []) := by
    have hends := (hs.inStep hne).ends []
    rwa [List.append_nil, Window.replay_literals] at hends
  rw [pack_eq hd hlt, hcommands, Except.bind, hread, Except.bind, if_pos rfl]

end AdventureKit.Lzss
