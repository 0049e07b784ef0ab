import AdventureKit.Picture
import AdventureKit.Proofs.Lzss.Extent
import AdventureKit.Proofs.Picture.Runs

/-!
# Sprites fill their frames

A sprite gives a pixel for every place of its frame, whatever its form, and the same pixels every time it is
read (`decodes_of_run`).  So the pixels of its picture are its pixels (`Picture.pixels_ofPixels`).
-/

namespace AdventureKit

theorem Logged.run_ofExcept {α : Type} (r : Except Fault α) (log : String) :
    (Logged.ofExcept r).run.run log = (r, log) := by
  cases r with
  | error e => rfl
  | ok a => rfl

namespace Picture

theorem flatten_rowsOf {width n : Nat} {px : Bytes} (h : px.length = width * n) : (rowsOf width n px).flatten = px := by
  induction n generalizing px with
  | zero =>
    rw [Nat.mul_zero] at h
    exact (List.eq_nil_of_length_eq_zero h).symm
  | succ n ih =>
    have hrest : (px.drop width).length = width * n := by
      rw [List.length_drop, h, Nat.mul_succ, Nat.add_sub_cancel]
    rw [rowsOf, List.flatten_cons, ih hrest, List.take_append_drop]

theorem pixels_ofPixels {width height : Nat} {px : Bytes} (h : px.length = width * height) :
    (ofPixels width height px).pixels = px :=
  flatten_rowsOf h

end Picture

namespace Sprite

variable {data px : Bytes} {width height : Nat}

/-- The sprite is read as these pixels, with the same remark every time. -/
structure Decodes (data : Bytes) (width height : Nat) (px : Bytes) : Prop where
  length : px.length = width * height
  run : ∃ remark, ∀ log, (decode data width height).run.run log = (.ok px, log ++ remark)

theorem length_of_unpack (h : unpack data width height = .ok px) : px.length = width * height := by
  cases data with
  | nil => cases h
  | cons codec rest =>
    unfold unpack at h
    dsimp only at h
    split at h
    · split at h
      · rename_i hsize
        rcases hr : Lzss.unpackSized rest with e | ⟨out, more⟩
        · rw [hr] at h
          cases h
        · rw [hr] at h
          cases h
          exact (Lzss.length_of_unpackSized hr).trans hsize
      · cases h
    · split at h
      · split at h
        · rename_i hsize
          cases h
          exact hsize
        · cases h
      · cases h

theorem run_unpackRuns {log log' : String} (hsize : 0 < width * height)
    (h : (unpackRuns data width height).run.run log = (.ok px, log')) :
    px.length = width * height ∧
      ∃ remark, ∀ log, (unpackRuns data width height).run.run log = (.ok px, log ++ remark) := by
  rcases hruns : unpackRunsFrom (width * height) data with e | ⟨found, complete⟩
  · unfold unpackRuns at h
    simp only [hruns, Logged.ofExcept_error] at h
    cases h
  · have hfilled := filled_of_unpackRunsFrom hruns
    cases complete with
    | false =>
      rw [unpackRuns_of_incomplete hruns, Logged.run_say] at h
      cases h
      have hle := hfilled.length_le
      rw [unpackRuns_of_incomplete hruns]
      refine ⟨?_, _, fun log => Logged.run_say _ _ log⟩
      rw [List.length_append, List.length_replicate]
      omega
    | true =>
      have hlength := hfilled.length_eq rfl
      have hne : found ≠ [] := List.ne_nil_of_length_pos (hlength ▸ hsize)
      rw [unpackRuns_of_complete hruns hne] at h ⊢
      rcases hpack : packRuns found with e | back
      · rw [hpack] at h
        cases h
      · rw [hpack, Logged.ofExcept_ok, pure_bind] at h
        rw [Logged.ofExcept_ok, pure_bind]
        split at h
        · rename_i hback
          cases h
          refine ⟨hlength, "", fun log => ?_⟩
          rw [if_pos hback, String.append_empty]
          rfl
        · cases h

theorem decodes_of_run {log log' : String} (hsize : 0 < width * height)
    (h : (decode data width height).run.run log = (.ok px, log')) : Decodes data width height px := by
  unfold decode at h
  split at h
  · rename_i hpacked
    rw [Logged.run_ofExcept] at h
    obtain ⟨hpx, -⟩ := Prod.mk.inj h
    refine ⟨length_of_unpack hpx, "", fun log => ?_⟩
    rw [decode, if_pos hpacked, Logged.run_ofExcept, hpx, String.append_empty]
  · rename_i hpacked
    obtain ⟨hlength, remark, hrun⟩ := run_unpackRuns hsize h
    refine ⟨hlength, remark, fun log => ?_⟩
    rw [decode, if_neg hpacked, hrun]

end Sprite

end AdventureKit
