import AdventureKit.Picture
import Mathlib.Data.List.Range

/-!
# Pictures by columns and rows

Every picture whose rows have its width is the table of its pixels (`eq_tabulate`).  Pasting and cutting are given by
what they do to the pixels (`paste_tabulate`, `crop_tabulate`).
-/

namespace AdventureKit

namespace Sequence

variable {α : Type}

theorem overlay_range (combine : α → α → α) (f g : Nat → α) (start m n : Nat) :
    overlay combine (start : Int) ((List.range m).map g) ((List.range n).map f) =
      (List.range n).map fun i => if start ≤ i ∧ i < start + m then combine (f i) (g (i - start)) else f i := by
  have hstart : (start : Int).toNat = start := Int.toNat_natCast start
  have hnone : (-(start : Int)).toNat = 0 := by omega
  unfold overlay
  rw [hstart, hnone, List.drop_zero]
  refine List.ext_getElem (by simp; omega) fun i hi hi' => ?_
  simp only [List.getElem_append, List.getElem_take, List.getElem_drop, List.getElem_zipWith, List.getElem_map,
    List.getElem_range, List.length_append, List.length_take, List.length_zipWith, List.length_drop, List.length_map,
    List.length_range]
  grind

/-- What ends before the first element leaves everything as it is. -/
theorem overlay_of_le {combine : α → α → α} {place : Int} {ys : List α} (h : place + ys.length ≤ 0) (xs : List α) :
    overlay combine place ys xs = xs := by
  have hstart : place.toNat = 0 := by omega
  have hnone : ys.drop (-place).toNat = [] := List.drop_eq_nil_of_le (by omega)
  unfold overlay
  rw [hstart, hnone]
  simp

theorem take_drop_range {a n N : Nat} (f : Nat → α) (h : a + n ≤ N) :
    (((List.range N).map f).drop a).take n = (List.range n).map fun i => f (a + i) := by
  refine List.ext_getElem (by simp; omega) fun i hi hi' => ?_
  simp

end Sequence

namespace Picture

/-- Every row has the width of the picture. -/
def Rectangular (p : Picture) : Prop :=
  ∀ row ∈ p.rows, row.length = p.width

/-- The pixel of a column and row. -/
def pixel (p : Picture) (x y : Nat) : UInt8 :=
  ((p.rows[y]?.getD [])[x]?).getD 0

theorem eq_tabulate {p : Picture} (h : p.Rectangular) : p = tabulate p.width p.height p.pixel := by
  have hrows : p.rows = (tabulate p.width p.height p.pixel).rows := by
    refine List.ext_getElem (by simp [tabulate, height]) fun y hy hy' => ?_
    refine List.ext_getElem (by simp [tabulate, h _ (List.getElem_mem hy)]) fun x hx hx' => ?_
    simp [tabulate, pixel, hy, hx]
  exact congrArg (Picture.mk p.width) hrows

@[simp] theorem width_tabulate (width height : Nat) (f : Nat → Nat → UInt8) : (tabulate width height f).width = width :=
  rfl

@[simp] theorem height_tabulate (width height : Nat) (f : Nat → Nat → UInt8) :
    (tabulate width height f).height = height := by
  simp [tabulate, Picture.height]

theorem tabulate_congr {width height : Nat} {f g : Nat → Nat → UInt8}
    (h : ∀ x < width, ∀ y < height, f x y = g x y) : tabulate width height f = tabulate width height g := by
  refine congrArg (Picture.mk width) (List.map_congr_left fun y hy => List.map_congr_left fun x hx => ?_)
  exact h x (List.mem_range.1 hx) y (List.mem_range.1 hy)

theorem paste_above {p q : Picture} {x y : Int} (h : y + q.height ≤ 0) : p.paste x y q = p :=
  congrArg (Picture.mk p.width) (Sequence.overlay_of_le h p.rows)

theorem paste_tabulate (W H w h x y : Nat) (f g : Nat → Nat → UInt8) :
    (tabulate W H f).paste x y (tabulate w h g) = tabulate W H fun i j =>
      if (x ≤ i ∧ i < x + w) ∧ y ≤ j ∧ j < y + h then g (i - x) (j - y) else f i j := by
  unfold paste tabulate
  dsimp only
  rw [Sequence.overlay_range]
  refine congrArg (Picture.mk W) (List.map_congr_left fun j _ => ?_)
  rw [Sequence.overlay_range]
  split
  · refine List.map_congr_left fun i _ => ?_
    simp_all
  · refine List.map_congr_left fun i _ => ?_
    simp_all

theorem crop_tabulate {W H w h x y : Nat} (hx : x + w ≤ W) (hy : y + h ≤ H) (f : Nat → Nat → UInt8) :
    (tabulate W H f).crop x y w h = tabulate w h fun i j => f (x + i) (y + j) := by
  unfold crop tabulate
  dsimp only
  rw [Sequence.take_drop_range _ hy, List.map_map]
  have hrow : ∀ j, Bytes.padTo w ((((List.range W).map fun i => f i (y + j)).drop x).take w) =
      (List.range w).map fun i => f (x + i) (y + j) := by
    intro j
    rw [Sequence.take_drop_range _ hx, Bytes.padTo, List.length_map, List.length_range, Nat.sub_self,
      List.replicate_zero, List.append_nil]
  have hrows : (List.range h).map ((fun row => Bytes.padTo w ((row.drop x).take w)) ∘
      fun j => (List.range W).map fun i => f i (y + j)) =
        (List.range h).map fun j => (List.range w).map fun i => f (x + i) (y + j) :=
    List.map_congr_left fun j _ => hrow j
  rw [hrows, List.length_map, List.length_range, Nat.sub_self, List.replicate_zero, List.append_nil]

end Picture

end AdventureKit
