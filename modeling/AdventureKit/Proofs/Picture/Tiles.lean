import Mathlib.Data.List.TakeWhile
import AdventureKit.Picture.Grid
import AdventureKit.Proofs.Fault
import AdventureKit.Proofs.Picture.Tabulated

/-!
# Glyphs in their tiles

A glyph that is drawn in a tile is what is cut out of it again, as long as none of its pixels has the colour of the
ground and the last pixel of the tile is ground (`Grid.glyph?_framed`).  Drawing a glyph changes its own tile only, so a
grid of glyphs with different numbers gives all of them back (`Grid.glyphs_of_draw`).
-/

namespace AdventureKit.Grid

open Picture (tabulate)

/-! ## One tile -/

section Tile

variable {α : Type}

theorem groundLength_range {isGround : α → Bool} {f : Nat → α} {k n : Nat} (hk : k ≤ n)
    (hbefore : ∀ i < k, isGround (f i) = true) (hend : k < n → isGround (f k) = false) :
    groundLength isGround ((List.range n).map f) = k := by
  induction n generalizing f k with
  | zero =>
    obtain rfl : k = 0 := by omega
    rfl
  | succ n ih =>
    rw [groundLength, List.range_succ_eq_map, List.map_cons, List.map_map]
    cases k with
    | zero =>
      rw [List.takeWhile_cons_of_neg (by simp [hend (by omega)])]
      rfl
    | succ k =>
      rw [List.takeWhile_cons_of_pos (hbefore 0 (by omega)), List.length_cons]
      exact congrArg Nat.succ (ih (by omega) (fun i hi => hbefore (i + 1) (by omega)) fun hlt => hend (by omega))

theorem reverse_map_range (f : Nat → α) (n : Nat) :
    ((List.range n).map f).reverse = (List.range n).map fun i => f (n - 1 - i) := by
  refine List.ext_getElem (by simp) fun i hi hi' => ?_
  simp

/-- What is not ground lies between two places. -/
theorem groundLength_of_span {isGround : α → Bool} {f : Nat → α} {a b n : Nat}
    (hspan : ∀ i < n, isGround (f i) = !decide (a ≤ i ∧ i < b)) (hab : a < b) (hbn : b ≤ n) :
    groundLength isGround ((List.range n).map f) = a ∧
      groundLength isGround ((List.range n).map f).reverse = n - b := by
  refine ⟨groundLength_range (by omega) (fun i hi => ?_) fun _ => ?_, ?_⟩
  · rw [hspan i (by omega), decide_eq_false (by omega)]
    rfl
  · rw [hspan a (by omega), decide_eq_true (by omega)]
    rfl
  · rw [reverse_map_range]
    refine groundLength_range (by omega) (fun i hi => ?_) fun _ => ?_
    · rw [hspan _ (by omega), decide_eq_false (by omega)]
      rfl
    · rw [hspan _ (by omega), decide_eq_true (by omega)]
      rfl

theorem groundLength_of_all {isGround : α → Bool} {xs : List α} (h : ∀ x ∈ xs, isGround x = true) :
    groundLength isGround xs = xs.length := by
  rw [groundLength, List.takeWhile_eq_self_iff.2 h]

theorem min?_map_range {f : Nat → Nat} {n k : Nat} (hmem : ∃ i < n, f i = k) (hle : ∀ i < n, k ≤ f i) :
    ((List.range n).map f).min? = some k := by
  rw [List.min?_eq_some_iff]
  obtain ⟨i, hi, rfl⟩ := hmem
  refine ⟨List.mem_map_of_mem (List.mem_range.2 hi), fun b hb => ?_⟩
  obtain ⟨j, hj, rfl⟩ := List.mem_map.1 hb
  exact hle j (List.mem_range.1 hj)

/-- The glyph of a tile that has one, by the ground on its four sides. -/
theorem glyph?_of_sides {tile : Picture} {bg : UInt8} {left right top bottom : Nat}
    (hcorner : (tile.rows.getLast?).bind List.getLast? = some bg)
    (hsome : tile.rows.all (·.all (· == bg)) = false)
    (hleft : (tile.rows.map (groundLength (· == bg))).min? = some left)
    (hright : (tile.rows.map fun row => groundLength (· == bg) row.reverse).min? = some right)
    (htop : groundLength (·.all (· == bg)) tile.rows = top)
    (hbottom : groundLength (·.all (· == bg)) tile.rows.reverse = bottom) (hfree : 0 < left) :
    ({} : Grid).glyph? tile = .ok (some
      (⟨left - 8, top - 8, (tile.width - right : Nat) - 8, (tile.height - bottom : Nat) - 8⟩,
        tile.crop left top (tile.width - right - left) (tile.height - bottom - top))) := by
  unfold glyph?
  rw [hcorner]
  dsimp only
  simp only [hsome, hleft, hright, htop, hbottom, Option.getD_some, Bool.false_eq_true, if_false,
    Nat.ne_of_gt hfree, false_and]
  rfl

/-- The pixels of a tile with a glyph of some size on its ground. -/
def framed (ground : UInt8) (w h : Nat) (g : Nat → Nat → UInt8) (i j : Nat) : UInt8 :=
  if (8 ≤ i ∧ i < 8 + w) ∧ 8 ≤ j ∧ j < 8 + h then g (i - 8) (j - 8) else ground

variable {ground : UInt8} {w h : Nat} {g : Nat → Nat → UInt8}

theorem framed_eq_ground {i j : Nat} (hout : ¬ ((8 ≤ i ∧ i < 8 + w) ∧ 8 ≤ j ∧ j < 8 + h)) :
    framed ground w h g i j = ground :=
  if_neg hout

theorem framed_beq_ground (hg : ∀ x < w, ∀ y < h, g x y ≠ ground) (i j : Nat) :
    (framed ground w h g i j == ground) = !decide ((8 ≤ i ∧ i < 8 + w) ∧ 8 ≤ j ∧ j < 8 + h) := by
  unfold framed
  split
  · rename_i hin
    rw [beq_eq_false_iff_ne.2 (hg _ (by omega) _ (by omega)), decide_eq_true hin]
    rfl
  · rename_i hout
    rw [decide_eq_false hout, BEq.rfl]
    rfl

section Framed

variable (hw : 1 ≤ w ∧ w ≤ 48) (hh : 1 ≤ h ∧ h ≤ 48) (hg : ∀ x < w, ∀ y < h, g x y ≠ ground)
include hg

/-- The row of a tile. -/
def tileRow (ground : UInt8) (w h : Nat) (g : Nat → Nat → UInt8) (j : Nat) : Bytes :=
  (List.range 56).map fun i => framed ground w h g i j

include hw in
theorem all_ground_tileRow (j : Nat) :
    (tileRow ground w h g j).all (· == ground) = !decide (8 ≤ j ∧ j < 8 + h) := by
  by_cases hj : 8 ≤ j ∧ j < 8 + h
  · rw [decide_eq_true hj, Bool.not_true, List.all_eq_false]
    refine ⟨_, List.mem_map_of_mem (List.mem_range.2 (by decide : 8 < 56)), ?_⟩
    rw [framed_beq_ground hg, decide_eq_true (by omega)]
    exact Bool.false_ne_true
  · rw [decide_eq_false hj, Bool.not_false, List.all_eq_true]
    intro v hv
    obtain ⟨i, -, rfl⟩ := List.mem_map.1 hv
    rw [framed_beq_ground hg, decide_eq_false fun hin => hj hin.2]
    rfl

include hw in
theorem groundLength_tileRow (j : Nat) :
    groundLength (· == ground) (tileRow ground w h g j) = (if 8 ≤ j ∧ j < 8 + h then 8 else 56) ∧
      groundLength (· == ground) (tileRow ground w h g j).reverse = (if 8 ≤ j ∧ j < 8 + h then 48 - w else 56) := by
  by_cases hj : 8 ≤ j ∧ j < 8 + h
  · have hspan : ∀ i < 56, (framed ground w h g i j == ground) = !decide (8 ≤ i ∧ i < 8 + w) := by
      intro i _
      rw [framed_beq_ground hg]
      simp [hj]
    obtain ⟨hfront, hback⟩ : groundLength (· == ground) (tileRow ground w h g j) = 8 ∧
        groundLength (· == ground) (tileRow ground w h g j).reverse = 56 - (8 + w) :=
      groundLength_of_span hspan (by omega) (by omega)
    rw [if_pos hj, if_pos hj]
    exact ⟨hfront, hback.trans (by omega)⟩
  · have hall : ∀ v ∈ tileRow ground w h g j, (v == ground) = true := by
      have hrow := all_ground_tileRow hw hg j
      rw [decide_eq_false hj, Bool.not_false, List.all_eq_true] at hrow
      exact hrow
    rw [if_neg hj, if_neg hj, groundLength_of_all hall, groundLength_of_all fun v hv => hall v (List.mem_reverse.1 hv)]
    simp [tileRow]

end Framed

/-- **A glyph comes out of its tile as it was drawn.** -/
theorem glyph?_framed (hw : 1 ≤ w ∧ w ≤ 48) (hh : 1 ≤ h ∧ h ≤ 48) (hlast : ¬ (w = 48 ∧ h = 48))
    (hg : ∀ x < w, ∀ y < h, g x y ≠ ground) :
    ({} : Grid).glyph? (tabulate 56 56 (framed ground w h g)) = .ok (some (⟨0, 0, w, h⟩, tabulate w h g)) := by
  have hrows : (tabulate 56 56 (framed ground w h g)).rows = (List.range 56).map (tileRow ground w h g) := rfl
  have hcorner : ((tabulate 56 56 (framed ground w h g)).rows.getLast?).bind List.getLast? = some ground := by
    have hout : framed ground w h g 55 55 = ground := framed_eq_ground (by omega)
    simp [tabulate, List.getLast?_range, hout]
  have hall : (tabulate 56 56 (framed ground w h g)).rows.all (·.all (· == ground)) = false := by
    rw [List.all_eq_false]
    refine ⟨tileRow ground w h g 8, List.mem_map_of_mem (List.mem_range.2 (by decide)), ?_⟩
    rw [all_ground_tileRow hw hg, decide_eq_true (by omega)]
    exact Bool.false_ne_true
  have hx1 : ((tabulate 56 56 (framed ground w h g)).rows.map (groundLength (· == ground))).min? = some 8 := by
    rw [hrows, List.map_map]
    refine min?_map_range ⟨8, by decide, ?_⟩ fun j _ => ?_
    · exact (groundLength_tileRow hw hg 8).1.trans (if_pos (by omega))
    · rw [Function.comp_apply, (groundLength_tileRow hw hg j).1]
      split <;> omega
  have hx2 : ((tabulate 56 56 (framed ground w h g)).rows.map fun row =>
      groundLength (· == ground) row.reverse).min? = some (48 - w) := by
    rw [hrows, List.map_map]
    refine min?_map_range ⟨8, by decide, ?_⟩ fun j _ => ?_
    · exact (groundLength_tileRow hw hg 8).2.trans (if_pos (by omega))
    · rw [Function.comp_apply, (groundLength_tileRow hw hg j).2]
      split <;> omega
  have hspan : ∀ j < 56, (tileRow ground w h g j).all (· == ground) = !decide (8 ≤ j ∧ j < 8 + h) :=
    fun j _ => all_ground_tileRow hw hg j
  obtain ⟨hy1, hy2⟩ : groundLength (·.all (· == ground)) ((List.range 56).map (tileRow ground w h g)) = 8 ∧
      groundLength (·.all (· == ground)) ((List.range 56).map (tileRow ground w h g)).reverse = 56 - (8 + h) :=
    groundLength_of_span hspan (by omega) (by omega)
  rw [glyph?_of_sides hcorner hall hx1 hx2 hy1 hy2 (by decide), Picture.width_tabulate, Picture.height_tabulate,
    Picture.crop_tabulate (by omega) (by omega)]
  have hright : 56 - (48 - w) = 8 + w := by omega
  have hbottom : 56 - (56 - (8 + h)) = 8 + h := by omega
  have hcut : tabulate (8 + w - 8) (8 + h - 8) (fun i j => framed ground w h g (8 + i) (8 + j)) = tabulate w h g := by
    rw [Nat.add_sub_cancel_left, Nat.add_sub_cancel_left]
    refine Picture.tabulate_congr fun x hx y hy => ?_
    rw [framed, if_pos (by omega), Nat.add_sub_cancel_left, Nat.add_sub_cancel_left]
  have hwidth : ((8 + w : Nat) : Int) - 8 = w := by omega
  have hheight : ((8 + h : Nat) : Int) - 8 = h := by omega
  rw [hright, hbottom, hcut, hwidth, hheight]
  rfl

theorem glyph?_blank (v : UInt8) : ({} : Grid).glyph? (tabulate 56 56 fun _ _ => v) = .ok none := by
  have hcorner : ((tabulate 56 56 fun _ _ => v).rows.getLast?).bind List.getLast? = some v := by
    simp [tabulate]
  have hall : (tabulate 56 56 fun _ _ => v).rows.all (·.all (· == v)) = true := by
    simp [tabulate]
  unfold glyph?
  rw [hcorner]
  dsimp only
  rw [if_pos hall]
  rfl

end Tile

/-! ## All tiles -/

/-- The picture of a grid by the pixels of its tiles. -/
def tiled (pixel : Nat → Nat → Nat → UInt8) : Picture :=
  tabulate 896 896 fun x y => pixel (y / 56 * 16 + x / 56) (x % 56) (y % 56)

/-- The ground of a tile, which has no colour of its own beyond the last one. -/
def groundOf (count tile : Nat) : UInt8 :=
  if tile < count then ({} : Grid).shade tile else 0

theorem ground_eq {count : Int} (hcount : count ≤ 256) :
    ({} : Grid).ground count = .ok (tiled fun tile _ _ => groundOf count.toNat tile) := by
  have hfew : ¬ count > ((16 * 16 : Nat) : Int) := by omega
  have hcolours : ¬ ((56 * 16) * (56 * 16) ≠ 0 ∧ ¬ ((0 : Int) ≤ 0 ∧ (0 : Int) < 256)) := by decide
  have hshades : ¬ ((0 : Int) < count ∧ ([48, 110] : Bytes) = []) := fun h => by cases h.2
  unfold ground
  dsimp only
  rw [if_neg hfew, if_neg hcolours, if_neg hshades]
  refine congrArg Except.ok (Picture.tabulate_congr fun x hx y hy => ?_)
  exact if_congr Int.lt_toNat.symm rfl rfl

theorem place_tiled {n w h : Nat} (hw : w ≤ 48) (hh : h ≤ 48) (pixel : Nat → Nat → Nat → UInt8)
    (g : Nat → Nat → UInt8) :
    ({} : Grid).place (tiled pixel) n (tabulate w h g) = tiled (Function.update pixel n fun i j =>
      if (8 ≤ i ∧ i < 8 + w) ∧ 8 ≤ j ∧ j < 8 + h then g (i - 8) (j - 8) else pixel n i j) := by
  have hcolumn : (n : Int).fmod 16 * 56 + 8 = ((n % 16 * 56 + 8 : Nat) : Int) := by
    rw [Int.fmod_eq_emod_of_nonneg _ (by decide)]
    omega
  have hrow : (n : Int).fdiv 16 * 56 + 8 = ((n / 16 * 56 + 8 : Nat) : Int) := by
    rw [Int.fdiv_eq_ediv_of_nonneg _ (by decide)]
    omega
  show (tiled pixel).paste ((n : Int).fmod 16 * 56 + 8) ((n : Int).fdiv 16 * 56 + 8) _ = _
  rw [hcolumn, hrow, tiled, Picture.paste_tabulate]
  refine Picture.tabulate_congr fun x hx y hy => ?_
  by_cases htile : y / 56 * 16 + x / 56 = n
  · have hx56 : x = n % 16 * 56 + x % 56 := by omega
    have hy56 : y = n / 16 * 56 + y % 56 := by omega
    rw [htile, Function.update_self]
    by_cases hin : (8 ≤ x % 56 ∧ x % 56 < 8 + w) ∧ 8 ≤ y % 56 ∧ y % 56 < 8 + h
    · have hi : x - (n % 16 * 56 + 8) = x % 56 - 8 := by omega
      have hj : y - (n / 16 * 56 + 8) = y % 56 - 8 := by omega
      rw [if_pos hin, if_pos (by omega), hi, hj]
    · rw [if_neg hin, if_neg (by omega)]
  · rw [Function.update_of_ne htile, if_neg (by omega)]

theorem range_mul (m n : Nat) :
    List.range (m * n) = (List.range m).flatMap fun i => (List.range n).map fun j => i * n + j := by
  induction m with
  | zero => simp
  | succ m ih => rw [Nat.succ_mul, List.range_add, ih, List.range_succ, List.flatMap_append, List.flatMap_singleton]

theorem tiles_tiled (pixel : Nat → Nat → Nat → UInt8) :
    ({} : Grid).tiles (tiled pixel) = (List.range 256).map fun n => tabulate 56 56 (pixel n) := by
  rw [show 256 = 16 * 16 from rfl, range_mul, List.map_flatMap]
  unfold tiles
  dsimp only
  refine List.flatMap_congr fun row hrow => ?_
  rw [List.map_map]
  refine List.map_congr_left fun column hcolumn => ?_
  rw [List.mem_range] at hrow hcolumn
  rw [tiled, Picture.crop_tabulate (by omega) (by omega)]
  refine Picture.tabulate_congr fun i hi j hj => ?_
  have htile : (row * 56 + j) / 56 * 16 + (column * 56 + i) / 56 = row * 16 + column := by omega
  have hi56 : (column * 56 + i) % 56 = i := by omega
  have hj56 : (row * 56 + j) % 56 = j := by omega
  rw [htile, hi56, hj56]

/-! ## Grids of glyphs -/

/-- A picture of zeros and ones that fits in a tile and leaves its last pixel free. -/
structure Drawable (p : Picture) : Prop where
  rectangular : p.Rectangular
  width : 1 ≤ p.width ∧ p.width ≤ 48
  height : 1 ≤ p.height ∧ p.height ≤ 48
  corner : ¬ (p.width = 48 ∧ p.height = 48)
  bits : ∀ row ∈ p.rows, ∀ v ∈ row, v = 0 ∨ v = 1

theorem Drawable.pixel {p : Picture} (h : Drawable p) (x y : Nat) : p.pixel x y = 0 ∨ p.pixel x y = 1 := by
  unfold Picture.pixel
  cases hrow : p.rows[y]? with
  | none => exact .inl rfl
  | some row =>
    rw [Option.getD_some]
    cases hv : row[x]? with
    | none => exact .inl rfl
    | some v => exact h.bits row (List.mem_of_getElem? hrow) v (List.mem_of_getElem? hv)

/-- The pixels of a tile after a glyph was drawn in it, if there is one. -/
def drawn (glyph : Option Picture) (pixel : Nat → Nat → UInt8) : Nat → Nat → UInt8 :=
  glyph.elim pixel fun p i j =>
    if (8 ≤ i ∧ i < 8 + p.width) ∧ 8 ≤ j ∧ j < 8 + p.height then p.pixel (i - 8) (j - 8) else pixel i j

theorem shade_cases (tile : Nat) : ({} : Grid).shade tile = 48 ∨ ({} : Grid).shade tile = 110 := by
  have hturn : (tile + tile / 16) % 2 = 0 ∨ (tile + tile / 16) % 2 = 1 := by omega
  show (([48, 110] : Bytes)[(tile + tile / 16) % 2]?).getD 0 = 48 ∨
    (([48, 110] : Bytes)[(tile + tile / 16) % 2]?).getD 0 = 110
  rcases hturn with h | h
  · rw [h]
    exact .inl rfl
  · rw [h]
    exact .inr rfl

/-- Draws a numbered glyph. -/
def drawGlyph (count : Int) (p : Picture) (numbered : Int × Picture) : Except Fault Picture := do
  if count ≤ numbered.1 then throw (.disagreement .gridSize)
  if ({} : Grid).size = 0 then throw .noTurn
  return ({} : Grid).place p numbered.1 numbered.2

theorem draw_eq (count : Int) (glyphs : List (Int × Picture)) :
    ({} : Grid).draw count glyphs = (({} : Grid).ground count >>= fun p => glyphs.foldlM (drawGlyph count) p) := rfl

variable {count : Int} {glyphs : List (Int × Picture)}

theorem drawGlyph_eq {n : Nat} (hn : n < count) {p : Picture} (hp : Drawable p) (pixel : Nat → Nat → Nat → UInt8) :
    drawGlyph count (tiled pixel) (n, p) = .ok (tiled (Function.update pixel n (drawn (some p) (pixel n)))) := by
  have hstep := place_tiled (n := n) hp.width.2 hp.height.2 pixel p.pixel
  rw [← Picture.eq_tabulate hp.rectangular] at hstep
  unfold drawGlyph
  rw [if_neg (by omega), if_neg (by decide), hstep]
  rfl

/-- A glyph with a negative number lies above the grid. -/
theorem drawGlyph_of_neg {n : Int} (hneg : n < 0) (hn : n < count) {p : Picture} (hp : Drawable p) (q : Picture) :
    drawGlyph count q (n, p) = .ok q := by
  have habove : n.fdiv 16 * 56 + 8 + p.height ≤ 0 := by
    have hrow : n.fdiv 16 < 0 := Int.fdiv_neg_of_neg_of_pos hneg (by decide)
    have hheight := hp.height.2
    omega
  unfold drawGlyph
  rw [if_neg (by omega), if_neg (by decide)]
  exact congrArg Except.ok (Picture.paste_above habove)

/-- Numbered glyphs change the tiles of their numbers. -/
theorem foldlM_drawGlyph (hlt : ∀ p ∈ glyphs, p.1 < count) (hdrawable : ∀ p ∈ glyphs, Drawable p.2)
    (hnodup : (glyphs.map Prod.fst).Nodup) (pixel : Nat → Nat → Nat → UInt8) :
    glyphs.foldlM (drawGlyph count) (tiled pixel) =
      .ok (tiled fun n => drawn (glyphs.lookup (n : Int)) (pixel n)) := by
  induction glyphs generalizing pixel with
  | nil => rfl
  | cons glyph glyphs ih =>
    obtain ⟨n, p⟩ := glyph
    obtain ⟨hn, htail⟩ := List.forall_mem_cons.1 hlt
    obtain ⟨hp, hdrawn⟩ := List.forall_mem_cons.1 hdrawable
    obtain ⟨hnew, hrest⟩ := List.nodup_cons.1 hnodup
    rw [List.foldlM_cons]
    by_cases hneg : n < 0
    · refine (bind_eq_ok.2 ⟨_, drawGlyph_of_neg hneg hn hp _, ih htail hdrawn hrest _⟩).trans ?_
      refine congrArg (fun pixel => Except.ok (tiled pixel)) (funext fun m => ?_)
      have hm : (m : Int) ≠ n := by omega
      rw [List.lookup_cons, beq_eq_false_iff_ne.2 hm]
    · obtain ⟨k, rfl⟩ := Int.eq_ofNat_of_zero_le (Int.not_lt.1 hneg)
      refine (bind_eq_ok.2 ⟨_, drawGlyph_eq hn hp pixel, ih htail hdrawn hrest _⟩).trans ?_
      refine congrArg (fun pixel => Except.ok (tiled pixel)) (funext fun m => ?_)
      by_cases hm : m = k
      · -- later glyphs have other numbers
        have hlater : glyphs.lookup (k : Int) = none := by
          rw [List.lookup_eq_none_iff]
          exact fun q hq => bne_iff_ne.2 fun he => hnew (List.mem_map.2 ⟨q, hq, he.symm⟩)
        rw [hm, hlater, Function.update_self, List.lookup_cons_self]
        rfl
      · rw [Function.update_of_ne hm, List.lookup_cons, beq_eq_false_iff_ne.2 (mt Int.ofNat_inj.1 hm)]

theorem glyph?_drawn (hlt : ∀ p ∈ glyphs, p.1 < count) (hdrawable : ∀ p ∈ glyphs, Drawable p.2) (n : Nat) :
    ({} : Grid).glyph? (tabulate 56 56 (drawn (glyphs.lookup (n : Int)) fun _ _ => groundOf count.toNat n)) =
      .ok ((glyphs.lookup (n : Int)).map fun p => (⟨0, 0, p.width, p.height⟩, p)) := by
  cases hp : glyphs.lookup (n : Int) with
  | none => exact glyph?_blank _
  | some p =>
    have hmem : ((n : Int), p) ∈ glyphs := by
      obtain ⟨before, after, rfl, -⟩ := List.lookup_eq_some_iff.1 hp
      exact List.mem_append_right _ List.mem_cons_self
    have hdrawn := hdrawable _ hmem
    have hground : groundOf count.toNat n = ({} : Grid).shade n := if_pos (Int.lt_toNat.2 (hlt _ hmem))
    have hne : ∀ x < p.width, ∀ y < p.height, p.pixel x y ≠ groundOf count.toNat n := by
      intro x _ y _
      rw [hground]
      rcases hdrawn.pixel x y with hv | hv <;> rcases shade_cases n with hs | hs <;> rw [hv, hs] <;> decide
    have hglyph := glyph?_framed hdrawn.width hdrawn.height hdrawn.corner hne
    rwa [← Picture.eq_tabulate hdrawn.rectangular] at hglyph

/-- **A grid gives its glyphs back.**  Cutting the grid of numbered glyphs gives, for each tile, the glyph of its number
at the place where glyphs start, and nothing for the other tiles. -/
theorem glyphs_of_draw (hcount : count ≤ 256) (hlt : ∀ p ∈ glyphs, p.1 < count)
    (hdrawable : ∀ p ∈ glyphs, Drawable p.2) (hnodup : (glyphs.map Prod.fst).Nodup) :
    ∃ grid, ({} : Grid).draw count glyphs = .ok grid ∧
      ({} : Grid).glyphs grid = .ok ((List.range 256).map fun n : Nat => (glyphs.lookup (n : Int)).map fun p =>
        (⟨0, 0, p.width, p.height⟩, p)) := by
  refine ⟨_, (draw_eq _ _).trans (bind_eq_ok.2 ⟨_, ground_eq hcount, foldlM_drawGlyph hlt hdrawable hnodup _⟩), ?_⟩
  unfold Grid.glyphs
  rw [tiles_tiled, List.mapM_map]
  exact mapM_eq_pure fun n _ => glyph?_drawn hlt hdrawable n

/-- The numbers of glyphs as they are counted in files. -/
theorem lookup_map_cast (glyphs : List (Nat × Picture)) (n : Nat) :
    (glyphs.map fun p => ((p.1 : Int), p.2)).lookup (n : Int) = glyphs.lookup n := by
  induction glyphs with
  | nil => rfl
  | cons glyph glyphs ih =>
    obtain ⟨m, p⟩ := glyph
    rw [List.map_cons, List.lookup_cons, List.lookup_cons, ih]
    by_cases hm : n = m
    · simp [hm]
    · rw [beq_eq_false_iff_ne.2 hm, beq_eq_false_iff_ne.2 (mt Int.ofNat_inj.1 hm)]

end AdventureKit.Grid
