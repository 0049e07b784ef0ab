import AdventureKit.Proofs.Dialogue.TurnedBack
import AdventureKit.Proofs.Text.NumeralForm

/-!
# Breaks, one for one

`Scans` is the rule by which the marked text is gone through from left to right: the text before the first
mark, the position that the text up to the next line feed gives, or else the place below the last one, and
the same again with what is left.  Every text is gone through in exactly one way, and the pieces that
`breaks` gives are those of the breaks found, in their order.
-/

namespace AdventureKit.Markup

/-- A break in its place: the text before it, its code, and the position at which the text goes on. -/
structure Placed where
  before : Bytes
  code : UInt8
  x : Int
  y : Int
  deriving DecidableEq, Repr

/-- Both parts of the position have room in two bytes. -/
def Placed.Fits (p : Placed) : Prop :=
  (0 ≤ p.x ∧ p.x ≤ 65535) ∧ 0 ≤ p.y ∧ p.y ≤ 65535

instance (p : Placed) : Decidable p.Fits :=
  inferInstanceAs (Decidable (_ ∧ _))

/-- The pieces of a break. -/
def Placed.pieces (p : Placed) : List Bytes :=
  [p.before ++ escape [p.code], Bytes.ofNatLE 2 p.x.toNat ++ Bytes.ofNatLE 2 p.y.toNat]

/-- The marks, each with the code of its break. -/
def breakMarks : List (UInt8 × Bytes) :=
  [(2, lineMark), (5, ruleMark)]

/-- The break `b` is the first one of `t`. -/
def Break.IsFirst (b : Break) (t : Bytes) : Prop :=
  ∃ mark, (b.code, mark) ∈ breakMarks ∧ Sequence.CutsAtFirst (breakMarks.map Prod.snd) t b.before mark b.after

/-- The text up to the next line feed, or to the end, is `line`, and `rest` follows. -/
inductive CutsLine (t : Bytes) : Bytes → Bytes → Prop where
  | ended {line rest : Bytes} (h : Sequence.CutsAtFirst [lineMark] t line lineMark rest) : CutsLine t line rest
  | last (h : ¬ lineMark <:+: t) : CutsLine t t []

/-- A line with two numbers that are joined by `@`. -/
def GivesPlace (line : Bytes) (x y : Int) : Prop :=
  ∃ front back, line = front ++ 64 :: back ∧ Numeral.Written front x ∧ Numeral.Written back y

/-- Where the text goes on after a break at which `x` and `y` were the last position. -/
inductive GoesOn (x y : Int) (after : Bytes) : Int × Int → Bytes → Prop where
  | given {line rest : Bytes} {x' y' : Int} (hline : CutsLine after line rest) (hplace : GivesPlace line x' y') :
      GoesOn x y after (x', y') rest
  | omitted {line rest : Bytes} (hline : CutsLine after line rest) (hnone : ∀ x' y', ¬ GivesPlace line x' y') :
      GoesOn x y after (x, y + 10) after

/-- Going through a text from left to right gives these breaks, and the text behind the last of them. -/
inductive Scans : Int → Int → Bytes → List Placed → Bytes → Prop where
  | finish {x y : Int} {t : Bytes} (h : ∀ item ∈ breakMarks, ¬ item.2 <:+: t) : Scans x y t [] t
  | next {x y : Int} {t rest last : Bytes} {b : Break} {place : Int × Int} {more : List Placed} (hfirst : b.IsFirst t)
      (hplace : GoesOn x y b.after place rest) (hmore : Scans place.1 place.2 rest more last) :
      Scans x y t (⟨b.before, b.code, place.1, place.2⟩ :: more) last

/-! ## One break -/

theorem nextBreak?_of_hit {code : UInt8} {mark : Bytes} (h : (code, mark) ∈ breakMarks) (after : Bytes) :
    nextBreak? (mark ++ after) = some ⟨[], code, after⟩ := by
  simp only [breakMarks, List.mem_cons, Prod.mk.injEq, List.not_mem_nil, or_false] at h
  rcases h with ⟨rfl, rfl⟩ | ⟨rfl, rfl⟩
  · exact nextBreak?_lineMark after
  · exact nextBreak?_ruleMark after

theorem nextBreak?_cons_of_miss {c : UInt8} {t : Bytes} (h : ∀ item ∈ breakMarks, ¬ item.2 <+: c :: t) :
    nextBreak? (c :: t) = (nextBreak? t).map fun found => { found with before := c :: found.before } := by
  have hline : ¬ lineMark.isPrefixOf (c :: t) = true :=
    mt List.isPrefixOf_iff_prefix.1 (h (2, lineMark) (by simp [breakMarks]))
  have hrule : ¬ ruleMark.isPrefixOf (c :: t) = true :=
    mt List.isPrefixOf_iff_prefix.1 (h (5, ruleMark) (by simp [breakMarks]))
  rw [nextBreak?, if_neg hline, if_neg hrule]

theorem mark_ne_nil {item : UInt8 × Bytes} (h : item ∈ breakMarks) : item.2 ≠ [] := by
  revert item
  decide

theorem exists_hit_or_misses (t : Bytes) :
    (∃ item ∈ breakMarks, ∃ after, t = item.2 ++ after) ∨ ∀ item ∈ breakMarks, ¬ item.2 <+: t := by
  by_cases h : ∃ item ∈ breakMarks, item.2 <+: t
  · obtain ⟨item, hitem, after, hafter⟩ := h
    exact .inl ⟨item, hitem, after, hafter.symm⟩
  · exact .inr fun item hitem hbegins => h ⟨item, hitem, hbegins⟩

theorem nextBreak?_eq_some_iff {t : Bytes} {b : Break} : nextBreak? t = some b ↔ b.IsFirst t := by
  constructor
  · intro h
    induction t generalizing b with
    | nil => cases h
    | cons c t ih =>
      rcases exists_hit_or_misses (c :: t) with ⟨item, hitem, after, heq⟩ | hmiss
      · rw [heq, nextBreak?_of_hit hitem] at h
        cases h
        rw [heq]
        exact ⟨item.2, hitem, Sequence.cutsAtFirst_nil (List.mem_map_of_mem hitem)⟩
      · rw [nextBreak?_cons_of_miss hmiss] at h
        obtain ⟨found, hfound, rfl⟩ := Option.map_eq_some_iff.1 h
        obtain ⟨mark, hmark, hcut⟩ := ih hfound
        exact ⟨mark, hmark, (Sequence.cutsAtFirst_cons (List.forall_mem_map.2 hmiss)).2 ⟨found.before, rfl, hcut⟩⟩
  · rintro ⟨mark, hmark, hcut⟩
    obtain ⟨before, code, after⟩ := b
    dsimp only at hmark hcut
    induction t generalizing before with
    | nil =>
      obtain ⟨-, hempty, -⟩ : before = [] ∧ mark = [] ∧ after = [] := by simpa using hcut.eq_append
      exact absurd hempty (mark_ne_nil hmark)
    | cons c t ih =>
      rcases exists_hit_or_misses (c :: t) with ⟨item, hitem, rest, heq⟩ | hmiss
      · obtain rfl := hcut.before_eq_nil (List.mem_map_of_mem hitem) ⟨rest, heq.symm⟩
        rw [hcut.eq_append, List.nil_append, nextBreak?_of_hit hmark]
      · obtain ⟨front, rfl, hfront⟩ := (Sequence.cutsAtFirst_cons (List.forall_mem_map.2 hmiss)).1 hcut
        rw [nextBreak?_cons_of_miss hmiss, ih front hfront]
        rfl

theorem nextBreak?_eq_none_iff {t : Bytes} : nextBreak? t = none ↔ ∀ item ∈ breakMarks, ¬ item.2 <:+: t := by
  induction t with
  | nil =>
    refine ⟨fun _ item hitem hinfix => mark_ne_nil hitem (List.infix_nil.1 hinfix), fun _ => rfl⟩
  | cons c t ih =>
    rcases exists_hit_or_misses (c :: t) with ⟨item, hitem, after, heq⟩ | hmiss
    · rw [heq, nextBreak?_of_hit hitem]
      constructor
      · intro h
        cases h
      · intro h
        exact absurd (List.prefix_append item.2 after).isInfix (h item hitem)
    · rw [nextBreak?_cons_of_miss hmiss, Option.map_eq_none_iff, ih]
      refine forall₂_congr fun item hitem => not_congr ?_
      rw [List.infix_cons_iff]
      exact (or_iff_right (hmiss item hitem)).symm

theorem cutsLine_iff {t line rest : Bytes} : CutsLine t line rest ↔ firstLine t = (line, rest) := by
  rw [firstLine]
  cases hsplit : Sequence.splitFirst lineMark t with
  | none =>
    have hnone := Sequence.splitFirst_eq_none_iff.1 hsplit
    rw [Option.getD_none, Prod.mk.injEq]
    constructor
    · intro h
      cases h with
      | ended h =>
        rw [Sequence.splitFirst_eq_some_iff.2 h] at hsplit
        cases hsplit
      | last h => exact ⟨rfl, rfl⟩
    · rintro ⟨rfl, rfl⟩
      exact .last hnone
  | some found =>
    obtain ⟨line', rest'⟩ := found
    rw [Option.getD_some, Prod.mk.injEq]
    constructor
    · intro h
      cases h with
      | ended h =>
        rw [Sequence.splitFirst_eq_some_iff.2 h] at hsplit
        cases hsplit
        exact ⟨rfl, rfl⟩
      | last h =>
        rw [Sequence.splitFirst_eq_none_iff.2 h] at hsplit
        cases hsplit
    · rintro ⟨rfl, rfl⟩
      exact .ended (Sequence.splitFirst_eq_some_iff.1 hsplit)

theorem position?_eq_some_iff {line : Bytes} {x y : Int} : position? line = some (x, y) ↔ GivesPlace line x y := by
  constructor
  · intro h
    rw [position?] at h
    obtain ⟨⟨front, back⟩, hsplit, h⟩ := Option.bind_eq_some_iff.1 h
    obtain ⟨x', hx, h⟩ := Option.bind_eq_some_iff.1 h
    obtain ⟨y', hy, h⟩ := Option.bind_eq_some_iff.1 h
    cases h
    refine ⟨front, back, ?_, Numeral.decimal?_eq_some_iff.1 hx, Numeral.decimal?_eq_some_iff.1 hy⟩
    rw [Sequence.eq_of_splitFirst hsplit, List.append_assoc]
    rfl
  · rintro ⟨front, back, rfl, hfront, hback⟩
    have hsplit := Sequence.splitFirst_append hfront.at_notMem [] back
    rw [List.append_assoc, List.singleton_append] at hsplit
    rw [position?, hsplit]
    simp only [Option.bind_eq_bind, Option.bind_some, Numeral.decimal?_eq_some_iff.2 hfront,
      Numeral.decimal?_eq_some_iff.2 hback]
    rfl

theorem goesOn_iff {x y : Int} {after rest : Bytes} {place : Int × Int} :
    GoesOn x y after place rest ↔ resumed x y after = (place, rest) := by
  have hline : CutsLine after (firstLine after).1 (firstLine after).2 := cutsLine_iff.2 rfl
  constructor
  · intro h
    rw [resumed]
    cases h with
    | given hline hplace =>
      rw [cutsLine_iff.1 hline, position?_eq_some_iff.2 hplace]
    | omitted hline hnone =>
      have hposition : position? (firstLine after).1 = none := by
        rw [cutsLine_iff.1 hline]
        exact Option.eq_none_iff_forall_ne_some.2 fun p hp => hnone p.1 p.2 (position?_eq_some_iff.1 hp)
      rw [hposition]
  · intro h
    rw [resumed] at h
    cases hposition : position? (firstLine after).1 with
    | some p =>
      rw [hposition] at h
      cases h
      exact .given hline (position?_eq_some_iff.1 hposition)
    | none =>
      rw [hposition] at h
      cases h
      refine .omitted hline fun x' y' hplace => ?_
      rw [position?_eq_some_iff.2 hplace] at hposition
      cases hposition

/-! ## The whole text -/

theorem exists_scans (x y : Int) (t : Bytes) : ∃ placed last, Scans x y t placed last := by
  induction hn : t.length using Nat.strongRecOn generalizing x y t with
  | ind n ih =>
    cases hnext : nextBreak? t with
    | none => exact ⟨[], t, .finish (nextBreak?_eq_none_iff.1 hnext)⟩
    | some b =>
      have hlt := length_resumed_lt hnext x y
      rw [hn] at hlt
      obtain ⟨more, last, hmore⟩ := ih _ hlt _ _ _ rfl
      exact ⟨_, last, .next (nextBreak?_eq_some_iff.1 hnext) (goesOn_iff.2 rfl) hmore⟩

theorem Scans.unique {x y : Int} {t : Bytes} {placed placed' : List Placed} {last last' : Bytes}
    (h : Scans x y t placed last) (h' : Scans x y t placed' last') : placed' = placed ∧ last' = last := by
  induction h generalizing placed' last' with
  | finish h =>
    cases h' with
    | finish h' => exact ⟨rfl, rfl⟩
    | next hfirst' hplace' hmore' =>
      have hnone := nextBreak?_eq_none_iff.2 h
      rw [nextBreak?_eq_some_iff.2 hfirst'] at hnone
      cases hnone
  | next hfirst hplace hmore ih =>
    have hnext := nextBreak?_eq_some_iff.2 hfirst
    cases h' with
    | finish h' =>
      rw [nextBreak?_eq_none_iff.2 h'] at hnext
      cases hnext
    | next hfirst' hplace' hmore' =>
      rw [nextBreak?_eq_some_iff.2 hfirst'] at hnext
      cases hnext
      have hresumed := goesOn_iff.1 hplace
      rw [goesOn_iff.1 hplace'] at hresumed
      cases hresumed
      obtain ⟨rfl, rfl⟩ := ih hmore'
      exact ⟨rfl, rfl⟩

theorem positionBytes_of_fits {p : Placed} (h : p.Fits) :
    positionBytes p.x p.y = .ok (Bytes.ofNatLE 2 p.x.toNat ++ Bytes.ofNatLE 2 p.y.toNat) := by
  obtain ⟨⟨hx, hx'⟩, hy, hy'⟩ := h
  have hlimit : (Bytes.limit 2 : Int) = 65536 := rfl
  rw [positionBytes, Bytes.putLE, Bytes.putLE, if_pos ⟨hx, by omega⟩, if_pos ⟨hy, by omega⟩]
  rfl

theorem positionBytes_of_not_fits {p : Placed} (h : ¬ p.Fits) : positionBytes p.x p.y = .error .tooWide := by
  cases hplace : positionBytes p.x p.y with
  | error e => rw [positionBytes_fault hplace]
  | ok bs =>
    have hlimit : (Bytes.limit 2 : Int) = 65536 := rfl
    rw [positionBytes, Bytes.putLE, Bytes.putLE] at hplace
    by_cases hx : 0 ≤ p.x ∧ p.x < Bytes.limit 2
    · by_cases hy : 0 ≤ p.y ∧ p.y < Bytes.limit 2
      · exact absurd ⟨⟨hx.1, by omega⟩, hy.1, by omega⟩ h
      · rw [if_pos hx, if_neg hy] at hplace
        cases hplace
    · rw [if_neg hx] at hplace
      cases hplace

/-- The pieces of a text, from those of its breaks. -/
theorem Scans.breaksFrom_eq {x y : Int} {t : Bytes} {placed : List Placed} {last : Bytes}
    (h : Scans x y t placed last) :
    breaksFrom x y t =
      if ∀ p ∈ placed, p.Fits then .ok (placed.flatMap Placed.pieces ++ [last]) else .error .tooWide := by
  induction h with
  | finish h => simpa using breaksFrom_of_none (nextBreak?_eq_none_iff.2 h) _ _
  | @next x y t rest last b place more hfirst hplace hmore ih =>
    rw [breaksFrom_of_some (nextBreak?_eq_some_iff.2 hfirst) (goesOn_iff.1 hplace), ih]
    by_cases hp : (⟨b.before, b.code, place.1, place.2⟩ : Placed).Fits
    · have hbytes := positionBytes_of_fits hp
      dsimp only at hbytes
      rw [hbytes]
      by_cases hall : ∀ p ∈ more, p.Fits
      · rw [if_pos hall, if_pos (List.forall_mem_cons.2 ⟨hp, hall⟩)]
        rfl
      · rw [if_neg hall, if_neg fun h => hall (List.forall_mem_cons.1 h).2]
        rfl
    · have hbytes := positionBytes_of_not_fits hp
      dsimp only at hbytes
      rw [hbytes, if_neg fun h => hp (List.forall_mem_cons.1 h).1]
      rfl

/-- **Breaks are coded one for one.**  Every text is gone through in exactly one way.  If all positions fit, each break
gives the text before it with the escape of its code and then the four bytes of its position, and the text behind the
last break is given at the end.  Otherwise, and only then, a number is too wide. -/
theorem breaks_one_for_one (t : Bytes) :
    ∃ placed last, (∀ placed' last', Scans 0 0 t placed' last' ↔ placed' = placed ∧ last' = last) ∧
      ((∀ p ∈ placed, p.Fits) → breaks t = .ok (placed.flatMap Placed.pieces ++ [last])) ∧
      (breaks t = .error .tooWide ↔ ∃ p ∈ placed, ¬ p.Fits) := by
  obtain ⟨placed, last, hscans⟩ := exists_scans 0 0 t
  have heq : breaks t =
      if ∀ p ∈ placed, p.Fits then .ok (placed.flatMap Placed.pieces ++ [last]) else .error .tooWide :=
    hscans.breaksFrom_eq
  refine ⟨placed, last, fun placed' last' => ⟨hscans.unique, ?_⟩, fun hfit => heq.trans (if_pos hfit), ?_⟩
  · rintro ⟨rfl, rfl⟩
    exact hscans
  · rw [heq]
    by_cases hfit : ∀ p ∈ placed, p.Fits
    · rw [if_pos hfit]
      simpa using hfit
    · rw [if_neg hfit]
      simpa using hfit

/-- The line feed behind a position belongs to it; without a position it is the next break. -/
example : (breaks (Bytes.ofAscii "a|~~~|1@2|~$~|b|~~~|c|~$~|d")).toOption =
    some [Bytes.ofAscii "a\\x05", [1, 0, 2, 0], Bytes.ofAscii "b\\x05", [1, 0, 12, 0], Bytes.ofAscii "c\\x02",
      [1, 0, 22, 0], Bytes.ofAscii "d"] := by
  decide +kernel

end AdventureKit.Markup
