import AdventureKit.Dialogue.TextBlock
import AdventureKit.Proofs.Table
import Mathlib.Data.List.Induction
import Mathlib.Data.List.Nodup

/-!
# Where saving puts the lines of a text block

Saving passes the lines in the order of their old places with a running place.  After a body the running
place is counted from the first line of the same old place, so it falls behind the bytes written as soon
as a second body has the same old place.

`Settled` says how the running place and the bytes written stand to each other.  One line keeps it
(`Settled.pass`), so it holds after all lines in order (`settled_after`), and each line gets the running
place of the lines before it (`replaced_of_split`).
-/

namespace AdventureKit.TextBlock

/-- The bodies of numbered lines, one after the other. -/
def bodies (items : List (Nat × Line)) : Bytes :=
  items.flatMap fun item => item.2.body

/-- The lines that have a body. -/
def withBody (lines : List Line) : List Line :=
  lines.filter fun line => !line.body.isEmpty

/-- The old places of the lines that have a body. -/
def bodyPlaces (items : List (Nat × Line)) : List Int :=
  (withBody (items.map Prod.snd)).map Line.place

theorem mem_withBody {line : Line} {lines : List Line} : line ∈ withBody lines ↔ line ∈ lines ∧ line.body ≠ [] := by
  simp [withBody]

theorem withBody_of_empty {line : Line} (h : line.body = []) (lines : List Line) :
    withBody (line :: lines) = withBody lines := by
  simp [withBody, h]

theorem withBody_of_body {line : Line} (h : line.body ≠ []) (lines : List Line) :
    withBody (line :: lines) = line :: withBody lines := by
  simp [withBody, h]

theorem withBody_append (a b : List Line) : withBody (a ++ b) = withBody a ++ withBody b :=
  List.filter_append a b

@[simp] theorem bodies_append (a b : List (Nat × Line)) : bodies (a ++ b) = bodies a ++ bodies b :=
  List.flatMap_append

@[simp] theorem bodies_cons (item : Nat × Line) (items : List (Nat × Line)) :
    bodies (item :: items) = item.2.body ++ bodies items :=
  List.flatMap_cons

@[simp] theorem bodies_nil : bodies [] = [] := rfl

@[simp] theorem bodyPlaces_append (a b : List (Nat × Line)) :
    bodyPlaces (a ++ b) = bodyPlaces a ++ bodyPlaces b := by
  simp [bodyPlaces, withBody_append]

@[simp] theorem bodyPlaces_nil : bodyPlaces [] = [] := rfl

theorem bodyPlaces_of_empty {item : Nat × Line} (h : item.2.body = []) (items : List (Nat × Line)) :
    bodyPlaces (item :: items) = bodyPlaces items := by
  simp [bodyPlaces, withBody_of_empty h]

theorem bodyPlaces_of_body {item : Nat × Line} (h : item.2.body ≠ []) (items : List (Nat × Line)) :
    bodyPlaces (item :: items) = item.2.place :: bodyPlaces items := by
  simp [bodyPlaces, withBody_of_body h]

theorem mem_bodyPlaces {p : Int} {items : List (Nat × Line)} :
    p ∈ bodyPlaces items ↔ ∃ item ∈ items, item.2.body ≠ [] ∧ item.2.place = p := by
  rw [bodyPlaces, List.mem_map]
  constructor
  · rintro ⟨line, hline, rfl⟩
    obtain ⟨hmem, hb⟩ := mem_withBody.1 hline
    obtain ⟨item, hitem, rfl⟩ := List.mem_map.1 hmem
    exact ⟨item, hitem, hb, rfl⟩
  · rintro ⟨item, hitem, hb, rfl⟩
    exact ⟨item.2, mem_withBody.2 ⟨List.mem_map_of_mem hitem, hb⟩, rfl⟩

/-! ## One line, and a run over lines -/

/-- The running state of saving: the new place of the first line of each old place, and the place that
the next body gets. -/
structure Cursor where
  firsts : List (Int × Nat)
  next : Nat

namespace Cursor

/-- The new place of the first line that has the old place of `line`. -/
def first (c : Cursor) (line : Line) : Nat :=
  (c.firsts.lookup line.place).getD c.next

def pass (c : Cursor) (line : Line) : Cursor where
  firsts :=
    if (c.firsts.lookup line.place).isSome then c.firsts else (line.place, c.next) :: c.firsts
  next := if line.body.isEmpty then c.next else c.first line + line.body.length

/-- The line with the record that it gets. -/
def moved (c : Cursor) (line : Line) : Line :=
  if line.body.isEmpty then line else ⟨c.next, line.body.length, line.body⟩

def after (c : Cursor) (items : List (Nat × Line)) : Cursor :=
  items.foldl (fun c item => c.pass item.2) c

theorem after_concat (c : Cursor) (items : List (Nat × Line)) (item : Nat × Line) :
    c.after (items ++ [item]) = (c.after items).pass item.2 := by
  simp [after]

theorem moved_of_empty {line : Line} (h : line.body = []) (c : Cursor) : c.moved line = line := by
  simp [moved, h]

theorem moved_of_body {line : Line} (h : line.body ≠ []) (c : Cursor) :
    c.moved line = ⟨c.next, line.body.length, line.body⟩ := by
  simp [moved, h]

@[simp] theorem body_moved (c : Cursor) (line : Line) : (c.moved line).body = line.body := by
  unfold moved
  split <;> rfl

theorem next_pass_of_empty {line : Line} (h : line.body = []) (c : Cursor) : (c.pass line).next = c.next := by
  simp [pass, h]

theorem next_pass_of_body {line : Line} (h : line.body ≠ []) (c : Cursor) :
    (c.pass line).next = c.first line + line.body.length := by
  simp [pass, h]

theorem lookup_pass (c : Cursor) (line : Line) (p : Int) :
    (c.pass line).firsts.lookup p =
      if p = line.place then some (c.first line) else c.firsts.lookup p := by
  unfold pass first
  cases hl : c.firsts.lookup line.place with
  | some f =>
    by_cases hp : p = line.place
    · simp [hp, hl]
    · simp [hp]
  | none =>
    by_cases hp : p = line.place
    · simp [hp]
    · have hne : (p == line.place) = false := by simpa using hp
      simp [hp, List.lookup_cons, hne]

theorem placeFrom_cons (c : Cursor) (i : Nat) (line : Line) (rest : List (Nat × Line)) :
    placeFrom c.firsts c.next ((i, line) :: rest) =
      (i, c.moved line) :: placeFrom (c.pass line).firsts (c.pass line).next rest := by
  by_cases hb : line.body = []
  · simp [placeFrom, moved, pass, hb]
  · have hfirst : ((c.pass line).firsts.lookup line.place).getD c.next = c.first line := by
      simp [lookup_pass]
    simp only [pass] at hfirst
    simp [placeFrom, moved, pass, hb, hfirst]

theorem placeFrom_append (c : Cursor) (before rest : List (Nat × Line)) :
    placeFrom c.firsts c.next (before ++ rest) =
      placeFrom c.firsts c.next before ++ placeFrom (c.after before).firsts (c.after before).next rest := by
  induction before generalizing c with
  | nil => rfl
  | cons item before ih =>
    obtain ⟨i, line⟩ := item
    rw [List.cons_append, placeFrom_cons, placeFrom_cons, ih, List.cons_append]
    rfl

theorem keys_placeFrom (c : Cursor) (items : List (Nat × Line)) :
    (placeFrom c.firsts c.next items).map Prod.fst = items.map Prod.fst := by
  induction items generalizing c with
  | nil => rfl
  | cons item items ih =>
    obtain ⟨i, line⟩ := item
    rw [placeFrom_cons, List.map_cons, ih, List.map_cons]

end Cursor

/-! ## The running place and the bytes written -/

/-- How the running state stands to the lines passed, whose bodies are written from `start` on. -/
structure Settled (start : Nat) (passed : List (Nat × Line)) (c : Cursor) : Prop where
  known : ∀ p, (c.firsts.lookup p).isSome = true ↔ ∃ item ∈ passed, item.2.place = p
  start_le_first : ∀ p first, c.firsts.lookup p = some first → start ≤ first
  start_le : start ≤ c.next
  /-- At the last old place, the running place has left the first line just if there was a body. -/
  current : ∀ p first, c.firsts.lookup p = some first → (∀ item ∈ passed, item.2.place ≤ p) →
    first ≤ c.next ∧ (first = c.next ↔ p ∉ bodyPlaces passed)
  le_written : c.next ≤ start + (bodies passed).length
  eq_written_iff : c.next = start + (bodies passed).length ↔ (bodyPlaces passed).Nodup

theorem settled_start (start : Nat) : Settled start [] ⟨[], start⟩ where
  known p := by simp
  start_le_first p first h := by simp at h
  start_le := Nat.le_refl start
  current p first h := by simp at h
  le_written := by simp
  eq_written_iff := by simp

namespace Settled

variable {start : Nat} {passed : List (Nat × Line)} {c : Cursor} {item : Nat × Line}

/-- The first line of the old place of the next line: it is not behind the running place, and at it
just if no body before had this old place. -/
theorem first_spec (h : Settled start passed c) (hle : ∀ q ∈ passed, q.2.place ≤ item.2.place) :
    c.first item.2 ≤ c.next ∧ (c.first item.2 = c.next ↔ item.2.place ∉ bodyPlaces passed) := by
  cases hl : c.firsts.lookup item.2.place with
  | some f =>
    simp only [Cursor.first, hl, Option.getD_some]
    exact h.current _ _ hl hle
  | none =>
    have hnew : item.2.place ∉ bodyPlaces passed := by
      intro hmem
      obtain ⟨q, hq, -, hplace⟩ := mem_bodyPlaces.1 hmem
      have hsome := (h.known item.2.place).2 ⟨q, hq, hplace⟩
      simp [hl] at hsome
    simp [Cursor.first, hl, hnew]

theorem known_pass (h : Settled start passed c) (item : Nat × Line) (p : Int) :
    ((c.pass item.2).firsts.lookup p).isSome = true ↔ ∃ q ∈ passed ++ [item], q.2.place = p := by
  rw [Cursor.lookup_pass]
  by_cases hp : p = item.2.place
  · simp [hp]
  · have hne : ¬ item.2.place = p := fun he => hp he.symm
    simp [hp, hne, h.known p, or_and_right, exists_or]

theorem start_le_first_item (h : Settled start passed c) (item : Nat × Line) : start ≤ c.first item.2 := by
  unfold Cursor.first
  cases hl : c.firsts.lookup item.2.place with
  | some f => exact h.start_le_first _ _ hl
  | none => exact h.start_le

theorem start_le_of_lookup_pass (h : Settled start passed c) {p : Int} {first : Nat}
    (hl : (c.pass item.2).firsts.lookup p = some first) : start ≤ first := by
  rw [Cursor.lookup_pass] at hl
  split at hl
  · cases hl
    exact h.start_le_first_item item
  · exact h.start_le_first p first hl

/-- A place that no place passed goes beyond is not known unless it is the last one. -/
theorem eq_of_lookup_pass (h : Settled start passed c) (hle : ∀ q ∈ passed, q.2.place ≤ item.2.place)
    {p : Int} {first : Nat} (hl : (c.pass item.2).firsts.lookup p = some first)
    (hp : ∀ q ∈ passed ++ [item], q.2.place ≤ p) : p = item.2.place ∧ first = c.first item.2 := by
  have hlast : p = item.2.place := by
    obtain ⟨q, hq, rfl⟩ := (h.known_pass item p).1 (by simp [hl])
    have hitem : item.2.place ≤ q.2.place := hp item (by simp)
    rcases List.mem_append.1 hq with hq | hq
    · exact Int.le_antisymm (hle q hq) hitem
    · rw [List.mem_singleton.1 hq]
  rw [Cursor.lookup_pass, if_pos hlast] at hl
  cases hl
  exact ⟨hlast, rfl⟩

theorem pass_of_empty (h : Settled start passed c) (hle : ∀ q ∈ passed, q.2.place ≤ item.2.place)
    (hb : item.2.body = []) : Settled start (passed ++ [item]) (c.pass item.2) := by
  have hplaces : bodyPlaces (passed ++ [item]) = bodyPlaces passed := by
    simp [bodyPlaces_of_empty hb]
  have hwritten : bodies (passed ++ [item]) = bodies passed := by
    simp [hb]
  refine ⟨h.known_pass item, fun p first => h.start_le_of_lookup_pass, ?_, ?_, ?_, ?_⟩
  · rw [Cursor.next_pass_of_empty hb]
    exact h.start_le
  · intro p first hl hp
    obtain ⟨rfl, rfl⟩ := h.eq_of_lookup_pass hle hl hp
    rw [Cursor.next_pass_of_empty hb, hplaces]
    exact h.first_spec hle
  · rw [Cursor.next_pass_of_empty hb, hwritten]
    exact h.le_written
  · rw [Cursor.next_pass_of_empty hb, hwritten, hplaces]
    exact h.eq_written_iff

theorem pass_of_body (h : Settled start passed c) (hle : ∀ q ∈ passed, q.2.place ≤ item.2.place)
    (hb : item.2.body ≠ []) : Settled start (passed ++ [item]) (c.pass item.2) := by
  obtain ⟨hfirst, hfirst_eq⟩ := h.first_spec hle
  have hstart := h.start_le_first_item item
  have hplaces : bodyPlaces (passed ++ [item]) = bodyPlaces passed ++ [item.2.place] := by
    simp [bodyPlaces_of_body hb]
  have hlength : (bodies (passed ++ [item])).length = (bodies passed).length + item.2.body.length := by
    simp
  have hpos : 0 < item.2.body.length := List.length_pos_iff.2 hb
  have hwritten := h.le_written
  refine ⟨h.known_pass item, fun p first => h.start_le_of_lookup_pass, ?_, ?_, ?_, ?_⟩
  · rw [Cursor.next_pass_of_body hb]
    omega
  · intro p first hl hp
    obtain ⟨rfl, rfl⟩ := h.eq_of_lookup_pass hle hl hp
    rw [Cursor.next_pass_of_body hb, hplaces]
    refine ⟨by omega, iff_of_false (by omega) (by simp)⟩
  · rw [Cursor.next_pass_of_body hb, hlength]
    omega
  · -- the place falls behind here, or has done so before
    rw [Cursor.next_pass_of_body hb, hlength, hplaces, List.nodup_append]
    have hboth : c.first item.2 + item.2.body.length = start + ((bodies passed).length + item.2.body.length) ↔
        c.next = start + (bodies passed).length ∧ c.first item.2 = c.next := by
      omega
    rw [hboth, h.eq_written_iff, hfirst_eq]
    simp only [List.nodup_singleton, List.mem_singleton, forall_eq, true_and, ne_eq]
    exact and_congr_right fun _ => ⟨fun hn p hp he => hn (he ▸ hp), fun hn hp => hn _ hp rfl⟩

theorem pass (h : Settled start passed c) (hle : ∀ q ∈ passed, q.2.place ≤ item.2.place) :
    Settled start (passed ++ [item]) (c.pass item.2) := by
  by_cases hb : item.2.body = []
  · exact h.pass_of_empty hle hb
  · exact h.pass_of_body hle hb

end Settled

theorem settled_after {passed : List (Nat × Line)} (start : Nat)
    (h : passed.Pairwise fun a b => a.2.place ≤ b.2.place) :
    Settled start passed ((⟨[], start⟩ : Cursor).after passed) := by
  -- from the end, since the last line is the one whose old place is not before the others
  induction passed using List.reverseRecOn with
  | nil => exact settled_start start
  | append_singleton passed item ih =>
    rw [List.pairwise_append] at h
    rw [Cursor.after_concat]
    exact (ih h.1).pass fun q hq => h.2.2 q hq item (by simp)

/-! ## The lines in order -/

theorem ordered_perm (lines : List Line) :
    (ordered lines).Perm (lines.mapIdx fun i line => (i, line)) :=
  List.mergeSort_perm _ _

theorem pairwise_ordered (lines : List Line) :
    (ordered lines).Pairwise fun a b => a.2.place ≤ b.2.place := by
  have h := @List.pairwise_mergeSort (Nat × Line) (fun a b => a.2.place ≤ b.2.place)
    (by simp only [decide_eq_true_eq]; omega) (by simp only [Bool.or_eq_true, decide_eq_true_eq]; omega)
    (lines.mapIdx fun i line => (i, line))
  exact h.imp fun hab => by simpa using hab

theorem mem_ordered {lines : List Line} {i : Nat} {line : Line} :
    (i, line) ∈ ordered lines ↔ lines[i]? = some line := by
  rw [(ordered_perm lines).mem_iff, List.mem_mapIdx]
  constructor
  · rintro ⟨j, hj, he⟩
    cases he
    exact List.getElem?_eq_getElem hj
  · intro h
    obtain ⟨hi, rfl⟩ := List.getElem?_eq_some_iff.1 h
    exact ⟨i, hi, rfl⟩

theorem getElem?_of_split {lines : List Line} {before after : List (Nat × Line)} {i : Nat} {line : Line}
    (h : ordered lines = before ++ (i, line) :: after) : lines[i]? = some line :=
  mem_ordered.1 (by simp [h])

theorem map_snd_ordered_perm (lines : List Line) : ((ordered lines).map Prod.snd).Perm lines := by
  have hlines : (lines.mapIdx fun i line => (i, line)).map Prod.snd = lines := by
    apply List.ext_getElem
    · simp
    · simp
  have hperm := (ordered_perm lines).map Prod.snd
  rwa [hlines] at hperm

theorem nodup_keys_ordered (lines : List Line) : ((ordered lines).map Prod.fst).Nodup := by
  refine ((ordered_perm lines).map Prod.fst).nodup_iff.2 ?_
  have hkeys : (lines.mapIdx fun i line => (i, line)).map Prod.fst = List.range lines.length := by
    apply List.ext_getElem
    · simp
    · simp
  rw [hkeys]
  exact List.nodup_range

/-- The running state when the line behind `before` is met. -/
def cursorAt (lines : List Line) (before : List (Nat × Line)) : Cursor :=
  (⟨[], 2 + 4 * lines.length⟩ : Cursor).after before

theorem settled_cursorAt {lines : List Line} {before after : List (Nat × Line)}
    (h : ordered lines = before ++ after) : Settled (2 + 4 * lines.length) before (cursorAt lines before) := by
  have hsorted := pairwise_ordered lines
  rw [h, List.pairwise_append] at hsorted
  exact settled_after _ hsorted.1

theorem length_replaced (lines : List Line) : (replaced lines).length = lines.length := by
  simp [replaced]

theorem replaced_of_split {lines : List Line} {before after : List (Nat × Line)} {i : Nat} {line : Line}
    (h : ordered lines = before ++ (i, line) :: after) :
    (replaced lines)[i]? = some ((cursorAt lines before).moved line) := by
  have hline := getElem?_of_split h
  have hplaced : placeFrom [] (2 + 4 * lines.length) (ordered lines) =
      placeFrom [] (2 + 4 * lines.length) before ++ (i, (cursorAt lines before).moved line) ::
        placeFrom ((cursorAt lines before).pass line).firsts ((cursorAt lines before).pass line).next after := by
    rw [h]
    exact (Cursor.placeFrom_append ⟨[], _⟩ before _).trans (congrArg _ (Cursor.placeFrom_cons _ i line after))
  have hkeys : (placeFrom [] (2 + 4 * lines.length) (ordered lines)).map Prod.fst =
      (ordered lines).map Prod.fst :=
    Cursor.keys_placeFrom ⟨[], _⟩ _
  have hlookup : (placeFrom [] (2 + 4 * lines.length) (ordered lines)).lookup i =
      some ((cursorAt lines before).moved line) := by
    refine Table.get?_of_mem (t := placeFrom [] (2 + 4 * lines.length) (ordered lines)) ?_ (by simp [hplaced])
    rw [Table.keys, hkeys]
    exact nodup_keys_ordered lines
  simp [replaced, hline, hlookup]

/-- Every line is met once, and gets the record that the running state gives it there. -/
theorem exists_split {lines : List Line} {i : Nat} {line : Line} (h : lines[i]? = some line) :
    ∃ before after, ordered lines = before ++ (i, line) :: after ∧
      (replaced lines)[i]? = some ((cursorAt lines before).moved line) := by
  obtain ⟨before, after, hsplit⟩ := List.append_of_mem (mem_ordered.2 h)
  exact ⟨before, after, hsplit, replaced_of_split hsplit⟩

theorem mem_replaced {lines : List Line} {new : Line} :
    new ∈ replaced lines ↔ ∃ before i line after, ordered lines = before ++ (i, line) :: after ∧
      new = (cursorAt lines before).moved line := by
  constructor
  · intro h
    obtain ⟨i, hi, rfl⟩ := List.getElem_of_mem h
    have hlines : i < lines.length := length_replaced lines ▸ hi
    obtain ⟨before, after, hsplit, hnew⟩ := exists_split (List.getElem?_eq_getElem hlines)
    rw [List.getElem?_eq_getElem hi] at hnew
    exact ⟨before, i, lines[i], after, hsplit, Option.some.inj hnew⟩
  · rintro ⟨before, i, line, after, hsplit, rfl⟩
    exact List.mem_of_getElem? (replaced_of_split hsplit)

/-- Lines that all get the records they have stay as they are. -/
theorem replaced_eq_self {lines : List Line} (h : ∀ before i line after,
    ordered lines = before ++ (i, line) :: after → (cursorAt lines before).moved line = line) :
    replaced lines = lines := by
  apply List.ext_getElem?
  intro i
  cases hline : lines[i]? with
  | none =>
    rw [List.getElem?_eq_none_iff, length_replaced]
    exact List.getElem?_eq_none_iff.1 hline
  | some line =>
    obtain ⟨before, after, hsplit, hnew⟩ := exists_split hline
    rw [hnew, h before i line after hsplit]

theorem body_replaced (lines : List Line) : (replaced lines).map Line.body = lines.map Line.body := by
  apply List.ext_getElem?
  intro i
  rw [List.getElem?_map, List.getElem?_map]
  cases h : lines[i]? with
  | none =>
    have hnone : (replaced lines)[i]? = none := by
      rw [List.getElem?_eq_none_iff, length_replaced]
      exact List.getElem?_eq_none_iff.1 h
    rw [hnone]
  | some line =>
    obtain ⟨before, after, -, hnew⟩ := exists_split h
    rw [hnew]
    simp

end AdventureKit.TextBlock
