import AdventureKit.Proofs.Lzss.Extent
import AdventureKit.Proofs.Resource.Table
import Mathlib.Data.List.Forall2

/-!
# Resources one behind the other

The resources of a file lie behind its table, in the order of the table and without gaps (`Contiguous`).  What
such a file is made of are the pieces of its resources (`Laid`): the stored bytes, one behind the other, and
what they hold.  Each resource is found at its place (`Laid.exists_contentAt`).
-/

namespace AdventureKit.Resource

/-- Resources that lie one behind the other from a place up to the end; shared ones take no room. -/
def Contiguous : (place : Nat) → List Item → (stop : Nat) → Prop
  | place, [], stop => place = stop
  | place, item :: items, stop =>
    if item.offset < 0 then Contiguous place items stop
    else item.offset = place ∧ Contiguous (place + item.size) items stop

instance : (place : Nat) → (items : List Item) → (stop : Nat) → Decidable (Contiguous place items stop)
  | place, [], stop => inferInstanceAs (Decidable (place = stop))
  | place, item :: items, stop =>
    have := instDecidableContiguous place items stop
    have := instDecidableContiguous (place + item.size) items stop
    inferInstanceAs (Decidable (if item.offset < 0 then Contiguous place items stop
      else item.offset = place ∧ Contiguous (place + item.size) items stop))

theorem Contiguous.le {place : Nat} {items : List Item} {stop : Nat} (h : Contiguous place items stop) :
    place ≤ stop := by
  induction items generalizing place with
  | nil => exact Nat.le_of_eq h
  | cons item items ih =>
    rw [Contiguous] at h
    split at h
    · exact ih h
    · exact Nat.le_trans (Nat.le_add_right _ _) (ih h.2)

/-- The bytes of a resource in its file, and what they hold. -/
structure Piece where
  stored : Bytes
  content : Bytes

/-- Stored bytes hold a content, whatever follows them. -/
def Holds (packed : Bool) (stored content : Bytes) : Prop :=
  if packed then ∀ more, ∃ rest, Lzss.unpackSized (stored ++ more) = .ok (content, rest) else content = stored

theorem holds_of_unpackSized {stored content rest : Bytes} (h : Lzss.unpackSized stored = .ok (content, rest)) :
    Holds true stored content := by
  obtain ⟨used, rfl, hused⟩ := Lzss.unpackSized_eq_ok h
  rw [Holds, if_pos rfl]
  intro more
  rw [List.append_assoc]
  exact ⟨_, hused _⟩

/-- The pieces of resources that lie one behind the other from a place on. -/
inductive Laid : (place : Nat) → List Item → List Piece → Prop
  | nil (place : Nat) : Laid place [] []
  | shared {place : Nat} {item : Item} {items : List Item} {pieces : List Piece} (hoffset : item.offset < 0)
      (hlater : Laid place items pieces) : Laid place (item :: items) (⟨[], []⟩ :: pieces)
  | inline {place : Nat} {item : Item} {items : List Item} {piece : Piece} {pieces : List Piece}
      (hoffset : item.offset = place) (hsize : piece.stored.length = item.size)
      (hholds : Holds item.packed piece.stored piece.content) (hlater : Laid (place + item.size) items pieces) :
      Laid place (item :: items) (piece :: pieces)

theorem contentAt_of_holds {item : Item} {piece : Piece} (hsize : piece.stored.length = item.size)
    (hholds : Holds item.packed piece.stored piece.content) (front more : Bytes) :
    contentAt (front ++ (piece.stored ++ more)) front.length item = .ok piece.content := by
  unfold contentAt
  unfold Holds at hholds
  rw [List.drop_left]
  dsimp only
  split
  · rename_i hpacked
    rw [if_pos hpacked] at hholds
    obtain ⟨rest, hrest⟩ := hholds more
    rw [hrest]
    rfl
  · rename_i hpacked
    rw [if_neg hpacked] at hholds
    rw [List.take_left' hsize, hholds]

variable {place : Nat} {items : List Item} {pieces : List Piece}

theorem Laid.contiguous (h : Laid place items pieces) :
    Contiguous place items (place + (pieces.flatMap Piece.stored).length) := by
  induction h with
  | nil place => rfl
  | shared hoffset _ ih =>
    rw [Contiguous, if_pos hoffset]
    exact ih
  | inline hoffset hsize _ _ ih =>
    rw [Contiguous, if_neg (by omega), List.flatMap_cons, List.length_append, hsize, ← Nat.add_assoc]
    exact ⟨hoffset, ih⟩

/-- A resource that is not shared is found at its place. -/
theorem Laid.exists_contentAt (h : Laid place items pieces) {front : Bytes} {base : Nat}
    (hfront : front.length = base + place) {i : Nat} {item : Item} (hi : items[i]? = some item)
    (hin : 0 ≤ item.offset) :
    ∃ piece, pieces[i]? = some piece ∧
      contentAt (front ++ pieces.flatMap Piece.stored) (base + item.offset.toNat) item = .ok piece.content := by
  induction h generalizing front i with
  | nil => cases hi
  | shared hoffset _ ih =>
    cases i with
    | zero =>
      cases hi
      omega
    | succ i => exact ih hfront hi
  | @inline place item' items' piece' pieces' hoffset hsize hholds _ ih =>
    rw [List.flatMap_cons]
    cases i with
    | zero =>
      cases hi
      have hplace : base + item.offset.toNat = front.length := by omega
      rw [hplace]
      exact ⟨piece', rfl, contentAt_of_holds hsize hholds front _⟩
    | succ i =>
      rw [← List.append_assoc]
      refine ih ?_ hi
      rw [List.length_append, hfront, hsize, Nat.add_assoc]

/-! ## Going through a table -/

/-- The items of a table with their numbers, from `k` on. -/
def numbered (k : Nat) : List Item → List (Nat × Item)
  | [] => []
  | item :: items => (k, item) :: numbered (k + 1) items

theorem mapIdx_eq_numbered (items : List Item) :
    (items.mapIdx fun index item => (index, item)) = numbered 0 items := by
  have hall : ∀ k, (items.mapIdx fun index item => (k + index, item)) = numbered k items := by
    induction items with
    | nil => exact fun k => rfl
    | cons item items ih =>
      intro k
      rw [List.mapIdx_cons, numbered, ← ih (k + 1)]
      simp only [Nat.add_assoc, Nat.add_comm 1, Nat.add_zero]
  simpa using hall 0

/-- What holds of the number, the item and the piece of each resource that is not shared. -/
def Each (P : Nat → Item → Piece → Prop) : (k : Nat) → List Item → List Piece → Prop
  | k, item :: items, piece :: pieces => (0 ≤ item.offset → P k item piece) ∧ Each P (k + 1) items pieces
  | _, _, _ => True

theorem Each.imp {P Q : Nat → Item → Piece → Prop} (hpq : ∀ k item piece, P k item piece → Q k item piece) {k : Nat}
    {items : List Item} {pieces : List Piece} (h : Each P k items pieces) : Each Q k items pieces := by
  induction items generalizing k pieces with
  | nil => trivial
  | cons item items ih =>
    cases pieces with
    | nil => trivial
    | cons piece pieces => exact ⟨fun hin => hpq k item piece (h.1 hin), ih h.2⟩

theorem each_iff {P : Nat → Item → Piece → Prop} {k : Nat} {items : List Item} {pieces : List Piece} :
    Each P k items pieces ↔ ∀ (i : Nat) item piece, items[i]? = some item → pieces[i]? = some piece →
      0 ≤ item.offset → P (k + i) item piece := by
  induction items generalizing k pieces with
  | nil => exact ⟨fun _ i item piece hi => (by cases hi), fun _ => trivial⟩
  | cons item items ih =>
    cases pieces with
    | nil => exact ⟨fun _ i item piece _ hp => (by cases hp), fun _ => trivial⟩
    | cons piece pieces =>
      have hnext : ∀ i, k + 1 + i = k + (i + 1) := fun i => by omega
      rw [Each, ih]
      constructor
      · rintro ⟨hfirst, hlater⟩ i item' piece' hi hp hin
        cases i with
        | zero =>
          cases hi
          cases hp
          exact hfirst hin
        | succ i => exact hnext i ▸ hlater i item' piece' hi hp hin
      · intro h
        exact ⟨fun hin => h 0 item piece rfl rfl hin,
          fun i item' piece' hi hp hin => hnext i ▸ h (i + 1) item' piece' hi hp hin⟩

/-! ## Files with the same resources -/

/-- An item with the frame of another one; a shared one is the same. -/
structure SameItem (item item' : Item) : Prop where
  width : item'.width = item.width
  height : item'.height = item.height
  packed : item'.packed = item.packed
  shared : item.offset < 0 → item' = item
  inline : 0 ≤ item.offset → 0 ≤ item'.offset

theorem sameItem_of_getElem? {items items' : List Item} (h : List.Forall₂ SameItem items items') {i : Nat}
    {item item' : Item} (hi : items[i]? = some item) (hi' : items'[i]? = some item') : SameItem item item' := by
  obtain ⟨hlt, rfl⟩ := List.getElem?_eq_some_iff.1 hi
  obtain ⟨hlt', rfl⟩ := List.getElem?_eq_some_iff.1 hi'
  exact h.get hlt hlt'

/-- Two files with tables of the same items and the same content for each resource that is not shared; those of
the second file lie one behind the other. -/
def SameResources (old new : Bytes) : Prop :=
  ∃ items items' c c', readTable (Cursor.ofBytes old) = (.ok items, c) ∧
    readTable (Cursor.ofBytes new) = (.ok items', c') ∧ new.take 3 = old.take 3 ∧ List.Forall₂ SameItem items items' ∧
    Contiguous 0 items' (new.length - c'.pos) ∧
    ∀ (i : Nat) item item', items[i]? = some item → items'[i]? = some item' → 0 ≤ item.offset →
      ∃ content, contentAt old (c.pos + item.offset.toNat) item = .ok content ∧
        contentAt new (c'.pos + item'.offset.toNat) item' = .ok content

end AdventureKit.Resource
