import AdventureKit.Proofs.Fault
import AdventureKit.Proofs.Sequence
import AdventureKit.Text.Encoding

/-!
# Hebrew by its keys

Reading and writing by keys replace one pair of a key and a letter after the other, in the same order.  For the pairs
of reading this order is harmless: a key that is also the letter of another one comes first.  For the pairs of writing
it is the wrong way round.  The key of a letter is replaced once more if it is itself the letter of a later pair, as it
is with the apostrophe, the comma and the full stop.
-/

namespace AdventureKit

namespace Sequence

variable {α : Type} [BEq α]

/-- What replacing one pair after the other makes of a single element. -/
@[irreducible] def substitute (pairs : List (α × α)) (x : α) : α :=
  pairs.foldl (fun x pair => if x == pair.1 then pair.2 else x) x

theorem replaceMany_pairs [LawfulBEq α] (pairs : List (α × α)) (xs : List α) :
    replaceMany (pairs.map fun p => ([p.1], [p.2])) xs = xs.map (substitute pairs) := by
  induction pairs generalizing xs with
  | nil =>
    unfold substitute
    exact (List.map_id' xs).symm
  | cons pair pairs ih =>
    have hfirst : replaceAll [pair.1] [pair.2] xs = xs.map fun x => if x == pair.1 then pair.2 else x := by
      rw [replaceAll_single, List.map_eq_flatMap]
      refine congrArg xs.flatMap (funext fun x => ?_)
      exact (apply_ite (fun y => [y]) _ _ _).symm
    have hrest : replaceMany ((pair :: pairs).map fun p => ([p.1], [p.2])) xs =
        replaceMany (pairs.map fun p => ([p.1], [p.2])) (replaceAll [pair.1] [pair.2] xs) := rfl
    rw [hrest, ih, hfirst, List.map_map]
    unfold substitute
    rfl

end Sequence

namespace CodePage

variable (page : CodePage)

theorem decode_of_ascii {bs : Bytes} (h : ∀ b ∈ bs, b < 128) : page.decode bs = .ok (bs.map UInt8.toNat) := by
  induction bs with
  | nil => rfl
  | cons b bs ih =>
    obtain ⟨hb, hbs⟩ := List.forall_mem_cons.1 h
    refine mapM_cons_eq_ok.2 ⟨b.toNat, bs.map UInt8.toNat, if_pos hb, ih hbs, rfl⟩

theorem encode_of_ascii {t : Text} (h : ∀ c ∈ t, c < 128) : page.encode t = .ok (t.map UInt8.ofNat) := by
  induction t with
  | nil => rfl
  | cons c t ih =>
    obtain ⟨hc, ht⟩ := List.forall_mem_cons.1 h
    exact mapM_cons_eq_ok.2 ⟨UInt8.ofNat c, t.map UInt8.ofNat, if_pos hc, ih ht, rfl⟩

end CodePage

namespace Encoding

open Sequence (substitute)

/-- The letter of a key. -/
def letterOf (key : Nat) : Nat :=
  substitute keyboard key

/-- The key that is written for a letter. -/
def keyOf (letter : Nat) : Nat :=
  substitute (keyboard.map Prod.swap) letter

/-- What a key has become when its letter is written again. -/
def retyped (key : UInt8) : UInt8 :=
  if key = 0x2E then 0x2F else if key = 0x27 ∨ key = 0x2C then 0x77 else key

theorem keyOf_letterOf : ∀ n < 128,
    keyOf (letterOf n) < 128 ∧ UInt8.ofNat (keyOf (letterOf n)) = retyped (UInt8.ofNat n) := by
  decide +kernel

theorem retyped_eq_self_iff {key : UInt8} : retyped key = key ↔ key ≠ 0x27 ∧ key ≠ 0x2C ∧ key ≠ 0x2E := by
  unfold retyped
  split
  · rename_i h
    rw [h]
    decide
  split
  · rename_i h
    rcases h with rfl | rfl
    · decide
    · decide
  · grind

theorem decode_keys_of_ascii {bs : Bytes} (h : ∀ b ∈ bs, b < 128) :
    keys.decode bs = .ok (bs.map fun b => letterOf b.toNat) := by
  have hletters := Sequence.replaceMany_pairs keyboard (bs.map UInt8.toNat)
  rw [List.map_map] at hletters
  exact bind_eq_ok.2 ⟨_, CodePage.dosHebrew.decode_of_ascii h, congrArg Except.ok hletters⟩

theorem encode_letters {bs : Bytes} (h : ∀ b ∈ bs, b < 128) :
    keys.encode (bs.map fun b => letterOf b.toNat) = .ok (bs.map retyped) := by
  have hkeys := Sequence.replaceMany_pairs (keyboard.map Prod.swap) (bs.map fun b => letterOf b.toNat)
  rw [List.map_map, List.map_map] at hkeys
  have hback : ∀ b ∈ bs, keyOf (letterOf b.toNat) < 128 ∧ UInt8.ofNat (keyOf (letterOf b.toNat)) = retyped b := by
    intro b hb
    have hkey := keyOf_letterOf b.toNat (UInt8.lt_iff_toNat_lt.1 (h b hb))
    rwa [UInt8.ofNat_toNat] at hkey
  show CodePage.dosHebrew.encode (Sequence.replaceMany (keyboard.map ((fun p => ([p.1], [p.2])) ∘ Prod.swap)) _) = _
  rw [hkeys, CodePage.encode_of_ascii, List.map_map]
  · exact congrArg Except.ok (List.map_congr_left fun b hb => (hback b hb).2)
  · intro c hc
    obtain ⟨b, hb, rfl⟩ := List.mem_map.1 hc
    exact (hback b hb).1

/-- **Texts by keys, read and written again.**  Whatever the keys, a full stop has become a slash, an apostrophe and a
comma have become the key `w`, and all other keys are as they were.  So a text comes back if and only if it has none of
these three. -/
theorem keys_encode_decode_iff {bs : Bytes} (hascii : ∀ b ∈ bs, b < 128) :
    ∃ t, keys.decode bs = .ok t ∧ keys.encode t = .ok (bs.map retyped) ∧
      (keys.encode t = .ok bs ↔ 0x27 ∉ bs ∧ 0x2C ∉ bs ∧ 0x2E ∉ bs) := by
  refine ⟨_, decode_keys_of_ascii hascii, encode_letters hascii, ?_⟩
  have hsame : bs.map retyped = bs ↔ ∀ b ∈ bs, retyped b = b := by
    simpa using List.map_inj_left (f := retyped) (g := id) (l := bs)
  rw [encode_letters hascii, Except.ok.injEq, hsame]
  simp only [retyped_eq_self_iff]
  constructor
  · intro h
    exact ⟨fun hmem => (h _ hmem).1 rfl, fun hmem => (h _ hmem).2.1 rfl, fun hmem => (h _ hmem).2.2 rfl⟩
  · rintro ⟨h1, h2, h3⟩ b hb
    exact ⟨fun he => h1 (he ▸ hb), fun he => h2 (he ▸ hb), fun he => h3 (he ▸ hb)⟩

theorem keys_encode_decode_iff_greeting :
    ∃ t, keys.decode [0x61, 0x6B, 0x75, 0x6F, 0x20, 0x2F, 0x77] = .ok t ∧
      keys.encode t = .ok [0x61, 0x6B, 0x75, 0x6F, 0x20, 0x2F, 0x77] := by
  have hascii : ∀ b ∈ ([0x61, 0x6B, 0x75, 0x6F, 0x20, 0x2F, 0x77] : Bytes), b < 128 := by decide +kernel
  obtain ⟨t, hread, -, hiff⟩ := keys_encode_decode_iff hascii
  exact ⟨t, hread, hiff.2 (by decide)⟩

/-- The key of the full stop types a letter, but the key that is written for this letter is the slash. -/
theorem keys_encode_loses_stop :
    (∀ b ∈ ([0x2E] : Bytes), b < 128) ∧ keys.decode [0x2E] = .ok [0x5E5] ∧ keys.encode [0x5E5] = .ok [0x2F] := by
  refine ⟨by decide +kernel, eq_ok_of_toOption ?_, eq_ok_of_toOption ?_⟩
  · decide +kernel
  · decide +kernel

end Encoding

end AdventureKit
