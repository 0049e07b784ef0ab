import AdventureKit.Stream.Readers

/-!
# Runs of steps

Readers, conversions with remarks and the steps of tools all keep a state and may fail.  A run of such a step
from a state gives its result and the state that it leaves, also where it fails.
-/

namespace AdventureKit

section Steps

variable {σ α β : Type} {x : ExceptT Fault (StateM σ) α} {f : α → ExceptT Fault (StateM σ) β} {s t : σ}

@[simp] theorem run_get (s : σ) : (get : ExceptT Fault (StateM σ) σ).run.run s = (.ok s, s) := rfl

theorem run_bind_of_ok {a : α} (h : x.run.run s = (.ok a, t)) : (x >>= f).run.run s = (f a).run.run t := by
  show (match x.run.run s with | (r, t) => (ExceptT.bindCont f r).run t) = _
  rw [h]
  rfl

theorem run_bind_of_error {e : Fault} (h : x.run.run s = (.error e, t)) : (x >>= f).run.run s = (.error e, t) := by
  show (match x.run.run s with | (r, t) => (ExceptT.bindCont f r).run t) = _
  rw [h]
  rfl

theorem run_eq_of_result {r : Except Fault α} (h : (x.run.run s).1 = r) : x.run.run s = (r, (x.run.run s).2) :=
  Prod.ext h rfl

/-- A run that gave a value gave one at its first step. -/
theorem run_bind_eq_ok {b : β} (h : (x >>= f).run.run s = (.ok b, t)) :
    ∃ a u, x.run.run s = (.ok a, u) ∧ (f a).run.run u = (.ok b, t) := by
  rcases hx : x.run.run s with ⟨e | a, u⟩
  · rw [run_bind_of_error hx] at h
    cases h
  · rw [run_bind_of_ok hx] at h
    exact ⟨a, u, rfl, h⟩

end Steps

namespace Cursor

/-- The cursor after the next `n` bytes, or after fewer of them at the end. -/
def took (n : Nat) (c : Cursor) : Cursor :=
  { c with pos := c.pos + (c.next n).length }

@[simp] theorem data_took (n : Nat) (c : Cursor) : (c.took n).data = c.data := rfl

@[simp] theorem data_ofBytes (data : Bytes) : (ofBytes data).data.toList = data := by
  simp [ofBytes]

@[simp] theorem pos_ofBytes (data : Bytes) : (ofBytes data).pos = 0 := rfl

@[simp] theorem rest_ofBytes (data : Bytes) : (ofBytes data).rest = data := by
  rw [rest_eq_drop, data_ofBytes, ofBytes, List.drop_zero]

theorem read_eq (n : Nat) (c : Cursor) : c.read n = (c.next n, c.took n) := rfl

theorem length_next_le (n : Nat) (c : Cursor) : (c.next n).length ≤ n := by
  rw [next_eq_take]
  exact List.length_take_le n _

theorem pos_took_le {c : Cursor} (h : c.pos ≤ c.data.size) (n : Nat) : (c.took n).pos ≤ (c.took n).data.size := by
  have hlength : (c.next n).length ≤ c.data.size - c.pos := by
    rw [next_eq_take, List.length_take, List.length_drop, Array.length_toList]
    exact Nat.min_le_right _ _
  show c.pos + (c.next n).length ≤ c.data.size
  omega

theorem run_byte_of_nil {c : Cursor} (h : c.next 1 = []) :
    (Reading.byte : Reading Cursor Nat).run.run c = (.error (.ended .byte), c.took 1) := by
  have hread : (Source.read 1 : Reading Cursor Bytes).run.run c = (.ok [], c.took 1) := by
    rw [← h]
    rfl
  unfold Reading.byte Reading.byteOr
  refine run_bind_of_error ?_
  rw [run_bind_of_ok hread]
  rfl

theorem run_byte_of_cons {c : Cursor} {b : UInt8} {bs : Bytes} (h : c.next 1 = b :: bs) :
    (Reading.byte : Reading Cursor Nat).run.run c = (.ok b.toNat, c.took 1) := by
  have hread : (Source.read 1 : Reading Cursor Bytes).run.run c = (.ok (b :: bs), c.took 1) := by
    rw [← h]
    rfl
  have hbyte : (Reading.byteOr .byte : Reading Cursor UInt8).run.run c = (.ok b, c.took 1) := by
    unfold Reading.byteOr
    rw [run_bind_of_ok hread]
    rfl
  unfold Reading.byte
  rw [run_bind_of_ok hbyte]
  rfl

variable {c : Cursor} {front behind : Bytes} {n : Nat}

theorem next_of_rest (h : c.rest = front ++ behind) (hn : front.length = n) : c.next n = front := by
  rw [next_eq_take, ← rest_eq_drop, h, List.take_left' hn]

theorem took_of_rest (h : c.rest = front ++ behind) (hn : front.length = n) : c.took n = ⟨c.data, c.pos + n⟩ := by
  rw [took, next_of_rest h hn, hn]

theorem rest_took (h : c.rest = front ++ behind) (hn : front.length = n) : (c.took n).rest = behind := by
  rw [took_of_rest h hn, rest_eq_drop, ← List.drop_drop, ← rest_eq_drop, h, List.drop_left' hn]

end Cursor

end AdventureKit
