import AdventureKit.Bytes
import AdventureKit.Proofs.Fault

/-!
# How computations fail

A computation made of steps fails as one of its steps does.
-/

namespace AdventureKit

variable {α β : Type} {P : Fault → Prop}

/-- If the computation fails, its fault is one of these. -/
def FailsOnly (P : Fault → Prop) (x : Except Fault α) : Prop :=
  ∀ e, x = .error e → P e

theorem failsOnly_ok (a : α) : FailsOnly P (.ok a) :=
  nofun

theorem failsOnly_error {e : Fault} (h : P e) : FailsOnly P (.error e : Except Fault α) := by
  intro e' he
  cases he
  exact h

theorem FailsOnly.bind {x : Except Fault α} {f : α → Except Fault β} (hx : FailsOnly P x)
    (hf : ∀ a, x = .ok a → FailsOnly P (f a)) : FailsOnly P (x >>= f) := by
  intro e he
  cases x with
  | error e' =>
    cases he
    exact hx e rfl
  | ok a => exact hf a rfl e he

theorem FailsOnly.mono {Q : Fault → Prop} {x : Except Fault α} (h : FailsOnly P x) (hPQ : ∀ e, P e → Q e) :
    FailsOnly Q x :=
  fun e he => hPQ e (h e he)

theorem failsOnly_mapM {f : α → Except Fault β} {xs : List α} (h : ∀ x ∈ xs, FailsOnly P (f x)) :
    FailsOnly P (xs.mapM f) := by
  induction xs with
  | nil => exact failsOnly_ok []
  | cons x xs ih =>
    obtain ⟨hx, hxs⟩ := List.forall_mem_cons.1 h
    rw [List.mapM_cons]
    exact hx.bind fun _ _ => (ih hxs).bind fun _ _ => failsOnly_ok _

theorem failsOnly_anyM {p : α → Except Fault Bool} {xs : List α} (h : ∀ x ∈ xs, FailsOnly P (p x)) :
    FailsOnly P (xs.anyM p) := by
  induction xs with
  | nil => exact failsOnly_ok false
  | cons x xs ih =>
    obtain ⟨hx, hxs⟩ := List.forall_mem_cons.1 h
    refine hx.bind fun found _ => ?_
    cases found with
    | true => exact failsOnly_ok true
    | false => exact ih hxs

/-- A computation over a list gives all values where each element has one. -/
theorem exists_mapM_eq_ok {f : α → Except Fault β} {xs : List α} (h : ∀ x ∈ xs, ∃ y, f x = .ok y) :
    ∃ ys, xs.mapM f = .ok ys ∧ ∀ x ∈ xs, ∀ y, f x = .ok y → y ∈ ys := by
  induction xs with
  | nil => exact ⟨[], rfl, nofun⟩
  | cons x xs ih =>
    obtain ⟨⟨y, hy⟩, hxs⟩ := List.forall_mem_cons.1 h
    obtain ⟨ys, hys, hmem⟩ := ih hxs
    refine ⟨y :: ys, mapM_cons_eq_ok.2 ⟨y, ys, hy, hys, rfl⟩,
      List.forall_mem_cons.2 ⟨fun z hz => ?_, fun z hz w hw => ?_⟩⟩
    · rw [hy] at hz
      cases hz
      exact List.mem_cons_self
    · exact List.mem_cons_of_mem _ (hmem z hz w hw)

/-- A computation over a list gives no value where one element has none. -/
theorem exists_mapM_eq_error {f : α → Except Fault β} {xs : List α} {x : α} {e : Fault} (hx : x ∈ xs)
    (h : f x = .error e) : ∃ e', xs.mapM f = .error e' := by
  cases hxs : xs.mapM f with
  | error e' => exact ⟨e', rfl⟩
  | ok ys =>
    induction xs generalizing ys with
    | nil => cases hx
    | cons y xs ih =>
      obtain ⟨z, rest, hz, hrest, -⟩ := mapM_cons_eq_ok.1 hxs
      obtain rfl | hx := List.mem_cons.1 hx
      · rw [h] at hz
        cases hz
      · obtain ⟨e', he'⟩ := ih hx rest hrest
        cases he'

theorem failsOnly_putLE (h : P .tooWide) (width : Nat) (n : Int) : FailsOnly P (Bytes.putLE width n) := by
  unfold Bytes.putLE
  split
  · exact failsOnly_ok _
  · exact failsOnly_error h

end AdventureKit
