import AdventureKit.Proofs.Script.Plain

/-!
# Steps that hold blocks

Instructions that steer, areas and blocks are sequences of steady steps and of the blocks inside them.  So whatever
steady steps do and sequences keep, they do as soon as the blocks inside them do it.  `Comparison` says this once for
every statement about a step `p` with one way to decompile the blocks inside and the step `q` with another way.
-/

namespace AdventureKit.Script

variable {α β : Type} {j k : Nat} {m n : Machine}

theorem steady_left : Steady k left := by
  intro R hR m n hmn _
  refine .of_runs (run_left m) ?_ hmn (.refl m) (by simp)
  rw [run_left, hR.cursor hmn]

theorem steady_place : Steady k place := by
  intro R hR m n hmn _
  refine .of_runs (run_place m) ?_ hmn (.refl m) (by simp)
  rw [run_place, hR.cursor hmn]

/-- A statement about two steps from a machine that holds of steady steps and of sequences. -/
structure Comparison (Ψ : (α : Type) → Script α → Script α → Machine → Prop) : Prop where
  steady_at : ∀ {α k m} {p : Script α}, Steady k p → m.cursor.left < k → Ψ α p p m
  bind_at : ∀ {α β m} {p q : Script α} {f g : α → Script β}, Ψ α p q m →
    (∀ a m', p.run.run m = (.ok a, m') → Ahead m m' → Ψ β (f a) (g a) m') → Ψ β (p >>= f) (q >>= g) m

/-- The statement holds from all machines with fewer than `k` bytes left. -/
def Compared (Ψ : (α : Type) → Script α → Script α → Machine → Prop) (k : Nat) (p q : Script α) : Prop :=
  ∀ ⦃m⦄, m.cursor.left < k → Ψ α p q m

section Sequences

variable {Ψ : (α : Type) → Script α → Script α → Machine → Prop} {p q : Script α} {f g : α → Script β}

theorem compared_zero (p q : Script α) : Compared Ψ 0 p q := fun _ h => absurd h (Nat.not_lt_zero _)

theorem Compared.mono (h : Compared Ψ k p q) (hjk : j ≤ k) : Compared Ψ j p q :=
  fun _ hleft => h (Nat.lt_of_lt_of_le hleft hjk)

namespace Comparison

variable (hΨ : Comparison Ψ)

include hΨ

theorem steady (hp : Steady k p) : Compared Ψ k p p := fun _ hleft => hΨ.steady_at hp hleft

theorem bind (hp : Compared Ψ k p q) (hf : ∀ a, Compared Ψ k (f a) (g a)) : Compared Ψ k (p >>= f) (q >>= g) :=
  fun _ hleft => hΨ.bind_at (hp hleft) fun a _ _ hahead => hf a (Nat.lt_of_le_of_lt hahead.left_le hleft)

theorem steady_bind (hp : Steady k p) (hf : ∀ a, Compared Ψ k (f a) (g a)) : Compared Ψ k (p >>= f) (p >>= g) :=
  hΨ.bind (hΨ.steady hp) hf

theorem steady_bind_of_consumes (hp : Steady (k + 1) p) (hc : Consumes p) (hf : ∀ a, Compared Ψ k (f a) (g a)) :
    Compared Ψ (k + 1) (p >>= f) (p >>= g) :=
  fun _ hleft => hΨ.bind_at (hΨ.steady_at hp hleft) fun a _ hrun _ =>
    hf a (Nat.lt_of_lt_of_le (hc hrun) (Nat.le_of_lt_succ hleft))

/-- A loop that starts with a bound above the number of bytes left. -/
theorem left_bind {f g : Nat → Script α} (hf : ∀ l, l < k → Compared Ψ (l + 1) (f l) (g l)) :
    Compared Ψ k (left >>= f) (left >>= g) := by
  intro m hleft
  refine hΨ.bind_at (hΨ.steady_at steady_left hleft) fun l m' hrun _ => ?_
  rw [run_left] at hrun
  cases hrun
  exact hf _ hleft (Nat.lt_succ_self _)

theorem times (h : Compared Ψ k p q) (j : Nat) : Compared Ψ k (Script.times p j) (Script.times q j) := by
  induction j with
  | zero => exact hΨ.steady (steady_pure [])
  | succ j ih => exact hΨ.bind h fun a => hΨ.bind ih fun as => hΨ.steady (steady_pure (a :: as))

end Comparison

end Sequences

/-! ## Instructions -/

theorem steady_corners (moves : Bool) : Steady k (corners moves) := by
  unfold corners
  cases moves with
  | false => exact steady_times (steady_param .word) 4
  | true => exact steady_times steady_expression 4

theorem steady_areaKind : Steady k areaKind := by
  refine steady_byte.bind fun kind => (steady_say _ _).bind fun _ => ?_
  split
  · exact steady_byte.bind fun _ => steady_pure _
  · exact steady_pure _

theorem steady_areaField (kind : Nat) : Steady k (areaField kind) := by
  refine steady_variableName.bind fun _ => steady_word.bind fun _ => (steady_read 2).bind fun bs => ?_
  have hrest : Steady k (if 5 ≤ kind ∧ kind ≤ 8 then skipCounted 1 else pure ()) := by
    split
    · exact steady_skipCounted 1
    · exact steady_pure ()
  dsimp only
  split
  · exact (steady_throw (by simp)).bind fun _ => hrest
  · exact hrest

namespace Comparison

variable {Ψ : (α : Type) → Script α → Script α → Machine → Prop} {b b' : Script Unit} (hΨ : Comparison Ψ)

include hΨ

theorem casesFrom (hb : Compared Ψ k b b') :
    ∀ j, j ≤ k → Compared Ψ j (Script.casesFrom b j) (Script.casesFrom b' j)
  | 0, _ => compared_zero _ _
  | j + 1, hj => by
    unfold Script.casesFrom
    refine hΨ.steady_bind_of_consumes steady_code consumes_code fun count => ?_
    split
    · exact hΨ.steady (steady_pure ())
    · have hcase : Steady j (do line ["case " ++ (← expression) ++ ":"]) :=
        steady_expression.bind fun _ => steady_line _
      have hj' := Nat.le_of_succ_le hj
      exact hΨ.steady_bind (steady_times hcase count) fun _ => hΨ.bind (hb.mono hj') fun _ =>
        hΨ.steady_bind (steady_line _) fun _ => casesFrom hb j hj'

/-- An instruction that changes no count and notes no call only does what its blocks do. -/
theorem run (hb : Compared Ψ k b b') {i : Instruction} (hforward : i.IsForward) (hcall : i ≠ .call)
    (hcount : i ≠ .setCommandCount) : Compared Ψ k (i.run b) (i.run b') := by
  cases i with
  | call => exact absurd rfl hcall
  | setCommandCount => exact absurd rfl hcount
  | choose =>
    refine hΨ.steady_bind steady_variableName fun _ => hΨ.steady_bind (steady_line _) fun _ =>
      hΨ.left_bind fun l hl => ?_
    have hb' := hb.mono hl
    refine hΨ.bind (hΨ.casesFrom hb' (l + 1) (Nat.le_refl _)) fun _ => hΨ.steady_bind steady_peek fun code => ?_
    dsimp only
    split
    · exact hΨ.steady_bind (steady_line _) fun _ => hΨ.steady_bind (steady_read 1) fun _ => hΨ.bind hb' fun _ =>
        hΨ.steady ((steady_line _).bind fun _ => steady_line _)
    · exact hΨ.steady (steady_line _)
  | repeatUntil =>
    exact hΨ.steady_bind (steady_line _) fun _ => hΨ.bind hb fun _ =>
      hΨ.steady ((steady_read 1).bind fun _ => steady_expression.bind fun _ => steady_line _)
  | whileDo =>
    exact hΨ.steady_bind steady_expression fun _ => hΨ.steady_bind (steady_line _) fun _ => hΨ.bind hb fun _ =>
      hΨ.steady (steady_line _)
  | ifElse =>
    refine hΨ.steady_bind steady_expression fun _ => hΨ.steady_bind (steady_line _) fun _ => hΨ.bind hb fun _ =>
      hΨ.steady_bind steady_byte fun code => ?_
    dsimp only
    split
    · exact hΨ.steady_bind (steady_line _) fun _ => hΨ.bind hb fun _ => hΨ.steady (steady_line _)
    · exact hΨ.steady (steady_line _)
  | _ => exact hΨ.steady (Instruction.steady_run hforward id b)

/-! ## Areas and blocks -/

theorem areaBlocks (hb : Compared Ψ k b b') (kind : Nat) :
    Compared Ψ k (Script.areaBlocks b kind) (Script.areaBlocks b' kind) := by
  unfold Script.areaBlocks
  split
  · exact hΨ.steady_bind (steady_read 6) fun _ => hb
  split
  · exact hΨ.steady_bind (steady_read 6) fun _ => hΨ.bind hb fun _ => hb
  split
  · refine hΨ.steady_bind (steady_areaField kind) fun _ => ?_
    split
    · exact hb
    · exact hΨ.steady (steady_pure ())
  split
  · exact hΨ.steady_bind (steady_read 2) fun _ => hΨ.steady_bind (steady_read 2) fun _ =>
      hΨ.steady_bind (steady_read 2) fun _ => hb
  · exact hΨ.steady (steady_pure ())

theorem area (hb : Compared Ψ k b b') : Compared Ψ k (Script.area b) (Script.area b') :=
  hΨ.steady_bind steady_areaKind fun _ => hΨ.steady_bind (steady_corners _) fun _ =>
    hΨ.steady_bind (steady_say _ _) fun _ => hΨ.areaBlocks hb _

theorem areaList (hb : Compared Ψ k b b') (count : Nat) :
    Compared Ψ k (Script.areaList b count) (Script.areaList b' count) := by
  refine hΨ.steady_bind (steady_line _) fun _ => hΨ.steady_bind (steady_read 6) fun bs => ?_
  have hareas : Compared Ψ k (do say (toString count) []; let _ ← Script.times (Script.area b) count)
      (do say (toString count) []; let _ ← Script.times (Script.area b') count) :=
    hΨ.steady_bind (steady_say _ _) fun _ => hΨ.bind (hΨ.times (hΨ.area hb) count) fun _ =>
      hΨ.steady (steady_pure ())
  dsimp only
  split
  · exact hΨ.steady_bind (steady_throw (by simp)) fun _ => hareas
  · exact hareas

theorem blockOf (hareas : ∀ count, Compared Ψ k (areas b count) (areas b' count))
    (hcommands : ∀ start size count, Compared Ψ k (commands b start size count) (commands b' start size count))
    (start kind : Nat) : Compared Ψ k (Script.blockOf b start kind) (Script.blockOf b' start kind) := by
  refine hΨ.steady_bind steady_byte fun count => ?_
  split
  · exact hareas count
  split
  · exact hΨ.steady (steady_throw (by simp))
  refine hΨ.steady_bind steady_word fun size => ?_
  split
  · exact hcommands start size count
  · exact hΨ.steady (steady_pure ())

/-- A block takes a byte before the blocks inside it. -/
theorem blockWith (hareas : ∀ count, Compared Ψ k (areas b count) (areas b' count))
    (hcommands : ∀ start size count, Compared Ψ k (commands b start size count) (commands b' start size count)) :
    Compared Ψ (k + 1) (Script.blockWith b) (Script.blockWith b') := by
  refine hΨ.steady_bind steady_place fun start => hΨ.steady_bind steady_left fun l => ?_
  split
  · exact hΨ.steady (steady_say _ _)
  · exact hΨ.steady_bind_of_consumes steady_byte consumes_byte fun kind => hΨ.blockOf hareas hcommands start kind

end Comparison

end AdventureKit.Script
