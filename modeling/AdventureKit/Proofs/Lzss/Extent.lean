import AdventureKit.Proofs.Bytes
import AdventureKit.Lzss.Unpack

/-!
# What unpacking reads

Unpacking reads a first part of the data and leaves the rest.  What comes out depends on that part alone
(`unpackSized_eq_ok`), and it has as many bytes as were wanted (`length_of_unpackSized`).  A reader that wants
no bytes never has enough of them, so it goes on until the data end (`unpackFrom_of_nonpos`).
-/

namespace AdventureKit.Lzss

variable {flags : List Bool} {p : Progress} {data out rest : Bytes}

theorem unpackFrom_eq_ok (h : unpackFrom flags p data = .ok (out, rest)) :
    ∃ used, data = used ++ rest ∧ ∀ more, unpackFrom flags p (used ++ more) = .ok (out, more) := by
  fun_induction unpackFrom flags p data with
  | case1 => cases h
  | case2 => cases h
  | case3 p b data ih =>
    obtain ⟨used, rfl, hused⟩ := ih h
    refine ⟨b :: used, rfl, fun more => ?_⟩
    rw [List.cons_append, unpackFrom]
    exact hused more
  | case4 p b data flags p' hdone =>
    cases h
    refine ⟨[b], rfl, fun more => ?_⟩
    rw [List.cons_append, unpackFrom, if_pos hdone]
    rfl
  | case5 p b data flags p' hdone ih =>
    obtain ⟨used, rfl, hused⟩ := ih h
    refine ⟨b :: used, rfl, fun more => ?_⟩
    rw [List.cons_append, unpackFrom, if_neg hdone]
    exact hused more
  | case6 => cases h
  | case7 p b flags c data p' hdone =>
    cases h
    refine ⟨[b, c], rfl, fun more => ?_⟩
    rw [List.cons_append, List.cons_append, unpackFrom, if_pos hdone]
    rfl
  | case8 p b flags c data p' hdone ih =>
    obtain ⟨used, rfl, hused⟩ := ih h
    refine ⟨b :: c :: used, rfl, fun more => ?_⟩
    rw [List.cons_append, List.cons_append, unpackFrom, if_neg hdone]
    exact hused more

/-- The bytes that are out or still wanted. -/
def Progress.total (p : Progress) : Int :=
  p.output.length + p.wanted

theorem Progress.total_emit (p : Progress) (b : UInt8) : (p.emit b).total = p.total := by
  simp only [total, emit, List.length_cons]
  omega

theorem Progress.total_copy (p : Progress) (place count : Nat) : (p.copy place count).total = p.total := by
  induction count generalizing p place with
  | zero => rfl
  | succ count ih =>
    rw [copy]
    split
    · exact total_emit p _
    · rw [ih, total_emit]

theorem length_of_unpackFrom (h : unpackFrom flags p data = .ok (out, rest)) : (out.length : Int) = p.total := by
  -- at the end nothing is wanted any more
  have hdone : ∀ p' : Progress, p'.wanted = 0 → (p'.output.reverse.length : Int) = p'.total := by
    intro p' hp'
    rw [Progress.total, hp', List.length_reverse, Int.add_zero]
  fun_induction unpackFrom flags p data with
  | case1 => cases h
  | case2 => cases h
  | case3 p b data ih => exact ih h
  | case4 p b data flags p' hp' =>
    cases h
    exact (hdone p' hp').trans (p.total_emit b)
  | case5 p b data flags p' hp' ih => exact (ih h).trans (p.total_emit b)
  | case6 => cases h
  | case7 p b flags c data p' hp' =>
    cases h
    exact (hdone p' hp').trans (p.total_copy _ _)
  | case8 p b flags c data p' hp' ih => exact (ih h).trans (p.total_copy _ _)

theorem unpackSized_eq_ok (h : unpackSized data = .ok (out, rest)) :
    ∃ used, data = used ++ rest ∧ ∀ more, unpackSized (used ++ more) = .ok (out, more) := by
  obtain ⟨used, hdrop, hused⟩ := unpackFrom_eq_ok h
  have hfour : (data.take 4).length = 4 := by
    rcases Nat.le_total 4 data.length with hlong | hshort
    · exact List.length_take_of_le hlong
    · rw [unpackSized, unpack, List.drop_eq_nil_of_le hshort] at h
      cases h
  refine ⟨data.take 4 ++ used, ?_, fun more => ?_⟩
  · rw [List.append_assoc, ← hdrop, List.take_append_drop]
  · rw [unpackSized, Bytes.dword, List.append_assoc, List.take_left' hfour, List.drop_left' hfour]
    exact hused more

theorem length_of_unpackSized (h : unpackSized data = .ok (out, rest)) : out.length = data.dword := by
  have hlength := length_of_unpackFrom h
  simp only [Progress.total, List.length_nil] at hlength
  omega

/-! ### Data that end too early -/

/-- A copy stops early only where enough bytes are out. -/
theorem Progress.wanted_copy {p : Progress} (hp : p.wanted ≤ 0) (place count : Nat) :
    (p.copy place count).wanted = p.wanted - count := by
  induction count generalizing p place with
  | zero => simp [copy]
  | succ count ih =>
    have hemit : (p.emit (p.window.byteAt place)).wanted = p.wanted - 1 := rfl
    rw [copy, if_neg (by omega), ih (by omega), hemit]
    omega

theorem unpackFrom_of_nonpos {flags : List Bool} {p : Progress} (hp : p.wanted ≤ 0) (data : Bytes) :
    ∃ fault, unpackFrom flags p data = .error fault := by
  -- every command makes the count smaller, so that none leaves it at zero
  fun_induction unpackFrom flags p data with
  | case1 => exact ⟨_, rfl⟩
  | case2 => exact ⟨_, rfl⟩
  | case3 p b rest ih => exact ih hp
  | case4 p b rest flags p' hdone =>
    have hemit : p'.wanted = p.wanted - 1 := rfl
    omega
  | case5 p b rest flags p' hdone ih =>
    have hemit : p'.wanted = p.wanted - 1 := rfl
    exact ih (by omega)
  | case6 => exact ⟨_, rfl⟩
  | case7 p b flags c rest p' hdone =>
    have hcopy : p'.wanted = p.wanted - copyLength c := p.wanted_copy hp _ _
    have hlen : 3 ≤ copyLength c := Nat.le_add_left 3 _
    omega
  | case8 p b flags c rest p' hdone ih =>
    have hcopy : p'.wanted = p.wanted - copyLength c := p.wanted_copy hp _ _
    exact ih (by omega)

/-- Unpacking fails where the data end, and nowhere else. -/
theorem fault_of_unpackFrom {fault : Fault} (h : unpackFrom flags p data = .error fault) :
    fault = .ended .code ∨ fault = .ended .group := by
  fun_induction unpackFrom flags p data with
  | case1 =>
    cases h
    exact .inr rfl
  | case2 =>
    cases h
    exact .inl rfl
  | case3 p b rest ih => exact ih h
  | case4 => cases h
  | case5 p b rest flags p' hdone ih => exact ih h
  | case6 =>
    cases h
    exact .inr rfl
  | case7 => cases h
  | case8 p b flags c rest p' hdone ih => exact ih h

/-- Unpacking knows no bound. -/
theorem unpackFrom_lasts (flags : List Bool) (p : Progress) (data : Bytes) :
    unpackFrom flags p data ≠ .error .exhausted := by
  intro h
  rcases fault_of_unpackFrom h with hfault | hfault
  · cases hfault
  · cases hfault

end AdventureKit.Lzss
