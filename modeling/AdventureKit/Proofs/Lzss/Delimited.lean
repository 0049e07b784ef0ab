import AdventureKit.Proofs.Fault
import AdventureKit.Proofs.Lzss.History

/-!
# Packed data tell where they end

Unpacking ends on all data and for all counts: with as many bytes as are wanted, or because the data end.  What
it has read decides what comes out, whatever follows.  A smaller count stops the same commands earlier: it reads
no more, and a first part of the same bytes comes out (`unpack_delimits`).

`Progress.less d` is a progress with `d` bytes less wanted.  One command on it either gives the same as before
or stops on the way (`Progress.copy_less`); `unpackFrom_less` takes this through all commands.
-/

namespace AdventureKit.Lzss

namespace Progress

/-- The same progress with `d` bytes less wanted. -/
def less (p : Progress) (d : Int) : Progress where
  window := p.window
  output := p.output
  wanted := p.wanted - d

theorem emit_less (p : Progress) (d : Int) (b : UInt8) : (p.less d).emit b = (p.emit b).less d := by
  simp only [emit, less, Progress.mk.injEq, true_and]
  omega

/-- A copy adds to what is out. -/
theorem suffix_copy (p : Progress) (place count : Nat) : p.output <:+ (p.copy place count).output := by
  induction count generalizing p place with
  | zero => exact List.suffix_refl _
  | succ count ih =>
    have hemit : p.output <:+ (p.emit (p.window.byteAt place)).output := List.suffix_cons _ _
    rw [copy]
    split
    · exact hemit
    · exact hemit.trans (ih _ _)

/-- A copy for which fewer bytes are wanted is the same copy, or it stops on the way. -/
theorem copy_less {p : Progress} {d : Int} (hd : 0 < d) (hp : d < p.wanted) (place count : Nat) :
    (p.less d).copy place count = (p.copy place count).less d ∧ d < (p.copy place count).wanted ∨
      ((p.less d).copy place count).wanted = 0 ∧
        ((p.less d).copy place count).output <:+ (p.copy place count).output := by
  induction count generalizing p place with
  | zero => exact .inl ⟨rfl, hp⟩
  | succ count ih =>
    have hemit : (p.emit (p.window.byteAt place)).wanted = p.wanted - 1 := rfl
    have hless : ((p.emit (p.window.byteAt place)).less d).wanted = p.wanted - 1 - d := rfl
    have hgo : p.copy place (count + 1) = (p.emit (p.window.byteAt place)).copy (place + 1) count := by
      rw [copy, if_neg (by omega)]
    rw [hgo, copy]
    simp only [show (p.less d).window = p.window from rfl, emit_less]
    by_cases hdone : ((p.emit (p.window.byteAt place)).less d).wanted = 0
    · rw [if_pos hdone]
      exact .inr ⟨hdone, suffix_copy (p.emit (p.window.byteAt place)) (place + 1) count⟩
    · rw [if_neg hdone]
      exact ih (by omega) (place + 1)

end Progress

variable {flags : List Bool} {p : Progress} {data out rest : Bytes}

/-- What is out stays. -/
theorem prefix_of_unpackFrom (h : unpackFrom flags p data = .ok (out, rest)) : p.output.reverse <+: out := by
  have hemit : ∀ (p : Progress) (b : UInt8), p.output.reverse <+: (p.emit b).output.reverse :=
    fun p b => List.reverse_prefix.2 (List.suffix_cons b p.output)
  have hcopy : ∀ (p : Progress) (place count : Nat), p.output.reverse <+: (p.copy place count).output.reverse :=
    fun p place count => List.reverse_prefix.2 (p.suffix_copy place count)
  fun_induction unpackFrom flags p data with
  | case1 => cases h
  | case2 => cases h
  | case3 p b data ih => exact ih h
  | case4 p b data flags p' hdone =>
    cases h
    exact hemit p b
  | case5 p b data flags p' hdone ih => exact (hemit p b).trans (ih h)
  | case6 => cases h
  | case7 p b flags c data p' hdone =>
    cases h
    exact hcopy p _ _
  | case8 p b flags c data p' hdone ih => exact (hcopy p _ _).trans (ih h)

theorem suffix_of_unpackFrom (h : unpackFrom flags p data = .ok (out, rest)) : rest <:+ data := by
  obtain ⟨used, rfl, -⟩ := unpackFrom_eq_ok h
  exact List.suffix_append used rest

/-- **Wanting less** stops earlier in the same run. -/
theorem unpackFrom_less {d : Int} (h : unpackFrom flags p data = .ok (out, rest)) (hd : 0 < d)
    (hp : d < p.wanted) :
    ∃ front behind, unpackFrom flags (p.less d) data = .ok (front, behind) ∧ front <+: out ∧
      rest <:+ behind := by
  fun_induction unpackFrom flags p data with
  | case1 => cases h
  | case2 => cases h
  | case3 p b data ih =>
    rw [unpackFrom]
    exact ih h hp
  | case4 p b data flags p' hdone =>
    -- the last byte that is wanted cannot be spared
    have hemit : p'.wanted = p.wanted - 1 := rfl
    omega
  | case5 p b data flags p' hdone ih =>
    have hemit : p'.wanted = p.wanted - 1 := rfl
    have hless : (p'.less d).wanted = p'.wanted - d := rfl
    rw [unpackFrom, Progress.emit_less]
    by_cases hstop : (p'.less d).wanted = 0
    · exact ⟨p'.output.reverse, data, if_pos hstop, prefix_of_unpackFrom h, suffix_of_unpackFrom h⟩
    · obtain ⟨front, behind, hrun, hparts⟩ := ih h (by omega)
      exact ⟨front, behind, (if_neg hstop).trans hrun, hparts⟩
  | case6 => cases h
  | case7 p b flags c data p' hdone =>
    cases h
    have hcopy : p'.wanted = (p.copy (copyPlace b c) (copyLength c)).wanted := rfl
    rw [unpackFrom]
    rcases Progress.copy_less hd hp (copyPlace b c) (copyLength c) with ⟨-, hmore⟩ | ⟨hstop, hfront⟩
    · exact absurd hdone (by omega)
    · exact ⟨_, _, if_pos hstop, List.reverse_prefix.2 hfront, List.suffix_refl _⟩
  | case8 p b flags c data p' hdone ih =>
    have hcopy : p'.wanted = (p.copy (copyPlace b c) (copyLength c)).wanted := rfl
    rw [unpackFrom]
    rcases Progress.copy_less hd hp (copyPlace b c) (copyLength c) with ⟨hsame, hmore⟩ | ⟨hstop, hfront⟩
    · have hless : ((p.copy (copyPlace b c) (copyLength c)).less d).wanted = p'.wanted - d := rfl
      obtain ⟨front, behind, hrun, hparts⟩ := ih h hmore
      rw [hsame]
      exact ⟨front, behind, (if_neg (by omega)).trans hrun, hparts⟩
    · exact ⟨_, _, if_pos hstop, (List.reverse_prefix.2 hfront).trans (prefix_of_unpackFrom h),
        suffix_of_unpackFrom h⟩

theorem length_of_unpack {size : Int} (h : unpack size data = .ok (out, rest)) : (out.length : Int) = size := by
  have hlength := length_of_unpackFrom h
  simpa [Progress.total] using hlength

/-- The first `m` of the bytes that were wanted. -/
theorem unpack_of_le {size m : Int} (h : unpack size data = .ok (out, rest)) (hm : 1 ≤ m) (hle : m ≤ size) :
    ∃ behind, unpack m data = .ok (out.take m.toNat, behind) ∧ rest <:+ behind := by
  have hlength := length_of_unpack h
  rcases Int.lt_or_eq_of_le hle with hlt | rfl
  · obtain ⟨front, behind, hrun, hfront, hbehind⟩ :=
      unpackFrom_less h (d := size - m) (by omega) (by simp only; omega)
    have hless : Progress.less ⟨Window.unpacking, [], size⟩ (size - m) = ⟨Window.unpacking, [], m⟩ := by
      simp only [Progress.less, Progress.mk.injEq, true_and]
      omega
    rw [hless] at hrun
    have hcount : (front.length : Int) = m := length_of_unpack hrun
    refine ⟨behind, ?_, hbehind⟩
    rw [show m.toNat = front.length by omega, ← List.prefix_iff_eq_take.1 hfront]
    exact hrun
  · refine ⟨rest, ?_, List.suffix_refl _⟩
    rw [List.take_of_length_le (by omega)]
    exact h

/-- **Unpacking ends, exactly and by itself.**  It fails where the data end too early, and so always if no
bytes are wanted; or as many bytes as are wanted come out.  Then what was read decides what comes out, whatever
follows, and a smaller count gives a first part of the same bytes and reads no more. -/
theorem unpack_delimits (size : Int) (data : Bytes) :
    unpack size data = .error (.ended .code) ∨ unpack size data = .error (.ended .group) ∨
    ∃ out used rest, data = used ++ rest ∧ unpack size data = .ok (out, rest) ∧
      1 ≤ size ∧ (out.length : Int) = size ∧
      (∀ more, unpack size (used ++ more) = .ok (out, more)) ∧
      ∀ m : Int, 1 ≤ m → m ≤ size → ∃ front behind, used = front ++ behind ∧
        unpack m data = .ok (out.take m.toNat, behind ++ rest) := by
  cases h : unpack size data with
  | error fault =>
    rcases fault_of_unpackFrom h with rfl | rfl
    · exact .inl rfl
    · exact .inr (.inl rfl)
  | ok r =>
    obtain ⟨out, rest⟩ := r
    obtain ⟨used, rfl, hused⟩ := unpackFrom_eq_ok h
    have hpos : 1 ≤ size := by
      refine Int.not_lt.1 fun hlt => ?_
      obtain ⟨fault, hfault⟩ := @unpackFrom_of_nonpos [] ⟨Window.unpacking, [], size⟩ (Int.le_of_lt_add_one hlt)
        (used ++ rest)
      rw [unpack, hfault] at h
      cases h
    refine .inr (.inr ⟨out, used, rest, rfl, rfl, hpos, length_of_unpack h, hused, fun m hm hle => ?_⟩)
    obtain ⟨behind, hrun, hbehind⟩ := unpack_of_le h hm hle
    obtain ⟨front, hfront, -⟩ := unpackFrom_eq_ok hrun
    -- both cut the data, so that the later cut is within the part that was read
    obtain ⟨between, rfl⟩ := hbehind
    refine ⟨front, between, ?_, hrun⟩
    rw [← List.append_assoc] at hfront
    exact List.append_cancel_right hfront

/-- A byte and then a copy of it, which reads what it writes. -/
theorem unpack_delimits_run :
    unpack 5 [1, 65, 0xEE, 0xF1, 7] = .ok ([65, 65, 65, 65, 65], [7]) ∧
    (∀ more, unpack 5 ([1, 65, 0xEE, 0xF1] ++ more) = .ok ([65, 65, 65, 65, 65], more)) ∧
    ∃ behind, unpack 3 [1, 65, 0xEE, 0xF1, 7] = .ok ([65, 65, 65], behind ++ [7]) := by
  have hrun := History.unpackFrom_eq_decodeFrom 5 0 8 [] [1, 65, 0xEE, 0xF1, 7] _ (History.follows_start 5)
  have hfive : unpack 5 [1, 65, 0xEE, 0xF1, 7] = .ok ([65, 65, 65, 65, 65], [7]) :=
    eq_ok_of_toOption (hrun.trans (by decide))
  have hdelimits := unpack_delimits 5 [1, 65, 0xEE, 0xF1, 7]
  rw [hfive] at hdelimits
  rcases hdelimits with h | h | ⟨out, used, rest, hdata, h, -, -, hmore, hless⟩
  · cases h
  · cases h
  · cases h
    obtain ⟨-, behind, -, hthree⟩ := hless 3 (by decide) (by decide)
    have hcut : [1, 65, 0xEE, 0xF1] ++ [7] = used ++ [7] := hdata
    have hused : [1, 65, 0xEE, 0xF1] = used := List.append_cancel_right hcut
    exact ⟨hfive, hused ▸ hmore, behind, hthree⟩

end AdventureKit.Lzss
