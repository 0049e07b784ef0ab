import AdventureKit.Proofs.Dialogue.TurnedBack
import Mathlib.Data.List.TakeWhile

/-!
# False ends

The byte 1 ends a text only together with a zero.  Before another byte it is a false end: it is written
like a command, but what follows it is lost, and since the text that is turned back is still a beginning of
the old one, nobody notices.  A text comes back whole just if a false end is its last token at most
(`returned_eq_iff`).
-/

namespace AdventureKit.Markup

/-- The byte 1 before a byte that is not zero. -/
def Token.isFalseEnd : Token → Bool
  | .command [1, x] => x != 0
  | _ => false

/-- The tokens up to the first false end, which is one of them. -/
def upToFalseEnd (ts : List Token) : List Token :=
  ts.takeWhile (fun t => !t.isFalseEnd) ++ (ts.dropWhile fun t => !t.isFalseEnd).take 1

/-- What becomes of a coded text that is written and turned back. -/
def returned (body : Bytes) : Except Fault Bytes := do
  toBody (render (← tokens body))

theorem Token.eq_command_of_isFalseEnd {t : Token} (h : t.isFalseEnd = true) : ∃ x, t = .command [1, x] ∧ x ≠ 0 := by
  unfold isFalseEnd at h
  split at h
  · rename_i x
    exact ⟨x, rfl, bne_iff_ne.1 h⟩
  · cases h

theorem coded_ne_nil {t : Token} (h : t.Regular ∨ t.isFalseEnd = true) : t.coded ≠ [] := by
  rcases h with h | h
  · obtain ⟨c, args, hcoded, -⟩ := h.token?
    rw [hcoded]
    exact List.cons_ne_nil c args
  · obtain ⟨x, rfl, -⟩ := Token.eq_command_of_isFalseEnd h
    exact List.cons_ne_nil 1 [x]

/-! ## Reading and turning back -/

theorem tokensFrom_falseEnd {x : UInt8} (hx : x ≠ 0) (position : Nat) (rest : Bytes) :
    tokensFrom position 0 (1 :: x :: rest) = .ok [.brokenEnd [1, x] (position + 2) rest] := by
  have htoken : token? position 1 (x :: rest) =
      .ok (some (.brokenEnd [1, x] (position + 2) rest, (x :: rest).length)) := by
    unfold token?
    split
    · split
      · rename_i heq
        exact absurd (List.cons.inj heq).1 hx
      · rfl
    · rename_i hone
      exact absurd rfl hone
  have hskip := tokensFrom_skip (position + 1) (x :: rest) []
  rw [List.append_nil] at hskip
  rw [tokensFrom, htoken]
  simp only [bind, Except.bind, hskip]
  rfl

/-- The bytes before a false end come back, and so do its own. -/
theorem toBody_render_brokenEnd {front : List Token} (hts : ∀ t ∈ front, t.Regular)
    (hlists : ∀ t ∈ front, t.isWordList = false) (hapart : front.IsChain Token.Apart) (b : UInt8) (bs : Bytes)
    (position : Nat) (lost : Bytes) :
    toBody (render (front ++ [.brokenEnd (b :: bs) position lost])) = .ok (front.flatMap Token.coded ++ b :: bs) := by
  have hshown : (front ++ [Token.brokenEnd (b :: bs) position lost]).flatMap Token.shown =
      front.flatMap Token.shown ++ escape (b :: bs) := by
    rw [List.flatMap_append, List.flatMap_singleton]
    rfl
  have hquiet := quiet_escape (b :: bs)
  have hhead : (escape (b :: bs)).head? ≠ some 0x78 := by
    rw [← List.append_nil (escape (b :: bs)), head?_escape]
    decide
  -- no break is left in the escape
  obtain ⟨x, y, hturned⟩ := turned_flatMap_marked hts hlists 0 0 (escape (b :: bs))
  have hend : turned x y (escape (b :: bs)) = .ok (escape (b :: bs)) := by
    have h := turned_append hquiet.bar_notMem x y []
    rw [turned_of_none (t := []) rfl, List.append_nil] at h
    rw [h]
    exact congrArg Except.ok (List.append_nil _)
  have hback : unescapeAll (escape (b :: bs)) = b :: bs := by
    have h := unescapeAll_escape (b :: bs) []
    rwa [unescapeAll_nil, List.append_nil, List.append_nil] at h
  rw [toBody_eq, render_eq, hshown, markLines_append hts hquiet, hturned, hend]
  refine congrArg Except.ok ?_
  rw [unescapeAll_flatMap_placed hts hlists hapart hhead, hback]

theorem returned_falseEnd {front : List Token} (hts : ∀ t ∈ front, t.Regular)
    (hlists : ∀ t ∈ front, t.isWordList = false) (hapart : front.IsChain Token.Apart) {x : UInt8} (hx : x ≠ 0)
    (rest : Bytes) :
    returned (front.flatMap Token.coded ++ 1 :: x :: rest) = .ok (front.flatMap Token.coded ++ [1, x]) := by
  rw [returned, tokens, tokensFrom_append hts, tokensFrom_falseEnd hx]
  exact toBody_render_brokenEnd hts hlists hapart 1 [x] _ rest

theorem returned_end {ts : List Token} (hts : ∀ t ∈ ts, t.Regular) (hlists : ∀ t ∈ ts, t.isWordList = false)
    (hapart : ts.IsChain Token.Apart) (more : Bytes) :
    returned (ts.flatMap Token.coded ++ 1 :: 0 :: more) = .ok (ts.flatMap Token.coded) := by
  rw [returned, tokens_append_end hts]
  exact toBody_render hts hlists hapart

/-! ## Whole texts -/

/-- Either there is no false end, or the tokens part at the first one. -/
theorem falseEnd_cases (ts : List Token) :
    ((∀ t ∈ ts, t.isFalseEnd = false) ∧ upToFalseEnd ts = ts) ∨
      ∃ front x back, x ≠ 0 ∧ ts = front ++ .command [1, x] :: back ∧ (∀ t ∈ front, t.isFalseEnd = false) ∧
        upToFalseEnd ts = front ++ [.command [1, x]] := by
  have hsplit := List.takeWhile_append_dropWhile (p := fun t : Token => !t.isFalseEnd) (l := ts)
  have hfront : ∀ t ∈ ts.takeWhile (fun t => !t.isFalseEnd), t.isFalseEnd = false :=
    fun t ht => by simpa using List.mem_takeWhile_imp ht
  cases hdrop : ts.dropWhile fun t => !t.isFalseEnd with
  | nil =>
    rw [hdrop, List.append_nil] at hsplit
    refine .inl ⟨hsplit ▸ hfront, ?_⟩
    rw [upToFalseEnd, hdrop, List.take_nil, List.append_nil, hsplit]
  | cons t back =>
    have ht : t.isFalseEnd = true := by
      have hne : ts.dropWhile (fun t => !t.isFalseEnd) ≠ [] := by
        rw [hdrop]
        exact List.cons_ne_nil t back
      simpa [hdrop] using List.head_dropWhile_not (fun t : Token => !t.isFalseEnd) hne
    obtain ⟨x, rfl, hx⟩ := Token.eq_command_of_isFalseEnd ht
    rw [hdrop] at hsplit
    refine .inr ⟨_, x, back, hx, hsplit.symm, hfront, ?_⟩
    rw [upToFalseEnd, hdrop, List.take_succ_cons, List.take_zero]

variable {ts : List Token}

theorem returned_eq (hts : ∀ t ∈ ts, t.Regular ∨ t.isFalseEnd = true) (hlists : ∀ t ∈ ts, t.isWordList = false)
    (hapart : ts.IsChain Token.Apart) (more : Bytes) :
    returned (ts.flatMap Token.coded ++ 1 :: 0 :: more) = .ok ((upToFalseEnd ts).flatMap Token.coded) := by
  have hregular : ∀ t ∈ ts, t.isFalseEnd = false → t.Regular := by
    intro t ht hfalse
    rcases hts t ht with h | h
    · exact h
    · rw [hfalse] at h
      cases h
  rcases falseEnd_cases ts with ⟨hnone, hkept⟩ | ⟨front, x, back, hx, rfl, hfront, hkept⟩
  · rw [hkept]
    exact returned_end (fun t ht => hregular t ht (hnone t ht)) hlists hapart more
  · have hsub : ∀ t ∈ front, t ∈ front ++ .command [1, x] :: back := fun t ht => List.mem_append_left _ ht
    have hrun := returned_falseEnd (fun t ht => hregular t (hsub t ht) (hfront t ht)) (fun t ht => hlists t (hsub t ht))
      hapart.left_of_append hx (back.flatMap Token.coded ++ 1 :: 0 :: more)
    rw [hkept, List.flatMap_append, List.flatMap_append, List.append_assoc, List.flatMap_cons]
    exact hrun

theorem flatMap_coded_upToFalseEnd_eq_iff (hts : ∀ t ∈ ts, t.Regular ∨ t.isFalseEnd = true) :
    (upToFalseEnd ts).flatMap Token.coded = ts.flatMap Token.coded ↔ ∀ t ∈ ts.dropLast, t.isFalseEnd = false := by
  rcases falseEnd_cases ts with ⟨hnone, hkept⟩ | ⟨front, x, back, hx, rfl, hfront, hkept⟩
  · rw [hkept]
    exact ⟨fun _ t ht => hnone t (List.dropLast_subset ts ht), fun _ => rfl⟩
  · have hsplit : (front ++ .command [1, x] :: back).flatMap Token.coded =
        (front ++ [Token.command [1, x]]).flatMap Token.coded ++ back.flatMap Token.coded := by
      rw [List.append_cons, List.flatMap_append]
    rw [hkept, hsplit, List.self_eq_append_right]
    cases back with
    | nil =>
      rw [List.dropLast_concat]
      exact ⟨fun _ => hfront, fun _ => rfl⟩
    | cons t back =>
      -- there the false end is not the last token
      have hmem : Token.command [1, x] ∈ (front ++ .command [1, x] :: t :: back).dropLast := by
        rw [List.dropLast_append_of_ne_nil (List.cons_ne_nil _ _),
          List.dropLast_cons_of_ne_nil (List.cons_ne_nil t back)]
        exact List.mem_append_right _ List.mem_cons_self
      have hfalse : (Token.command [1, x]).isFalseEnd = true := bne_iff_ne.2 hx
      have hcoded : t.coded ≠ [] := coded_ne_nil (hts t (by simp))
      constructor
      · intro h
        rw [List.flatMap_cons, List.append_eq_nil_iff] at h
        exact absurd h.1 hcoded
      · intro h
        rw [h _ hmem] at hfalse
        cases hfalse

/-- **Texts with false ends.**  What comes back of a text goes up to its first false end; it is the whole
text, without the end mark, just if no false end stands before the last token. -/
theorem returned_eq_iff (hts : ∀ t ∈ ts, t.Regular ∨ t.isFalseEnd = true) (hlists : ∀ t ∈ ts, t.isWordList = false)
    (hapart : ts.IsChain Token.Apart) (more : Bytes) :
    returned (ts.flatMap Token.coded ++ 1 :: 0 :: more) = .ok ((upToFalseEnd ts).flatMap Token.coded) ∧
      (returned (ts.flatMap Token.coded ++ 1 :: 0 :: more) = .ok (ts.flatMap Token.coded) ↔
        ∀ t ∈ ts.dropLast, t.isFalseEnd = false) := by
  have hreturned := returned_eq hts hlists hapart more
  refine ⟨hreturned, ?_⟩
  rw [hreturned, Except.ok.injEq]
  exact flatMap_coded_upToFalseEnd_eq_iff hts

/-- A letter, a false end, a command and another letter. -/
def cutTokens : List Token :=
  [.literal 0x41, .command [1, 5], .command [3, 1], .literal 0x42]

theorem returned_eq_iff_cut :
    (∀ t ∈ cutTokens, t.Regular ∨ t.isFalseEnd = true) ∧
      returned (cutTokens.flatMap Token.coded ++ [1, 0]) = .ok ((upToFalseEnd cutTokens).flatMap Token.coded) ∧
      (returned (cutTokens.flatMap Token.coded ++ [1, 0]) = .ok (cutTokens.flatMap Token.coded) ↔
        ∀ t ∈ cutTokens.dropLast, t.isFalseEnd = false) := by
  have hts : ∀ t ∈ cutTokens, t.Regular ∨ t.isFalseEnd = true := by
    simp only [cutTokens, List.forall_mem_cons]
    exact ⟨.inl (.literal ⟨by decide, by decide, by decide, by decide⟩), .inr (by decide),
      .inl (.short (.inl rfl)), .inl (.literal ⟨by decide, by decide, by decide, by decide⟩), List.forall_mem_nil _⟩
  exact ⟨hts, returned_eq_iff hts (by decide) (by simp [cutTokens, Token.Apart]) []⟩

/-- The letter behind a false end is lost. -/
theorem returned_loses_letter :
    returned ([0x41] ++ [1, 5] ++ [0x42] ++ [1, 0]) = .ok ([0x41] ++ [1, 5]) ∧
      returned ([0x41] ++ [1, 5] ++ [0x42] ++ [1, 0]) ≠ .ok ([0x41] ++ [1, 5] ++ [0x42]) := by
  have hfront : ∀ t ∈ [Token.literal 0x41], t.Regular := by
    simp only [List.forall_mem_cons]
    exact ⟨.literal ⟨by decide, by decide, by decide, by decide⟩, List.forall_mem_nil _⟩
  have h : returned ([0x41] ++ [1, 5] ++ [0x42] ++ [1, 0]) = .ok ([0x41] ++ [1, 5]) :=
    returned_falseEnd hfront (by decide) (List.isChain_singleton _) (by decide : (5 : UInt8) ≠ 0) [0x42, 1, 0]
  refine ⟨h, ?_⟩
  rw [h]
  decide

end AdventureKit.Markup
