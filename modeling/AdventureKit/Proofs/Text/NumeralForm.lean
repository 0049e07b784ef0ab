import AdventureKit.Proofs.Text.Numeral

/-!
# The form of decimal numbers

`Written t n` is the grammar of a decimal number: blanks, a sign or none, digits with single underscores
between them, and blanks again.  `decimal?` reads exactly these texts, each as its number.
-/

namespace AdventureKit.Numeral

/-- What may follow the first digit: more digits, each of them with an underscore before it or none. -/
inductive MoreDigits : Bytes → List Nat → Prop where
  | done : MoreDigits [] []
  | digit {d : Nat} {t : Bytes} {ds : List Nat} (hd : d < 10) (h : MoreDigits t ds) :
      MoreDigits (digitByte d :: t) (d :: ds)
  | underscore {d : Nat} {t : Bytes} {ds : List Nat} (hd : d < 10) (h : MoreDigits t ds) :
      MoreDigits (95 :: digitByte d :: t) (d :: ds)

/-- A sign, and whether it is a minus. -/
inductive Sign : Bytes → Bool → Prop where
  | absent : Sign [] false
  | plus : Sign [43] false
  | minus : Sign [45] true

/-- The text `t` is a decimal number with the value `n`. -/
inductive Written : Bytes → Int → Prop where
  | number {front sign body back : Bytes} {negative : Bool} {d : Nat} {ds : List Nat}
      (hfront : ∀ b ∈ front, isBlank b = true) (hsign : Sign sign negative) (hd : d < 10) (hbody : MoreDigits body ds)
      (hlength : (d :: ds).length ≤ maxDigits) (hback : ∀ b ∈ back, isBlank b = true) :
      Written (front ++ (sign ++ digitByte d :: (body ++ back)))
        (if negative then -(value 10 (d :: ds) : Int) else (value 10 (d :: ds) : Int))

/-! ## Digits -/

theorem toNat_digitByte {d : Nat} (h : d < 10) : (digitByte d).toNat = 48 + d := by
  revert d
  decide

theorem digit?_ten_eq_some_iff {b : UInt8} {d : Nat} : digit? 10 b = some d ↔ d < 10 ∧ b = digitByte d := by
  constructor
  · intro h
    have hb : 48 ≤ b.toNat ∧ b.toNat ≤ 57 ∧ d = b.toNat - 48 := by
      unfold digit? at h
      grind
    have hd : d < 10 := by omega
    refine ⟨hd, UInt8.toNat_inj.1 ?_⟩
    rw [toNat_digitByte hd]
    omega
  · rintro ⟨hd, rfl⟩
    exact digit?_digitByte (.inl rfl) hd

theorem digit?_of_isBlank {b : UInt8} (h : isBlank b = true) : digit? 10 b = none := by
  cases hdigit : digit? 10 b with
  | none => rfl
  | some d =>
    obtain ⟨hd, rfl⟩ := digit?_ten_eq_some_iff.1 hdigit
    rw [(digitByte_not_blank hd).1] at h
    cases h

theorem digit?_underscore : digit? 10 95 = none := by decide

theorem digitsFrom_blanks {before : List Nat} (hne : before ≠ []) {back : Bytes}
    (hback : ∀ b ∈ back, isBlank b = true) : digitsFrom 10 before back = some before.reverse := by
  cases back with
  | nil => simp [digitsFrom, hne]
  | cons b back =>
    have hblank : isBlank b = true := hback b List.mem_cons_self
    have hmark : b ≠ 95 := by
      rintro rfl
      exact absurd hblank (by decide)
    have hall : (b :: back).all isBlank = true := List.all_eq_true.2 hback
    rw [digitsFrom.eq_def]
    simp [digit?_of_isBlank hblank, hne, hmark, hall]

theorem digitsFrom_of_more {body back : Bytes} {ds : List Nat} (h : MoreDigits body ds)
    (hback : ∀ b ∈ back, isBlank b = true) {before : List Nat} (hne : before ≠ []) :
    digitsFrom 10 before (body ++ back) = some (before.reverse ++ ds) := by
  induction h generalizing before with
  | done => rw [List.nil_append, List.append_nil, digitsFrom_blanks hne hback]
  | @digit d t ds hd h ih =>
    rw [List.cons_append, digitsFrom.eq_def]
    simp only [digit?_digitByte (.inl rfl) hd]
    rw [ih (List.cons_ne_nil d before)]
    simp
  | @underscore d t ds hd h ih =>
    rw [List.cons_append, List.cons_append, digitsFrom.eq_def]
    simp only [digit?_underscore, digit?_digitByte (.inl rfl) hd, List.isEmpty_iff, hne, if_false, BEq.rfl, if_true]
    rw [ih (List.cons_ne_nil d before)]
    simp

theorem exists_more_of_digitsFrom {before all : List Nat} {t : Bytes} (hne : before ≠ [])
    (h : digitsFrom 10 before t = some all) :
    ∃ body back ds, t = body ++ back ∧ MoreDigits body ds ∧ (∀ b ∈ back, isBlank b = true) ∧
      all = before.reverse ++ ds := by
  -- an underscore takes the digit behind it along, so the induction is on the length
  induction hn : t.length using Nat.strongRecOn generalizing before t with
  | ind n ih =>
    cases t with
    | nil =>
      rw [digitsFrom_blanks hne (by simp)] at h
      cases h
      exact ⟨[], [], [], rfl, .done, by simp, by simp⟩
    | cons b t =>
      rw [List.length_cons] at hn
      rw [digitsFrom.eq_def] at h
      dsimp only at h
      cases hb : digit? 10 b with
      | some d =>
        rw [hb] at h
        obtain ⟨hd, rfl⟩ := digit?_ten_eq_some_iff.1 hb
        obtain ⟨body, back, ds, rfl, hbody, hback, rfl⟩ := ih t.length (by omega) (List.cons_ne_nil d before) h rfl
        exact ⟨digitByte d :: body, back, d :: ds, rfl, .digit hd hbody, hback, by simp⟩
      | none =>
        simp only [hb, List.isEmpty_iff, hne, if_false, beq_iff_eq] at h
        by_cases hmark : b = 95
        · subst hmark
          simp only [if_true] at h
          cases t with
          | nil => cases h
          | cons c t =>
            rw [List.length_cons] at hn
            dsimp only at h
            cases hc : digit? 10 c with
            | none =>
              rw [hc] at h
              cases h
            | some d =>
              rw [hc] at h
              obtain ⟨hd, rfl⟩ := digit?_ten_eq_some_iff.1 hc
              obtain ⟨body, back, ds, rfl, hbody, hback, rfl⟩ :=
                ih t.length (by omega) (List.cons_ne_nil d before) h rfl
              exact ⟨95 :: digitByte d :: body, back, d :: ds, rfl, .underscore hd hbody, hback, by simp⟩
        · rw [if_neg hmark] at h
          split at h
          · rename_i hall
            cases h
            exact ⟨[], b :: t, [], rfl, .done, List.all_eq_true.1 hall, by simp⟩
          · cases h

/-- Digits and blanks behind them are read, and nothing else. -/
theorem digitsFrom_nil_eq_some_iff {t : Bytes} {all : List Nat} :
    digitsFrom 10 [] t = some all ↔
      ∃ d body back ds, t = digitByte d :: (body ++ back) ∧ d < 10 ∧ MoreDigits body ds ∧
        (∀ b ∈ back, isBlank b = true) ∧ all = d :: ds := by
  constructor
  · intro h
    cases t with
    | nil => cases h
    | cons b t =>
      rw [digitsFrom.eq_def] at h
      dsimp only at h
      cases hb : digit? 10 b with
      | none => simp [hb] at h
      | some d =>
        rw [hb] at h
        obtain ⟨hd, rfl⟩ := digit?_ten_eq_some_iff.1 hb
        obtain ⟨body, back, ds, rfl, hbody, hback, rfl⟩ := exists_more_of_digitsFrom (List.cons_ne_nil d []) h
        exact ⟨d, body, back, ds, rfl, hd, hbody, hback, rfl⟩
  · rintro ⟨d, body, back, ds, rfl, hd, hbody, hback, rfl⟩
    rw [digitsFrom.eq_def]
    simp only [digit?_digitByte (.inl rfl) hd]
    exact digitsFrom_of_more hbody hback (List.cons_ne_nil d [])

/-! ## Numbers -/

/-- The sign at the start of a text, and what follows it. -/
def signed (t : Bytes) : Bool × Bytes :=
  match t with
  | 45 :: rest => (true, rest)
  | 43 :: rest => (false, rest)
  | _ => (false, t)

theorem signed_append {sign : Bytes} {negative : Bool} (h : Sign sign negative) {d : Nat} (hd : d < 10) (t : Bytes) :
    signed (sign ++ digitByte d :: t) = (negative, digitByte d :: t) := by
  cases h with
  | absent =>
    obtain ⟨-, hminus, hplus⟩ := digitByte_not_blank hd
    unfold signed
    split
    · rename_i heq
      exact absurd (List.cons.inj heq).1 hminus
    · rename_i heq
      exact absurd (List.cons.inj heq).1 hplus
    · rfl
  | plus => rfl
  | minus => rfl

theorem exists_sign (t : Bytes) : ∃ sign, Sign sign (signed t).1 ∧ t = sign ++ (signed t).2 := by
  unfold signed
  split
  · exact ⟨[45], .minus, rfl⟩
  · exact ⟨[43], .plus, rfl⟩
  · exact ⟨[], .absent, rfl⟩

theorem decimal?_eq_some_iff_digits {t : Bytes} {n : Int} :
    decimal? t = some n ↔
      ∃ ds, digitsFrom 10 [] (signed (t.dropWhile isBlank)).2 = some ds ∧ ds.length ≤ maxDigits ∧
        n = if (signed (t.dropWhile isBlank)).1 then -(value 10 ds : Int) else (value 10 ds : Int) := by
  have heq : decimal? t = (digitsFrom 10 [] (signed (t.dropWhile isBlank)).2).bind fun ds =>
      if ds.length ≤ maxDigits then
        some (if (signed (t.dropWhile isBlank)).1 then -(value 10 ds : Int) else (value 10 ds : Int))
      else none := by
    rw [decimal?]
    split
    rename_i negative rest hsign
    have hsigned : signed (t.dropWhile isBlank) = (negative, rest) := by
      split at hsign
      · rename_i hminus
        rw [hminus, ← hsign]
        rfl
      · rename_i hplus
        rw [hplus, ← hsign]
        rfl
      · rw [← hsign]
        simp [signed]
    rw [hsigned]
    cases digitsFrom 10 [] rest with
    | none => rfl
    | some ds => rfl
  rw [heq, Option.bind_eq_some_iff]
  refine exists_congr fun ds => and_congr_right fun _ => ?_
  by_cases hlength : ds.length ≤ maxDigits
  · simp only [hlength, if_true, Option.some.injEq, true_and, eq_comm]
  · simp [hlength]

theorem dropWhile_front {front t : Bytes} (hfront : ∀ b ∈ front, isBlank b = true) {sign : Bytes} {negative : Bool}
    (hsign : Sign sign negative) {d : Nat} (hd : d < 10) :
    (front ++ (sign ++ digitByte d :: t)).dropWhile isBlank = sign ++ digitByte d :: t := by
  rw [List.dropWhile_append_of_pos hfront]
  cases hsign with
  | absent => exact List.dropWhile_cons_of_neg (by simp [digitByte_not_blank hd])
  | plus => rfl
  | minus => rfl

/-- **The numbers that are read.** -/
theorem decimal?_eq_some_iff {t : Bytes} {n : Int} : decimal? t = some n ↔ Written t n := by
  rw [decimal?_eq_some_iff_digits]
  constructor
  · rintro ⟨ds, hdigits, hlength, rfl⟩
    obtain ⟨sign, hsign, heq⟩ := exists_sign (t.dropWhile isBlank)
    obtain ⟨d, body, back, ds, hrest, hd, hbody, hback, rfl⟩ := digitsFrom_nil_eq_some_iff.1 hdigits
    have ht : t = t.takeWhile isBlank ++ (sign ++ digitByte d :: (body ++ back)) := by
      rw [← hrest, ← heq, List.takeWhile_append_dropWhile]
    have hfront : ∀ b ∈ t.takeWhile isBlank, isBlank b = true := List.all_eq_true.1 List.all_takeWhile
    have hwritten := Written.number hfront hsign hd hbody hlength hback
    rwa [← ht] at hwritten
  · intro h
    cases h with
    | @number front sign body back negative d ds hfront hsign hd hbody hlength hback =>
      refine ⟨d :: ds, ?_, hlength, ?_⟩
      · rw [dropWhile_front hfront hsign hd, signed_append hsign hd]
        exact digitsFrom_nil_eq_some_iff.2 ⟨d, body, back, ds, rfl, hd, hbody, hback, rfl⟩
      · rw [dropWhile_front hfront hsign hd, signed_append hsign hd]

/-! ## The bytes of numbers -/

theorem MoreDigits.range {body : Bytes} {ds : List Nat} (h : MoreDigits body ds) :
    ∀ b ∈ body, b = 95 ∨ 48 ≤ b ∧ b ≤ 57 := by
  induction h with
  | done => simp
  | digit hd h ih => exact List.forall_mem_cons.2 ⟨.inr (digitByte_range_ten hd), ih⟩
  | underscore hd h ih =>
    exact List.forall_mem_cons.2 ⟨.inl rfl, List.forall_mem_cons.2 ⟨.inr (digitByte_range_ten hd), ih⟩⟩

/-- The sign that joins two numbers stands in none. -/
theorem Written.at_notMem {t : Bytes} {n : Int} (h : Written t n) : 64 ∉ t := by
  have hblank : ∀ {bs : Bytes}, (∀ b ∈ bs, isBlank b = true) → 64 ∉ bs :=
    fun hbs hmem => absurd (hbs 64 hmem) (by decide)
  cases h with
  | @number front sign body back negative d ds hfront hsign hd hbody hlength hback =>
    have hsign : 64 ∉ sign := by cases hsign <;> decide
    have hdigit : digitByte d ≠ 64 := fun he => absurd (digitByte_range_ten hd).2 (by rw [he]; decide)
    have hmore : 64 ∉ body := fun hmem => absurd (hbody.range 64 hmem) (by decide)
    simp only [List.mem_append, List.mem_cons, not_or]
    exact ⟨hblank hfront, hsign, hdigit.symm, hmore, hblank hback⟩

end AdventureKit.Numeral
