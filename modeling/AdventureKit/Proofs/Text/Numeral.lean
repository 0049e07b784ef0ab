import AdventureKit.Text.Numeral
import AdventureKit.Text.Quoted
import Mathlib.Algebra.Ring.Nat

/-!
# Written numbers read back

Decimal numbers of up to `maxDigits` digits, and bytes in two hexadecimal digits.
-/

namespace AdventureKit.Numeral

/-- The byte of a digit. -/
def digitByte (d : Nat) : UInt8 :=
  UInt8.ofNat (Nat.digitChar d).toNat

theorem digit?_digitByte {base d : Nat} (hbase : base = 10 ∨ base = 16) (hd : d < base) :
    digit? base (digitByte d) = some d := by
  rcases hbase with rfl | rfl
  · revert d
    decide
  · revert d
    decide

theorem digitByte_range {d : Nat} (h : d < 16) :
    48 ≤ digitByte d ∧ digitByte d ≤ 57 ∨ 97 ≤ digitByte d ∧ digitByte d ≤ 102 := by
  revert d
  decide

theorem digitByte_range_ten {d : Nat} (h : d < 10) : 48 ≤ digitByte d ∧ digitByte d ≤ 57 := by
  revert d
  decide

/-! ## Decimal numbers -/

/-- The digits of a number, the first one first. -/
def digitsOf (n : Nat) : List Nat :=
  if n < 10 then [n] else digitsOf (n / 10) ++ [n % 10]

theorem mem_digitsOf {n d : Nat} (h : d ∈ digitsOf n) : d < 10 := by
  fun_induction digitsOf n with
  | case1 n hn =>
    rw [List.mem_singleton] at h
    omega
  | case2 n hn ih =>
    rcases List.mem_append.1 h with h | h
    · exact ih h
    · rw [List.mem_singleton] at h
      omega

theorem digitsOf_ne_nil (n : Nat) : digitsOf n ≠ [] := by
  rw [digitsOf]
  split <;> simp

theorem value_digitsOf (n : Nat) : value 10 (digitsOf n) = n := by
  fun_induction digitsOf n with
  | case1 n hn => simp [value]
  | case2 n hn ih =>
    rw [value, List.foldl_append, List.foldl_cons, List.foldl_nil]
    rw [value] at ih
    rw [ih]
    omega

theorem length_digitsOf_le {n k : Nat} (hk : 0 < k) (h : n < 10 ^ k) : (digitsOf n).length ≤ k := by
  induction k generalizing n with
  | zero => omega
  | succ k ih =>
    rw [digitsOf]
    split
    · simp
    · rename_i hn
      rw [Nat.pow_succ] at h
      have hpos : 0 < k := by
        rcases k with _ | k
        · simp at h
          omega
        · omega
      have hle := ih hpos (n := n / 10) (by omega)
      simp only [List.length_append, List.length_singleton]
      omega

theorem ofAscii_toString (n : Nat) : Bytes.ofAscii (toString n) = (digitsOf n).map digitByte := by
  rw [Bytes.ofAscii, Nat.toString_eq_repr, Nat.toList_repr]
  fun_induction digitsOf n with
  | case1 n hn => simp [Nat.toDigits_of_lt_base hn, digitByte]
  | case2 n hn ih =>
    rw [Nat.toDigits_eq_if (by decide), if_neg hn, List.map_append, ih]
    simp [digitByte]

theorem digitsFrom_digitBytes {base : Nat} (hbase : base = 10 ∨ base = 16) {ds : List Nat} (hds : ∀ d ∈ ds, d < base)
    {before : List Nat} (hne : before ≠ [] ∨ ds ≠ []) :
    digitsFrom base before (ds.map digitByte) = some (before.reverse ++ ds) := by
  induction ds generalizing before with
  | nil =>
    have hbefore : before ≠ [] := by simpa using hne
    simp [digitsFrom, hbefore]
  | cons d ds ih =>
    obtain ⟨hd, hds⟩ := List.forall_mem_cons.1 hds
    rw [List.map_cons, digitsFrom.eq_def]
    simp only [digit?_digitByte hbase hd]
    rw [ih hds (Or.inl (by simp))]
    simp

/-- A digit is neither a blank nor a sign. -/
theorem digitByte_not_blank {d : Nat} (h : d < 10) :
    isBlank (digitByte d) = false ∧ digitByte d ≠ 45 ∧ digitByte d ≠ 43 := by
  revert d
  decide

theorem decimal?_toString {n : Nat} (h : n < 10 ^ maxDigits) :
    decimal? (Bytes.ofAscii (toString n)) = some (n : Int) := by
  have hlength : (digitsOf n).length ≤ maxDigits := length_digitsOf_le (by decide) h
  have hdigits : digitsFrom 10 [] ((digitsOf n).map digitByte) = some (digitsOf n) :=
    digitsFrom_digitBytes (.inl rfl) (fun d => mem_digitsOf) (Or.inr (digitsOf_ne_nil n))
  have hvalue := value_digitsOf n
  rw [ofAscii_toString]
  cases hds : digitsOf n with
  | nil => exact absurd hds (digitsOf_ne_nil n)
  | cons d ds =>
    obtain ⟨hblank, hminus, hplus⟩ := digitByte_not_blank (mem_digitsOf (hds ▸ List.mem_cons_self : d ∈ digitsOf n))
    rw [hds] at hdigits hlength hvalue
    rw [decimal?, List.map_cons, List.dropWhile_cons_of_neg (by simp [hblank])]
    split
    rename_i negative bs hsign
    split at hsign
    · rename_i heq
      exact absurd (List.cons.inj heq).1 hminus
    · rename_i heq
      exact absurd (List.cons.inj heq).1 hplus
    · cases hsign
      rw [List.map_cons] at hdigits
      simpa [hdigits, hvalue] using hlength

/-! ## Hexadecimal bytes -/

theorem toList_hex {n : Nat} (h : n < 256) :
    (Quoted.hex 2 n).toList = [Nat.digitChar (n / 16), Nat.digitChar (n % 16)] := by
  rw [Quoted.hex, String.toList_ofList, Nat.toDigits_eq_if (by decide)]
  by_cases hn : n < 16
  · simp [hn, Nat.div_eq_of_lt hn, Nat.mod_eq_of_lt hn]
  · have hhigh : n / 16 < 16 := by omega
    simp [hn, Nat.toDigits_of_lt_base hhigh]

theorem hexadecimal?_digitBytes {a b : Nat} (ha : a < 16) (hb : b < 16) :
    hexadecimal? [digitByte a, digitByte b] = some (a * 16 + b) := by
  have hmark : digitByte a ≠ 95 := by
    revert a
    decide
  have hdigits : digitsFrom 16 [] ([a, b].map digitByte) = some [a, b] :=
    digitsFrom_digitBytes (.inr rfl) (by simp [ha, hb]) (by simp)
  simp only [List.map_cons, List.map_nil] at hdigits
  rw [hexadecimal?, hdigits]
  · simp [value]
  · intro rest heq
    exact hmark (List.cons.inj heq).1

end AdventureKit.Numeral
