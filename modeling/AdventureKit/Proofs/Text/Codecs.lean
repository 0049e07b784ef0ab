import AdventureKit.Proofs.Text.Characters
import AdventureKit.Text.Encoding

/-!
# Encodings that undo their reading

A code page writes a text that was read in it as it was, if the code points of its table are all different.  The pages of
texts are like that, and so is UTF-8, with or without escapes.
-/

namespace AdventureKit

/-- Steps that are undone one by one are undone together. -/
theorem mapM_of_mapM {α β : Type} {f : α → Except Fault β} {g : β → Except Fault α} {xs : List α} {ys : List β}
    (hback : ∀ x y, f x = .ok y → g y = .ok x) (h : xs.mapM f = .ok ys) : ys.mapM g = .ok xs := by
  induction xs generalizing ys with
  | nil =>
    cases h
    rfl
  | cons x xs ih =>
    obtain ⟨y, rest, hy, hrest, rfl⟩ := mapM_cons_eq_ok.1 h
    exact mapM_cons_eq_ok.2 ⟨x, xs, hback x y hy, ih hrest, rfl⟩

namespace CodePage

/-- Whether the code points of a table are beyond ASCII and all different; zero stands for none. -/
def isDistinct : List Nat → Bool
  | [] => true
  | c :: codes => (c == 0 || decide (128 ≤ c) && !codes.contains c) && isDistinct codes

theorem idxOf?_of_isDistinct {codes : List Nat} (h : isDistinct codes = true) {i c : Nat}
    (hc : codes[i]? = some c) (hne : c ≠ 0) : 128 ≤ c ∧ codes.idxOf? c = some i := by
  induction codes generalizing i with
  | nil => cases hc
  | cons code codes ih =>
    simp only [isDistinct, Bool.and_eq_true, Bool.or_eq_true, beq_iff_eq, decide_eq_true_eq, Bool.not_eq_true',
      List.contains_eq_mem, decide_eq_false_iff_not] at h
    obtain ⟨hcode, hcodes⟩ := h
    cases i with
    | zero =>
      rw [List.getElem?_cons_zero, Option.some.injEq] at hc
      subst hc
      exact ⟨(hcode.resolve_left hne).1, by rw [List.idxOf?_cons, BEq.rfl]; rfl⟩
    | succ i =>
      rw [List.getElem?_cons_succ] at hc
      have hother : (code == c) = false := by
        refine beq_eq_false_iff_ne.2 ?_
        rintro rfl
        exact (hcode.resolve_left hne).2 (List.mem_of_getElem? hc)
      obtain ⟨hhigh, hindex⟩ := ih hcodes hc
      refine ⟨hhigh, ?_⟩
      rw [List.idxOf?_cons, hother, hindex]
      rfl

theorem encodeCode_of_decodeByte {page : CodePage} (h : isDistinct page.upper = true) {b : UInt8} {c : Nat}
    (hdecode : page.decodeByte b = .ok c) : page.encodeCode c = .ok b := by
  unfold decodeByte at hdecode
  split at hdecode
  · rename_i hlow
    cases hdecode
    have hb : b.toNat < 128 := UInt8.lt_iff_toNat_lt.1 hlow
    rw [encodeCode, if_pos hb, UInt8.ofNat_toNat]
  · rename_i hhigh
    have hb : 128 ≤ b.toNat := Nat.le_of_not_lt fun hlow => hhigh (UInt8.lt_iff_toNat_lt.2 hlow)
    split at hdecode
    · rename_i code hcode
      cases hdecode
      obtain ⟨hbeyond, hindex⟩ := idxOf?_of_isDistinct h hcode (Nat.succ_ne_zero code)
      rw [encodeCode, if_neg (Nat.not_lt.2 hbeyond), hindex]
      dsimp only
      rw [Nat.add_sub_cancel' hb, UInt8.ofNat_toNat]
    · cases hdecode

/-- The pages of texts. -/
def pages : List CodePage :=
  [dosWestern, windowsHebrew]

theorem isDistinct_of_mem_pages : ∀ page ∈ pages, isDistinct page.upper = true := by decide +kernel

end CodePage

namespace Encoding

/-- The encodings that are code pages or UTF-8. -/
def codecs : List Encoding :=
  CodePage.pages.map .page ++ [.utf8, .escapedUtf8]

/-- **A codec undoes its reading.** -/
theorem encode_of_decode {encoding : Encoding} (h : encoding ∈ codecs) {bs : Bytes} {t : Text}
    (hdecode : encoding.decode bs = .ok t) : encoding.encode t = .ok bs := by
  rcases List.mem_append.1 h with h | h
  · obtain ⟨page, hpage, rfl⟩ := List.mem_map.1 h
    have hdistinct := CodePage.isDistinct_of_mem_pages page hpage
    exact mapM_of_mapM (fun b c hc => CodePage.encodeCode_of_decodeByte hdistinct hc) hdecode
  · simp only [List.mem_cons, List.not_mem_nil, or_false] at h
    rcases h with rfl | rfl
    · exact Utf8.encode_of_decode hdecode
    · exact Utf8.encodeEscaped_of_decodeEscaped hdecode

end Encoding

end AdventureKit
