import AdventureKit.Proofs.Bytes
import AdventureKit.Proofs.Effects
import AdventureKit.Proofs.Fault
import AdventureKit.Script.File

/-!
# The layout of script files

The header of a script file gives the places of its texts and of its resources.  The file can be taken apart exactly
if these places are consistent with its length and with each other (`Layout`), and what it is taken apart into are
then the pieces between them (`Cut`): header, code, texts and resources follow each other without a gap and make up
the whole file.  `ofHeader_eq_ok_iff` says so for a header that was read, `opens_iff_layout` for a whole file.
-/

namespace AdventureKit

namespace Cursor

/-- What was read and what is left make up what was left before. -/
theorem rest_eq_read (n : Int) (c : Cursor) : c.rest = (c.read n).1 ++ (c.read n).2.rest := by
  have hsplit : ∀ k, c.rest = c.next k ++ (⟨c.data, c.pos + (c.next k).length⟩ : Cursor).rest := by
    intro k
    have hnext : c.next k = c.rest.take k := by rw [next_eq_take, rest_eq_drop]
    have hbehind : (⟨c.data, c.pos + (c.next k).length⟩ : Cursor).rest = c.rest.drop (c.next k).length := by
      rw [rest_eq_drop, rest_eq_drop, List.drop_drop]
    rw [hbehind, hnext, List.length_take]
    rcases Nat.le_total k c.rest.length with hk | hk
    · rw [Nat.min_eq_left hk, List.take_append_drop]
    · rw [Nat.min_eq_right hk, List.drop_length, List.take_of_length_le hk, List.append_nil]
  unfold read
  dsimp only
  split
  · exact hsplit c.left
  · exact hsplit n.toNat

theorem pos_read (n : Int) (c : Cursor) : (c.read n).2.pos = c.pos + (c.read n).1.length := rfl

/-- A read of as many bytes as are left takes them all. -/
theorem rest_read_of_le {n : Int} {c : Cursor} (h : (c.rest.length : Int) ≤ n) : (c.read n).2.rest = [] := by
  have hall : (c.read n).1 = c.rest := by
    show (if n < 0 then c.rest else c.next n.toNat) = c.rest
    rw [if_neg (by omega), next_eq_take, ← rest_eq_drop, List.take_of_length_le (by omega)]
  have hrest := rest_eq_read n c
  rw [hall] at hrest
  exact List.self_eq_append_right.1 hrest

theorem read_of_rest {c : Cursor} {front behind : Bytes} {n : Int} (h : c.rest = front ++ behind)
    (hn : n = front.length) : c.read n = (front, c.took front.length) := by
  rw [hn, read_eq, next_of_rest h rfl]

end Cursor

namespace ScriptFile

variable {file : Bytes}

/-! ## Headers -/

/-- The field of the header with the version. -/
def versionOf (file : Bytes) : Bytes :=
  file.slice 39 42

/-- What the fields of the header hold. -/
def Header.held (file : Bytes) : Header where
  texts := placeIn textsField file
  resources := placeIn resourcesField file
  functions := (List.range 14).map fun i => Bytes.word (file.drop (100 + 2 * i))
  imNumber := (file.getD 59 0).toNat
  exNumber := (file.getD 60 0).toNat

theorem placeIn_take {field size : Nat} (h : field + 4 ≤ size) (file : Bytes) :
    placeIn field (file.take size) = placeIn field file := by
  rw [placeIn, placeIn, Bytes.dword, Bytes.dword, List.drop_take, List.take_take, Nat.min_eq_left (by omega)]

theorem word_drop_take {place size : Nat} (h : place + 2 ≤ size) (file : Bytes) :
    Bytes.word ((file.take size).drop place) = Bytes.word (file.drop place) := by
  rw [Bytes.word, Bytes.word, List.drop_take, List.take_take, Nat.min_eq_left (by omega)]

theorem getD_take {i size : Nat} (h : i < size) (file : Bytes) : (file.take size).getD i 0 = file.getD i 0 := by
  rw [List.getD_eq_getElem?_getD, List.getD_eq_getElem?_getD, List.getElem?_take_of_lt h]

/-- The header is all in the first bytes. -/
theorem Header.held_take (file : Bytes) : Header.held (file.take headerSize) = Header.held file := by
  have hfunctions : (List.range 14).map (fun i => Bytes.word ((file.take headerSize).drop (100 + 2 * i))) =
      (List.range 14).map fun i => Bytes.word (file.drop (100 + 2 * i)) := by
    refine List.map_congr_left fun i hi => word_drop_take ?_ file
    have hlt := List.mem_range.1 hi
    rw [headerSize]
    omega
  unfold Header.held
  rw [hfunctions, placeIn_take (by decide), placeIn_take (by decide), getD_take (by decide), getD_take (by decide)]

theorem versionOf_take (hlong : headerSize ≤ file.length) : versionOf (file.take headerSize) = versionOf file := by
  have hlength : 42 ≤ (file.take headerSize).length := by
    rw [List.length_take_of_le hlong]
    decide
  have happend := @Bytes.slice_append 39 42 (file.take headerSize) hlength (file.drop headerSize)
  rw [List.take_append_drop] at happend
  exact happend.symm

/-- A header that is there is read if its version is a text. -/
theorem Header.ofBytes_eq (hlong : headerSize ≤ file.length) :
    Header.ofBytes file = (Utf8.decode (versionOf file)).map fun _ => Header.held file := by
  have hnumbers : Bytes.slice 59 62 (file.take headerSize) =
      [(file.take headerSize).getD 59 0, (file.take headerSize).getD 60 0, (file.take headerSize).getD 61 0] := by
    have hlength : (file.take headerSize).length = headerSize := List.length_take_of_le hlong
    have hget : ∀ i (hi : i < (file.take headerSize).length), (file.take headerSize)[i] = (file.take headerSize).getD i 0 := by
      intro i hi
      rw [List.getD_eq_getElem?_getD, List.getElem?_eq_getElem hi, Option.getD_some]
    rw [headerSize] at hlength hget ⊢
    rw [Bytes.slice, List.drop_eq_getElem_cons (by omega), List.drop_eq_getElem_cons (by omega),
      List.drop_eq_getElem_cons (by omega), hget 59 (by omega), hget 60 (by omega), hget 61 (by omega)]
    rfl
  rw [← versionOf_take hlong, ← Header.held_take]
  unfold Header.ofBytes
  dsimp only
  rw [hnumbers, ← versionOf]
  cases Utf8.decode (versionOf (file.take headerSize)) with
  | error e => rfl
  | ok version => rfl

/-! ## Parts -/

/-- The places of the texts and of the resources in a file of `size` bytes are consistent. -/
structure Layout (size texts resources : Nat) : Prop where
  texts_in : texts = 0 ∨ headerSize ≤ texts ∧ texts ≤ size
  resources_in : resources = 0 ∨ headerSize ≤ resources ∧ resources ≤ size
  order : texts = 0 ∨ resources = 0 ∨ texts ≤ resources

/-- A file is its header and its parts, one behind the other, and the header says where they start. -/
structure Cut (header : Header) (file : Bytes) (parts : ScriptFile) : Prop where
  file_eq : file = file.take headerSize ++ (parts.code ++ (parts.texts.getD [] ++ parts.resources.getD []))
  texts_none : parts.texts = none ↔ header.texts = 0
  resources_none : parts.resources = none ↔ header.resources = 0
  texts_start : header.texts ≠ 0 → header.texts = headerSize + parts.code.length
  resources_start : header.resources ≠ 0 →
    header.resources = headerSize + parts.code.length + (parts.texts.getD []).length
  functions : parts.functions = header.functions
  imNumber : parts.imNumber = header.imNumber
  exNumber : parts.exNumber = header.exNumber

section Parts

variable {header : Header} {parts : ScriptFile} {place : Nat} {size : Int} {c c' : Cursor}

theorem codeEnd_eq (size texts resources : Nat) :
    codeEnd size texts resources =
      min (if texts = 0 then size else min size texts) (if resources = 0 then size else resources) := by
  rcases Nat.eq_zero_or_pos texts with rfl | ht
  · rcases Nat.eq_zero_or_pos resources with rfl | hr
    · simp [codeEnd]
    · simp [codeEnd, hr, Nat.ne_of_gt hr]
  · rcases Nat.eq_zero_or_pos resources with rfl | hr
    · simp [codeEnd, ht, Nat.ne_of_gt ht]
    · simp [codeEnd, ht, Nat.ne_of_gt ht, hr, Nat.ne_of_gt hr, Nat.min_assoc]

/-- The sizes of the texts and of the resources: the later part ends the file. -/
def partSizes (header : Header) (size : Nat) : Int × Int :=
  let before : Int := (max header.texts header.resources : Nat) - codeEnd size header.texts header.resources
  let after : Int := size - (max header.texts header.resources : Nat)
  if header.texts > header.resources then (after, before) else (before, after)

/-- Reads the code. -/
def readCode (header : Header) (file : Bytes) : Bytes × Cursor :=
  (⟨file.toArray, headerSize⟩ : Cursor).read
    ((codeEnd file.length header.texts header.resources : Int) - headerSize)

theorem ofHeader_eq (header : Header) (file : Bytes) :
    ofHeader header file =
      part header.texts (partSizes header file.length).1 (readCode header file).2 >>= fun texts =>
      part header.resources (partSizes header file.length).2 texts.2 >>= fun resources =>
      if header.resources ≠ 0 ∧ resources.2.rest ≠ [] then .error (.disagreement .layout)
      else .ok ⟨(readCode header file).1, header.functions, texts.1, resources.1, header.imNumber, header.exNumber⟩ := by
  unfold ofHeader
  rfl

theorem part_eq_ok {found : Option Bytes} (h : part place size c = .ok (found, c')) :
    (place = 0 ∧ found = none ∧ c' = c) ∨
      (place ≠ 0 ∧ c.pos = place ∧ found = some (c.read size).1 ∧ c' = (c.read size).2) := by
  unfold part at h
  split at h
  · rename_i hzero
    cases h
    exact .inl ⟨hzero, rfl, rfl⟩
  split at h
  · rename_i hzero hpos
    cases h
    exact .inr ⟨hzero, hpos, rfl, rfl⟩
  · cases h

/-- A part takes the next bytes, if it is there. -/
theorem part_spec {found : Option Bytes} (h : part place size c = .ok (found, c')) :
    (found = none ↔ place = 0) ∧ (place ≠ 0 → place = c.pos) ∧ c.rest = found.getD [] ++ c'.rest ∧
      c'.pos = c.pos + (found.getD []).length := by
  rcases part_eq_ok h with ⟨rfl, rfl, rfl⟩ | ⟨hzero, hpos, rfl, rfl⟩
  · exact ⟨iff_of_true rfl rfl, fun hne => absurd rfl hne, rfl, rfl⟩
  · exact ⟨iff_of_false (by simp) hzero, fun _ => hpos.symm, c.rest_eq_read size, c.pos_read size⟩

theorem part_of_rest {found : Option Bytes} {behind : Bytes} (hnone : found = none ↔ place = 0)
    (hpos : place ≠ 0 → place = c.pos) (hrest : c.rest = found.getD [] ++ behind)
    (hsize : place ≠ 0 → size = (found.getD []).length) :
    part place size c = .ok (found, c.took (found.getD []).length) := by
  unfold part
  cases found with
  | none =>
    have hstay : c.took 0 = c := by
      rw [@Cursor.took_of_rest c [] c.rest 0 rfl rfl]
      rfl
    rw [if_pos (hnone.1 rfl), Option.getD_none, List.length_nil, hstay]
  | some bs =>
    have hzero : place ≠ 0 := fun h => by cases hnone.2 h
    rw [if_neg hzero, if_pos (hpos hzero).symm, Option.getD_some, Cursor.read_of_rest hrest (hsize hzero)]
    rfl

theorem rest_start (file : Bytes) : (⟨file.toArray, headerSize⟩ : Cursor).rest = file.drop headerSize :=
  Cursor.rest_eq_drop _

/-- What a file is taken apart into are its parts. -/
theorem cut_of_ofHeader (hlong : headerSize ≤ file.length) (h : ofHeader header file = .ok parts) :
    Cut header file parts := by
  rw [ofHeader_eq] at h
  obtain ⟨⟨texts, c₁⟩, htexts, h⟩ := bind_eq_ok.1 h
  obtain ⟨⟨resources, c₂⟩, hresources, h⟩ := bind_eq_ok.1 h
  dsimp only at hresources h
  split at h
  · cases h
  rename_i hend
  cases h
  have hcode := Cursor.rest_eq_read ((codeEnd file.length header.texts header.resources : Int) - headerSize)
    ⟨file.toArray, headerSize⟩
  rw [rest_start, ← readCode] at hcode
  have hpos : (readCode header file).2.pos = headerSize + (readCode header file).1.length := rfl
  have htextsPart := part_eq_ok htexts
  obtain ⟨htextsNone, htextsPos, htextsRest, hpos₁⟩ := part_spec htexts
  obtain ⟨hresourcesNone, hresourcesPos, hresourcesRest, -⟩ := part_spec hresources
  -- the last part that is there reaches up to the end
  have hlast : c₂.rest = [] := by
    by_cases hr : header.resources = 0
    · have hc₂ : c₂ = c₁ := by
        rcases part_eq_ok hresources with ⟨-, -, hc⟩ | ⟨hne, -⟩
        · exact hc
        · exact absurd hr hne
      rw [hc₂]
      rcases htextsPart with ⟨ht, -, rfl⟩ | ⟨ht, hplace, -, rfl⟩
      · refine Cursor.rest_read_of_le ?_
        rw [rest_start, List.length_drop, codeEnd_eq, if_pos ht, if_pos hr]
        omega
      · refine Cursor.rest_read_of_le ?_
        have hlength := congrArg List.length hcode
        rw [List.length_drop, List.length_append] at hlength
        rw [partSizes, hr, if_pos (Nat.pos_of_ne_zero ht), Nat.max_eq_left (Nat.zero_le _)]
        omega
    · exact Decidable.byContradiction fun hne => hend ⟨hr, hne⟩
  rw [hlast, List.append_nil] at hresourcesRest
  refine ⟨?_, htextsNone, hresourcesNone, fun hne => (htextsPos hne).trans hpos, fun hne => ?_, rfl, rfl, rfl⟩
  · dsimp only
    rw [← hresourcesRest, ← htextsRest, ← hcode, List.take_append_drop]
  · rw [hresourcesPos hne, hpos₁, hpos]

namespace Cut

theorem length_eq (h : Cut header file parts) (hlong : headerSize ≤ file.length) :
    file.length =
      headerSize + parts.code.length + (parts.texts.getD []).length + (parts.resources.getD []).length := by
  have hlength := congrArg List.length h.file_eq
  simp only [List.length_append, List.length_take_of_le hlong] at hlength
  omega

theorem length_texts (h : Cut header file parts) (hzero : header.texts = 0) : (parts.texts.getD []).length = 0 := by
  rw [h.texts_none.2 hzero]
  rfl

theorem length_resources (h : Cut header file parts) (hzero : header.resources = 0) :
    (parts.resources.getD []).length = 0 := by
  rw [h.resources_none.2 hzero]
  rfl

theorem layout (h : Cut header file parts) (hlong : headerSize ≤ file.length) :
    Layout file.length header.texts header.resources := by
  have hlength := h.length_eq hlong
  have htexts := h.texts_start
  have hresources := h.resources_start
  constructor
  · omega
  · omega
  · omega

theorem codeEnd_eq (h : Cut header file parts) (hlong : headerSize ≤ file.length) :
    codeEnd file.length header.texts header.resources = headerSize + parts.code.length := by
  have hlength := h.length_eq hlong
  have htexts := h.texts_start
  have hresources := h.resources_start
  have hnoTexts := h.length_texts
  have hnoResources := h.length_resources
  rw [ScriptFile.codeEnd_eq]
  split
  · split
    · omega
    · omega
  · split
    · omega
    · omega

theorem size_texts (h : Cut header file parts) (hlong : headerSize ≤ file.length) (hne : header.texts ≠ 0) :
    (partSizes header file.length).1 = (parts.texts.getD []).length := by
  have hlength := h.length_eq hlong
  have htexts := h.texts_start hne
  have hresources := h.resources_start
  have hnoResources := h.length_resources
  unfold partSizes
  rw [h.codeEnd_eq hlong]
  dsimp only
  split
  · dsimp only
    omega
  · dsimp only
    omega

theorem size_resources (h : Cut header file parts) (hlong : headerSize ≤ file.length) (hne : header.resources ≠ 0) :
    (partSizes header file.length).2 = (parts.resources.getD []).length := by
  have hlength := h.length_eq hlong
  have htexts := h.texts_start
  have hresources := h.resources_start hne
  unfold partSizes
  rw [h.codeEnd_eq hlong]
  dsimp only
  split
  · dsimp only
    omega
  · dsimp only
    omega

/-- A file is taken apart into its parts. -/
theorem ofHeader_eq (h : Cut header file parts) (hlong : headerSize ≤ file.length) :
    ofHeader header file = .ok parts := by
  have hstart : (⟨file.toArray, headerSize⟩ : Cursor).rest =
      parts.code ++ (parts.texts.getD [] ++ parts.resources.getD []) := by
    rw [rest_start]
    conv => lhs; rw [h.file_eq]
    exact List.drop_left' (List.length_take_of_le hlong)
  have hcode : readCode header file =
      (parts.code, (⟨file.toArray, headerSize⟩ : Cursor).took parts.code.length) := by
    refine Cursor.read_of_rest hstart ?_
    rw [h.codeEnd_eq hlong]
    omega
  have hrest₁ := Cursor.rest_took hstart rfl
  have hrest₂ := Cursor.rest_took hrest₁ rfl
  have hpos₁ : ((⟨file.toArray, headerSize⟩ : Cursor).took parts.code.length).pos =
      headerSize + parts.code.length := by
    rw [Cursor.took_of_rest hstart rfl]
  have hpos₂ : (((⟨file.toArray, headerSize⟩ : Cursor).took parts.code.length).took
      (parts.texts.getD []).length).pos = headerSize + parts.code.length + (parts.texts.getD []).length := by
    rw [Cursor.took_of_rest hrest₁ rfl, hpos₁]
  have htexts := part_of_rest h.texts_none (fun hne => (h.texts_start hne).trans hpos₁.symm) hrest₁
    (h.size_texts hlong)
  rw [← List.append_nil (parts.resources.getD [])] at hrest₂
  have hresources := part_of_rest h.resources_none (fun hne => (h.resources_start hne).trans hpos₂.symm) hrest₂
    (h.size_resources hlong)
  have hend := Cursor.rest_took hrest₂ rfl
  rw [ScriptFile.ofHeader_eq, hcode]
  refine bind_eq_ok.2 ⟨_, htexts, bind_eq_ok.2 ⟨_, hresources, ?_⟩⟩
  dsimp only
  rw [if_neg (fun hne => hne.2 hend), ← h.functions, ← h.imNumber, ← h.exNumber]

end Cut

theorem ofHeader_eq_ok_iff (hlong : headerSize ≤ file.length) :
    ofHeader header file = .ok parts ↔ Cut header file parts :=
  ⟨cut_of_ofHeader hlong, fun h => h.ofHeader_eq hlong⟩

theorem file_eq_slices {a b : Nat} (ha : headerSize ≤ a) (hab : a ≤ b) (file : Bytes) :
    file = file.take headerSize ++ (file.slice headerSize a ++ (file.slice a b ++ file.drop b)) := by
  have hslice : ∀ m n, m ≤ n → file.slice m n ++ file.drop n = file.drop m := by
    intro m n hmn
    have hdrop : file.drop n = (file.drop m).drop (n - m) := by rw [List.drop_drop, Nat.add_sub_cancel' hmn]
    rw [Bytes.slice, hdrop, List.take_append_drop]
  rw [hslice a b hab, hslice headerSize a ha, List.take_append_drop]

theorem length_slice {a b : Nat} (hb : b ≤ file.length) : (file.slice a b).length = b - a := by
  rw [Bytes.slice, List.length_take, List.length_drop]
  omega

/-- The parts of a file whose code ends at `a` and whose texts end at `b`. -/
def cutAt (header : Header) (file : Bytes) (a b : Nat) : ScriptFile where
  code := file.slice headerSize a
  functions := header.functions
  texts := if header.texts = 0 then none else some (file.slice a b)
  resources := if header.resources = 0 then none else some (file.drop b)
  imNumber := header.imNumber
  exNumber := header.exNumber

theorem cut_cutAt {a b : Nat} (ha : headerSize ≤ a) (hab : a ≤ b) (hb : b ≤ file.length)
    (htexts : if header.texts = 0 then a = b else header.texts = a)
    (hresources : if header.resources = 0 then b = file.length else header.resources = b) :
    Cut header file (cutAt header file a b) := by
  have hcode : (cutAt header file a b).code.length = a - headerSize := by
    rw [cutAt, length_slice (Nat.le_trans hab hb)]
  have hlength : (file.slice a b).length = b - a := length_slice hb
  have htextsPart : (cutAt header file a b).texts.getD [] = file.slice a b := by
    unfold cutAt
    dsimp only
    split at htexts
    · rw [if_pos ‹_›]
      exact (List.eq_nil_of_length_eq_zero (by omega)).symm
    · rw [if_neg ‹_›]
      rfl
  have hresourcesPart : (cutAt header file a b).resources.getD [] = file.drop b := by
    unfold cutAt
    dsimp only
    split at hresources
    · rw [if_pos ‹_›, hresources, List.drop_length]
      rfl
    · rw [if_neg ‹_›]
      rfl
  refine ⟨?_, by simp [cutAt], by simp [cutAt], fun hne => ?_, fun hne => ?_, rfl, rfl, rfl⟩
  · have hcodePart : (cutAt header file a b).code = file.slice headerSize a := by rw [cutAt]
    rw [htextsPart, hresourcesPart, hcodePart, ← file_eq_slices ha hab]
  · rw [if_neg hne] at htexts
    omega
  · rw [if_neg hne] at hresources
    rw [htextsPart]
    omega

/-- Consistent places cut a file into parts. -/
theorem Layout.exists_cut (hlong : headerSize ≤ file.length)
    (h : Layout file.length header.texts header.resources) : ∃ parts, Cut header file parts := by
  obtain ⟨htexts, hresources, horder⟩ := h
  by_cases ht : header.texts = 0
  · by_cases hr : header.resources = 0
    · refine ⟨_, cut_cutAt hlong (Nat.le_refl _) (Nat.le_refl _) ?_ ?_⟩
      · rw [if_pos ht]
      · rw [if_pos hr]
    · refine ⟨_, cut_cutAt (a := header.resources) (b := header.resources) ?_ (Nat.le_refl _) ?_ ?_ ?_⟩
      · omega
      · omega
      · rw [if_pos ht]
      · rw [if_neg hr]
  · by_cases hr : header.resources = 0
    · refine ⟨_, cut_cutAt (a := header.texts) (b := file.length) ?_ ?_ (Nat.le_refl _) ?_ ?_⟩
      · omega
      · omega
      · rw [if_neg ht]
      · rw [if_pos hr]
    · refine ⟨_, cut_cutAt (a := header.texts) (b := header.resources) ?_ ?_ ?_ ?_ ?_⟩
      · omega
      · omega
      · omega
      · rw [if_neg ht]
      · rw [if_neg hr]

/-! ## Files -/

theorem ofBytes_eq_ok_iff (hlong : headerSize ≤ file.length) :
    ofBytes file = .ok parts ↔
      (∃ version, Utf8.decode (versionOf file) = .ok version) ∧ Cut (Header.held file) file parts := by
  unfold ofBytes
  rw [Header.ofBytes_eq hlong]
  cases hversion : Utf8.decode (versionOf file) with
  | error e =>
    constructor
    · intro h
      cases h
    · rintro ⟨⟨version, h⟩, -⟩
      cases h
  | ok version =>
    show ofHeader (Header.held file) file = .ok parts ↔ _
    rw [ofHeader_eq_ok_iff hlong]
    exact ⟨fun h => ⟨⟨version, rfl⟩, h⟩, fun h => h.2⟩

theorem ofBytes_of_ofLooseFile (h : ofLooseFile file = .ok parts) : ofBytes file = .ok parts := by
  unfold ofLooseFile at h
  obtain ⟨header, hheader, h⟩ := bind_eq_ok.1 h
  refine bind_eq_ok.2 ⟨header, hheader, ?_⟩
  dsimp only at h
  split at h
  · cases h
  · exact h

/-- Of a file that lies loose no more is asked, if it has a whole header. -/
theorem ofLooseFile_eq_ok_iff (hlong : headerSize ≤ file.length) :
    ofLooseFile file = .ok parts ↔ ofBytes file = .ok parts := by
  refine ⟨ofBytes_of_ofLooseFile, fun h => ?_⟩
  obtain ⟨⟨version, hversion⟩, hcut⟩ := (ofBytes_eq_ok_iff hlong).1 h
  have hheader : Header.ofBytes file = .ok (Header.held file) := by
    rw [Header.ofBytes_eq hlong, hversion]
    rfl
  have hend := hcut.codeEnd_eq hlong
  unfold ofLooseFile
  refine bind_eq_ok.2 ⟨_, hheader, ?_⟩
  dsimp only
  rw [if_neg (by omega)]
  exact hcut.ofHeader_eq hlong

/-- The exported functions of a file are words. -/
theorem functions_lt (h : ofBytes file = .ok parts) : ∀ place ∈ parts.functions, place < Bytes.limit 2 := by
  obtain ⟨header, hheader, h⟩ := bind_eq_ok.1 h
  rw [ofHeader_eq] at h
  obtain ⟨texts, -, h⟩ := bind_eq_ok.1 h
  obtain ⟨resources, -, h⟩ := bind_eq_ok.1 h
  split at h
  · cases h
  cases h
  unfold Header.ofBytes at hheader
  obtain ⟨version, -, hheader⟩ := bind_eq_ok.1 hheader
  split at hheader
  · cases hheader
    intro place hplace
    obtain ⟨i, -, rfl⟩ := List.mem_map.1 hplace
    exact Bytes.word_lt _
  · cases hheader

/-- A file whose header is cut off has nothing in its parts. -/
theorem headerSize_le_of_ofBytes (h : ofBytes file = .ok parts)
    (hne : parts.texts.getD [] ≠ [] ∨ parts.resources.getD [] ≠ []) : headerSize ≤ file.length := by
  refine Nat.le_of_not_lt fun hshort => ?_
  obtain ⟨header, -, h⟩ := bind_eq_ok.1 h
  rw [ofHeader_eq] at h
  obtain ⟨⟨texts, c₁⟩, htexts, h⟩ := bind_eq_ok.1 h
  obtain ⟨⟨resources, c₂⟩, hresources, h⟩ := bind_eq_ok.1 h
  have hcode := Cursor.rest_eq_read ((codeEnd file.length header.texts header.resources : Int) - headerSize)
    ⟨file.toArray, headerSize⟩
  rw [rest_start, ← readCode, List.drop_eq_nil_of_le (Nat.le_of_lt hshort)] at hcode
  -- nothing is left to read from the start on
  obtain ⟨-, -, htextsRest, -⟩ := part_spec htexts
  rw [(List.append_eq_nil_iff.1 hcode.symm).2] at htextsRest
  obtain ⟨htextsNil, hc₁⟩ := List.append_eq_nil_iff.1 htextsRest.symm
  obtain ⟨-, -, hresourcesRest, -⟩ := part_spec hresources
  rw [hc₁] at hresourcesRest
  obtain ⟨hresourcesNil, -⟩ := List.append_eq_nil_iff.1 hresourcesRest.symm
  dsimp only at h
  split at h
  · cases h
  · cases h
    exact hne.elim (fun hne => hne htextsNil) (fun hne => hne hresourcesNil)

/-! ## Another file with the same header -/

theorem Header.ofBytes_congr {file' : Bytes} (h : file'.take headerSize = file.take headerSize) :
    Header.ofBytes file' = Header.ofBytes file := by
  unfold Header.ofBytes
  rw [h]

/-- The resources of a script file can be exchanged for others. -/
theorem opens_with_resources {start old : Bytes} (h : ofBytes (start ++ old) = .ok parts)
    (hold : parts.resources = some old) (hne : old ≠ []) (new : Bytes) :
    ofBytes (start ++ new) = .ok { parts with resources := some new } ∧
      ofLooseFile (start ++ new) = .ok { parts with resources := some new } := by
  have hlong : headerSize ≤ (start ++ old).length := headerSize_le_of_ofBytes h (.inr (by rwa [hold]))
  obtain ⟨header, hheader, h⟩ := bind_eq_ok.1 h
  have hcut := cut_of_ofHeader hlong h
  have hstart : start = (start ++ old).take headerSize ++ (parts.code ++ parts.texts.getD []) := by
    have hfile := hcut.file_eq
    rw [hold, Option.getD_some, ← List.append_assoc, ← List.append_assoc] at hfile
    rw [← List.append_assoc]
    exact List.append_cancel_right hfile
  have hstartLong : headerSize ≤ start.length := by
    rw [hstart, List.length_append, List.length_take_of_le hlong]
    exact Nat.le_add_right _ _
  have htake : (start ++ new).take headerSize = (start ++ old).take headerSize := by
    rw [List.take_append_of_le_length hstartLong, List.take_append_of_le_length hstartLong]
  have hthere : header.resources ≠ 0 := by
    intro hzero
    rw [hcut.resources_none.2 hzero] at hold
    cases hold
  have hcut' : Cut header (start ++ new) { parts with resources := some new } := by
    refine ⟨?_, hcut.texts_none, iff_of_false (by simp) hthere, hcut.texts_start, hcut.resources_start, hcut.functions,
      hcut.imNumber, hcut.exNumber⟩
    rw [htake, Option.getD_some, ← List.append_assoc parts.code, ← List.append_assoc, ← hstart]
  have hlong' : headerSize ≤ (start ++ new).length := by
    rw [List.length_append]
    exact Nat.le_trans hstartLong (Nat.le_add_right _ _)
  have hopens : ofBytes (start ++ new) = .ok { parts with resources := some new } :=
    bind_eq_ok.2 ⟨header, (Header.ofBytes_congr htake).trans hheader, hcut'.ofHeader_eq hlong'⟩
  exact ⟨hopens, (ofLooseFile_eq_ok_iff hlong').2 hopens⟩

end Parts

/-- **What is a script file.**  A file with a whole header, whose version is a text, is taken apart exactly if the places
in the header are consistent; then its parts are the bytes between these places.  It does not matter whether the file
lies loose or in an archive. -/
theorem opens_iff_layout {read : Bytes → Except Fault ScriptFile} (hread : read = ofBytes ∨ read = ofLooseFile)
    (hlong : headerSize ≤ file.length) (hversion : ∃ version, Utf8.decode (versionOf file) = .ok version) :
    ((∃ parts, read file = .ok parts) ↔
        Layout file.length (placeIn textsField file) (placeIn resourcesField file)) ∧
      ∀ parts, read file = .ok parts → Cut (Header.held file) file parts := by
  have hiff : ∀ parts, read file = .ok parts ↔ Cut (Header.held file) file parts := by
    intro parts
    have hstored : ofBytes file = .ok parts ↔ Cut (Header.held file) file parts := by
      rw [ofBytes_eq_ok_iff hlong]
      exact ⟨fun h => h.2, fun h => ⟨hversion, h⟩⟩
    rcases hread with rfl | rfl
    · exact hstored
    · rw [ofLooseFile_eq_ok_iff hlong, hstored]
  refine ⟨⟨?_, ?_⟩, fun parts h => (hiff parts).1 h⟩
  · rintro ⟨parts, h⟩
    exact ((hiff parts).1 h).layout hlong
  · intro hlayout
    obtain ⟨parts, hcut⟩ := @Layout.exists_cut file (Header.held file) hlong hlayout
    exact ⟨parts, (hiff parts).2 hcut⟩

/-- A header with the given places. -/
def headerWith (texts resources : Nat) : Bytes :=
  List.replicate 39 0 ++ Bytes.ofAscii "2.0" ++ List.replicate 6 0 ++ Bytes.ofNatLE 4 texts ++
    Bytes.ofNatLE 4 resources ++ List.replicate 72 0

/-- A script whose resources start where its texts do. -/
def crowdedScript : Bytes :=
  headerWith 130 130 ++ [1, 2, 3]

theorem opens_iff_layout_crowded :
    Layout crowdedScript.length 130 130 ∧ ∃ parts, ofLooseFile crowdedScript = .ok parts ∧
      Cut (Header.held crowdedScript) crowdedScript parts := by
  have hversion : Utf8.decode (versionOf crowdedScript) = .ok [50, 46, 48] := eq_ok_of_toOption (by decide +kernel)
  have hlayout : Layout crowdedScript.length 130 130 := by
    constructor <;> decide +kernel
  have hplaces : placeIn textsField crowdedScript = 130 ∧ placeIn resourcesField crowdedScript = 130 := by
    decide +kernel
  obtain ⟨hiff, hcut⟩ := @opens_iff_layout crowdedScript ofLooseFile (.inr rfl) (by decide +kernel) ⟨_, hversion⟩
  rw [hplaces.1, hplaces.2] at hiff
  obtain ⟨parts, hparts⟩ := hiff.2 hlayout
  exact ⟨hlayout, parts, hparts, hcut parts hparts⟩

end ScriptFile

end AdventureKit
