import AdventureKit.Archive.Rebuild
import AdventureKit.Proofs.Fault
import Mathlib.Data.List.Induction

/-!
# Names of packed chunks

An entry of packed chunks is listed under another ending than it is written.  A name comes back under
itself if it is a stem with the ending of scripts (`ScriptName`): the ending of names in small letters is
never replaced, and a name in a folder or without a stem is written in another form.
-/

namespace AdventureKit.Archive

/-- A stem and the ending under which packed chunks are listed. -/
def ScriptName (name : String) : Prop :=
  ∃ stem : List Char, name.toList = stem ++ scriptEnding ∧ stem ≠ [] ∧ '/' ∉ stem

/-- What is known of a name under which packed chunks are listed. -/
structure ChunkListed (name : String) : Prop where
  length_le : name.length ≤ nameField
  no_zero : ∀ c ∈ name.toList, c.toNat ≠ 0
  not_infix : ¬ chunkedEnding <:+: name.toList
  ending : ∃ (front : List Char) (x y z : Char), name.toList = front ++ ['.', x, y, z] ∧
    '.' ∉ [x, y, z] ∧ '/' ∉ [x, y, z]

theorem toNat_ofNat_of_lt {n : Nat} (h : n < 0xD800) : (Char.ofNat n).toNat = n := by
  have hv : n.isValidChar := Or.inl h
  rw [Char.ofNat, dif_pos hv]
  rfl

theorem chunkedEnding_eq : chunkedEnding = ['.', '0', 'O', 'T'] := by decide

theorem scriptEnding_eq : scriptEnding = ['.', 'T', 'O', 'T'] := by decide

theorem chars_chunkedEnding : ∀ c ∈ chunkedEnding, c.toNat < 128 ∧ c.toNat ≠ 0 := by
  simp [chunkedEnding_eq]

theorem chars_scriptEnding : ∀ c ∈ scriptEnding, c.toNat < 128 ∧ c.toNat ≠ 0 := by
  simp [scriptEnding_eq]

/-! ### Replacing the ending -/

/-- Both endings have the same length. -/
theorem length_replaceFrom {skip : Nat} {xs : List Char} (hskip : skip ≤ xs.length) :
    (Sequence.replaceFrom chunkedEnding scriptEnding skip xs).length = xs.length - skip := by
  have hold : chunkedEnding.length = 4 := by decide
  have hnew : scriptEnding.length = 4 := by decide
  induction xs generalizing skip with
  | nil => simp [Sequence.replaceFrom]
  | cons x xs ih =>
    cases skip with
    | succ skip =>
      rw [Sequence.replaceFrom, ih (by simpa using hskip), List.length_cons]
      omega
    | zero =>
      rw [Sequence.replaceFrom]
      by_cases hp : chunkedEnding.isPrefixOf (x :: xs) = true
      · have hle : chunkedEnding.length ≤ xs.length + 1 := (List.isPrefixOf_iff_prefix.1 hp).length_le
        rw [if_pos hp, List.length_append, ih (by omega), List.length_cons]
        omega
      · rw [if_neg hp, List.length_cons, ih (Nat.zero_le _), List.length_cons]
        rfl

/-- What is not there is not replaced. -/
theorem replaceFrom_of_not_infix {old new xs : List Char} (h : ¬ old <:+: xs) :
    Sequence.replaceFrom old new 0 xs = xs := by
  induction xs with
  | nil => rfl
  | cons x xs ih =>
    have hp : ¬ old.isPrefixOf (x :: xs) = true := fun hp =>
      h (List.isPrefixOf_iff_prefix.1 hp).isInfix
    rw [Sequence.replaceFrom, if_neg hp, ih fun hi => h (hi.trans (List.suffix_cons x xs).isInfix)]

theorem mem_of_mem_replaceFrom {old new : List Char} {skip : Nat} {xs : List Char} {c : Char}
    (h : c ∈ Sequence.replaceFrom old new skip xs) : c ∈ new ∨ c ∈ xs := by
  induction xs generalizing skip with
  | nil => simp [Sequence.replaceFrom] at h
  | cons x xs ih =>
    have hlater : ∀ {skip}, c ∈ Sequence.replaceFrom old new skip xs → c ∈ new ∨ c ∈ x :: xs :=
      fun hc => (ih hc).imp_right (List.mem_cons_of_mem x)
    cases skip with
    | succ skip => exact hlater h
    | zero =>
      rw [Sequence.replaceFrom] at h
      split at h
      · exact (List.mem_append.1 h).elim .inl hlater
      · rcases List.mem_cons.1 h with rfl | h
        · exact .inr List.mem_cons_self
        · exact hlater h

/-- No ending reaches over a dot. -/
theorem isPrefixOf_chunkedEnding_append (x : Char) (xs rest : List Char) :
    chunkedEnding.isPrefixOf (x :: xs ++ '.' :: rest) = chunkedEnding.isPrefixOf (x :: xs) := by
  have hending : chunkedEnding = ['.', '0', 'O', 'T'] := by decide
  rw [hending]
  match xs with
  | [] => simp [List.isPrefixOf]
  | [a] => simp [List.isPrefixOf]
  | [a, b] => simp [List.isPrefixOf]
  | a :: b :: c :: t => simp [List.isPrefixOf]

theorem replaceFrom_append_dot {new : List Char} {skip : Nat} {xs : List Char} (hskip : skip ≤ xs.length)
    (rest : List Char) :
    Sequence.replaceFrom chunkedEnding new skip (xs ++ '.' :: rest) =
      Sequence.replaceFrom chunkedEnding new skip xs ++ Sequence.replaceFrom chunkedEnding new 0 ('.' :: rest) := by
  have hfour : chunkedEnding.length = 4 := by decide
  induction xs generalizing skip with
  | nil =>
    rw [Nat.le_zero.1 hskip]
    rfl
  | cons x xs ih =>
    cases skip with
    | succ skip => exact ih (by simpa using hskip)
    | zero =>
      have hp := isPrefixOf_chunkedEnding_append x xs rest
      rw [List.cons_append] at hp ⊢
      rw [Sequence.replaceFrom, Sequence.replaceFrom, hp]
      by_cases h : chunkedEnding.isPrefixOf (x :: xs) = true
      · have hle : chunkedEnding.length ≤ xs.length + 1 := (List.isPrefixOf_iff_prefix.1 h).length_le
        rw [if_pos h, if_pos h, ih (by omega), List.append_assoc]
      · rw [if_neg h, if_neg h, ih (Nat.zero_le _), List.cons_append]

/-- A part without dots that starts a replaced text started the text before. -/
theorem prefix_of_prefix_replaceFrom {part xs : List Char} (hdot : '.' ∉ part)
    (h : part <+: Sequence.replaceFrom chunkedEnding scriptEnding 0 xs) : part <+: xs := by
  have hnew : scriptEnding = '.' :: ['T', 'O', 'T'] := by decide
  induction part generalizing xs with
  | nil => exact List.nil_prefix
  | cons c part ih =>
    rw [List.mem_cons, not_or] at hdot
    cases xs with
    | nil => exact absurd (List.prefix_nil.1 h) (List.cons_ne_nil c part)
    | cons x xs =>
      rw [Sequence.replaceFrom] at h
      split at h
      · rw [hnew, List.cons_append, List.cons_prefix_cons] at h
        exact absurd h.1.symm hdot.1
      · rw [List.cons_prefix_cons] at h ⊢
        exact ⟨h.1, ih hdot.2 h.2⟩

/-- Replaced endings do not come back. -/
theorem not_infix_replaceFrom (skip : Nat) (xs : List Char) :
    ¬ chunkedEnding <:+: Sequence.replaceFrom chunkedEnding scriptEnding skip xs := by
  have hold : chunkedEnding = '.' :: ['0', 'O', 'T'] := by decide
  have hnew : scriptEnding = ['.', 'T', 'O', 'T'] := by decide
  induction xs generalizing skip with
  | nil =>
    rw [Sequence.replaceFrom, List.infix_nil]
    decide
  | cons x xs ih =>
    cases skip with
    | succ skip => exact ih skip
    | zero =>
      rw [Sequence.replaceFrom]
      split
      · -- the new ending holds no part of an old one
        intro h
        rw [hnew, hold] at h
        simp only [List.cons_append, List.nil_append, List.infix_cons_iff, List.cons_prefix_cons] at h
        simp only [show '0' ≠ 'T' by decide, show '.' ≠ 'T' by decide, show '.' ≠ 'O' by decide, false_and,
          and_false, false_or] at h
        rw [← hnew, ← hold] at h
        exact ih _ h
      · rename_i hp
        intro h
        rcases List.infix_cons_iff.1 h with h | h
        · refine hp (List.isPrefixOf_iff_prefix.2 ?_)
          rw [hold, List.cons_prefix_cons] at h ⊢
          exact ⟨h.1, prefix_of_prefix_replaceFrom (by decide) h.2⟩
        · exact ih 0 h

/-- Names without the characters of the look-alikes. -/
theorem listedName_eq {name : List Char} (h : ∀ c ∈ name, c.toNat < 128 ∨ 160 ≤ c.toNat) :
    listedName name = String.ofList
      (if isChunkedName name then Sequence.replaceAll chunkedEnding scriptEnding name else name) := by
  have hmany : ∀ xs : List Char, (∀ c ∈ xs, c.toNat < 128 ∨ 160 ≤ c.toNat) →
      Sequence.replaceMany lookAlikes xs = xs := by
    intro xs hxs
    have hstep : ∀ (code : Nat) (letter : Char), 128 ≤ code → code < 160 →
        Sequence.replaceAll [Char.ofNat code] [letter] xs = xs := by
      intro code letter hl hu
      refine replaceFrom_of_not_infix fun hmem => ?_
      have hcode : (Char.ofNat code).toNat = code := toNat_ofNat_of_lt (by omega)
      have := hxs _ (hmem.subset List.mem_cons_self)
      omega
    simp only [Sequence.replaceMany, lookAlikes, List.map_cons, List.map_nil, List.foldl_cons,
      List.foldl_nil]
    rw [hstep 0x85 'E' (by decide) (by decide), hstep 0x8A 'K' (by decide) (by decide),
      hstep 0x8E 'O' (by decide) (by decide), hstep 0x91 'C' (by decide) (by decide),
      hstep 0x92 'T' (by decide) (by decide)]
  refine congrArg String.ofList (hmany _ ?_)
  split
  · intro c hc
    rcases mem_of_mem_replaceFrom hc with hc | hc
    · exact .inl (chars_scriptEnding c hc).1
    · exact h c hc
  · exact h

theorem listedName_of_not_chunked {name : List Char} (hchunked : isChunkedName name = false)
    (h : ∀ c ∈ name, c.toNat < 128 ∨ 160 ≤ c.toNat) : listedName name = String.ofList name := by
  rw [listedName_eq h, hchunked]
  rfl

/-! ### Names whose capitals end in the ending -/

theorem upperCase_append (front back : List Char) :
    (upperCase (String.ofList (front ++ back))).toList =
      (upperCase (String.ofList front)).toList ++ (upperCase (String.ofList back)).toList := by
  simp [upperCase]

theorem isChunkedName_append (stem : List Char) : isChunkedName (stem ++ chunkedEnding) = true := by
  have hcapitals : (upperCase (String.ofList chunkedEnding)).toList = chunkedEnding := by decide
  rw [isChunkedName, upperCase_append, hcapitals, List.reverse_append, List.isPrefixOf_iff_prefix]
  exact List.prefix_append _ _

/-- Beyond ASCII, and before the ligatures, no capital form ends in a character of the ending. -/
theorem last_capital_of_ge {c n : Nat} (h128 : 128 ≤ c) (hlt : c < 0xFB00)
    (h : (Text.capital c).getLast? = some n) : n ∉ [0x2E, 0x30, 0x4F, 0x54] := by
  have hsequences : ∀ e ∈ Text.capitalSequences, e.1 < 0xFB00 →
      ∀ n ∈ [0x2E, 0x30, 0x4F, 0x54], e.2.getLast? ≠ some n := by decide +kernel
  have hletters : ∀ r ∈ Text.smallLetters, r.last < 128 ∨ 0x54 < r.capital ∨
      r.last = r.first ∧ r.capital ∉ [0x2E, 0x30, 0x4F, 0x54] := by decide +kernel
  rw [Text.capital, if_neg (by omega)] at h
  cases hlookup : Text.capitalSequences.lookup c with
  | some cs =>
    simp only [hlookup] at h
    obtain ⟨before, after, hsplit, -⟩ := List.lookup_eq_some_iff.1 hlookup
    exact fun hn => hsequences (c, cs) (by rw [hsplit]; simp) hlt n hn h
  | none =>
    simp only [hlookup] at h
    cases hfind : Text.smallLetters.find?
        fun r => decide (r.first ≤ c) && decide (c ≤ r.last) && (c - r.first) % r.step == 0 with
    | none =>
      simp only [hfind, List.getLast?_singleton, Option.some.injEq] at h
      simp
      omega
    | some r =>
      simp only [hfind, List.getLast?_singleton, Option.some.injEq] at h
      have hr := List.find?_some hfind
      simp only [Bool.and_eq_true, decide_eq_true_eq] at hr
      obtain hlast | hcapital | ⟨hone, hcapital⟩ := hletters r (List.mem_of_find?_eq_some hfind)
      · omega
      · simp
        omega
      · have hn : n = r.capital := by omega
        rwa [hn]

/-- In the code page only ASCII characters have capitals that end in a character of the ending. -/
theorem capital_of_last {c : Nat} {k : Char} (hc : c < 128 ∨ c ∈ CodePage.dosLatin.upper)
    (hk : k ∈ chunkedEnding) (h : (Text.capital c).getLast? = some k.toNat) :
    Text.capital c = [k.toNat] ∧ (c = k.toNat ∨ c = k.toNat + 32 ∧ 97 ≤ c) := by
  have hupper : ∀ c ∈ CodePage.dosLatin.upper, 128 ≤ c ∧ c < 0xFB00 := by decide +kernel
  rcases hc with hc | hc
  · rw [Text.capital, if_pos hc] at h ⊢
    simp only [List.getLast?_singleton, Option.some.injEq, Bool.and_eq_true, decide_eq_true_eq] at h ⊢
    rw [← h]
    refine ⟨rfl, ?_⟩
    split
    · omega
    · omega
  · refine absurd ?_ (last_capital_of_ge (hupper c hc).1 (hupper c hc).2 h)
    rw [chunkedEnding_eq] at hk
    simp only [List.mem_cons, List.not_mem_nil, or_false] at hk
    rcases hk with rfl | rfl | rfl | rfl <;> decide

theorem capital_ne_nil (c : Nat) : Text.capital c ≠ [] := by
  have hsequences : ∀ e ∈ Text.capitalSequences, e.2 ≠ [] := by decide +kernel
  rw [Text.capital]
  split
  · exact List.cons_ne_nil _ _
  · split
    · rename_i cs hlookup
      obtain ⟨before, after, hsplit, -⟩ := List.lookup_eq_some_iff.1 hlookup
      exact hsequences (c, cs) (by rw [hsplit]; simp)
    · split
      · exact List.cons_ne_nil _ _
      · exact List.cons_ne_nil _ _

theorem eq_toNat_of_ofNat {n : Nat} {k : Char} (hk : k.toNat ≠ 0) (h : Char.ofNat n = k) : n = k.toNat := by
  subst h
  by_cases hv : n.isValidChar
  · rw [Char.ofNat, dif_pos hv]
    rfl
  · rw [Char.ofNat, dif_neg hv] at hk
    exact absurd rfl hk

/-- The last character of a name whose capitals end in a character of the ending. -/
theorem last_of_prefix_upperCase {name rest : List Char} {k : Char}
    (hname : ∀ c ∈ name, c.toNat < 128 ∨ c.toNat ∈ CodePage.dosLatin.upper) (hk : k ∈ chunkedEnding)
    (h : k :: rest <+: (upperCase (String.ofList name)).toList.reverse) :
    ∃ front c, name = front ++ [c] ∧ (c.toNat = k.toNat ∨ c.toNat = k.toNat + 32 ∧ 97 ≤ c.toNat) ∧
      rest <+: (upperCase (String.ofList front)).toList.reverse := by
  have hzero : k.toNat ≠ 0 := (chars_chunkedEnding k hk).2
  induction name using List.reverseRecOn with
  | nil => exact absurd (List.prefix_nil.1 h) (List.cons_ne_nil k rest)
  | append_singleton front c _ =>
    have hone : (upperCase (String.ofList [c])).toList = (Text.capital c.toNat).map Char.ofNat := by
      simp [upperCase]
    rw [upperCase_append, hone, List.reverse_append] at h
    have hlast : (Text.capital c.toNat).getLast? = some k.toNat := by
      cases hcapital : Text.capital c.toNat using List.reverseRecOn with
      | nil => exact absurd hcapital (capital_ne_nil _)
      | append_singleton ns n _ =>
        rw [hcapital, List.map_append, List.reverse_append] at h
        have hn := (List.cons_prefix_cons.1 h).1
        rw [List.getLast?_concat, eq_toNat_of_ofNat hzero hn.symm]
    obtain ⟨hcapital, hc⟩ := capital_of_last (hname c (by simp)) hk hlast
    refine ⟨front, c, rfl, hc, ?_⟩
    rw [hcapital, List.map_singleton, Char.ofNat_toNat, List.reverse_singleton, List.singleton_append] at h
    exact (List.cons_prefix_cons.1 h).2

/-- A name of packed chunks has the ending, in small or capital letters. -/
theorem ending_of_isChunkedName {name : List Char}
    (hname : ∀ c ∈ name, c.toNat < 128 ∨ c.toNat ∈ CodePage.dosLatin.upper) (h : isChunkedName name = true) :
    ∃ front y z, name = front ++ ['.', '0', y, z] ∧ (y = 'O' ∨ y = 'o') ∧ (z = 'T' ∨ z = 't') := by
  have hreverse : chunkedEnding.reverse = ['T', 'O', '0', '.'] := by decide
  rw [isChunkedName, hreverse, List.isPrefixOf_iff_prefix] at h
  obtain ⟨front, z, rfl, hz, h⟩ := last_of_prefix_upperCase hname (by decide) h
  rw [List.forall_mem_append] at hname
  obtain ⟨front, y, rfl, hy, h⟩ := last_of_prefix_upperCase hname.1 (by decide) h
  rw [List.forall_mem_append] at hname
  obtain ⟨front, x, rfl, hx, h⟩ := last_of_prefix_upperCase hname.1.1 (by decide) h
  rw [List.forall_mem_append] at hname
  obtain ⟨front, dot, rfl, hdot, -⟩ := last_of_prefix_upperCase hname.1.1.1 (by decide) h
  have hx0 : x = '0' := by
    rw [← Char.toNat_inj]
    have : '0'.toNat = 48 := rfl
    omega
  have hdot0 : dot = '.' := by
    rw [← Char.toNat_inj]
    have : '.'.toNat = 46 := rfl
    omega
  subst hx0 hdot0
  refine ⟨front, y, z, by simp, ?_, ?_⟩
  · exact hy.imp Char.toNat_inj.1 fun h => Char.toNat_inj.1 h.1
  · exact hz.imp Char.toNat_inj.1 fun h => Char.toNat_inj.1 h.1

/-! ### The written name -/

theorem splitFrom_of_notMem {part xs : List Char} (h : '/' ∉ xs) :
    Sequence.splitFrom ['/'] 0 part xs = [part.reverse ++ xs] := by
  induction xs generalizing part with
  | nil => simp [Sequence.splitFrom]
  | cons x xs ih =>
    rw [List.mem_cons, not_or] at h
    have hp : ['/'].isPrefixOf (x :: xs) = false := by
      simp [List.isPrefixOf, h.1]
    rw [Sequence.splitFrom, hp, if_neg (by decide), ih h.2, List.reverse_cons, List.append_assoc]
    rfl

theorem splitFrom_append_slash (part front last : List Char) :
    ∃ parts, Sequence.splitFrom ['/'] 0 part (front ++ '/' :: last) =
      parts ++ Sequence.splitFrom ['/'] 0 [] last := by
  induction front generalizing part with
  | nil => exact ⟨[part.reverse], by simp [Sequence.splitFrom]⟩
  | cons x front ih =>
    rw [List.cons_append, Sequence.splitFrom]
    split
    · obtain ⟨parts, hparts⟩ := ih []
      exact ⟨part.reverse :: parts, congrArg _ hparts⟩
    · exact ih (x :: part)

/-- What precedes the last part of a path. -/
def IsFolder (front : List Char) : Prop :=
  front = [] ∨ ∃ folder, front = folder ++ ['/']

theorem exists_lastPart (xs : List Char) : ∃ front last, xs = front ++ last ∧ IsFolder front ∧ '/' ∉ last := by
  by_cases h : '/' ∈ xs
  · obtain ⟨last, front, hsplit, hlast⟩ := List.eq_append_cons_of_mem (List.mem_reverse.2 h)
    refine ⟨front.reverse ++ ['/'], last.reverse, ?_, .inr ⟨_, rfl⟩, by simpa using hlast⟩
    have := congrArg List.reverse hsplit
    simpa using this
  · exact ⟨[], xs, rfl, .inl rfl, h⟩

theorem name_ofString {s : String} {front last : List Char} (hs : s.toList = front ++ last)
    (hfront : IsFolder front) (hlast : '/' ∉ last) (htwo : 2 ≤ last.length) :
    (Path.ofString s).name = String.ofList last := by
  have hsplit : ∃ parts, Sequence.splitAll ['/'] s.toList = parts ++ [last] := by
    rw [hs, Sequence.splitAll]
    rcases hfront with rfl | ⟨folder, rfl⟩
    · exact ⟨[], splitFrom_of_notMem hlast⟩
    · obtain ⟨parts, hparts⟩ := splitFrom_append_slash [] folder last
      rw [splitFrom_of_notMem hlast] at hparts
      exact ⟨parts, by simpa using hparts⟩
  obtain ⟨parts, hparts⟩ := hsplit
  have hne : ∀ t : String, t.length < 2 → String.ofList last ≠ t := by
    rintro t ht rfl
    rw [String.length_ofList] at ht
    omega
  have hkeep : ([String.ofList last].filter fun part => part != "" && part != ".") = [String.ofList last] := by
    simp [hne "" (by decide), hne "." (by decide)]
  rw [Path.name, Path.ofString, Path.components, hparts, List.map_append, List.filter_append]
  show (_ ++ [String.ofList last].filter _).getLastD "" = _
  rw [hkeep, List.getLastD_concat]

theorem splitSuffix_of_dot {q : List Char} {x y z : Char} (hdot : '.' ∉ [x, y, z]) :
    (splitSuffix (String.ofList (q ++ ['.', x, y, z]))).1 =
      String.ofList (if q = [] then ['.', x, y, z] else q) := by
  simp only [List.mem_cons, List.not_mem_nil, or_false, not_or] at hdot
  have hafter : (q ++ ['.', x, y, z]).reverse.takeWhile (· != '.') = [z, y, x] := by
    simp [Ne.symm hdot.1, Ne.symm hdot.2.1, Ne.symm hdot.2.2]
  rw [splitSuffix]
  simp only [String.toList_ofList, hafter]
  by_cases hq : q = []
  · subst hq
    rfl
  · have hpos : 0 < q.length := List.length_pos_iff.2 hq
    simp [hq, hpos]

/-- The parts of the written name of an entry of packed chunks: what follows the last slash, up to the ending, or
the ending itself where nothing comes before it. -/
theorem ChunkListed.writtenName_parts {name : String} (h : ChunkListed name) {e : Entry}
    (he : e.compression = chunked) :
    ∃ (folder q : List Char) (x y z : Char), name.toList = folder ++ q ++ ['.', x, y, z] ∧ IsFolder folder ∧
      '/' ∉ q ∧ '/' ∉ [x, y, z] ∧
      writtenName name e = .ok (String.ofList ((if q = [] then ['.', x, y, z] else q) ++ chunkedEnding)) := by
  obtain ⟨front, x, y, z, hname, hdot, hslash⟩ := h.ending
  obtain ⟨folder, q, rfl, hfolder, hq⟩ := exists_lastPart front
  refine ⟨folder, q, x, y, z, hname, hfolder, hq, hslash, ?_⟩
  have hlast : '/' ∉ q ++ ['.', x, y, z] := by
    rw [List.mem_append, not_or]
    exact ⟨hq, by simpa using hslash⟩
  have hpath : (Path.ofString name).name = String.ofList (q ++ ['.', x, y, z]) := by
    have hsplit : name.toList = folder ++ (q ++ ['.', x, y, z]) := by rw [hname, List.append_assoc]
    refine name_ofString hsplit hfolder hlast ?_
    rw [List.length_append]
    exact Nat.le_add_left_of_le (Nat.le_of_ble_eq_true rfl)
  have hstem : (Path.ofString name).stem = String.ofList (if q = [] then ['.', x, y, z] else q) := by
    rw [Path.stem, hpath, splitSuffix_of_dot hdot]
  have hne : ((Path.ofString name).name == "") = false := by
    rw [hpath, beq_eq_false_iff_ne]
    intro hnil
    have := congrArg String.length hnil
    simp at this
  have hsuffix : ((String.ofList chunkedEnding).toList.contains '/' ||
      (String.ofList chunkedEnding != "" && !(String.ofList chunkedEnding).startsWith ".") ||
      String.ofList chunkedEnding == ".") = false := by decide +kernel
  rw [writtenName, if_pos he, Path.nameWithSuffix, hstem, hne, hsuffix, if_neg (by decide), if_neg (by decide),
    String.ofList_append]

/-- An entry of packed chunks is written under a stem with the ending; for a script name this is its own
stem. -/
theorem ChunkListed.writtenName_eq {name : String} (h : ChunkListed name) {e : Entry}
    (he : e.compression = chunked) :
    ∃ stem, writtenName name e = .ok (String.ofList (stem ++ chunkedEnding)) ∧ stem ≠ [] ∧ '/' ∉ stem ∧
      stem.length + 4 ≤ nameField ∧ (∀ c ∈ stem, c.toNat ≠ 0) ∧
      (ScriptName name → name.toList = stem ++ scriptEnding) := by
  obtain ⟨folder, q, x, y, z, hname, hfolder, hq, hslash, hwritten⟩ := h.writtenName_parts he
  have hlen : folder.length + q.length + 4 = name.length := by
    rw [← String.length_toList, hname, List.length_append, List.length_append]
    rfl
  refine ⟨_, hwritten, ?_, ?_, ?_, ?_, ?_⟩
  · split
    · exact List.cons_ne_nil _ _
    · assumption
  · split
    · simpa using hslash
    · exact hq
  · split
    · exact Nat.le_of_ble_eq_true rfl
    · have := h.length_le
      omega
  · intro c hc
    refine h.no_zero c ?_
    rw [hname]
    split at hc
    · exact List.mem_append_right _ hc
    · exact List.mem_append_left _ (List.mem_append_right _ hc)
  · rintro ⟨stem, hscript, hne, hnone⟩
    rw [scriptEnding_eq] at hscript ⊢
    obtain ⟨hstem, hend⟩ := List.append_inj' (hname.symm.trans hscript) rfl
    -- a stem without slashes leaves no room for a folder
    have hnil : folder = [] := by
      rcases hfolder with hnil | ⟨f, rfl⟩
      · exact hnil
      · exact absurd (by rw [← hstem]; simp) hnone
    rw [hnil, List.nil_append] at hstem
    rw [hscript, hstem, if_neg hne]

/-- The written name is one of packed chunks, and is listed as the name again if that is a script name. -/
theorem ChunkListed.listedName_written_iff {name : String} (h : ChunkListed name) {e : Entry}
    (he : e.compression = chunked) {written : String} (hw : writtenName name e = .ok written)
    (hascii : ∀ c ∈ written.toList, c.toNat < 128) :
    isChunkedName written.toList = true ∧ (listedName written.toList = name ↔ ScriptName name) := by
  obtain ⟨stem, hstem, hne, hslash, -, -, hscript⟩ := h.writtenName_eq he
  rw [hw] at hstem
  cases hstem
  rw [String.toList_ofList] at hascii ⊢
  have hchunked := isChunkedName_append stem
  have hlisted : listedName (stem ++ chunkedEnding) =
      String.ofList (Sequence.replaceFrom chunkedEnding scriptEnding 0 stem ++ scriptEnding) := by
    rw [listedName_eq fun c hc => .inl (hascii c hc), if_pos hchunked, Sequence.replaceAll, if_neg (by decide)]
    nth_rewrite 2 [chunkedEnding_eq]
    rw [replaceFrom_append_dot (Nat.zero_le _)]
    rfl
  refine ⟨hchunked, fun hback => ?_, fun hname => ?_⟩
  · -- the stem with its own endings replaced is the stem of the name
    rw [← hback, hlisted]
    refine ⟨_, String.toList_ofList, ?_, fun hmem => ?_⟩
    · rw [← List.length_pos_iff, length_replaceFrom (Nat.zero_le _)]
      exact List.length_pos_iff.2 hne
    · rcases mem_of_mem_replaceFrom hmem with hmem | hmem
      · exact absurd hmem (by decide)
      · exact hslash hmem
  · have hclean : ¬ chunkedEnding <:+: stem := fun hi => h.not_infix (by
      rw [hscript hname]
      exact hi.trans (List.prefix_append stem _).isInfix)
    rw [hlisted, replaceFrom_of_not_infix hclean, ← hscript hname, String.ofList_toList]

/-- A name under which packed chunks are listed stays the same when it is listed once more. -/
theorem ChunkListed.listedName_eq {name : String} (h : ChunkListed name)
    (hascii : ∀ c ∈ name.toList, c.toNat < 128) : listedName name.toList = name := by
  have hsame : Sequence.replaceAll chunkedEnding scriptEnding name.toList = name.toList :=
    replaceFrom_of_not_infix h.not_infix
  rw [Archive.listedName_eq fun c hc => .inl (hascii c hc), hsame, ite_self, String.ofList_toList]

/-- The endings behind the dot under which packed chunks are listed: only the one in capitals is replaced. -/
def listedEndings : List (List Char) :=
  [['T', 'O', 'T'], ['0', 'O', 't'], ['0', 'o', 'T'], ['0', 'o', 't']]

theorem ending_of_replaced {name : List Char}
    (hname : ∀ c ∈ name, c.toNat < 128 ∨ c.toNat ∈ CodePage.dosLatin.upper) (h : isChunkedName name = true) :
    ∃ (front : List Char) (x y z : Char), Sequence.replaceFrom chunkedEnding scriptEnding 0 name =
      front ++ ['.', x, y, z] ∧ [x, y, z] ∈ listedEndings := by
  obtain ⟨front, y, z, rfl, hy, hz⟩ := ending_of_isChunkedName hname h
  rw [replaceFrom_append_dot (Nat.zero_le _)]
  rcases hy with rfl | rfl <;> rcases hz with rfl | rfl
  · exact ⟨_, 'T', 'O', 'T', rfl, by decide⟩
  · exact ⟨_, '0', 'O', 't', rfl, by decide⟩
  · exact ⟨_, '0', 'o', 'T', rfl, by decide⟩
  · exact ⟨_, '0', 'o', 't', rfl, by decide⟩

/-- The name under which packed chunks are listed. -/
theorem chunkListed_listedName {name : List Char}
    (hname : ∀ c ∈ name, c.toNat < 128 ∨ c.toNat ∈ CodePage.dosLatin.upper ∧ 160 ≤ c.toNat)
    (hzero : ∀ c ∈ name, c.toNat ≠ 0) (hlen : name.length ≤ nameField) (h : isChunkedName name = true) :
    ChunkListed (listedName name) := by
  have hlisted : listedName name = String.ofList (Sequence.replaceFrom chunkedEnding scriptEnding 0 name) := by
    rw [listedName_eq fun c hc => (hname c hc).imp_right And.right, if_pos h]
    rfl
  rw [hlisted]
  refine ⟨?_, ?_, ?_, ?_⟩
  · rw [String.length_ofList, length_replaceFrom (Nat.zero_le _)]
    exact hlen
  · intro c hc
    rw [String.toList_ofList] at hc
    rcases mem_of_mem_replaceFrom hc with hc | hc
    · exact (chars_scriptEnding c hc).2
    · exact hzero c hc
  · rw [String.toList_ofList]
    exact not_infix_replaceFrom 0 name
  · obtain ⟨front, x, y, z, hsplit, hending⟩ :=
      ending_of_replaced (fun c hc => (hname c hc).imp_right And.left) h
    have hplain : ∀ ending ∈ listedEndings, '.' ∉ ending ∧ '/' ∉ ending := by decide
    rw [String.toList_ofList]
    exact ⟨front, x, y, z, hsplit, hplain _ hending⟩

end AdventureKit.Archive
