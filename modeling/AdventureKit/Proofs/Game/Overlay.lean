import AdventureKit.Game.Overlay
import AdventureKit.Proofs.Game.Session
import AdventureKit.Proofs.Sequence

/-!
# A folder as a mapping

What an overlay lists goes down with every name that is taken out, but what it holds does not: a name that was taken
out can still be read, and setting it does not list it again.  So an overlay keeps the laws of a mapping along a run
exactly as long as no listed name is taken out (`Overlay.isMapping_iff_nothing_taken`).
-/

namespace AdventureKit

namespace Overlay

variable {o o' : Overlay} {name : String} {content : Bytes}

/-! ## Steps -/

/-- What can be done with the patches. -/
inductive Step where
  | get (name : String)
  | set (name : String) (content : Bytes)
  | erase (name : String)
  | pop (name : String)
  | popOr (name : String) (content : Bytes)
  | popFirst
  | getOrSet (name : String) (content : Bytes)
  | contains (name : String)
  | clear
  deriving DecidableEq, Repr

/-- The patches after a step.  A step that fails leaves them as they are; clearing has then taken out the names before
the one that it failed at. -/
def after (o : Overlay) : Step → Overlay
  | .get _ => o
  | .set name content => (o.set name content).toOption.getD o
  | .erase name => o.erase name
  | .pop name => ((o.pop name).toOption.map Prod.snd).getD o
  | .popOr name content => ((o.popOr name content).toOption.map Prod.snd).getD o
  | .popFirst => (o.popFirst.toOption.map Prod.snd).getD o
  | .getOrSet name content => ((o.getOrSet name content).toOption.map Prod.snd).getD o
  | .contains _ => o
  | .clear => o.clear.2

/-- The step takes out one of the names `listed`, if none of them was taken out before. -/
def Step.Takes (listed : List String) : Step → Prop
  | .erase name | .pop name | .popOr name _ => name ∈ listed
  | .popFirst | .clear => listed ≠ []
  | .get _ | .set _ _ | .getOrSet _ _ | .contains _ => False

instance (listed : List String) : DecidablePred (Step.Takes listed)
  | .erase name | .pop name | .popOr name _ => inferInstanceAs (Decidable (name ∈ listed))
  | .popFirst | .clear => inferInstanceAs (Decidable (listed ≠ []))
  | .get _ | .set _ _ | .getOrSet _ _ | .contains _ => inferInstanceAs (Decidable False)

/-- The laws of a mapping: the names that are iterated are distinct and counted, they are the names that are contained
and those that can be got, and a content that was set is there. -/
structure IsMapping (o : Overlay) : Prop where
  contains_iff : ∀ name, o.contains name = .ok true ↔ name ∈ o.keys
  nodup_keys : o.keys.Nodup
  size_eq : o.size = o.keys.length
  get_iff : ∀ name, (∃ key, o.get name = .error (.unknownKey key)) ↔ name ∉ o.keys
  set : ∀ name content o', o.set name content = .ok o' → name ∈ o'.keys ∧ o'.get name = .ok content

/-! ## Names that are listed -/

/-- All listed names have a file that can be read, and only listed names were set. -/
structure Backed (o : Overlay) : Prop where
  nodup : o.listed.Nodup
  file : ∀ name ∈ o.listed, ∃ content, o.file name = .ok content
  contents : ∀ name ∈ o.contents.keys, name ∈ o.listed

theorem mem_keys_iff : name ∈ o.keys ↔ name ∈ o.listed ∧ name ∉ o.taken := by
  simp [keys]

theorem keys_eq_listed_iff : o.keys = o.listed ↔ ∀ name ∈ o.listed, name ∉ o.taken := by
  simp [keys]

/-- Whether a name was taken out does not matter for what is got. -/
theorem Backed.exists_get (h : o.Backed) (hname : name ∈ o.listed) : ∃ content, o.get name = .ok content := by
  unfold get
  cases hset : o.contents.get? name with
  | some content => exact ⟨content, rfl⟩
  | none =>
    obtain ⟨content, hfile⟩ := h.file name hname
    exact ⟨content, by simp [hname, hfile]⟩

theorem Backed.get_of_unlisted (h : o.Backed) (hname : name ∉ o.listed) : o.get name = .error (unknown name) := by
  have hunset : o.contents.get? name = none := Table.get?_eq_none_iff.2 fun hset => hname (h.contents name hset)
  simp [get, hunset, hname]

theorem find?_of_get (h : o.get name = .ok content) : o.find? name = .ok (some content) := by
  rw [find?, h]

theorem Backed.find?_of_unlisted (h : o.Backed) (hname : name ∉ o.listed) : o.find? name = .ok none := by
  rw [find?, h.get_of_unlisted hname, unknown]

theorem Backed.contains_eq (h : o.Backed) (name : String) : o.contains name = .ok (decide (name ∈ o.listed)) := by
  unfold contains
  by_cases hname : name ∈ o.listed
  · obtain ⟨content, hget⟩ := h.exists_get hname
    rw [find?_of_get hget, decide_eq_true hname]
    rfl
  · rw [h.find?_of_unlisted hname, decide_eq_false hname]
    rfl

theorem Backed.get_eq_unknown_iff (h : o.Backed) :
    (∃ key, o.get name = .error (.unknownKey key)) ↔ name ∉ o.listed := by
  constructor
  · rintro ⟨key, hget⟩ hname
    obtain ⟨content, hcontent⟩ := h.exists_get hname
    rw [hcontent] at hget
    cases hget
  · intro hname
    exact ⟨_, h.get_of_unlisted hname⟩

/-! ## Setting and taking out -/

theorem set_eq_ok (h : o.set name content = .ok o') :
    name ∈ o.listed ∧ ∃ place d, o.disk.follow o.here name = .ok place ∧ o.disk.write place (.data content) = .ok d ∧
      o' = { o with disk := d, contents := o.contents.put name content } := by
  unfold set at h
  by_cases hname : name ∈ o.listed
  · rw [if_neg (by simpa using hname)] at h
    obtain ⟨place, hplace, h⟩ := bind_eq_ok.1 h
    obtain ⟨d, hwrite, h⟩ := bind_eq_ok.1 h
    cases h
    exact ⟨hname, place, d, hplace, hwrite, rfl⟩
  · rw [if_pos (by simpa using hname)] at h
    cases h

/-- Writing one file leaves all others readable, and itself too. -/
theorem exists_file_of_write {place : Place} {d : Disk} (hwrite : o.disk.write place (.data content) = .ok d)
    (hfile : ∃ old, o.file name = .ok old) (contents : Table String Bytes) :
    ∃ new, ({ o with disk := d, contents := contents } : Overlay).file name = .ok new := by
  obtain ⟨old, hold⟩ := hfile
  obtain ⟨q, hfollow, hold⟩ := bind_eq_ok.1 hold
  obtain ⟨stored, hread, hold⟩ := bind_eq_ok.1 hold
  have hfollow' := Disk.follow_of_write hwrite hfollow
  by_cases hq : q = place
  · subst hq
    exact ⟨content, bind_eq_ok.2 ⟨q, hfollow', bind_eq_ok.2 ⟨_, Disk.read_of_write hwrite, rfl⟩⟩⟩
  · have hread' := (Disk.read_of_write_of_ne hwrite hq).trans hread
    exact ⟨old, bind_eq_ok.2 ⟨q, hfollow', bind_eq_ok.2 ⟨stored, hread', hold⟩⟩⟩

theorem Backed.set (hb : o.Backed) (h : o.set name content = .ok o') : o'.Backed := by
  obtain ⟨hname, place, d, -, hwrite, rfl⟩ := set_eq_ok h
  refine ⟨hb.nodup, fun other hother => exists_file_of_write hwrite (hb.file other hother) _, fun other hother => ?_⟩
  rcases Table.mem_keys_put.1 hother with rfl | hold
  · exact hname
  · exact hb.contents other hold

theorem Backed.erase (hb : o.Backed) (name : String) : (o.erase name).Backed := by
  refine ⟨hb.nodup, hb.file, fun other hother => hb.contents other ?_⟩
  obtain ⟨item, hitem, rfl⟩ := List.mem_map.1 hother
  exact List.mem_map_of_mem (List.mem_filter.1 hitem).1

theorem mem_keys_erase {other : String} : other ∈ (o.erase name).keys ↔ other ∈ o.keys ∧ other ≠ name := by
  rw [mem_keys_iff, mem_keys_iff]
  show other ∈ o.listed ∧ other ∉ name :: o.taken ↔ _
  rw [List.mem_cons, not_or]
  tauto

theorem Backed.pop_eq (hb : o.Backed) (hname : name ∈ o.listed) :
    ∃ content, o.pop name = .ok (content, o.erase name) := by
  obtain ⟨content, hget⟩ := hb.exists_get hname
  exact ⟨content, by rw [pop, hget]; rfl⟩

/-- Clearing takes the names out one after the other. -/
theorem Backed.clearFrom_eq {left : List String} (hb : o.Backed) (hleft : ∀ name ∈ left, name ∈ o.listed) :
    o.clearFrom left = (.ok (), left.foldl Overlay.erase o) := by
  induction left generalizing o with
  | nil => rfl
  | cons name left ih =>
    obtain ⟨hname, hleft⟩ := List.forall_mem_cons.1 hleft
    obtain ⟨content, hget⟩ := hb.exists_get hname
    rw [clearFrom, hget]
    exact ih (hb.erase name) hleft

theorem Backed.foldl_erase (hb : o.Backed) (left : List String) : (left.foldl Overlay.erase o).Backed := by
  induction left generalizing o with
  | nil => exact hb
  | cons name left ih => exact ih (hb.erase name)

theorem mem_keys_foldl_erase {left : List String} :
    name ∈ (left.foldl Overlay.erase o).keys ↔ name ∈ o.keys ∧ name ∉ left := by
  induction left generalizing o with
  | nil => simp
  | cons first left ih =>
    rw [List.foldl_cons, ih, mem_keys_erase, List.mem_cons, not_or]
    tauto

theorem listed_foldl_erase (left : List String) : (left.foldl Overlay.erase o).listed = o.listed := by
  induction left generalizing o with
  | nil => rfl
  | cons name left ih => exact ih

/-! ## What a step does -/

/-- The names that a step takes out, listed or not. -/
def gone (o : Overlay) : Step → List String
  | .erase name => [name]
  | .pop name | .popOr name _ => if name ∈ o.listed then [name] else []
  | .popFirst => o.keys.take 1
  | .clear => o.keys
  | .get _ | .set _ _ | .getOrSet _ _ | .contains _ => []

/-- A step takes out its names, or it sets a content. -/
theorem Backed.after_cases (hb : o.Backed) (step : Step) :
    o.after step = (o.gone step).foldl Overlay.erase o ∨
      o.gone step = [] ∧ ∃ name content, o.set name content = .ok (o.after step) := by
  cases step with
  | get name => exact .inl rfl
  | contains name => exact .inl rfl
  | erase name => exact .inl rfl
  | set name content =>
    cases hset : o.set name content with
    | error e => exact .inl (by rw [after, hset]; rfl)
    | ok o' => exact .inr ⟨rfl, name, content, by rw [after, hset]; rfl⟩
  | pop name =>
    refine .inl ?_
    by_cases hname : name ∈ o.listed
    · obtain ⟨content, hpop⟩ := hb.pop_eq hname
      rw [after, gone, hpop, if_pos hname]
      rfl
    · rw [after, gone, pop, hb.get_of_unlisted hname, if_neg hname]
      rfl
  | popOr name content =>
    refine .inl ?_
    by_cases hname : name ∈ o.listed
    · obtain ⟨old, hget⟩ := hb.exists_get hname
      rw [after, gone, popOr, find?_of_get hget, if_pos hname]
      rfl
    · rw [after, gone, popOr, hb.find?_of_unlisted hname, if_neg hname]
      rfl
  | popFirst =>
    refine .inl ?_
    cases hkeys : o.keys with
    | nil =>
      rw [after, gone, popFirst, hkeys]
      rfl
    | cons name more =>
      have hname : name ∈ o.listed := (mem_keys_iff.1 (hkeys ▸ List.mem_cons_self)).1
      obtain ⟨content, hpop⟩ := hb.pop_eq hname
      rw [after, gone, popFirst, hkeys]
      dsimp only
      rw [hpop]
      rfl
  | getOrSet name content =>
    refine .inl ?_
    by_cases hname : name ∈ o.listed
    · obtain ⟨old, hget⟩ := hb.exists_get hname
      rw [after, gone, getOrSet, find?_of_get hget]
      rfl
    · -- a name that is not listed cannot be set either
      rw [after, gone, getOrSet, hb.find?_of_unlisted hname, Overlay.set, if_pos (by simpa using hname)]
      rfl
  | clear =>
    refine .inl ?_
    rw [after, gone, clear, hb.clearFrom_eq fun name hname => (mem_keys_iff.1 hname).1]

theorem Backed.after (hb : o.Backed) (step : Step) : (o.after step).Backed := by
  rcases hb.after_cases step with heq | ⟨-, name, content, hset⟩
  · rw [heq]
    exact hb.foldl_erase _
  · exact hb.set hset

theorem Backed.listed_after (hb : o.Backed) (step : Step) : (o.after step).listed = o.listed := by
  rcases hb.after_cases step with heq | ⟨-, name, content, hset⟩
  · rw [heq, listed_foldl_erase]
  · obtain ⟨-, place, d, -, -, heq⟩ := set_eq_ok hset
    rw [heq]

/-- Setting a name that was taken out does not list it again. -/
theorem Backed.mem_keys_after (hb : o.Backed) (step : Step) :
    name ∈ (o.after step).keys ↔ name ∈ o.keys ∧ name ∉ o.gone step := by
  rcases hb.after_cases step with heq | ⟨hgone, other, content, hset⟩
  · rw [heq, mem_keys_foldl_erase]
  · obtain ⟨-, place, d, -, -, heq⟩ := set_eq_ok hset
    rw [heq, hgone, mem_keys_iff, mem_keys_iff]
    simp

/-- As long as nothing was taken out, a step takes out a name exactly if it is one that does. -/
theorem takes_iff_mem_gone (h : o.keys = o.listed) (step : Step) :
    step.Takes o.listed ↔ ∃ name ∈ o.listed, name ∈ o.gone step := by
  cases step with
  | get name => simp [Step.Takes, gone]
  | set name content => simp [Step.Takes, gone]
  | getOrSet name content => simp [Step.Takes, gone]
  | contains name => simp [Step.Takes, gone]
  | erase name => simp [Step.Takes, gone]
  | pop name => by_cases hname : name ∈ o.listed <;> simp [Step.Takes, gone, hname]
  | popOr name content => by_cases hname : name ∈ o.listed <;> simp [Step.Takes, gone, hname]
  | popFirst => cases hlisted : o.listed <;> simp [Step.Takes, gone, h, hlisted]
  | clear => cases hlisted : o.listed <;> simp [Step.Takes, gone, h, hlisted]

/-! ## Runs -/

theorem Backed.foldl_after (hb : o.Backed) (steps : List Step) : (steps.foldl Overlay.after o).Backed := by
  induction steps generalizing o with
  | nil => exact hb
  | cons step steps ih => exact ih (hb.after step)

theorem Backed.mem_keys_of_foldl_after (hb : o.Backed) {steps : List Step}
    (h : name ∈ (steps.foldl Overlay.after o).keys) : name ∈ o.keys := by
  induction steps generalizing o with
  | nil => exact h
  | cons step steps ih => exact ((hb.mem_keys_after step).1 (ih (hb.after step) h)).1

theorem Backed.listed_foldl_after (hb : o.Backed) (steps : List Step) :
    (steps.foldl Overlay.after o).listed = o.listed := by
  induction steps generalizing o with
  | nil => rfl
  | cons step steps ih => exact (ih (hb.after step)).trans (hb.listed_after step)

/-- All names stay listed along a run in which no step takes one out, and along no other. -/
theorem Backed.foldl_after_keeps_iff (hb : o.Backed) (hall : o.keys = o.listed) (steps : List Step) :
    (∀ name ∈ o.listed, name ∈ (steps.foldl Overlay.after o).keys) ↔ ∀ step ∈ steps, ¬ step.Takes o.listed := by
  induction steps generalizing o with
  | nil => simp [hall]
  | cons step steps ih =>
    rw [List.foldl_cons, List.forall_mem_cons, takes_iff_mem_gone hall]
    by_cases htakes : ∃ name ∈ o.listed, name ∈ o.gone step
    · refine iff_of_false (fun hkeeps => ?_) fun hnone => hnone.1 htakes
      obtain ⟨name, hname, hgone⟩ := htakes
      exact ((hb.mem_keys_after step).1 ((hb.after step).mem_keys_of_foldl_after (hkeeps name hname))).2 hgone
    · have hlisted := hb.listed_after step
      have hstill : (o.after step).keys = (o.after step).listed := by
        rw [keys_eq_listed_iff, hlisted]
        intro name hname
        have hkey : name ∈ (o.after step).keys :=
          (hb.mem_keys_after step).2 ⟨hall.symm ▸ hname, fun hgone => htakes ⟨name, hname, hgone⟩⟩
        exact (mem_keys_iff.1 hkey).2
      rw [and_iff_right htakes, ← hlisted]
      exact ih (hb.after step) hstill

/-! ## The laws of a mapping -/

theorem Backed.isMapping_iff (hb : o.Backed) : o.IsMapping ↔ ∀ name ∈ o.listed, name ∈ o.keys := by
  constructor
  · intro h name hname
    refine (h.contains_iff name).1 ?_
    rw [hb.contains_eq, decide_eq_true hname]
  · intro h
    have hkeys : ∀ name, name ∈ o.keys ↔ name ∈ o.listed := fun name => ⟨fun hkey => (mem_keys_iff.1 hkey).1, h name⟩
    refine ⟨fun name => ?_, hb.nodup.filter _, rfl, fun name => ?_, fun name content o' hset => ?_⟩
    · rw [hb.contains_eq, hkeys]
      simp
    · rw [hb.get_eq_unknown_iff, hkeys]
    · obtain ⟨hname, place, d, -, -, rfl⟩ := set_eq_ok hset
      refine ⟨h name hname, ?_⟩
      rw [get, Table.get?_put_self]

section

variable {disk : Disk} {here : Place} {folder : String} {names : List String}

theorem mem_listed_ofFolder : name ∈ (ofFolder disk here folder names).listed ↔ name ∈ names :=
  (List.mergeSort_perm _ _).mem_iff.trans Sequence.mem_distinct

theorem backed_ofFolder (h : ∀ name ∈ names, ∃ content, (ofFolder disk here folder names).file name = .ok content) :
    (ofFolder disk here folder names).Backed :=
  ⟨(List.mergeSort_perm _ _).nodup_iff.2 (Sequence.nodup_distinct names),
    fun name hname => h name (mem_listed_ofFolder.1 hname), nofun⟩

theorem keys_ofFolder : (ofFolder disk here folder names).keys = (ofFolder disk here folder names).listed :=
  keys_eq_listed_iff.2 fun _ _ => List.not_mem_nil

theorem takes_ofFolder (step : Step) : step.Takes (ofFolder disk here folder names).listed ↔ step.Takes names := by
  have hnil : (ofFolder disk here folder names).listed = [] ↔ names = [] := by
    simp only [List.eq_nil_iff_forall_not_mem, mem_listed_ofFolder]
  cases step <;> simp [Step.Takes, mem_listed_ofFolder, hnil]

/-- **An overlay is a mapping exactly as long as nothing was taken out.**  All listed names have files.  Then after any
steps a name is contained if it was listed at the beginning, whether it was taken out or not.  So the laws of a mapping
hold after the steps if and only if no step took a listed name out: a name that was taken out is no longer iterated but
still contained, and stays so when it is set anew. -/
theorem isMapping_iff_nothing_taken
    (hfiles : ∀ name ∈ names, ∃ content, (ofFolder disk here folder names).file name = .ok content) (steps : List Step) :
    (∀ name, (steps.foldl Overlay.after (ofFolder disk here folder names)).contains name =
      .ok (decide (name ∈ names))) ∧
    ((steps.foldl Overlay.after (ofFolder disk here folder names)).IsMapping ↔ ∀ step ∈ steps, ¬ step.Takes names) := by
  have hstart := backed_ofFolder hfiles
  have hend := hstart.foldl_after steps
  constructor
  · intro name
    rw [hend.contains_eq, hstart.listed_foldl_after]
    simp only [mem_listed_ofFolder]
  · rw [hend.isMapping_iff, hstart.listed_foldl_after, hstart.foldl_after_keeps_iff keys_ofFolder]
    simp only [takes_ofFolder]

end

/-- A folder with two files beside the one that paths start from. -/
def twoPatches : Disk :=
  ⟨[["patches"], ["out"]], [(["patches", "A"], .data [1]), (["patches", "B"], .data [2])]⟩

theorem isMapping_iff_nothing_taken_twoPatches :
    (∀ name ∈ ["A", "B"], ∃ content, (ofFolder twoPatches ["out"] "../patches" ["A", "B"]).file name = .ok content) ∧
      (([.set "A" [7], .popOr "Z" [1], .getOrSet "B" [3], .erase "Q"] : List Step).foldl Overlay.after
        (ofFolder twoPatches ["out"] "../patches" ["A", "B"])).IsMapping := by
  have hfiles : ∀ name ∈ ["A", "B"],
      ∃ content, (ofFolder twoPatches ["out"] "../patches" ["A", "B"]).file name = .ok content := by
    simp only [List.forall_mem_cons]
    exact ⟨⟨[1], eq_ok_of_toOption (by decide +kernel)⟩, ⟨[2], eq_ok_of_toOption (by decide +kernel)⟩, nofun⟩
  exact ⟨hfiles, (isMapping_iff_nothing_taken hfiles _).2.2 (by decide)⟩

/-- One file, whose name is taken out. -/
def emptied : Overlay :=
  ([.erase "A"] : List Step).foldl Overlay.after (ofFolder twoPatches ["out"] "../patches" ["A"])

/-- A name that was taken out is contained and not iterated, and so it is after it was set. -/
theorem erased_name_still_contained :
    emptied.keys = [] ∧ emptied.contains "A" = .ok true ∧ ¬ emptied.IsMapping ∧
      ∃ o, emptied.set "A" [7] = .ok o ∧ o.get "A" = .ok [7] ∧ o.keys = [] := by
  have hkeys : emptied.keys = [] := by decide +kernel
  have hcontains : emptied.contains "A" = .ok true := eq_ok_of_toOption (by decide +kernel)
  refine ⟨hkeys, hcontains, fun h => ?_, { emptied with
    disk := { twoPatches with files := twoPatches.files ++ [(["out", "A"], .data [7])] }, contents := [("A", [7])] },
    eq_ok_of_toOption (by decide +kernel), rfl, hkeys⟩
  have hiterated := (h.contains_iff "A").1 hcontains
  rw [hkeys] at hiterated
  exact List.not_mem_nil hiterated

end Overlay

end AdventureKit
