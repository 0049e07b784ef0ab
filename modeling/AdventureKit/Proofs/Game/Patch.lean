import AdventureKit.Proofs.Game.Search
import AdventureKit.Proofs.Script.Layout

/-!
# Patches

A patch that is gathered takes the place of an earlier one of the same entry and leaves those of other entries alone,
unless its name may not be patched (`Patching.file?_of_add`, `Patching.file?_of_addAs_of_ne`).
-/

namespace AdventureKit

namespace Patching

variable {p p' : Patching} {name other : String} {data new : Bytes}

/-- The patch of an entry that keeps its name. -/
def file? (p : Patching) (name : String) : Option Bytes :=
  p.items.get? (name, name)

theorem addAs_cases {newName : String} (h : p.addAs name newName data = .ok p') :
    p' = p ∨ p' = { p with items := p.items.put (name, if newName == "" then name else newName) data } := by
  generalize hput : { p with items := p.items.put (name, if newName == "" then name else newName) data } = put
  have hrestricted : ∀ {x : Except Fault Bool},
      (x >>= fun isRestricted => if isRestricted = true then pure p else pure put) = .ok p' → p' = p ∨ p' = put := by
    intro x hx
    obtain ⟨isRestricted, -, hx⟩ := bind_eq_ok.1 hx
    split at hx
    · cases hx
      exact .inl rfl
    · cases hx
      exact .inr rfl
  unfold addAs at h
  dsimp only at h
  rw [hput] at h
  split at h
  · obtain ⟨isAllowed, -, h⟩ := bind_eq_ok.1 h
    split at h
    · cases h
      exact .inl rfl
    · exact hrestricted h
  · exact hrestricted h

theorem file?_of_add (h : p.add name data = .ok p') (hnew : p'.file? name = some new) :
    p.file? name = some new ∨ new = data := by
  rcases addAs_cases h with rfl | rfl
  · exact .inl hnew
  · have hput : (p.items.put (name, name) data).get? (name, name) = some new := hnew
    rw [Table.get?_put_self] at hput
    cases hput
    exact .inr rfl

theorem file?_of_addAs_of_ne {newName : String} (h : p.addAs other newName data = .ok p') (hne : name ≠ other) :
    p'.file? name = p.file? name := by
  rcases addAs_cases h with rfl | rfl
  · rfl
  · unfold file?
    exact Table.get?_put_of_ne _ (fun heq => hne (Prod.mk.inj heq).1) _

/-- Patches without restrictions are all gathered. -/
theorem add_of_unrestricted (patches : Table (String × String) Bytes) (name : String) (data : Bytes) :
    ({ items := patches } : Patching).add name data = .ok { items := patches.put (name, name) data } := by
  rfl

end Patching

/-- A script was read from bytes that can be taken apart. -/
theorem Game.read_of_scriptFile {e : Entry} {s : Session} {parts : ScriptFile}
    (h : ((Game.scriptFile e).run.run s).1 = .ok parts) :
    ∃ file, e.read.run.run s = (.ok file, s) ∧ ScriptFile.ofBytes file = .ok parts := by
  have hrun := (Game.still_scriptFile e).run_eq h
  obtain ⟨file, hread, hrun⟩ := e.still_read.run_bind_eq_ok hrun
  rw [Work.run_ofExcept] at hrun
  have hopens := (Prod.mk.inj hrun).1
  refine ⟨file, hread, ?_⟩
  cases e with
  | loose folder name => exact ScriptFile.ofBytes_of_ofLooseFile hopens
  | stored archive archiveFile name => exact hopens

end AdventureKit
