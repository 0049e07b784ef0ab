import AdventureKit.Proofs.Fault
import AdventureKit.Stream.Output

/-!
# Outputs that only grow

An output that is never moved back stands behind all that was written and passed over (`Output.Behind`).  The gaps
count as zeros, and a last byte makes them all appear (`Behind.bytes_write`).

A computation that writes can be compared with one that gives the bytes: `Adds` says that both fail alike, or that the
output stands behind these bytes.
-/

namespace AdventureKit.Output

/-- The output stands behind these bytes, if gaps are taken for zeros. -/
structure Behind (o : Output) (bs : Bytes) : Prop where
  size_le : o.data.size ≤ o.pos
  filled : Bytes.padTo o.pos o.bytes = bs

variable {o : Output} {bs : Bytes}

theorem behind_empty : empty.Behind [] :=
  ⟨Nat.le_refl _, rfl⟩

theorem Behind.length_eq (h : o.Behind bs) : bs.length = o.pos := by
  have hsize : o.bytes.length = o.data.size := Array.length_toList
  rw [← h.filled, Bytes.padTo, List.length_append, List.length_replicate, hsize]
  have := h.size_le
  omega

theorem Behind.skip (h : o.Behind bs) (n : Nat) : (o.skip n).Behind (bs ++ List.replicate n 0) := by
  have hsize : o.bytes.length = o.data.size := Array.length_toList
  have hle := h.size_le
  refine ⟨Nat.le_trans hle (Nat.le_add_right _ _), ?_⟩
  have hgap : o.pos + n - o.bytes.length = o.pos - o.bytes.length + n := by omega
  show Bytes.padTo (o.pos + n) o.bytes = _
  rw [← h.filled, Bytes.padTo, Bytes.padTo, hgap, List.append_assoc, List.replicate_append_replicate]

/-- What is written behind a gap makes the gap appear. -/
theorem Behind.bytes_write (h : o.Behind bs) {new : Bytes} (hnew : new ≠ []) : (o.write new).bytes = bs ++ new := by
  have hsize : o.bytes.length = o.data.size := Array.length_toList
  rw [write, if_neg (by simpa using hnew), if_pos h.size_le, ← h.filled, Bytes.padTo, hsize]
  simp [bytes]

theorem Behind.write (h : o.Behind bs) (new : Bytes) : (o.write new).Behind (bs ++ new) := by
  by_cases hnew : new = []
  · rw [hnew, List.append_nil]
    exact h
  · have hbytes := h.bytes_write hnew
    have hpos : (o.write new).pos = o.pos + new.length := by
      rw [Output.write, if_neg (by simpa using hnew), if_pos h.size_le]
    have hsize : (o.write new).data.size = (o.write new).pos := by
      rw [← Array.length_toList, hpos, ← h.length_eq, ← List.length_append]
      exact congrArg List.length hbytes
    have hlength : (o.write new).bytes.length = (o.write new).pos := Array.length_toList.trans hsize
    refine ⟨Nat.le_of_eq hsize, ?_⟩
    rw [Bytes.padTo, hlength, Nat.sub_self, List.replicate_zero, List.append_nil, hbytes]

/-! ## Writing and computing bytes -/

/-- Writing behind `bs` goes as computing the bytes does: both give the same fault, or the output stands behind the new
bytes. -/
def Adds (bs : Bytes) (writing : Except Fault Output) (computing : Except Fault Bytes) : Prop :=
  (∃ o new, writing = .ok o ∧ computing = .ok new ∧ o.Behind (bs ++ new)) ∨
    ∃ e, writing = .error e ∧ computing = .error e

theorem Adds.fault (bs : Bytes) (e : Fault) : Adds bs (.error e) (.error e) :=
  .inr ⟨e, rfl, rfl⟩

theorem Adds.nothing (h : o.Behind bs) : Adds bs (.ok o) (.ok []) :=
  .inl ⟨o, [], rfl, rfl, by rwa [List.append_nil]⟩

/-- Two parts, one behind the other. -/
theorem Adds.append {writing : Except Fault Output} {computing rest : Except Fault Bytes}
    {next : Output → Except Fault Output} (h : Adds bs writing computing)
    (hnext : ∀ o new, computing = .ok new → o.Behind (bs ++ new) → Adds (bs ++ new) (next o) rest) :
    Adds bs (writing >>= next) (do return (← computing) ++ (← rest)) := by
  rcases h with ⟨o, new, rfl, rfl, ho⟩ | ⟨e, rfl, rfl⟩
  · rcases hnext o new rfl ho with ⟨o', new', hwritten, rfl, ho'⟩ | ⟨e, hwritten, rfl⟩
    · exact .inl ⟨o', new ++ new', hwritten, rfl, by rwa [← List.append_assoc]⟩
    · exact .inr ⟨e, hwritten, rfl⟩
  · exact .inr ⟨e, rfl, rfl⟩

end AdventureKit.Output
