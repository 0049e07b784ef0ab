import AdventureKit.Proofs.Script.Layout

/-!
# Script files with other texts

A block in the place of the texts moves the resources that stand behind them.  The file has the same parts but for its
texts if the header says where the resources are then (`opens_withTexts`, `opens_withTexts_moved`).
-/

namespace AdventureKit.ScriptFile

variable {file field block : Bytes} {header : Header} {parts : ScriptFile}

/-! ## Another place for the resources -/

/-- A file with other bytes in the field for the place of the resources. -/
def withField (file field : Bytes) : Bytes :=
  file.take resourcesField ++ field ++ file.drop (resourcesField + 4)

theorem take_withField (hlong : headerSize ≤ file.length) (field : Bytes) :
    (withField file field).take resourcesField = file.take resourcesField := by
  rw [withField, List.append_assoc]
  exact List.take_left' (List.length_take_of_le (Nat.le_trans (by decide) hlong))

theorem drop_withField (hlong : headerSize ≤ file.length) (hfield : field.length = 4) {k : Nat}
    (hk : resourcesField + 4 ≤ k) : (withField file field).drop k = file.drop k := by
  have hstart : (file.take resourcesField ++ field).length = resourcesField + 4 := by
    rw [List.length_append, List.length_take_of_le (Nat.le_trans (by decide) hlong), hfield]
  obtain ⟨j, rfl⟩ := Nat.exists_eq_add_of_le hk
  rw [withField, ← List.drop_drop, List.drop_left' hstart, List.drop_drop]

theorem length_withField (hlong : headerSize ≤ file.length) (hfield : field.length = 4) :
    (withField file field).length = file.length := by
  have hplace : resourcesField + 4 ≤ file.length := Nat.le_trans (by decide) hlong
  rw [withField, List.length_append, List.length_append, hfield, List.length_drop,
    List.length_take_of_le (Nat.le_of_add_right_le hplace)]
  omega

theorem getD_withField (hlong : headerSize ≤ file.length) (hfield : field.length = 4) {k : Nat}
    (hk : resourcesField + 4 ≤ k) : (withField file field).getD k 0 = file.getD k 0 := by
  rw [List.getD_eq_getElem?_getD, List.getD_eq_getElem?_getD, ← List.head?_drop, ← List.head?_drop,
    drop_withField hlong hfield hk]

/-- The header of such a file says the same but for the place of the resources. -/
theorem Header.held_withField (hlong : headerSize ≤ file.length) (hfield : field.length = 4) :
    Header.held (withField file field) =
      { Header.held file with resources := unmark 0xFFFFFFFF 0 field.toNatLE } := by
  have htexts : placeIn textsField (withField file field) = placeIn textsField file := by
    rw [← @placeIn_take textsField resourcesField (by decide), take_withField hlong, placeIn_take (by decide)]
  have hresources : placeIn resourcesField (withField file field) = unmark 0xFFFFFFFF 0 field.toNatLE := by
    have hdrop : (withField file field).drop resourcesField = field ++ file.drop (resourcesField + 4) := by
      rw [withField, List.append_assoc]
      exact List.drop_left' (List.length_take_of_le (Nat.le_trans (by decide) hlong))
    rw [placeIn, hdrop, Bytes.dword, List.take_left' hfield]
  have hfunctions : ∀ i, (withField file field).drop (100 + 2 * i) = file.drop (100 + 2 * i) :=
    fun i => drop_withField hlong hfield (Nat.le_trans (by decide) (Nat.le_add_right 100 _))
  unfold Header.held
  rw [htexts, hresources, getD_withField hlong hfield (by decide), getD_withField hlong hfield (by decide)]
  simp only [hfunctions]

theorem versionOf_withField (hlong : headerSize ≤ file.length) (field : Bytes) :
    versionOf (withField file field) = versionOf file := by
  have hstart : 42 ≤ (file.take resourcesField).length := by
    rw [List.length_take_of_le (Nat.le_trans (by decide) hlong)]
    decide
  have hsplit : file = file.take resourcesField ++ file.drop resourcesField := (List.take_append_drop _ _).symm
  unfold versionOf withField
  rw [List.append_assoc, Bytes.slice_append hstart]
  conv => rhs; rw [hsplit]
  rw [Bytes.slice_append hstart]

/-! ## Another block -/

/-- The file with a block in the place of its texts, and with its old header. -/
def withTexts (file : Bytes) (parts : ScriptFile) (block : Bytes) : Bytes :=
  file.take headerSize ++ (parts.code ++ (block ++ parts.resources.getD []))

theorem length_withTexts (hlong : headerSize ≤ file.length) (parts : ScriptFile) (block : Bytes) :
    (withTexts file parts block).length =
      headerSize + (parts.code.length + (block.length + (parts.resources.getD []).length)) := by
  rw [withTexts, List.length_append, List.length_append, List.length_append, List.length_take_of_le hlong]

theorem headerSize_le_withTexts (hlong : headerSize ≤ file.length) (parts : ScriptFile) (block : Bytes) :
    headerSize ≤ (withTexts file parts block).length := by
  rw [length_withTexts hlong]
  exact Nat.le_add_right _ _

theorem take_withTexts (hlong : headerSize ≤ file.length) (parts : ScriptFile) (block : Bytes) :
    (withTexts file parts block).take headerSize = file.take headerSize :=
  List.take_left' (List.length_take_of_le hlong)

theorem drop_withTexts (hlong : headerSize ≤ file.length) (parts : ScriptFile) (block : Bytes) :
    (withTexts file parts block).drop headerSize = parts.code ++ (block ++ parts.resources.getD []) :=
  List.drop_left' (List.length_take_of_le hlong)

theorem Header.held_withTexts (hlong : headerSize ≤ file.length) (parts : ScriptFile) (block : Bytes) :
    Header.held (withTexts file parts block) = Header.held file := by
  rw [← Header.held_take, take_withTexts hlong, Header.held_take]

theorem versionOf_withTexts (hlong : headerSize ≤ file.length) (parts : ScriptFile) (block : Bytes) :
    versionOf (withTexts file parts block) = versionOf file := by
  rw [← versionOf_take (headerSize_le_withTexts hlong parts block), take_withTexts hlong, versionOf_take hlong]

/-- Other texts, with the resources moved behind them. -/
theorem Cut.withTexts (h : Cut header file parts) {header' : Header} {start block : Bytes}
    (hstart : start.length = headerSize) (hthere : header.texts ≠ 0)
    (hheader' : header' = { header with resources :=
      if header.resources = 0 then 0 else headerSize + parts.code.length + block.length }) :
    Cut header' (start ++ (parts.code ++ (block ++ parts.resources.getD []))) { parts with texts := some block } := by
  subst hheader'
  refine ⟨?_, iff_of_false (by simp) hthere, ?_, h.texts_start, ?_, h.functions, h.imNumber, h.exNumber⟩
  · rw [List.take_left' hstart]
    rfl
  · have hnone := h.resources_none
    dsimp only
    split
    · exact iff_of_true (hnone.2 ‹_›) rfl
    · refine iff_of_false (fun hzero => absurd (hnone.1 hzero) ‹_›) ?_
      rw [headerSize]
      omega
  · dsimp only
    split
    · exact fun hne => absurd rfl hne
    · exact fun _ => rfl

section Opens

variable (hlong : headerSize ≤ file.length) (hversion : ∃ version, Utf8.decode (versionOf file) = .ok version)
  (hcut : Cut (Header.held file) file parts) (hthere : (Header.held file).texts ≠ 0)

include hversion hcut hthere

theorem opens_of_held {patched : Bytes} (hlong : headerSize ≤ patched.length)
    (hversion' : versionOf patched = versionOf file)
    (hheld : Header.held patched = { Header.held file with resources :=
      if (Header.held file).resources = 0 then 0 else headerSize + parts.code.length + block.length })
    (hdrop : patched.drop headerSize = parts.code ++ (block ++ parts.resources.getD [])) :
    ofBytes patched = .ok { parts with texts := some block } ∧
      ofLooseFile patched = .ok { parts with texts := some block } := by
  have hcut' := hcut.withTexts (List.length_take_of_le hlong) hthere hheld
  rw [← hdrop, List.take_append_drop] at hcut'
  rw [← hversion'] at hversion
  have hopens := (ofBytes_eq_ok_iff hlong).2 ⟨hversion, hcut'⟩
  exact ⟨hopens, (ofLooseFile_eq_ok_iff hlong).2 hopens⟩

include hlong

/-- A file without resources. -/
theorem opens_withTexts (hnone : (Header.held file).resources = 0) (block : Bytes) :
    ofBytes (withTexts file parts block) = .ok { parts with texts := some block } ∧
      ofLooseFile (withTexts file parts block) = .ok { parts with texts := some block } := by
  refine opens_of_held hversion hcut hthere (headerSize_le_withTexts hlong parts block)
    (versionOf_withTexts hlong parts block) ?_ (drop_withTexts hlong parts block)
  rw [Header.held_withTexts hlong, if_pos hnone, ← hnone]

/-- A file with resources, whose new place is in the header.  It is not the mark for none in a file that is not too
long. -/
theorem opens_withTexts_moved (hsome : (Header.held file).resources ≠ 0) {place : Nat}
    (hplace : place = headerSize + parts.code.length + block.length)
    (hsize : (withField (withTexts file parts block) (Bytes.ofNatLE 4 place)).length < 0xFFFFFFFF) :
    ofBytes (withField (withTexts file parts block) (Bytes.ofNatLE 4 place)) = .ok { parts with texts := some block } ∧
      ofLooseFile (withField (withTexts file parts block) (Bytes.ofNatLE 4 place)) =
        .ok { parts with texts := some block } := by
  have hlong' := headerSize_le_withTexts hlong parts block
  have hfield : (Bytes.ofNatLE 4 place).length = 4 := Bytes.length_ofNatLE 4 place
  have hlength := length_withField hlong' hfield
  have hlt : place < 0xFFFFFFFF := by
    rw [hlength, length_withTexts hlong] at hsize
    omega
  have hdrop := drop_withField hlong' hfield (show resourcesField + 4 ≤ headerSize by decide)
  refine opens_of_held hversion hcut hthere (hlength ▸ hlong') ?_ ?_ (hdrop.trans (drop_withTexts hlong parts block))
  · rw [versionOf_withField hlong', versionOf_withTexts hlong]
  · rw [Header.held_withField hlong' hfield, Header.held_withTexts hlong, if_neg hsome,
      Bytes.toNatLE_ofNatLE (Nat.lt_trans hlt (by decide)), unmark, if_neg (Nat.ne_of_lt hlt), hplace]

end Opens

end AdventureKit.ScriptFile
