import AdventureKit.Table

/-!
# Laws of tables

Look-ups, and the keys in their order.  A table of items whose keys are all different is the list of
these items (`ofItems_eq_self`).
-/

namespace AdventureKit.Table

variable {κ α β : Type}

theorem keys_append (t u : Table κ α) : (t ++ u : Table κ α).keys = t.keys ++ u.keys :=
  List.map_append

variable [BEq κ]

theorem get?_append (t u : Table κ α) (k : κ) : (t ++ u : Table κ α).get? k = (t.get? k).or (u.get? k) :=
  List.lookup_append

theorem get?_append_left {t : Table κ α} {k : κ} {v : α} (h : t.get? k = some v) (u : Table κ α) :
    (t ++ u : Table κ α).get? k = some v := by
  rw [get?_append, h]
  rfl

theorem mem_put {t : Table κ α} {k : κ} {v : α} {p : κ × α} (h : p ∈ t.put k v) :
    p = (k, v) ∨ p ∈ t := by
  rw [put] at h
  split at h
  · obtain ⟨q, hq, rfl⟩ := List.mem_map.1 h
    split
    · exact .inl rfl
    · exact .inr hq
  · rw [List.mem_append, List.mem_singleton] at h
    exact h.symm

theorem mem_of_mem_foldl_put {items : List (κ × α)} {t : Table κ α} {p : κ × α}
    (h : p ∈ items.foldl (fun t item => put t item.1 item.2) t) : p ∈ t ∨ p ∈ items := by
  induction items generalizing t with
  | nil => exact .inl h
  | cons item items ih =>
    obtain h | h := ih h
    · obtain rfl | h := mem_put h
      · exact .inr (by simp)
      · exact .inl h
    · exact .inr (List.mem_cons_of_mem _ h)

theorem mem_of_mem_ofItems {items : List (κ × α)} {p : κ × α} (h : p ∈ ofItems items) : p ∈ items := by
  obtain h | h := mem_of_mem_foldl_put h
  · cases h
  · exact h

variable [LawfulBEq κ] {t : Table κ α} {k : κ} {v : α}

theorem has_iff : t.has k = true ↔ k ∈ t.keys := by
  simp [has, keys]

theorem get?_eq_none_iff : t.get? k = none ↔ k ∉ t.keys := by
  rw [get?, List.lookup_eq_none_iff]
  constructor
  · intro h hk
    obtain ⟨p, hp, rfl⟩ := List.mem_map.1 hk
    simpa using h p hp
  · intro h p hp
    exact bne_iff_ne.2 fun he => h (List.mem_map.2 ⟨p, hp, he.symm⟩)

theorem mem_of_get? (h : t.get? k = some v) : (k, v) ∈ t := by
  obtain ⟨before, after, rfl, -⟩ := List.lookup_eq_some_iff.1 h
  exact List.mem_append_right _ List.mem_cons_self

theorem get?_of_mem (hn : t.keys.Nodup) (h : (k, v) ∈ t) : t.get? k = some v := by
  obtain ⟨before, after, rfl⟩ := List.append_of_mem h
  refine List.lookup_eq_some_iff.2 ⟨before, after, rfl, fun p hp => ?_⟩
  rw [keys, List.map_append, List.nodup_append] at hn
  exact bne_iff_ne.2 fun he => hn.2.2 p.1 (List.mem_map_of_mem hp) k (by simp) he.symm

theorem exists_get?_of_mem_keys (h : k ∈ t.keys) : ∃ v, t.get? k = some v := by
  cases hv : t.get? k with
  | none => exact absurd h (get?_eq_none_iff.1 hv)
  | some v => exact ⟨v, rfl⟩

/-! ### Giving a key a value -/

theorem put_eq_append (h : k ∉ t.keys) (v : α) : t.put k v = t ++ [(k, v)] := by
  rw [put, if_neg (mt has_iff.1 h)]

theorem get?_append_self (h : k ∉ t.keys) : (t ++ [(k, v)] : Table κ α).get? k = some v := by
  rw [get?_append, get?_eq_none_iff.2 h]
  simp [get?]

theorem keys_put (t : Table κ α) (k : κ) (v : α) :
    (t.put k v).keys = t.keys ∨ (k ∉ t.keys ∧ (t.put k v).keys = t.keys ++ [k]) := by
  by_cases h : k ∈ t.keys
  · left
    rw [put, if_pos (has_iff.2 h), keys, List.map_map]
    refine List.map_congr_left fun p _ => ?_
    by_cases hp : p.1 = k
    · simp [hp]
    · simp [hp]
  · right
    refine ⟨h, ?_⟩
    rw [put_eq_append h, keys, List.map_append]
    rfl

theorem nodup_keys_put (h : t.keys.Nodup) (k : κ) (v : α) : (t.put k v).keys.Nodup := by
  obtain he | ⟨hk, he⟩ := keys_put t k v
  · rwa [he]
  · rw [he, List.nodup_append]
    refine ⟨h, by simp, fun a ha b hb => ?_⟩
    rw [List.mem_singleton] at hb
    rintro rfl
    exact hk (hb ▸ ha)

theorem mem_keys_put {k' : κ} : k' ∈ (t.put k v).keys ↔ k' = k ∨ k' ∈ t.keys := by
  by_cases hk : k ∈ t.keys
  · rw [(keys_put t k v).resolve_right fun h => h.1 hk]
    refine ⟨.inr, ?_⟩
    rintro (rfl | h)
    · exact hk
    · exact h
  · rw [put_eq_append hk, keys_append, List.mem_append, or_comm]
    exact or_congr_left List.mem_singleton

theorem get?_put_self (t : Table κ α) (k : κ) (v : α) : (t.put k v).get? k = some v := by
  by_cases hk : k ∈ t.keys
  · rw [put, if_pos (has_iff.2 hk)]
    induction t with
    | nil => cases hk
    | cons p t ih =>
      simp only [get?] at ih ⊢
      by_cases hp : p.1 = k
      · simp [hp]
      · have hne : (k == p.1) = false := beq_eq_false_iff_ne.2 (Ne.symm hp)
        have hmem : k ∈ keys t := (List.mem_cons.1 hk).resolve_left (Ne.symm hp)
        rw [List.map_cons, if_neg (by simpa using hp), List.lookup_cons, hne]
        exact ih hmem
  · rw [put_eq_append hk, get?_append_self hk]

theorem get?_put_of_ne (t : Table κ α) {k k' : κ} (h : k' ≠ k) (v : α) : (t.put k v).get? k' = t.get? k' := by
  by_cases hk : k ∈ t.keys
  · rw [put, if_pos (has_iff.2 hk)]
    clear hk
    induction t with
    | nil => rfl
    | cons p t ih =>
      simp only [get?] at ih ⊢
      rw [List.map_cons, List.lookup_cons, List.lookup_cons, ih]
      by_cases hp : p.1 = k
      · have hne : (k' == k) = false := beq_eq_false_iff_ne.2 h
        simp [hp, hne]
      · rw [if_neg (by simpa using hp)]
  · have hnone : get? [(k, v)] k' = none := get?_eq_none_iff.2 (by simpa [keys] using h)
    rw [put_eq_append hk, get?_append, hnone, Option.or_none]

theorem get?_put_cases {k' : κ} {v' : α} (h : (t.put k v).get? k' = some v') :
    k' = k ∧ v' = v ∨ k' ≠ k ∧ t.get? k' = some v' := by
  by_cases hk : k' = k
  · subst hk
    rw [get?_put_self, Option.some.injEq] at h
    exact .inl ⟨rfl, h.symm⟩
  · rw [get?_put_of_ne t hk] at h
    exact .inr ⟨hk, h⟩

/-! ### Tables of items -/

theorem nodup_keys_ofItems (items : List (κ × α)) : (ofItems items).keys.Nodup := by
  have hall : ∀ (t : Table κ α), t.keys.Nodup →
      (items.foldl (fun t item => put t item.1 item.2) t).keys.Nodup := by
    induction items with
    | nil => exact fun t h => h
    | cons item items ih => exact fun t h => ih _ (nodup_keys_put h item.1 item.2)
  exact hall [] List.nodup_nil

theorem ofItems_eq_self {items : List (κ × α)} (h : (items.map Prod.fst).Nodup) : ofItems items = items := by
  have hall : ∀ (t : Table κ α), (t.keys ++ items.map Prod.fst).Nodup →
      items.foldl (fun t item => put t item.1 item.2) t = t ++ items := by
    clear h
    induction items with
    | nil => exact fun t _ => (List.append_nil t).symm
    | cons item items ih =>
      intro t h
      have hk : item.1 ∉ t.keys := by
        rw [List.nodup_append] at h
        exact fun hk => h.2.2 _ hk item.1 (by simp) rfl
      rw [List.foldl_cons, put_eq_append hk, ih _ (by simpa [keys] using h)]
      simp
  exact hall [] h

theorem mem_keys_ofItems {items : List (κ × α)} {p : κ × α} (h : p ∈ items) : p.1 ∈ (ofItems items).keys := by
  have hall : ∀ (t : Table κ α), p.1 ∈ t.keys ∨ p ∈ items →
      p.1 ∈ (items.foldl (fun t item => put t item.1 item.2) t).keys := by
    clear h
    induction items with
    | nil => exact fun t ht => ht.resolve_right (by simp)
    | cons item items ih =>
      intro t ht
      refine ih _ ?_
      rw [mem_keys_put]
      rcases ht with ht | ht
      · exact .inl (.inr ht)
      · rcases List.mem_cons.1 ht with rfl | ht
        · exact .inl (.inl rfl)
        · exact .inr ht
  exact hall [] (.inr h)

omit [LawfulBEq κ] in
theorem ofItems_concat (items : List (κ × α)) (k : κ) (v : α) :
    ofItems (items ++ [(k, v)]) = (ofItems items).put k v := by
  rw [ofItems, List.foldl_append]
  rfl

omit [LawfulBEq κ] in
theorem length_foldl_put_le (items : List (κ × α)) (t : Table κ α) :
    (items.foldl (fun t item => put t item.1 item.2) t).length ≤ t.length + items.length := by
  induction items generalizing t with
  | nil => exact Nat.le_refl _
  | cons item items ih =>
    have hrest := ih (t.put item.1 item.2)
    have hput : (t.put item.1 item.2).length ≤ t.length + 1 := by
      rw [put]
      split
      · rw [List.length_map]
        exact Nat.le_succ _
      · rw [List.length_append]
        exact Nat.le_refl _
    rw [List.foldl_cons, List.length_cons]
    omega

omit [LawfulBEq κ] in
theorem length_ofItems_le (items : List (κ × α)) : (ofItems items).length ≤ items.length := by
  simpa [ofItems] using length_foldl_put_le items []

/-- If no item is lost, then all items are kept as they are. -/
theorem ofItems_eq_self_of_length {items : List (κ × α)} (h : items.length ≤ (ofItems items).length) :
    ofItems items = items := by
  have hall : ∀ (t : Table κ α),
      t.length + items.length ≤ (items.foldl (fun t item => put t item.1 item.2) t).length →
      items.foldl (fun t item => put t item.1 item.2) t = t ++ items := by
    clear h
    induction items with
    | nil => exact fun t _ => (List.append_nil t).symm
    | cons item items ih =>
      intro t h
      have hle := length_foldl_put_le items (t.put item.1 item.2)
      rw [List.foldl_cons, List.length_cons] at h
      have hk : item.1 ∉ t.keys := by
        intro hk
        rw [put, if_pos (has_iff.2 hk), List.length_map] at hle
        rw [put, if_pos (has_iff.2 hk)] at h
        omega
      have hput := put_eq_append hk item.2
      have hlen : (t.put item.1 item.2).length = t.length + 1 := by
        rw [hput, List.length_append]
        rfl
      rw [List.foldl_cons, ih (t.put item.1 item.2) (by omega), hput, List.append_assoc]
      rfl
  exact hall [] (by rw [List.length_nil, Nat.zero_add]; exact h)

/-! ### Tables without some keys -/

/-- The items of the other keys. -/
def without (t : Table κ α) (ks : List κ) : Table κ α :=
  t.filter fun p => !ks.contains p.1

/-- Leaving out other keys does not change the value of a key. -/
theorem get?_filter (keep : κ → Bool) (t : Table κ α) (h : keep k = true) :
    get? (t.filter fun p => keep p.1) k = t.get? k := by
  induction t with
  | nil => rfl
  | cons p t ih =>
    simp only [get?] at ih ⊢
    rw [List.filter_cons]
    by_cases hp : keep p.1 = true
    · rw [if_pos hp, List.lookup_cons, List.lookup_cons, ih]
    · have hne : (k == p.1) = false := beq_eq_false_iff_ne.2 fun he => hp (he ▸ h)
      rw [if_neg hp, List.lookup_cons, hne, ih]

theorem get?_without {ks : List κ} (t : Table κ α) (h : k ∉ ks) : (t.without ks).get? k = t.get? k :=
  get?_filter (fun key => !ks.contains key) t (by simp [h])

theorem mem_without {ks : List κ} {p : κ × α} : p ∈ t.without ks ↔ p ∈ t ∧ p.1 ∉ ks := by
  simp [without]

theorem mem_keys_without {t : Table κ α} {ks : List κ} (h : k ∈ (t.without ks).keys) : k ∈ t.keys ∧ k ∉ ks := by
  obtain ⟨p, hp, rfl⟩ := List.mem_map.1 h
  obtain ⟨hmem, hother⟩ := mem_without.1 hp
  exact ⟨List.mem_map_of_mem hmem, hother⟩

omit [LawfulBEq κ] in
theorem without_nil (t : Table κ α) : t.without [] = t :=
  List.filter_eq_self.2 fun _ _ => rfl

theorem erase_without (t : Table κ α) (ks : List κ) (k : κ) :
    (t.without ks).erase k = t.without (ks ++ [k]) := by
  rw [erase, without, without, List.filter_filter]
  refine List.filter_congr fun p _ => ?_
  by_cases hk : p.1 = k
  · simp [hk]
  · simp [hk]

end AdventureKit.Table
