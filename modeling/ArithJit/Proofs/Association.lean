import ArithJit.Assoc

/-!
# Proofs: association lists

What insertions and erasures do to the entries of an association list and to what look-ups find. An
entry is found by its key where no key stands twice. All of this is the same under a change of the values.
The keys stand in the order in which they came first, as in a list without its later duplicates.
-/

namespace ArithJit.Assoc

variable {κ ν : Type} [DecidableEq κ]

theorem mem_of_find? {key : κ} {value : ν} {entries : List (κ × ν)}
    (h : find? key entries = some value) : (key, value) ∈ entries := by
  induction entries with
  | nil => simp at h
  | cons entry rest ih =>
    obtain ⟨k, v⟩ := entry
    by_cases hk : k = key
    · simp only [find?, hk, if_true, Option.some.injEq] at h
      simp [hk, h]
    · simp only [find?, hk, if_false] at h
      exact List.mem_cons_of_mem _ (ih h)

theorem find?_of_mem {key : κ} {value : ν} {entries : List (κ × ν)}
    (hn : (entries.map Prod.fst).Nodup) (h : (key, value) ∈ entries) :
    find? key entries = some value := by
  induction entries with
  | nil => simp at h
  | cons entry rest ih =>
    obtain ⟨k, v⟩ := entry
    rw [List.map_cons, List.nodup_cons] at hn
    rcases List.mem_cons.mp h with e | e
    · obtain ⟨rfl, rfl⟩ := Prod.mk.inj e
      simp [find?]
    · have hk : k ≠ key := by
        rintro rfl
        exact hn.1 (List.mem_map.mpr ⟨_, e, rfl⟩)
      simp only [find?, hk, if_false]
      exact ih hn.2 e

theorem find?_eq_none {key : κ} {entries : List (κ × ν)} :
    find? key entries = none ↔ key ∉ entries.map Prod.fst := by
  induction entries with
  | nil => simp
  | cons entry rest ih =>
    obtain ⟨k, v⟩ := entry
    by_cases hk : k = key
    · simp [find?, hk]
    · simp [find?, hk, ih, Ne.symm hk]

/-- A key that has no value is inserted at the end. -/
theorem insert_eq_append {key : κ} {value : ν} {entries : List (κ × ν)}
    (h : find? key entries = none) : insert key value entries = entries ++ [(key, value)] := by
  induction entries with
  | nil => rfl
  | cons entry rest ih =>
    obtain ⟨k, v⟩ := entry
    by_cases hk : k = key
    · simp [find?, hk] at h
    · simp only [find?, hk, if_false] at h
      simp [insert, hk, ih h]

/-- Erasing takes one entry away. -/
theorem perm_erase {key : κ} {value : ν} {entries : List (κ × ν)}
    (h : find? key entries = some value) : entries.Perm ((key, value) :: erase key entries) := by
  induction entries with
  | nil => simp at h
  | cons entry rest ih =>
    obtain ⟨k, v⟩ := entry
    by_cases hk : k = key
    · simp only [find?, hk, if_true, Option.some.injEq] at h
      simp [erase, hk, h]
    · simp only [find?, hk, if_false] at h
      simp only [erase, hk, if_false]
      exact ((ih h).cons _).trans (List.Perm.swap ..)

theorem find?_erase_of_ne {key other : κ} (h : other ≠ key) (entries : List (κ × ν)) :
    find? other (erase key entries) = find? other entries := by
  induction entries with
  | nil => rfl
  | cons entry rest ih =>
    obtain ⟨k, v⟩ := entry
    by_cases hk : k = key
    · subst hk
      simp [erase, find?, Ne.symm h]
    · simp [erase, find?, hk, ih]

theorem find?_erase_self {key : κ} {entries : List (κ × ν)} (hn : (entries.map Prod.fst).Nodup) :
    find? key (erase key entries) = none := by
  induction entries with
  | nil => rfl
  | cons entry rest ih =>
    obtain ⟨k, v⟩ := entry
    rw [List.map_cons, List.nodup_cons] at hn
    by_cases hk : k = key
    · subst hk
      simpa [erase, find?_eq_none] using hn.1
    · simp [erase, find?, hk, ih hn.2]

/-! ## Other values for the same keys -/

section Map

variable {μ : Type} (f : ν → μ) (key : κ)

theorem find?_map (entries : List (κ × ν)) :
    find? key (entries.map (Prod.map id f)) = (find? key entries).map f := by
  induction entries with
  | nil => rfl
  | cons entry rest ih =>
    obtain ⟨k, v⟩ := entry
    by_cases hk : k = key
    · simp [find?, hk]
    · simp [find?, hk, ih]

theorem insert_map (value : ν) (entries : List (κ × ν)) :
    insert key (f value) (entries.map (Prod.map id f)) = (insert key value entries).map (Prod.map id f) := by
  induction entries with
  | nil => rfl
  | cons entry rest ih =>
    obtain ⟨k, v⟩ := entry
    by_cases hk : k = key
    · simp [insert, hk]
    · simp [insert, hk, ih]

theorem erase_map (entries : List (κ × ν)) :
    erase key (entries.map (Prod.map id f)) = (erase key entries).map (Prod.map id f) := by
  induction entries with
  | nil => rfl
  | cons entry rest ih =>
    obtain ⟨k, v⟩ := entry
    by_cases hk : k = key
    · simp [erase, hk]
    · simp [erase, hk, ih]

end Map

end ArithJit.Assoc

/-! ## Lists that grow at their end -/

namespace ArithJit

variable {α : Type}

/-- A list with one more element at its end is cut within the list or before that element. -/
theorem append_singleton_eq {list before after : List α} {a b : α} (h : list ++ [a] = before ++ b :: after) :
    (before = list ∧ b = a ∧ after = []) ∨ ∃ rest, after = rest ++ [a] ∧ list = before ++ b :: rest := by
  rcases List.eq_nil_or_concat after with rfl | ⟨rest, l, rfl⟩
  · obtain ⟨rfl, hi⟩ := List.append_inj' h rfl
    exact Or.inl ⟨rfl, by simpa using hi.symm, rfl⟩
  · rw [List.concat_eq_append, ← List.cons_append, ← List.append_assoc] at h
    obtain ⟨hc, hl⟩ := List.append_inj' h rfl
    obtain rfl : a = l := by simpa using hl
    exact Or.inr ⟨rest, by simp, hc⟩

/-- A list of pairs is a prefix of another one if it is so in both components. -/
theorem prefix_of_components {β : Type} {xs ys : List (α × β)} (h₁ : xs.map Prod.fst <+: ys.map Prod.fst)
    (h₂ : xs.map Prod.snd <+: ys.map Prod.snd) : xs <+: ys := by
  have hzip : ∀ zs : List (α × β), (zs.map Prod.fst).zip (zs.map Prod.snd) = zs := by
    intro zs
    rw [List.zip_map']
    exact List.map_id zs
  rw [List.prefix_iff_eq_take, List.length_map, ← List.map_take] at h₁ h₂
  rw [List.prefix_iff_eq_take, ← hzip xs, h₁, h₂, hzip, List.length_take, ← List.take_take, List.take_length]

variable [DecidableEq α] {xs ys : List α} {x : α}

theorem nodup_eraseDups (xs : List α) : xs.eraseDups.Nodup := by
  match xs with
  | [] => simp
  | x :: rest =>
    rw [List.eraseDups_cons, List.nodup_cons]
    exact ⟨by simp, nodup_eraseDups _⟩
termination_by xs.length
decreasing_by exact Nat.lt_succ_of_le (List.length_filter_le _ _)

theorem eraseDups_append_of_subset (h : ∀ x ∈ ys, x ∈ xs) : (xs ++ ys).eraseDups = xs.eraseDups := by
  have hnone : ys.removeAll xs = [] := by
    rw [List.eq_nil_iff_forall_not_mem]
    intro x hx
    simp only [List.removeAll, List.mem_filter] at hx
    simp [h x hx.1] at hx
  rw [List.eraseDups_append, hnone]
  simp

theorem eraseDups_concat (h : x ∉ xs) : (xs ++ [x]).eraseDups = xs.eraseDups ++ [x] := by
  have hone : [x].removeAll xs = [x] := by
    simp [List.removeAll, h]
  rw [List.eraseDups_append, hone]
  simp [List.eraseDups_cons]

end ArithJit
