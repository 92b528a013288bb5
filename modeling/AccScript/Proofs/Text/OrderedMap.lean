import AccScript.Text.OrderedMap

/-!
# Looking keys up in ordered maps

What an insertion and a change of a value do to the answers of a map.
-/

namespace AccScript.OrderedMap

variable {κ α : Type} [DecidableEq κ]

theorem get?_cons (entry : κ × α) (m : OrderedMap κ α) (key : κ) :
    OrderedMap.get? (entry :: m) key = if key = entry.1 then some entry.2 else m.get? key := by
  unfold get?
  rw [List.lookup_cons]
  by_cases same : key = entry.1
  · simp [same]
  · simp [beq_false_of_ne same, same]

theorem get?_insert (m : OrderedMap κ α) (key other : κ) (value : α) :
    (m.insert key value).get? other = if other = key then some value else m.get? other := by
  induction m with
  | nil => rw [insert, get?_cons]
  | cons entry rest ih =>
    rw [insert]
    split
    · rename_i same
      rw [get?_cons, get?_cons, same]
      split <;> rfl
    · rename_i different
      rw [get?_cons, ih, get?_cons]
      by_cases same : other = entry.1
      · have apart : ¬other = key := fun h => different (same.symm.trans h)
        simp [same, different]
      · simp [same]

theorem get?_modify (m : OrderedMap κ α) (key other : κ) (f : α → α) :
    (m.modify key f).get? other = (m.get? other).map fun value =>
      if other = key then f value else value := by
  induction m with
  | nil => rfl
  | cons entry rest ih =>
    have step : OrderedMap.modify (entry :: rest) key f =
        (if entry.1 = key then (entry.1, f entry.2) else entry) ::
          OrderedMap.modify rest key f := rfl
    rw [step, get?_cons, get?_cons, ih]
    by_cases same : other = entry.1
    · subst same
      by_cases hit : entry.1 = key <;> simp [hit]
    · have kept : ¬other = (if entry.1 = key then (entry.1, f entry.2) else entry).1 := by
        split <;> exact same
      simp [same, kept]

/-- A key that is new leaves the answers for all others alone. -/
theorem get?_insert_of_some
    {m : OrderedMap κ α} {key other : κ} {value old : α} (fresh : m.get? key = none)
    (found : m.get? other = some old) : (m.insert key value).get? other = some old := by
  have different : other ≠ key := by
    rintro rfl
    rw [fresh] at found
    cases found
  rw [get?_insert, if_neg different]
  exact found

end AccScript.OrderedMap

namespace AccScript

variable {α : Type} [DecidableEq α] {items : List α} {x y : α}

theorem mem_insertNew : y ∈ insertNew items x ↔ y ∈ items ∨ y = x := by
  unfold insertNew
  split
  · rename_i mem
    exact ⟨.inl, fun h => h.elim id fun same => same ▸ mem⟩
  · rw [List.mem_append, List.mem_singleton]

theorem nodup_insertNew (nodup : items.Nodup) : (insertNew items x).Nodup := by
  unfold insertNew
  split
  · exact nodup
  · rename_i new
    refine List.nodup_append.mpr ⟨nodup, by simp, fun y mem z last => ?_⟩
    rintro rfl
    exact new (List.mem_singleton.mp last ▸ mem)

end AccScript
