import SampleStream.Sample.Registry

/-!
# What look-ups find

An entry that is found was registered for just the identifier it was looked up
by. The standard registry therefore finds nothing but the conversions it lists,
each under its own formats.
-/

namespace SampleStream.Sample

variable {κ : Type}

/-! ## Entries -/

theorem Ranked.mem_insert {priority p : Priority} {entry e : κ} {ranked : Ranked κ}
    (h : (p, e) ∈ Ranked.insert priority entry ranked) :
    (p, e) = (priority, entry) ∨ (p, e) ∈ ranked := by
  induction ranked with
  | nil => exact .inl (List.mem_singleton.mp h)
  | cons head rest ih =>
    obtain ⟨q, f⟩ := head
    rw [Ranked.insert] at h
    split at h
    · exact List.mem_cons.mp h
    · split at h
      · rcases List.mem_cons.mp h with heq | hrest
        · exact .inl heq
        · exact .inr (List.mem_cons_of_mem _ hrest)
      · rcases List.mem_cons.mp h with heq | hrest
        · exact .inr (by simp [heq])
        · rcases ih hrest with heq | hmem
          · exact .inl heq
          · exact .inr (List.mem_cons_of_mem _ hmem)

section Tables

variable {α β : Type} [BEq α] [LawfulBEq α] [DecidableEq α]

theorem lookup_cons_ite (k key : α) (value : β) (rest : List (α × β)) :
    ((key, value) :: rest).lookup k = if k = key then some value else rest.lookup k := by
  by_cases h : k = key
  · subst h
    simp
  · simp [List.lookup_cons, beq_eq_false_iff_ne.mpr h, h]

theorem lookup_filter_ne {key other : α} (h : other ≠ key) (table : List (α × β)) :
    (table.filter (·.1 ≠ key)).lookup other = table.lookup other := by
  induction table with
  | nil => rfl
  | cons head rest ih =>
    obtain ⟨k, value⟩ := head
    by_cases hk : k = key
    · have hdrop : ((k, value) :: rest).filter (·.1 ≠ key) = rest.filter (·.1 ≠ key) := by
        simp [hk]
      have hne : other ≠ k := fun heq => h (heq.trans hk)
      rw [hdrop, lookup_cons_ite, if_neg hne, ih]
    · have hkeep : ((k, value) :: rest).filter (·.1 ≠ key) =
          (k, value) :: rest.filter (·.1 ≠ key) := by simp [hk]
      rw [hkeep, lookup_cons_ite, lookup_cons_ite, ih]

/-- A table with the row of one key put anew. -/
theorem lookup_cons_filter (k key : α) (value : β) (table : List (α × β)) :
    ((key, value) :: table.filter (·.1 ≠ key)).lookup k =
      if k = key then some value else table.lookup k := by
  rw [lookup_cons_ite]
  split
  · rfl
  · rename_i h
    exact lookup_filter_ne h table

end Tables

namespace Registry

theorem entries_register (r : Registry κ) (id other : ConversionId) (entry : κ)
    (priority : Priority) :
    (r.register id entry priority).entries other =
      if other = id then (r.entries id).insert priority entry else r.entries other := by
  rw [entries, register, lookup_cons_filter]
  split <;> rfl

theorem mem_entries_register {r : Registry κ} {id other : ConversionId} {entry e : κ}
    {priority p : Priority} (h : (p, e) ∈ (r.register id entry priority).entries other) :
    (other = id ∧ e = entry ∧ p = priority) ∨ (p, e) ∈ r.entries other := by
  rw [entries_register] at h
  split at h
  · rename_i hid
    subst hid
    rcases Ranked.mem_insert h with heq | hmem
    · cases heq
      exact .inl ⟨rfl, rfl, rfl⟩
    · exact .inr hmem
  · exact .inr h

theorem mem_entries_registerAll {list : List (ConversionId × κ × Priority)} {r : Registry κ}
    {id : ConversionId} {e : κ} {p : Priority}
    (h : (p, e) ∈ (list.foldl (fun r (id, entry, priority) => r.register id entry priority)
      r).entries id) :
    (id, e, p) ∈ list ∨ (p, e) ∈ r.entries id := by
  induction list generalizing r with
  | nil => exact .inr h
  | cons head rest ih =>
    obtain ⟨key, entry, priority⟩ := head
    rcases ih h with hmem | hmem
    · exact .inl (List.mem_cons_of_mem _ hmem)
    · rcases mem_entries_register hmem with ⟨rfl, rfl, rfl⟩ | hold
      · exact .inl (List.mem_cons_self ..)
      · exact .inr hold

/-- What is found stands among the entries of its identifier. -/
theorem mem_entries_of_find {r : Registry κ} {id : ConversionId} {asked : Option Priority}
    {entry : κ} (h : r.find id asked = .ok entry) : ∃ p, (p, entry) ∈ r.entries id := by
  unfold find at h
  split at h
  · cases h
  · rename_i p greatest hlast
    split at h
    · cases h
      exact ⟨p, List.mem_of_getLast? hlast⟩
    · rename_i q
      split at h
      · rename_i found hfound
        cases h
        obtain ⟨before, after, heq, -⟩ := List.lookup_eq_some_iff.mp hfound
        exact ⟨q, by simp [heq]⟩
      · cases h

end Registry

/-! ## The standard registry -/

theorem entries_sized (id : ConversionId) :
    ((standardSizes.foldl (fun r (tag, size) => r.setSize tag size)
      (Registry.empty : Registry Method)).entries id) = [] := rfl

/-- A conversion that is found is listed, under the formats it was looked up by. -/
theorem mem_standardConversions_of_find {id : ConversionId} {asked : Option Priority}
    {method : Method} (h : standardRegistry.find id asked = .ok method) :
    ∃ order p, (id, method, p) ∈ standardConversions order := by
  obtain ⟨p, hmem⟩ := Registry.mem_entries_of_find h
  rcases Registry.mem_entries_registerAll hmem with hlist | hnone
  · rcases List.mem_append.mp hlist with hbig | hlittle
    · exact ⟨.big, p, hbig⟩
    · exact ⟨.little, p, hlittle⟩
  · rw [entries_sized] at hnone
    cases hnone

@[simp] theorem itemSize_shorts (order : ByteOrder) :
    standardRegistry.itemSize (wireTag "sc16" order) = .ok 4 := by
  cases order <;> rfl

@[simp] theorem itemSize_packed (order : ByteOrder) :
    standardRegistry.itemSize (wireTag "sc12" order) = .ok 3 := by
  cases order <;> rfl

@[simp] theorem itemSize_fc32 : standardRegistry.itemSize "fc32" = .ok 8 := rfl

@[simp] theorem itemSize_fc64 : standardRegistry.itemSize "fc64" = .ok 16 := rfl

@[simp] theorem itemSize_sc16 : standardRegistry.itemSize "sc16" = .ok 4 := rfl

/-- A wire tag ends in its byte order, as no host format does. -/
theorem getLast?_wireTag (format : String) (order : ByteOrder) :
    (wireTag format order).toList.getLast? = some 'e' := by
  cases order <;> simp [wireTag, ByteOrder.suffix]

end SampleStream.Sample
