import SampleStream.Proofs.Sample.Registrations

/-!
# Item sizes of compound formats

A format takes the size of the longest tag with a size that it is or that it goes
on from with an underscore, the empty tag included; of the sizes set for that tag
the last one counts (`Start.sizes_after`).

The size is found by a search that cuts the format off before its last underscore
until what is left has a size (`search`). Each cut shortens it, and the texts it
comes by are just the prefixes that the look-up goes through.
-/

namespace SampleStream.Sample

variable {κ : Type}

/-! ## Heads of a format -/

/-- The format is the tag, or goes on from it with an underscore. -/
def Heads (tag format : String) : Prop :=
  format = tag ∨ ∃ rest, format = tag ++ "_" ++ rest

namespace Registry

theorem mem_beforeUnderscores {cs text : List Char} :
    cs ∈ beforeUnderscores text ↔ ∃ front, text = front ++ '_' :: cs := by
  induction text with
  | nil => simp [beforeUnderscores]
  | cons c rest ih =>
    rw [beforeUnderscores]
    constructor
    · intro h
      split at h
      · rename_i hc
        subst hc
        rcases List.mem_cons.mp h with rfl | h
        · exact ⟨[], rfl⟩
        · obtain ⟨front, rfl⟩ := ih.mp h
          exact ⟨'_' :: front, rfl⟩
      · obtain ⟨front, rfl⟩ := ih.mp h
        exact ⟨c :: front, rfl⟩
    · rintro ⟨front, heq⟩
      cases front with
      | nil =>
        obtain ⟨rfl, rfl⟩ := List.cons.inj heq
        simp
      | cons d front =>
        obtain ⟨rfl, rfl⟩ := List.cons.inj heq
        have hmem := ih.mpr ⟨front, rfl⟩
        split
        · exact List.mem_cons_of_mem _ hmem
        · exact hmem

theorem mem_prefixes_iff {tag format : String} : tag ∈ prefixes format ↔ Heads tag format := by
  simp only [prefixes, List.mem_map, List.mem_cons]
  constructor
  · rintro ⟨cs, rfl | hcs, rfl⟩
    · left
      simp
    · obtain ⟨front, hfront⟩ := mem_beforeUnderscores.mp hcs
      have hformat : format.toList = cs.reverse ++ '_' :: front.reverse := by
        rw [← List.reverse_reverse format.toList, hfront]
        simp
      exact .inr ⟨String.ofList front.reverse, String.toList_inj.mp (by simp [hformat])⟩
  · rintro (rfl | ⟨rest, rfl⟩)
    · exact ⟨format.toList.reverse, .inl rfl, by simp⟩
    · have hmem : tag.toList.reverse ∈ beforeUnderscores (tag ++ "_" ++ rest).toList.reverse :=
        mem_beforeUnderscores.mpr ⟨rest.toList.reverse, by simp⟩
      exact ⟨tag.toList.reverse, .inr hmem, by simp⟩

/-- Prefixes get shorter. -/
theorem pairwise_beforeUnderscores (text : List Char) :
    (text :: beforeUnderscores text).Pairwise fun longer shorter =>
      shorter.length < longer.length := by
  induction text with
  | nil => exact List.pairwise_singleton ..
  | cons c rest ih =>
    have hrest : ∀ cs ∈ rest :: beforeUnderscores rest, cs.length < (c :: rest).length := by
      intro cs hcs
      rcases List.mem_cons.mp hcs with rfl | hcs
      · exact Nat.lt_succ_self _
      · exact Nat.lt_succ_of_lt ((List.pairwise_cons.mp ih).1 cs hcs)
    rw [beforeUnderscores]
    split
    · exact List.pairwise_cons.mpr ⟨hrest, ih⟩
    · exact List.pairwise_cons.mpr
        ⟨fun cs hcs => hrest cs (List.mem_cons_of_mem _ hcs), (List.pairwise_cons.mp ih).2⟩

theorem pairwise_prefixes (format : String) :
    (prefixes format).Pairwise fun longer shorter => shorter.length < longer.length := by
  refine List.pairwise_map.mpr ((pairwise_beforeUnderscores _).imp fun h => ?_)
  simpa using h

/-! ## The search -/

/-- The text before the last underscore. -/
def beforeLast? (tag : String) : Option String :=
  match tag.toList.reverse.dropWhile (· ≠ '_') with
  | [] => none
  | _ :: rest => some (String.ofList rest.reverse)

theorem length_beforeLast? {tag shorter : String} (h : beforeLast? tag = some shorter) :
    shorter.length < tag.length := by
  rw [beforeLast?] at h
  split at h
  · cases h
  · rename_i c rest hcut
    cases h
    have hle : (c :: rest).length ≤ tag.toList.reverse.length :=
      hcut ▸ (List.dropWhile_sublist _).length_le
    rw [List.length_reverse, String.length_toList] at hle
    rw [String.length_ofList, List.length_reverse]
    exact hle

/-- The size of a tag, or else that of what stands before its last underscore. -/
def search (r : Registry κ) (format tag : String) : Except LookupError Nat :=
  match r.sizes.lookup tag with
  | some size => .ok size
  | none =>
    match _cut : beforeLast? tag with
    | some shorter => r.search format shorter
    | none => .error (.unknownItemSize format)
termination_by tag.length
decreasing_by exact length_beforeLast? _cut

theorem beforeUnderscores_eq (text : List Char) :
    beforeUnderscores text = match text.dropWhile (· ≠ '_') with
      | [] => []
      | _ :: rest => rest :: beforeUnderscores rest := by
  induction text with
  | nil => rfl
  | cons c rest ih =>
    rw [beforeUnderscores]
    split
    · rename_i hc
      simp [hc]
    · rename_i hc
      simpa [hc] using ih

theorem prefixes_eq (tag : String) :
    prefixes tag = tag :: ((beforeLast? tag).map prefixes).getD [] := by
  rw [prefixes, List.map_cons, List.reverse_reverse, String.ofList_toList, beforeUnderscores_eq,
    beforeLast?]
  split
  · rfl
  · simp [prefixes]

theorem search_eq (r : Registry κ) (format tag : String) :
    r.search format tag =
      match (prefixes tag).findSome? (r.sizes.lookup ·) with
      | some size => .ok size
      | none => .error (.unknownItemSize format) := by
  fun_induction search r format tag with
  | case1 tag size h => rw [prefixes_eq, List.findSome?_cons, h]
  | case2 tag h shorter hcut ih => rw [prefixes_eq, List.findSome?_cons, h, hcut, ih]; rfl
  | case3 tag h hcut => rw [prefixes_eq, List.findSome?_cons, h, hcut]; rfl

theorem search_eq_itemSize (r : Registry κ) (format : String) :
    r.search format format = r.itemSize format := search_eq r format format

/-! ## The size that is found -/

/-- Of texts that get shorter, the first that gives anything is the longest one. -/
theorem findSome?_eq_some_iff_longest {β : Type} {gives : String → Option β} {tags : List String}
    (h : tags.Pairwise fun longer shorter => shorter.length < longer.length) {b : β} :
    tags.findSome? gives = some b ↔
      ∃ tag ∈ tags, gives tag = some b ∧
        ∀ other ∈ tags, (gives other).isSome → other.length ≤ tag.length := by
  rw [List.findSome?_eq_some_iff]
  constructor
  · rintro ⟨longer, tag, shorter, rfl, htag, hnone⟩
    refine ⟨tag, by simp, htag, fun other hother hsome => ?_⟩
    rcases List.mem_append.mp hother with hlonger | hrest
    · rw [hnone other hlonger] at hsome
      cases hsome
    · rcases List.mem_cons.mp hrest with rfl | hshorter
      · exact Nat.le_refl _
      · exact Nat.le_of_lt
          ((List.pairwise_cons.mp (List.pairwise_append.mp h).2.1).1 other hshorter)
  · rintro ⟨tag, hmem, htag, hlongest⟩
    obtain ⟨longer, shorter, rfl⟩ := List.append_of_mem hmem
    refine ⟨longer, tag, shorter, rfl, htag, fun other hother => ?_⟩
    have hlt : tag.length < other.length :=
      (List.pairwise_append.mp h).2.2 other hother tag (List.mem_cons_self ..)
    rw [← Option.not_isSome_iff_eq_none]
    intro hsome
    exact Nat.not_le.mpr hlt (hlongest other (List.mem_append_left _ hother) hsome)

theorem lookup_sizes_record (r : Registry κ) (x : Registration κ) (tag : String) :
    (r.record x).sizes.lookup tag = (x.sizeFor tag).or (r.sizes.lookup tag) := by
  cases x with
  | conversion id entry priority => rfl
  | itemSize other size =>
    rw [record, setSize, lookup_cons_filter, Registration.sizeFor]
    simp only [eq_comm (a := tag)]
    split <;> rfl

/-- The size of a tag in a registry that was empty at first is the last one set. -/
theorem lookup_sizes_after (history : List (Registration κ)) (tag : String) :
    ((empty : Registry κ).after history).sizes.lookup tag =
      history.reverse.findSome? (Registration.sizeFor tag) :=
  read_after (·.sizes.lookup tag) rfl (fun r x => lookup_sizes_record r x tag) history

end Registry

/-- Some size was set for a tag. -/
def Sized (history : List (Registration κ)) (tag : String) : Prop :=
  ∃ size, .itemSize tag size ∈ history

/-- The longest tag with a size among those that head a format. -/
structure LongestHead (history : List (Registration κ)) (format tag : String) : Prop where
  heads : Heads tag format
  sized : Sized history tag
  longest : ∀ other, Heads other format → Sized history other → other.length ≤ tag.length

theorem sized_iff {history : List (Registration κ)} {tag : String} :
    Sized history tag ↔ ∃ size, Latest (Registration.sizeFor tag) history size := by
  rw [exists_latest_iff]
  constructor
  · rintro ⟨size, hmem⟩
    exact ⟨_, hmem, by simp [Registration.sizeFor]⟩
  · rintro ⟨x, hmem, hx⟩
    cases x with
    | conversion id entry priority => cases hx
    | itemSize other size =>
      rw [Registration.sizeFor] at hx
      split at hx
      · rename_i heq
        exact ⟨size, heq ▸ hmem⟩
      · cases hx

namespace Registry

/-- The item sizes that a registry finds are those of its history. -/
structure Sizes (r : Registry κ) (history : List (Registration κ)) : Prop where
  /-- The size found is the last one set for the longest tag that heads the format. -/
  found : ∀ format size, r.itemSize format = .ok size ↔
    ∃ tag, LongestHead history format tag ∧ Latest (Registration.sizeFor tag) history size
  /-- Nothing is found just if no tag that heads the format has a size; the whole
  format is named then. -/
  unknown : ∀ format e, r.itemSize format = .error e ↔
    e = .unknownItemSize format ∧ ∀ tag, Heads tag format → ¬ Sized history tag
  /-- The search by cutting at underscores ends, and finds just that. -/
  searched : ∀ format, r.search format format = r.itemSize format

section After

variable (history : List (Registration κ)) (tag : String)

theorem lookup_sizes_after_eq_some_iff {size : Nat} :
    ((empty : Registry κ).after history).sizes.lookup tag = some size ↔
      Latest (Registration.sizeFor tag) history size := by
  rw [lookup_sizes_after, findSome?_reverse_eq_some_iff]

theorem isSome_lookup_sizes_after_iff :
    (((empty : Registry κ).after history).sizes.lookup tag).isSome ↔ Sized history tag := by
  rw [Option.isSome_iff_exists, sized_iff]
  simp only [lookup_sizes_after_eq_some_iff]

end After

theorem itemSize_eq_ok_iff {r : Registry κ} {format : String} {size : Nat} :
    r.itemSize format = .ok size ↔
      (prefixes format).findSome? (r.sizes.lookup ·) = some size := by
  rw [itemSize]
  grind

theorem itemSize_eq_error_iff {r : Registry κ} {format : String} {e : LookupError} :
    r.itemSize format = .error e ↔ e = .unknownItemSize format ∧
      (prefixes format).findSome? (r.sizes.lookup ·) = none := by
  rw [itemSize]
  grind

theorem sizes_empty_after (history : List (Registration κ)) :
    ((empty : Registry κ).after history).Sizes history where
  found format size := by
    rw [itemSize_eq_ok_iff, findSome?_eq_some_iff_longest (pairwise_prefixes format)]
    refine exists_congr fun tag => ?_
    simp only [mem_prefixes_iff, lookup_sizes_after_eq_some_iff, isSome_lookup_sizes_after_iff]
    constructor
    · rintro ⟨hheads, hlatest, hlongest⟩
      exact ⟨⟨hheads, sized_iff.mpr ⟨size, hlatest⟩, hlongest⟩, hlatest⟩
    · rintro ⟨⟨hheads, -, hlongest⟩, hlatest⟩
      exact ⟨hheads, hlatest, hlongest⟩
  unknown format e := by
    rw [itemSize_eq_error_iff, List.findSome?_eq_none_iff]
    simp only [mem_prefixes_iff, ← Option.not_isSome_iff_eq_none, isSome_lookup_sizes_after_iff]
  searched := search_eq_itemSize _

end Registry

/-- **Item sizes are found by the longest head of a format.** Whatever a registry
started with and whatever was registered in it since, the size of a format is the
last one set for the longest tag that the format is or goes on from with an
underscore; without such a tag the look-up fails, naming the format. -/
theorem Start.sizes_after (start : Start κ) (history : List (Registration κ)) :
    (start.registry.after history).Sizes (start.history ++ history) := by
  rw [start.after_eq]
  exact Registry.sizes_empty_after _

end SampleStream.Sample
