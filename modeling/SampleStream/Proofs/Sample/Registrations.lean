import Mathlib.Data.List.Induction
import SampleStream.Proofs.Sample.Lookup

/-!
# What a registry answers after a history of registrations

Whatever was registered, and in whatever order, a registry answers from its
history alone: a look-up at a priority finds the last entry that was registered
for just that identifier and priority, and one without a priority the last entry
at the greatest priority of the identifier (`reflects_after`). The conversions
and item sizes a registry starts with count as registrations that were made first.

Both halves of a registry are read off the history in one way: by the last
registration that says anything about what is asked for (`Latest`).
-/

namespace SampleStream.Sample

variable {κ μ : Type}

/-! ## Histories -/

/-- A registration: an entry for an identifier at a priority, or the size of the
items of a format. -/
inductive Registration (κ : Type) where
  | conversion (id : ConversionId) (entry : κ) (priority : Priority)
  | itemSize (tag : String) (size : Nat)

namespace Registration

/-- The entry that is registered for an identifier at a priority. -/
def entryAt (id : ConversionId) (p : Priority) : Registration κ → Option κ
  | conversion other entry priority => if other = id ∧ priority = p then some entry else none
  | itemSize .. => none

/-- The size that is registered for a format. -/
def sizeFor (tag : String) : Registration κ → Option Nat
  | conversion .. => none
  | itemSize other size => if other = tag then some size else none

end Registration

namespace Registry

/-- The registry with one registration made. -/
def record (r : Registry κ) : Registration κ → Registry κ
  | .conversion id entry priority => r.register id entry priority
  | .itemSize tag size => r.setSize tag size

/-- The registry with the registrations of a history made, the first one first. -/
def after (r : Registry κ) (history : List (Registration κ)) : Registry κ :=
  history.foldl record r

theorem after_append (r : Registry κ) (first second : List (Registration κ)) :
    r.after (first ++ second) = (r.after first).after second :=
  List.foldl_append ..

theorem after_concat (r : Registry κ) (history : List (Registration κ)) (x : Registration κ) :
    r.after (history ++ [x]) = (r.after history).record x :=
  after_append r history [x]

end Registry

/-- The last member of a history that gives anything gives `b`. -/
def Latest {α β : Type} (gives : α → Option β) (history : List α) (b : β) : Prop :=
  ∃ before x later, history = before ++ x :: later ∧ gives x = some b ∧
    ∀ y ∈ later, gives y = none

theorem findSome?_reverse_eq_some_iff {α β : Type} {gives : α → Option β} {history : List α}
    {b : β} : history.reverse.findSome? gives = some b ↔ Latest gives history b := by
  rw [List.findSome?_eq_some_iff]
  constructor
  · rintro ⟨later, x, before, heq, hx, hlater⟩
    have hhistory : history = before.reverse ++ x :: later.reverse := by
      rw [← List.reverse_reverse history, heq]
      simp
    exact ⟨before.reverse, x, later.reverse, hhistory, hx, fun y hy =>
      hlater y (List.mem_reverse.mp hy)⟩
  · rintro ⟨before, x, later, rfl, hx, hlater⟩
    exact ⟨later.reverse, x, before.reverse, by simp, hx, fun y hy =>
      hlater y (List.mem_reverse.mp hy)⟩

/-- Some member gives something just if there is a last one that does. -/
theorem exists_latest_iff {α β : Type} {gives : α → Option β} {history : List α} :
    (∃ b, Latest gives history b) ↔ ∃ x ∈ history, (gives x).isSome := by
  simp only [← findSome?_reverse_eq_some_iff, ← Option.isSome_iff_exists,
    List.findSome?_isSome_iff, List.mem_reverse]

/-- Some entry was registered for an identifier at a priority. -/
def RegisteredAt (history : List (Registration κ)) (id : ConversionId) (p : Priority) : Prop :=
  ∃ entry, .conversion id entry p ∈ history

/-- Some entry was registered for an identifier. -/
def Registered (history : List (Registration κ)) (id : ConversionId) : Prop :=
  ∃ p, RegisteredAt history id p

/-- The greatest priority that an identifier was ever registered at. -/
def GreatestAt (history : List (Registration κ)) (id : ConversionId) (p : Priority) : Prop :=
  RegisteredAt history id p ∧ ∀ q, RegisteredAt history id q → q ≤ p

/-- The last entry that was registered for just an identifier and a priority. -/
abbrev LatestAt (history : List (Registration κ)) (id : ConversionId) (p : Priority) (entry : κ) :
    Prop :=
  Latest (Registration.entryAt id p) history entry

theorem registeredAt_iff {history : List (Registration κ)} {id : ConversionId} {p : Priority} :
    RegisteredAt history id p ↔ ∃ entry, LatestAt history id p entry := by
  rw [exists_latest_iff]
  constructor
  · rintro ⟨entry, hmem⟩
    exact ⟨_, hmem, by simp [Registration.entryAt]⟩
  · rintro ⟨x, hmem, hx⟩
    cases x with
    | itemSize tag size => cases hx
    | conversion other entry priority =>
      rw [Registration.entryAt] at hx
      split at hx
      · rename_i heq
        obtain ⟨rfl, rfl⟩ := heq
        exact ⟨entry, hmem⟩
      · cases hx

/-! ## Entries by increasing priority -/

namespace Ranked

/-- Priorities strictly increase. -/
def Sorted (ranked : Ranked κ) : Prop := ranked.Pairwise (·.1 < ·.1)

theorem lookup_insert (priority p : Priority) (entry : κ) (ranked : Ranked κ) :
    (Ranked.insert priority entry ranked).lookup p =
      if p = priority then some entry else ranked.lookup p := by
  induction ranked with
  | nil => exact lookup_cons_ite ..
  | cons head rest ih =>
    obtain ⟨q, e⟩ := head
    rw [Ranked.insert]
    split
    · exact lookup_cons_ite ..
    · split
      · rename_i heq
        simp only [lookup_cons_ite, heq]
        split <;> rfl
      · rename_i hlt hne
        simp only [lookup_cons_ite, ih]
        grind

theorem sorted_insert {ranked : Ranked κ} (h : ranked.Sorted) (priority : Priority)
    (entry : κ) : (Ranked.insert priority entry ranked).Sorted := by
  induction ranked with
  | nil => exact List.pairwise_singleton ..
  | cons head rest ih =>
    obtain ⟨q, e⟩ := head
    obtain ⟨hhead, hrest⟩ := List.pairwise_cons.mp h
    rw [Ranked.insert]
    split
    · rename_i hlt
      refine List.pairwise_cons.mpr ⟨fun x hx => ?_, h⟩
      rcases List.mem_cons.mp hx with rfl | hx
      · exact hlt
      · exact Int.lt_trans hlt (hhead x hx)
    · split
      · rename_i heq
        exact List.pairwise_cons.mpr ⟨fun x hx => heq ▸ hhead x hx, hrest⟩
      · rename_i hlt hne
        refine List.pairwise_cons.mpr ⟨fun x hx => ?_, ih hrest⟩
        rcases mem_insert hx with hnew | hold
        · obtain ⟨rfl, -⟩ := Prod.ext_iff.mp hnew
          exact Int.lt_iff_le_and_ne.mpr ⟨Int.not_lt.mp hlt, Ne.symm hne⟩
        · exact hhead x hold

theorem mem_keys_iff {ranked : Ranked κ} {p : Priority} :
    p ∈ ranked.map (·.1) ↔ ∃ entry, ranked.lookup p = some entry := by
  rw [← Option.isSome_iff_exists, List.lookup_isSome_iff, List.mem_map]
  simp only [beq_iff_eq, eq_comm (a := p)]

/-- Among entries in order, the last one is the one of the greatest priority. -/
theorem getLast?_eq_some_iff {ranked : Ranked κ} (h : ranked.Sorted) {p : Priority} {entry : κ} :
    ranked.getLast? = some (p, entry) ↔
      ranked.lookup p = some entry ∧ ∀ q ∈ ranked.map (·.1), q ≤ p := by
  rw [List.getLast?_eq_some_iff, List.lookup_eq_some_iff]
  constructor
  · rintro ⟨front, rfl⟩
    have hfront : ∀ x ∈ front, x.1 < p := fun x hx =>
      (List.pairwise_append.mp h).2.2 x hx _ (List.mem_singleton_self _)
    refine ⟨⟨front, [], rfl, fun x hx => bne_iff_ne.mpr (Int.ne_of_gt (hfront x hx))⟩, ?_⟩
    intro q hq
    simp only [List.map_append, List.map_cons, List.map_nil, List.mem_append, List.mem_map,
      List.mem_singleton] at hq
    rcases hq with ⟨x, hx, rfl⟩ | rfl
    · exact Int.le_of_lt (hfront x hx)
    · exact Int.le_refl _
  · rintro ⟨⟨front, back, rfl, -⟩, hgreatest⟩
    have hback : back = [] := by
      refine List.eq_nil_iff_forall_not_mem.mpr fun x hx => ?_
      have hlt : p < x.1 :=
        (List.pairwise_cons.mp (List.pairwise_append.mp h).2.1).1 x hx
      have hle : x.1 ≤ p := hgreatest x.1 (List.mem_map_of_mem (by simp [hx]))
      exact Int.not_le.mpr hlt hle
    exact ⟨front, by rw [hback]⟩

end Ranked

/-! ## What look-ups answer -/

namespace Registry

variable {r : Registry κ} {id : ConversionId}

theorem find_eq_noConverter_iff {asked : Option Priority} :
    r.find id asked = .error (.noConverter id) ↔ r.entries id = [] := by
  rw [← List.getLast?_eq_none_iff, find]
  grind

theorem find_at_of_ne_nil (h : r.entries id ≠ []) (p : Priority) :
    r.find id (some p) =
      ((r.entries id).lookup p).elim (.error (.noConverterAt id p)) .ok := by
  rw [ne_eq, ← List.getLast?_eq_none_iff] at h
  rw [find]
  grind

theorem find_at_eq_ok_iff {p : Priority} {entry : κ} :
    r.find id (some p) = .ok entry ↔ (r.entries id).lookup p = some entry := by
  rw [find]
  grind

theorem find_at_eq_noConverterAt_iff {p : Priority} :
    r.find id (some p) = .error (.noConverterAt id p) ↔
      r.entries id ≠ [] ∧ (r.entries id).lookup p = none := by
  rw [ne_eq, ← List.getLast?_eq_none_iff, find]
  grind

theorem find_greatest_eq_ok_iff {entry : κ} :
    r.find id none = .ok entry ↔ ∃ p, (r.entries id).getLast? = some (p, entry) := by
  rw [find]
  grind

/-- A look-up that fails says what it looked for. -/
theorem find_error {asked : Option Priority} {e : LookupError} (h : r.find id asked = .error e) :
    e = .noConverter id ∨ ∃ p, asked = some p ∧ e = .noConverterAt id p := by
  rw [find] at h
  grind

/-! ## Entries of a history -/

@[simp] theorem entries_setSize (tag : String) (size : Nat) :
    (r.setSize tag size).entries id = r.entries id := rfl

theorem lookup_record (r : Registry κ) (x : Registration κ) (id : ConversionId) (p : Priority) :
    ((r.record x).entries id).lookup p = (x.entryAt id p).or ((r.entries id).lookup p) := by
  cases x with
  | itemSize tag size => simp [record, Registration.entryAt]
  | conversion other entry priority =>
    rw [record, entries_register, Registration.entryAt]
    by_cases hid : id = other
    · subst hid
      simp only [if_true, true_and, Ranked.lookup_insert, eq_comm (a := priority)]
      split <;> rfl
    · simp [hid, Ne.symm hid]

theorem sorted_record (h : (r.entries id).Sorted) (x : Registration κ) :
    ((r.record x).entries id).Sorted := by
  cases x with
  | itemSize tag size => exact h
  | conversion other entry priority =>
    rw [record, entries_register]
    split
    · rename_i hid
      exact Ranked.sorted_insert (hid ▸ h) priority entry
    · exact h

/-- What a registration replaces if it says anything, and leaves alone if not, is what the
last registration said. -/
theorem read_after {β : Type} (read : Registry κ → Option β) {gives : Registration κ → Option β}
    (hempty : read empty = none) (hrecord : ∀ r x, read (r.record x) = (gives x).or (read r))
    (history : List (Registration κ)) :
    read (empty.after history) = history.reverse.findSome? gives := by
  induction history using List.reverseRecOn with
  | nil => exact hempty
  | append_singleton front x ih =>
    rw [after_concat, hrecord, ih, List.reverse_append, List.reverse_singleton,
      List.singleton_append, List.findSome?_cons]
    cases gives x <;> rfl

/-- The entries of a registry that was empty at first are those of its history. -/
theorem lookup_after (history : List (Registration κ)) (id : ConversionId) (p : Priority) :
    (((empty : Registry κ).after history).entries id).lookup p =
      history.reverse.findSome? (Registration.entryAt id p) :=
  read_after (fun r => (r.entries id).lookup p) rfl
    (fun r x => lookup_record r x id p) history

theorem sorted_after (history : List (Registration κ)) (id : ConversionId) :
    (((empty : Registry κ).after history).entries id).Sorted := by
  induction history using List.reverseRecOn with
  | nil => exact List.Pairwise.nil
  | append_singleton front x ih => exact after_concat _ front x ▸ sorted_record ih x

end Registry

/-! ## Reading a registry off its history -/

namespace Registry

/-- The answers of a registry are those of its history. -/
structure Reflects (r : Registry κ) (history : List (Registration κ)) : Prop where
  /-- At a priority stands what was registered last for just the identifier and it. -/
  pinned : ∀ id p entry, r.find id (some p) = .ok entry ↔ LatestAt history id p entry
  /-- A priority is missed just if the identifier was registered, though never at it. -/
  missing : ∀ id p, r.find id (some p) = .error (.noConverterAt id p) ↔
    Registered history id ∧ ¬ RegisteredAt history id p
  /-- Without a priority the last entry at the greatest one is found. -/
  greatest : ∀ id entry, r.find id none = .ok entry ↔
    ∃ p, GreatestAt history id p ∧ LatestAt history id p entry
  /-- Nothing is found for an identifier just if it was never registered. -/
  unknown : ∀ id asked, r.find id asked = .error (.noConverter id) ↔ ¬ Registered history id
  /-- No look-up fails in another way. -/
  failing : ∀ id asked e, r.find id asked = .error e →
    e = .noConverter id ∨ ∃ p, asked = some p ∧ e = .noConverterAt id p
  /-- Priorities are listed in strictly increasing order. -/
  increasing : ∀ id, (r.priorities id).Pairwise (· < ·)
  /-- They are the ones that were registered. -/
  listed : ∀ id p, p ∈ r.priorities id ↔ RegisteredAt history id p

section After

variable (history : List (Registration κ)) (id : ConversionId)

theorem lookup_after_eq_some_iff {p : Priority} {entry : κ} :
    (((empty : Registry κ).after history).entries id).lookup p = some entry ↔
      LatestAt history id p entry := by
  rw [lookup_after, findSome?_reverse_eq_some_iff]

theorem mem_keys_after_iff {p : Priority} :
    p ∈ (((empty : Registry κ).after history).entries id).map (·.1) ↔
      RegisteredAt history id p := by
  simp only [Ranked.mem_keys_iff, lookup_after_eq_some_iff, registeredAt_iff]

theorem entries_after_eq_nil_iff :
    ((empty : Registry κ).after history).entries id = [] ↔ ¬ Registered history id := by
  rw [← List.map_eq_nil_iff (f := (·.1)), List.eq_nil_iff_forall_not_mem]
  simp only [mem_keys_after_iff, Registered, not_exists]

end After

theorem reflects_empty_after (history : List (Registration κ)) :
    ((empty : Registry κ).after history).Reflects history where
  pinned id p entry := by rw [find_at_eq_ok_iff, lookup_after_eq_some_iff]
  missing id p := by
    rw [find_at_eq_noConverterAt_iff, ne_eq, entries_after_eq_nil_iff, not_not,
      registeredAt_iff, Option.eq_none_iff_forall_ne_some]
    simp only [ne_eq, lookup_after_eq_some_iff, not_exists]
  greatest id entry := by
    rw [find_greatest_eq_ok_iff]
    refine exists_congr fun p => ?_
    rw [Ranked.getLast?_eq_some_iff (sorted_after history id), lookup_after_eq_some_iff]
    simp only [mem_keys_after_iff, GreatestAt]
    constructor
    · rintro ⟨hlatest, hgreatest⟩
      exact ⟨⟨registeredAt_iff.mpr ⟨entry, hlatest⟩, hgreatest⟩, hlatest⟩
    · rintro ⟨⟨-, hgreatest⟩, hlatest⟩
      exact ⟨hlatest, hgreatest⟩
  unknown id asked := by rw [find_eq_noConverter_iff, entries_after_eq_nil_iff]
  failing id asked e h := find_error h
  increasing id := List.pairwise_map.mpr (sorted_after history id)
  listed id p := mem_keys_after_iff history id

end Registry

/-! ## What a registry starts with -/

theorem lookup_map {α β γ : Type} [BEq α] (g : β → γ) (k : α) (table : List (α × β)) :
    (table.map fun (key, value) => (key, g value)).lookup k = (table.lookup k).map g := by
  induction table with
  | nil => rfl
  | cons head rest ih =>
    obtain ⟨key, value⟩ := head
    rw [List.map_cons, List.lookup_cons, List.lookup_cons, ih]
    split <;> rfl

theorem Ranked.map_insert (f : κ → μ) (priority : Priority) (entry : κ) (ranked : Ranked κ) :
    (Ranked.insert priority entry ranked).map (fun (p, e) => (p, f e)) =
      Ranked.insert priority (f entry) (ranked.map fun (p, e) => (p, f e)) := by
  induction ranked with
  | nil => rfl
  | cons head rest ih =>
    obtain ⟨q, e⟩ := head
    rw [Ranked.insert, List.map_cons, Ranked.insert, ← ih]
    split
    · rfl
    · split <;> rfl

namespace Registry

theorem entries_map (f : κ → μ) (r : Registry κ) (id : ConversionId) :
    (r.map f).entries id = (r.entries id).map fun (p, e) => (p, f e) := by
  rw [entries, entries, map, lookup_map]
  cases r.conversions.lookup id <;> rfl

theorem map_register (f : κ → μ) (r : Registry κ) (id : ConversionId) (entry : κ)
    (priority : Priority) :
    (r.register id entry priority).map f = (r.map f).register id (f entry) priority := by
  have hothers : (r.map f).conversions.filter (·.1 ≠ id) =
      (map f { r with conversions := r.conversions.filter (·.1 ≠ id) }).conversions :=
    List.filter_map
  symm
  rw [register, hothers, entries_map, ← Ranked.map_insert]
  rfl

end Registry

/-- The same registration, of the image of its entry. -/
def Registration.map (f : κ → μ) : Registration κ → Registration μ
  | .conversion id entry priority => .conversion id (f entry) priority
  | .itemSize tag size => .itemSize tag size

theorem Registry.map_after (f : κ → μ) (r : Registry κ) (history : List (Registration κ)) :
    (r.after history).map f = (r.map f).after (history.map (Registration.map f)) := by
  induction history using List.reverseRecOn with
  | nil => rfl
  | append_singleton front x ih =>
    rw [after_concat, List.map_append, List.map_singleton, after_concat, ← ih]
    cases x with
    | conversion id entry priority => exact map_register f _ id entry priority
    | itemSize tag size => rfl

/-- The registrations that make the standard registry: of the sizes, then of the
conversions of either byte order. -/
def standardHistory : List (Registration Method) :=
  (standardSizes.map fun (tag, size) => .itemSize tag size) ++
    (standardConversions .big ++ standardConversions .little).map
      fun (id, method, priority) => .conversion id method priority

theorem standardRegistry_eq : standardRegistry = Registry.empty.after standardHistory := by
  rw [standardHistory, Registry.after_append, Registry.after, Registry.after, List.foldl_map,
    List.foldl_map]
  rfl

/-- What a registry holds before anything is registered in it: nothing, or the
standard sizes and conversions, each entered in the form of the other entries. -/
inductive Start (κ : Type) where
  | empty
  | standard (f : Method → κ)

namespace Start

/-- The registry at its start. -/
def registry : Start κ → Registry κ
  | empty => .empty
  | standard f => standardRegistry.map f

/-- The registrations it was made with. -/
def history : Start κ → List (Registration κ)
  | empty => []
  | standard f => standardHistory.map (Registration.map f)

theorem registry_eq (start : Start κ) : start.registry = Registry.empty.after start.history := by
  cases start with
  | empty => rfl
  | standard f =>
    rw [registry, standardRegistry_eq, Registry.map_after]
    rfl

/-- After any registrations, whatever was there at the start, a registry is the
empty one with all of them made. -/
theorem after_eq (start : Start κ) (history : List (Registration κ)) :
    start.registry.after history = Registry.empty.after (start.history ++ history) := by
  rw [registry_eq, ← Registry.after_append]

end Start

/-! ## One registration more -/

namespace Registry

/-- What the registration of an entry leaves of the answers of a registry. A
look-up at another priority that found nothing because there was nothing for the
identifier fails differently from then on. -/
structure KeepsRest (r : Registry κ) (id : ConversionId) (entry : κ) (priority : Priority) :
    Prop where
  /-- Look-ups of another identifier answer the same. -/
  others : ∀ other asked, other ≠ id →
    (r.register id entry priority).find other asked = r.find other asked
  /-- The priorities of another identifier are listed as before. -/
  priorities : ∀ other, other ≠ id →
    (r.register id entry priority).priorities other = r.priorities other
  /-- Look-ups at another priority answer the same, if there was anything for the
  identifier. -/
  pinned : ∀ p, p ≠ priority → r.find id (some p) ≠ .error (.noConverter id) →
    (r.register id entry priority).find id (some p) = r.find id (some p)
  /-- The first entry for an identifier is missed at every other priority. -/
  first : ∀ p, p ≠ priority → r.find id (some p) = .error (.noConverter id) →
    (r.register id entry priority).find id (some p) = .error (.noConverterAt id p)

theorem find_congr {r s : Registry κ} {id : ConversionId} (h : r.entries id = s.entries id)
    (asked : Option Priority) : r.find id asked = s.find id asked := by
  rw [find, h, find]

theorem entries_register_ne_nil (r : Registry κ) (id : ConversionId) (entry : κ)
    (priority : Priority) : (r.register id entry priority).entries id ≠ [] := by
  intro hnil
  have hlookup : ((r.register id entry priority).entries id).lookup priority = some entry := by
    rw [entries_register, if_pos rfl, Ranked.lookup_insert, if_pos rfl]
  rw [hnil] at hlookup
  cases hlookup

theorem keepsRest (r : Registry κ) (id : ConversionId) (entry : κ) (priority : Priority) :
    r.KeepsRest id entry priority where
  others other asked h := find_congr (by rw [entries_register, if_neg h]) asked
  priorities other h := by rw [Registry.priorities, entries_register, if_neg h, Registry.priorities]
  pinned p h hfound := by
    have hne : r.entries id ≠ [] := fun hnil => hfound (find_eq_noConverter_iff.mpr hnil)
    rw [find_at_of_ne_nil (entries_register_ne_nil r id entry priority), find_at_of_ne_nil hne,
      entries_register, if_pos rfl, Ranked.lookup_insert, if_neg h]
  first p h hnone := by
    have hnil : r.entries id = [] := find_eq_noConverter_iff.mp hnone
    rw [find_at_of_ne_nil (entries_register_ne_nil r id entry priority), entries_register,
      if_pos rfl, Ranked.lookup_insert, if_neg h, hnil]
    rfl

end Registry

/-- **A registry answers from its history.** Whatever it started with, look-ups
and lists of priorities are those of all registrations so far, and one
registration more changes nothing for another identifier or at another priority,
but that a look-up which failed for want of any entry for the identifier then
fails for want of one at its priority. -/
theorem Start.reflects_after (start : Start κ) (history : List (Registration κ)) :
    (start.registry.after history).Reflects (start.history ++ history) ∧
      ∀ id entry priority, (start.registry.after history).KeepsRest id entry priority := by
  constructor
  · rw [start.after_eq]
    exact Registry.reflects_empty_after _
  · exact Registry.keepsRest _

/-- The first entry for an identifier changes why another priority is missed. -/
theorem Start.find_at_other_priority_after_first :
    ((Start.empty : Start Nat).registry.after []).find (.single "a" "b") (some 1) =
        .error (.noConverter (.single "a" "b")) ∧
      ((Start.empty : Start Nat).registry.after [.conversion (.single "a" "b") 7 0]).find
          (.single "a" "b") (some 1) =
        .error (.noConverterAt (.single "a" "b") 1) ∧
      ((Start.empty : Start Nat).registry.after [.conversion (.single "a" "b") 7 0]).find
          (.single "a" "b") (some 1) ≠
        ((Start.empty : Start Nat).registry.after []).find (.single "a" "b") (some 1) :=
  ⟨rfl, rfl, by intro h; cases h⟩

end SampleStream.Sample
