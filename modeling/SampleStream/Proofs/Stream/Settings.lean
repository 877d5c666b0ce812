import Mathlib.Data.List.Basic
import Mathlib.Data.List.TakeWhile
import SampleStream.Stream.Options

/-!
# Settings from a text

An option text is read part by part: the parts between commas are independent of each
other, blank ones say nothing, and the first that says something but has no equals sign
refuses the whole text. A part that is no pair and not blank `Offends`; what the others
set is `settingsOf`. Main statements: `merge_eq` and `reads_texts`.
-/

namespace SampleStream

namespace Text

variable {sep : Char} {cs pad : List Char}

/-! ## Parts of a text -/

theorem split_eq_splitOn (sep : Char) (cs : List Char) : split sep cs = cs.splitOn sep := by
  induction cs with
  | nil => rfl
  | cons c rest ih =>
    rw [split, List.splitOn, List.splitOnP_cons_eq_if_modifyHead, ← List.splitOn, ih]
    by_cases hc : c = sep
    · rw [if_pos hc, if_pos (beq_iff_eq.mpr hc)]
    · rw [if_neg hc, if_neg (mt beq_iff_eq.mp hc)]
      cases h : rest.splitOn sep with
      | nil => exact absurd h (List.splitOnP_ne_nil _ _)
      | cons piece pieces => rfl

/-- The parts of two texts with a separator between them are those of either. -/
theorem split_append (sep : Char) (a b : List Char) :
    split sep (a ++ sep :: b) = split sep a ++ split sep b := by
  simp only [split_eq_splitOn]
  exact List.splitOnP_append_cons a b (beq_self_eq_true sep)

/-! ## Blanks around a text -/

/-- Nothing but blanks. -/
def Blank (pad : List Char) : Prop := ∀ c ∈ pad, isBlank c = true

instance (pad : List Char) : Decidable (Blank pad) :=
  decidable_of_iff (pad.all isBlank = true) List.all_eq_true

theorem trim_append_blank (h : Blank pad) (cs : List Char) :
    trim (cs ++ pad) = trim cs := by
  rw [trim, trim, List.dropWhile_append]
  split
  · rename_i hall
    rw [List.dropWhile_eq_nil_iff.mpr h, List.isEmpty_iff.mp hall]
  · rw [List.reverse_append, List.dropWhile_append_of_pos fun c hc => h c (List.mem_reverse.mp hc)]

theorem trim_blank_append (h : Blank pad) (cs : List Char) :
    trim (pad ++ cs) = trim cs := by
  rw [trim, trim, List.dropWhile_append_of_pos h]

theorem trim_eq_nil_iff : trim cs = [] ↔ Blank cs := by
  constructor
  · intro h
    rw [trim, List.reverse_eq_nil_iff, List.dropWhile_eq_nil_iff] at h
    rw [Blank, ← List.dropWhile_eq_nil_iff, ← List.head?_eq_none_iff]
    cases hhead : (cs.dropWhile isBlank).head? with
    | none => rfl
    | some c =>
      have hblank := h c (List.mem_reverse.mpr (List.mem_of_head? hhead))
      rw [isBlank_of_head?_dropWhile hhead] at hblank
      cases hblank
  · intro h
    rw [← List.append_nil cs, trim_blank_append h]
    rfl

/-- Neither the first nor the last character is blank. -/
structure Bare (cs : List Char) : Prop where
  head : cs.head?.any isBlank = false
  last : cs.getLast?.any isBlank = false

theorem dropWhile_isBlank_eq (h : cs.head?.any isBlank = false) : cs.dropWhile isBlank = cs := by
  cases cs with
  | nil => rfl
  | cons c rest =>
    have hfirst : isBlank c = false := h
    rw [List.dropWhile_cons_of_neg (by rw [hfirst]; decide)]

theorem Bare.trim_eq (h : Bare cs) : trim cs = cs := by
  rw [trim, dropWhile_isBlank_eq h.head, dropWhile_isBlank_eq, List.reverse_reverse]
  rw [List.head?_reverse]
  exact h.last

/-- Blanks around a text that neither begins nor ends with one come off again. -/
theorem Bare.trim_padded (h : Bare cs) {before after : List Char}
    (hbefore : Blank before) (hafter : Blank after) :
    trim (before ++ cs ++ after) = cs := by
  rw [trim_append_blank hafter, trim_blank_append hbefore, h.trim_eq]

theorem trim_dropWhile (cs : List Char) : trim (cs.dropWhile isBlank) = trim cs := by
  conv_rhs => rw [← List.takeWhile_append_dropWhile (p := isBlank) (l := cs)]
  exact (trim_blank_append (fun c hc => List.mem_takeWhile_imp hc) _).symm

/-- Taking blanks off the end first changes nothing. -/
theorem trim_dropEnd (cs : List Char) :
    trim (cs.reverse.dropWhile isBlank).reverse = trim cs := by
  have hparts : cs = (cs.reverse.dropWhile isBlank).reverse ++
      (cs.reverse.takeWhile isBlank).reverse := by
    rw [← List.reverse_append, List.takeWhile_append_dropWhile, List.reverse_reverse]
  conv_rhs => rw [hparts]
  exact (trim_append_blank (fun c hc => List.mem_takeWhile_imp (List.mem_reverse.mp hc)) _).symm

/-! ## The first separator of a text -/

section Separator
variable (hsep : isBlank sep = false)
include hsep

theorem not_mem_blank (h : Blank pad) : sep ∉ pad := by
  intro hmem
  rw [h sep hmem] at hsep
  cases hsep

/-- A character that is not blank is none of those around a text. -/
theorem not_mem_padded {before after : List Char} (hbefore : Blank before)
    (hafter : Blank after) (h : sep ∉ cs) : sep ∉ before ++ cs ++ after := by
  simp only [List.mem_append, not_or]
  exact ⟨⟨not_mem_blank hsep hbefore, h⟩, not_mem_blank hsep hafter⟩

theorem dropWhile_around (a b : List Char) :
    (a ++ sep :: b).dropWhile isBlank = a.dropWhile isBlank ++ sep :: b := by
  rw [List.dropWhile_append, List.dropWhile_cons_of_neg (by rw [hsep]; decide)]
  split
  · rename_i hall
    rw [List.isEmpty_iff.mp hall, List.nil_append]
  · rfl

/-- A character that is not blank keeps all that stands next to it. -/
theorem trim_around (a b : List Char) :
    trim (a ++ sep :: b) = a.dropWhile isBlank ++ sep :: (b.reverse.dropWhile isBlank).reverse := by
  rw [trim, dropWhile_around hsep, List.reverse_append, List.reverse_cons, List.append_assoc,
    List.singleton_append, dropWhile_around hsep]
  simp only [List.reverse_append, List.reverse_cons, List.reverse_reverse, List.append_assoc,
    List.singleton_append]

theorem mem_trim_iff : sep ∈ trim cs ↔ sep ∈ cs := by
  constructor
  · intro h
    exact List.dropWhile_sublist _ |>.subset <| List.mem_reverse.mp <|
      List.dropWhile_sublist _ |>.subset <| List.mem_reverse.mp h
  · intro h
    obtain ⟨a, b, rfl⟩ := List.append_of_mem h
    rw [trim_around hsep]
    exact List.mem_append_right _ List.mem_cons_self

end Separator

theorem cut?_append {a : List Char} (h : sep ∉ a) (b : List Char) :
    cut? sep (a ++ sep :: b) = some (a, b) := by
  have hbefore : ∀ c ∈ a, decide (c ≠ sep) = true :=
    fun c hc => decide_eq_true fun heq => h (heq ▸ hc)
  rw [cut?, if_pos (List.mem_append_right _ List.mem_cons_self),
    List.takeWhile_append_of_pos hbefore, List.dropWhile_append_of_pos hbefore,
    List.takeWhile_cons_of_neg (by simp), List.dropWhile_cons_of_neg (by simp), List.append_nil]
  rfl

theorem cut?_eq_none (h : sep ∉ cs) : cut? sep cs = none := if_neg h

end Text

namespace StreamOptions
open Text

variable {o : StreamOptions} {part : List Char}

/-! ## What a text says -/

/-- The key and the value that a part of a text sets, if it sets one. -/
def setting? (part : List Char) : Option (String × String) :=
  (cut? '=' part).map fun (key, value) => (String.ofList (trim key), String.ofList (trim value))

/-- A part that says something and is no pair. -/
def Offends (part : List Char) : Prop := trim part ≠ [] ∧ '=' ∉ part

instance (part : List Char) : Decidable (Offends part) := inferInstanceAs (Decidable (_ ∧ _))

theorem not_offends_iff : ¬ Offends part ↔ (trim part ≠ [] → '=' ∈ part) := by
  rw [Offends, not_and, not_not]

/-- All that a text sets, in the order of its parts. -/
def settingsOf (text : String) : List (String × String) :=
  (split ',' text.toList).filterMap setting?

/-- The options with settings made one after the other. -/
def setAll (o : StreamOptions) (pairs : List (String × String)) : StreamOptions :=
  pairs.foldl (fun o (key, value) => o.set key value) o

theorem setting?_of_pair {key : List Char} (h : '=' ∉ key) (value : List Char) :
    setting? (key ++ '=' :: value) =
      some (String.ofList (trim key), String.ofList (trim value)) := by
  rw [setting?, cut?_append h]
  rfl

theorem setting?_eq_none (h : '=' ∉ part) : setting? part = none := by
  rw [setting?, cut?_eq_none h]
  rfl

/-- Blanks around a part make no difference to what it sets. -/
theorem pair_trim (part : List Char) :
    pair (trim part) = match setting? part with
      | some (key, value) => .ok (key, value)
      | none => .error (.notAPair (String.ofList (trim part))) := by
  have hsep : isBlank '=' = false := by decide
  by_cases h : '=' ∈ part
  · obtain ⟨key, value, rfl, hkey⟩ := List.eq_append_cons_of_mem h
    have hstart : '=' ∉ key.dropWhile isBlank :=
      fun hmem => hkey ((List.dropWhile_sublist _).subset hmem)
    rw [setting?_of_pair hkey, pair, trim_around hsep, cut?_append hstart]
    simp only [trim_dropWhile, trim_dropEnd]
  · rw [setting?_eq_none h, pair, cut?_eq_none (mt (mem_trim_iff hsep).mp h)]

/-- The fold over the parts that say something, told of all parts. The induction is on the
parts; the options so far are arbitrary, since a text starts where an earlier part ended. -/
theorem foldlM_parts (o : StreamOptions) (parts : List (List Char)) :
    ((parts.map trim).filter (· ≠ [])).foldlM
        (fun o segment => do
          let (key, value) ← pair segment
          return o.set key value) o =
      match parts.find? (Offends ·) with
      | some part => .error (.notAPair (String.ofList (trim part)))
      | none => .ok (o.setAll (parts.filterMap setting?)) := by
  induction parts generalizing o with
  | nil => rfl
  | cons part rest ih =>
    by_cases hpair : '=' ∈ part
    · have hsays : trim part ≠ [] :=
        List.ne_nil_of_mem ((mem_trim_iff (by decide)).mpr hpair)
      obtain ⟨key, value, rfl, hkey⟩ := List.eq_append_cons_of_mem hpair
      have hset := setting?_of_pair hkey value
      rw [List.map_cons, List.filter_cons_of_pos (by simpa using hsays), List.foldlM_cons,
        pair_trim, hset, List.find?_cons_of_neg (by simp [Offends, hpair]),
        List.filterMap_cons_some hset]
      exact ih _
    · have hset := setting?_eq_none hpair
      by_cases hblank : trim part = []
      · rw [List.map_cons, List.filter_cons_of_neg (by simp [hblank]), ih,
          List.find?_cons_of_neg (by simp [Offends, hblank]), List.filterMap_cons_none hset]
      · rw [List.map_cons, List.filter_cons_of_pos (by simpa using hblank), List.foldlM_cons,
          pair_trim, hset, List.find?_cons_of_pos (by simp [Offends, hblank, hpair])]
        rfl

/-- A text is refused for its first part that offends, and else makes all its settings. -/
theorem merge_eq (o : StreamOptions) (text : String) :
    o.merge text = match (split ',' text.toList).find? (Offends ·) with
      | some part => .error (.notAPair (String.ofList (trim part)))
      | none => .ok (o.setAll (settingsOf text)) := foldlM_parts o _

/-! ## Texts one after the other -/

theorem merge_join (o : StreamOptions) (a b : String) :
    o.merge (a ++ "," ++ b) = o.merge a >>= fun o' => o'.merge b := by
  have hparts : segments (a ++ "," ++ b) = segments a ++ segments b := by
    have htext : (a ++ "," ++ b).toList = a.toList ++ ',' :: b.toList := by
      rw [String.toList_append, String.toList_append, List.append_assoc]
      rfl
    rw [segments, htext, split_append, List.map_append, List.filter_append]
    rfl
  simp only [merge, hparts, List.foldlM_append]

theorem merge_eq_error_iff {text : String} {e : OptionError} :
    o.merge text = .error e ↔
      ∃ before part after, split ',' text.toList = before ++ part :: after ∧
        (∀ p ∈ before, ¬ Offends p) ∧ Offends part ∧
        e = .notAPair (String.ofList (trim part)) := by
  rw [merge_eq]
  constructor
  · intro h
    split at h
    · rename_i part hfirst
      obtain ⟨hpart, before, after, hparts, hbefore⟩ := List.find?_eq_some_iff_append.mp hfirst
      exact ⟨before, part, after, hparts, by simpa using hbefore, of_decide_eq_true hpart,
        (Except.error.inj h).symm⟩
    · cases h
  · rintro ⟨before, part, after, hparts, hbefore, hpart, rfl⟩
    have hfirst : (split ',' text.toList).find? (Offends ·) = some part :=
      List.find?_eq_some_iff_append.mpr
        ⟨decide_eq_true hpart, before, after, hparts, by simpa using hbefore⟩
    rw [hfirst]

theorem exists_merge_iff {text : String} :
    (∃ o', o.merge text = .ok o') ↔
      ∀ part ∈ split ',' text.toList, trim part ≠ [] → '=' ∈ part := by
  have hnone : (split ',' text.toList).find? (Offends ·) = none ↔
      ∀ part ∈ split ',' text.toList, trim part ≠ [] → '=' ∈ part := by
    simp only [List.find?_eq_none, decide_eq_true_eq, not_offends_iff]
  rw [← hnone, merge_eq]
  cases h : (split ',' text.toList).find? (Offends ·) with
  | some part => exact ⟨fun ⟨_, hok⟩ => (nomatch hok), nofun⟩
  | none => exact ⟨fun _ => rfl, fun _ => ⟨_, rfl⟩⟩

/-! ## The last setting of a key -/

theorem get?_set (o : StreamOptions) (key value k : String) :
    (o.set key value).get? k = if k = key then some value else o.get? k :=
  lookup_setKey key value k o.settings

/-- The last of the settings of a key is the one that stays. -/
theorem get?_setAll (o : StreamOptions) (pairs : List (String × String)) (k : String) :
    (o.setAll pairs).get? k = (pairs.reverse.lookup k).or (o.get? k) := by
  induction pairs generalizing o with
  | nil => rfl
  | cons pair rest ih =>
    obtain ⟨key, value⟩ := pair
    have hset : o.setAll ((key, value) :: rest) = (o.set key value).setAll rest := rfl
    rw [hset, ih, List.reverse_cons, List.lookup_append, Option.or_assoc, get?_set,
      List.lookup_cons]
    by_cases h : k = key
    · rw [if_pos h, beq_iff_eq.mpr h, Option.some_or]
    · rw [if_neg h, beq_eq_false_iff_ne.mpr h]
      rfl

/-! ## Texts that were written -/

/-- What stands in a text as it is: neither blank at an end nor a comma. -/
structure Plain (cs : List Char) : Prop extends Bare cs where
  separator : ',' ∉ cs

/-- The pairs of a text that was written part by part, with any blanks around keys and
values and any blank parts between them. -/
inductive Written : List (String × String) → List (List Char) → Prop where
  | nil : Written [] []
  | blank {pairs parts pad} (hpad : Blank pad) (h : Written pairs parts) :
    Written pairs (pad :: parts)
  | pair {pairs parts} {key value : String} (before after before' after' : List Char)
    (hkey : Plain key.toList) (hequals : '=' ∉ key.toList) (hvalue : Plain value.toList)
    (hbefore : Blank before) (hafter : Blank after)
    (hbefore' : Blank before') (hafter' : Blank after')
    (h : Written pairs parts) :
    Written ((key, value) :: pairs)
      ((before ++ key.toList ++ after ++ '=' :: (before' ++ value.toList ++ after')) :: parts)

variable {pairs : List (String × String)} {parts : List (List Char)}

theorem Written.separator (h : Written pairs parts) : ∀ part ∈ parts, ',' ∉ part := by
  have hcomma : isBlank ',' = false := by decide
  induction h with
  | nil => exact nofun
  | blank hpad _ ih =>
    exact List.forall_mem_cons.mpr ⟨not_mem_blank hcomma hpad, ih⟩
  | pair _ _ _ _ hkey _ hvalue hbefore hafter hbefore' hafter' _ ih =>
    refine List.forall_mem_cons.mpr ⟨fun hmem => ?_, ih⟩
    rcases List.mem_append.mp hmem with hmem | hmem
    · exact not_mem_padded hcomma hbefore hafter hkey.separator hmem
    · rcases List.mem_cons.mp hmem with heq | hmem
      · cases heq
      · exact not_mem_padded hcomma hbefore' hafter' hvalue.separator hmem

theorem setting?_written {before after before' after' : List Char} {key value : String}
    (hkey : Plain key.toList) (hequals : '=' ∉ key.toList) (hvalue : Plain value.toList)
    (hbefore : Blank before) (hafter : Blank after)
    (hbefore' : Blank before') (hafter' : Blank after') :
    setting? (before ++ key.toList ++ after ++ '=' :: (before' ++ value.toList ++ after')) =
      some (key, value) := by
  rw [setting?_of_pair (not_mem_padded (by decide) hbefore hafter hequals),
    hkey.trim_padded hbefore hafter, hvalue.trim_padded hbefore' hafter', String.ofList_toList,
    String.ofList_toList]

theorem Written.settings (h : Written pairs parts) : parts.filterMap setting? = pairs := by
  induction h with
  | nil => rfl
  | blank hpad _ ih =>
    rw [List.filterMap_cons_none (setting?_eq_none (not_mem_blank (by decide) hpad)), ih]
  | pair _ _ _ _ hkey hequals hvalue hbefore hafter hbefore' hafter' _ ih =>
    rw [List.filterMap_cons_some
      (setting?_written hkey hequals hvalue hbefore hafter hbefore' hafter'), ih]

theorem Written.not_offends (h : Written pairs parts) : ∀ part ∈ parts, ¬ Offends part := by
  induction h with
  | nil => exact nofun
  | blank hpad _ ih =>
    exact List.forall_mem_cons.mpr ⟨fun hoffends => hoffends.1 (trim_eq_nil_iff.mpr hpad), ih⟩
  | pair _ _ _ _ _ _ _ _ _ _ _ _ ih =>
    exact List.forall_mem_cons.mpr
      ⟨fun hoffends => hoffends.2 (List.mem_append_right _ List.mem_cons_self), ih⟩

theorem Written.merge_eq (h : Written pairs parts) {text : String}
    (htext : text.toList = [','].intercalate parts) : o.merge text = .ok (o.setAll pairs) := by
  -- a text of no parts is one of a blank part, and has one when it is split
  wlog hparts : parts ≠ [] generalizing parts
  · obtain rfl := not_not.mp hparts
    have hblank : Written pairs [[]] := .blank nofun h
    exact this hblank htext (List.cons_ne_nil _ _)
  have hsplit : split ',' text.toList = parts := by
    rw [htext, split_eq_splitOn, List.splitOn_intercalate ',' h.separator hparts]
  have hfirst : parts.find? (Offends ·) = none :=
    List.find?_eq_none.mpr fun part hmem => by simpa using h.not_offends part hmem
  rw [StreamOptions.merge_eq, settingsOf, hsplit, hfirst, h.settings]

/-! ## Reading of option texts -/

/-- What is read of an option text. -/
structure ReadsTexts : Prop where
  /-- Texts with a comma between them are read one after the other, up to the first part
  of either that offends. -/
  join : ∀ (o : StreamOptions) (a b : String),
    o.merge (a ++ "," ++ b) = o.merge a >>= fun o' => o'.merge b
  accepts : ∀ (o : StreamOptions) (text : String), (∃ o', o.merge text = .ok o') ↔
    ∀ part ∈ split ',' text.toList, trim part ≠ [] → '=' ∈ part
  /-- The error names the first part that says something and has no equals sign. -/
  refuses : ∀ (o : StreamOptions) (text : String) (e : OptionError), o.merge text = .error e ↔
    ∃ before part after, split ',' text.toList = before ++ part :: after ∧
      (∀ p ∈ before, ¬ Offends p) ∧ Offends part ∧ e = .notAPair (String.ofList (trim part))
  /-- Later settings of a key win, over earlier ones and over the options so far. -/
  latest : ∀ (o o' : StreamOptions) (text : String), o.merge text = .ok o' →
    o' = o.setAll (settingsOf text) ∧
      ∀ key, o'.get? key = ((settingsOf text).reverse.lookup key).or (o.get? key)
  /-- The pairs of a text that was written are set, in their order and no others. -/
  written : ∀ (o : StreamOptions) (pairs : List (String × String)) (parts : List (List Char))
    (text : String), Written pairs parts → text.toList = [','].intercalate parts →
    o.merge text = .ok (o.setAll pairs)

theorem reads_texts : ReadsTexts where
  join := merge_join
  accepts _ _ := exists_merge_iff
  refuses _ _ _ := merge_eq_error_iff
  latest o o' text h := by
    rw [merge_eq] at h
    split at h
    · cases h
    · cases h
      exact ⟨rfl, get?_setAll o _⟩
  written _ _ _ _ h htext := h.merge_eq htext

/-- A key set twice, blanks of more than one kind, a blank part and a value with an equals
sign in it. -/
theorem reads_texts_twice :
    Written [("spp", "200"), ("file", "a=b"), ("spp", "")]
      [" spp\t= 200".toList, "  ".toList, "file=a=b\n".toList, "spp=".toList] ∧
    (StreamOptions.mk "fc32" "sc16" [0] [("spp", "1"), ("mtu", "8")]).merge
        " spp\t= 200,  ,file=a=b\n,spp=" =
      .ok ⟨"fc32", "sc16", [0], [("spp", ""), ("mtu", "8"), ("file", "a=b")]⟩ := by
  have hplain : Plain "spp".toList ∧ Plain "200".toList ∧ Plain "file".toList ∧
      Plain "a=b".toList ∧ Plain "".toList := by
    refine ⟨?_, ?_, ?_, ?_, ?_⟩ <;> exact ⟨⟨by decide, by decide⟩, by decide⟩
  obtain ⟨hspp, hcount, hfile, hvalue, hempty⟩ := hplain
  have hwritten : Written [("spp", "200"), ("file", "a=b"), ("spp", "")]
      [" spp\t= 200".toList, "  ".toList, "file=a=b\n".toList, "spp=".toList] :=
    .pair [' '] ['\t'] [' '] [] hspp (by decide) hcount (by decide) (by decide) (by decide)
        (by decide) <|
      .blank (by decide) <|
      .pair [] [] [] ['\n'] hfile (by decide) hvalue (by decide) (by decide) (by decide)
        (by decide) <|
      .pair [] [] [] [] hspp (by decide) hempty (by decide) (by decide) (by decide)
        (by decide) .nil
  exact ⟨hwritten, reads_texts.written _ _ _ _ hwritten (by decide)⟩

end StreamOptions
end SampleStream
