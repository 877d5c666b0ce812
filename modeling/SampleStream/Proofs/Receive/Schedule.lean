import Mathlib.Data.List.Basic
import Mathlib.Logic.Relation
import SampleStream.Proofs.Receive.Conservation

/-!
# Timing and call sizes do not matter

The ledgers of a receive stream develop in one way only. What comes next is
decided by what the channels hold: the first channel that holds nothing takes its
next frame, else packets older than the newest are dropped, else one sample of
every channel is handed out. `Next` is this step on the ledgers alone, over all the
frames that will ever come in. When frames come in and how much a call asks for
decides only how far the ledgers get, so of two runs one is ahead of the other
(`runs_agree`).
-/

namespace SampleStream.Receive

/-! ## Ledgers that go on -/

namespace Ledger

/-- What a ledger says is said by a later one too: the samples handed out, and what
became of the packets not held any more. -/
structure Behind (l l' : Ledger) : Prop where
  out : l.out <+: l'.out
  gone : l.gone <+: l'.gone

theorem Behind.refl (l : Ledger) : l.Behind l := ⟨List.prefix_rfl, List.prefix_rfl⟩

theorem Behind.trans {l l' l'' : Ledger} (h : l.Behind l') (h' : l'.Behind l'') : l.Behind l'' :=
  ⟨h.out.trans h'.out, h.gone.trans h'.gone⟩

theorem behind_take {l : Ledger} (hvacant : l.current = none) (order : ByteOrder) (wireItem : Nat)
    (frame : Bytes) : l.Behind (l.take order wireItem frame) := by
  refine ⟨⟨[], ?_⟩, List.prefix_rfl⟩
  rw [List.append_nil, out_take hvacant]

theorem behind_drop (l : Ledger) (pick : Part → Bool) (fate : Fate) :
    l.Behind (l.drop pick fate) := by
  refine ⟨⟨[], ?_⟩, ?_⟩
  · rw [List.append_nil, out_drop]
  · unfold drop
    split
    · exact List.prefix_rfl
    · split
      · exact List.prefix_append _ _
      · exact List.prefix_rfl

theorem behind_hand (l : Ledger) (count : Nat) : l.Behind (l.hand count) := by
  cases hcurrent : l.current with
  | none =>
    rw [hand, hcurrent]
    exact .refl l
  | some p =>
    refine ⟨?_, ?_⟩
    · rw [out_hand hcurrent]
      exact List.prefix_append _ _
    · simp only [hand, hcurrent]
      split
      · exact List.prefix_append _ _
      · exact List.prefix_rfl

/-- As long as samples are left the packet stays held. -/
theorem hand_of_lt {l : Ledger} {p : Part} (hp : l.current = some p) {count : Nat}
    (h : count < p.remaining) : l.hand count = { l with current := some (p.hand count) } := by
  have hrest : (p.hand count).remaining ≠ 0 := by
    simp only [Part.remaining, Part.hand] at h ⊢
    omega
  simp only [hand, hp, hrest, if_false]

theorem hand_zero {l : Ledger} {p : Part} (hp : l.current = some p) (h : 0 < p.remaining) :
    l.hand 0 = l := by
  rw [hand_of_lt hp h]
  obtain ⟨taken, lastCount, gone, current⟩ := l
  cases hp
  rfl

theorem hand_hand_one {l : Ledger} {p : Part} (hp : l.current = some p) {count : Nat}
    (h : count < p.remaining) : (l.hand count).hand 1 = l.hand (count + 1) := by
  have hpart : (p.hand count).hand 1 = p.hand (count + 1) := by
    simp only [Part.hand, Nat.add_assoc]
  rw [hand_of_lt hp h]
  simp only [hand, hp, hpart]

end Ledger

/-! ## Books -/

/-- The ledgers of all channels, and the markers shown. -/
structure Books where
  ledgers : List Ledger
  markers : List Marker

namespace Books

def held (b : Books) : List Part := b.ledgers.filterMap Ledger.current

def newest (b : Books) : Option UInt64 :=
  (b.held.filterMap fun p => p.header.fractionalTime).max?

def Full (b : Books) : Prop := ∀ l ∈ b.ledgers, l.current.isSome

def Aligned (b : Books) : Prop :=
  ∀ time, b.newest = some time → b.held.any (Part.isOlder time) = false

/-- The books with each ledger changed. -/
def mapLedgers (f : Ledger → Ledger) (b : Books) : Books := { b with ledgers := b.ledgers.map f }

/-- The samples handed out next: one of each channel, but none when a packet has
none. -/
def unit (b : Books) : Nat := if b.held.any (fun p => p.remaining == 0) then 0 else 1

/-- What comes next, when the frames of `feed` come in on the channels. -/
inductive Next (order : ByteOrder) (wireItem : Nat) (feed : Nat → List Bytes) :
    Books → Books → Prop where
  | take {b : Books} {index : Nat} {l : Ledger} {frame : Bytes}
    (hl : b.ledgers[index]? = some l) (hvacant : l.current = none)
    (hbefore : ∀ j < index, ∀ d, b.ledgers[j]? = some d → d.current.isSome)
    (hframe : (feed index)[l.taken.length]? = some frame) :
    Next order wireItem feed b
      { ledgers := b.ledgers.set index (l.take order wireItem frame)
        markers := b.markers ++ (contentOf order frame).markers l.lastCount }
  | drop {b : Books} {time : UInt64} (hfull : b.Full) (hnewest : b.newest = some time)
    (holder : b.held.any (Part.isOlder time) = true) :
    Next order wireItem feed b (b.mapLedgers (Ledger.drop (Part.isOlder time) (.outdated time)))
  | hand {b : Books} (hfull : b.Full) (haligned : b.Aligned) :
    Next order wireItem feed b (b.mapLedgers (Ledger.hand b.unit))

variable {order : ByteOrder} {wireItem : Nat} {feed : Nat → List Bytes}

theorem not_full_of_vacant {b : Books} {index : Nat} {l : Ledger}
    (hl : b.ledgers[index]? = some l) (hvacant : l.current = none) : ¬ b.Full := by
  intro hfull
  have hsome := hfull l (List.mem_of_getElem? hl)
  rw [hvacant] at hsome
  cases hsome

/-- There is one way to go on. -/
theorem next_rightUnique : Relator.RightUnique (Next order wireItem feed) := by
  intro b b₁ b₂ h₁ h₂
  cases h₁ with
  | @take index l frame hl hvacant hbefore hframe =>
    cases h₂ with
    | @take index' l' frame' hl' hvacant' hbefore' hframe' =>
      -- both are the first channel that holds nothing
      have hle : index ≤ index' := by
        apply Nat.le_of_not_lt
        intro hlt
        have hsome := hbefore index' hlt l' hl'
        rw [hvacant'] at hsome
        cases hsome
      have hge : index' ≤ index := by
        apply Nat.le_of_not_lt
        intro hlt
        have hsome := hbefore' index hlt l hl
        rw [hvacant] at hsome
        cases hsome
      obtain rfl := Nat.le_antisymm hle hge
      cases hl.symm.trans hl'
      cases hframe.symm.trans hframe'
      rfl
    | drop hfull => exact absurd hfull (not_full_of_vacant hl hvacant)
    | hand hfull => exact absurd hfull (not_full_of_vacant hl hvacant)
  | @drop time hfull hnewest holder =>
    cases h₂ with
    | take hl hvacant => exact absurd hfull (not_full_of_vacant hl hvacant)
    | @drop time' _ hnewest' =>
      cases hnewest.symm.trans hnewest'
      rfl
    | hand _ haligned =>
      rw [haligned time hnewest] at holder
      cases holder
  | hand hfull haligned =>
    cases h₂ with
    | take hl hvacant => exact absurd hfull (not_full_of_vacant hl hvacant)
    | @drop time _ hnewest holder =>
      rw [haligned time hnewest] at holder
      cases holder
    | hand => rfl

/-! ## Books that go on -/

/-- What the books say is said by later ones too. -/
structure Behind (b b' : Books) : Prop where
  length : b.ledgers.length = b'.ledgers.length
  ledgers : ∀ (index : Nat) (l l' : Ledger), b.ledgers[index]? = some l →
    b'.ledgers[index]? = some l' → l.Behind l'
  markers : b.markers <+: b'.markers

theorem Behind.refl (b : Books) : b.Behind b := by
  refine ⟨rfl, fun index l l' hl hl' => ?_, List.prefix_rfl⟩
  cases hl.symm.trans hl'
  exact .refl l

theorem Behind.trans {b b' b'' : Books} (h : b.Behind b') (h' : b'.Behind b'') : b.Behind b'' := by
  refine ⟨h.length.trans h'.length, fun index l l'' hl hl'' => ?_, h.markers.trans h'.markers⟩
  obtain ⟨hlt, -⟩ := List.getElem?_eq_some_iff.mp hl''
  have hl' := List.getElem?_eq_getElem (h'.length ▸ hlt)
  exact (h.ledgers index l _ hl hl').trans (h'.ledgers index _ l'' hl' hl'')

theorem behind_mapLedgers (b : Books) {f : Ledger → Ledger} (h : ∀ l : Ledger, l.Behind (f l)) :
    b.Behind (b.mapLedgers f) := by
  refine ⟨by simp [mapLedgers], fun index l l' hl hl' => ?_, List.prefix_rfl⟩
  rw [mapLedgers, List.getElem?_map, hl] at hl'
  cases hl'
  exact h l

theorem Next.behind {b b' : Books} (h : Next order wireItem feed b b') : b.Behind b' := by
  cases h with
  | @take index l frame hl hvacant hbefore hframe =>
    refine ⟨by simp, fun j d d' hd hd' => ?_, List.prefix_append _ _⟩
    rw [List.getElem?_set] at hd'
    split at hd'
    · subst j
      split at hd'
      · cases hl.symm.trans hd
        cases hd'
        exact Ledger.behind_take hvacant order wireItem frame
      · cases hd'
    · cases hd.symm.trans hd'
      exact .refl d
  | drop => exact b.behind_mapLedgers fun l => l.behind_drop _ _
  | hand => exact b.behind_mapLedgers fun l => l.behind_hand _

theorem behind_of_reaches {b b' : Books}
    (h : Relation.ReflTransGen (Next order wireItem feed) b b') : b.Behind b' := by
  induction h with
  | refl => exact .refl b
  | tail _ hnext ih => exact ih.trans hnext.behind

/-! ## Many samples, one by one -/

theorem held_hand {b : Books} {count : Nat} (hfull : b.Full)
    (hcount : ∀ p ∈ b.held, count < p.remaining) :
    (b.mapLedgers (Ledger.hand count)).Full ∧
      (b.mapLedgers (Ledger.hand count)).held = b.held.map (Part.hand · count) := by
  have hstays (l : Ledger) (hl : l ∈ b.ledgers) :
      (l.hand count).current = l.current.map (Part.hand · count) := by
    obtain ⟨p, hp⟩ := Option.isSome_iff_exists.mp (hfull l hl)
    rw [Ledger.hand_of_lt hp (hcount p (List.mem_filterMap.mpr ⟨l, hl, hp⟩)), hp]
    rfl
  refine ⟨fun l' hl' => ?_, ?_⟩
  · obtain ⟨l, hl, rfl⟩ := List.mem_map.mp hl'
    rw [hstays l hl, Option.isSome_map]
    exact hfull l hl
  · rw [held, mapLedgers, List.filterMap_map, held, List.map_filterMap]
    exact List.filterMap_congr hstays

theorem mapLedgers_congr {b : Books} {f g : Ledger → Ledger} (h : ∀ l ∈ b.ledgers, f l = g l) :
    b.mapLedgers f = b.mapLedgers g := by
  rw [mapLedgers, mapLedgers, List.map_congr_left h]

theorem unit_of_pos {b : Books} (h : ∀ p ∈ b.held, 0 < p.remaining) : b.unit = 1 := by
  have hnone : b.held.any (fun p => p.remaining == 0) = false := by
    rw [List.any_eq_false]
    intro p hp
    have := h p hp
    simp
    omega
  rw [unit, hnone]
  rfl

theorem exists_part {b : Books} (hfull : b.Full) {l : Ledger} (hl : l ∈ b.ledgers) :
    ∃ p, l.current = some p ∧ p ∈ b.held := by
  obtain ⟨p, hp⟩ := Option.isSome_iff_exists.mp (hfull l hl)
  exact ⟨p, hp, List.mem_filterMap.mpr ⟨l, hl, hp⟩⟩

theorem mapLedgers_hand_zero {b : Books} (hfull : b.Full) (hpos : ∀ p ∈ b.held, 0 < p.remaining) :
    b.mapLedgers (Ledger.hand 0) = b := by
  have hsame : b.mapLedgers (Ledger.hand 0) = b.mapLedgers id := by
    apply mapLedgers_congr
    intro l hl
    obtain ⟨p, hp, hmem⟩ := exists_part hfull hl
    exact Ledger.hand_zero hp (hpos p hmem)
  rw [hsame, mapLedgers, List.map_id]

/-- When every channel has a sample left after `count` of them, the next one comes
next. -/
theorem next_hand_one {b : Books} {count : Nat} (hfull : b.Full) (haligned : b.Aligned)
    (hlt : ∀ p ∈ b.held, count < p.remaining) :
    Next order wireItem feed (b.mapLedgers (Ledger.hand count))
      (b.mapLedgers (Ledger.hand (count + 1))) := by
  obtain ⟨hfull', hheld⟩ := held_hand hfull hlt
  -- handing out samples changes no time, so the packets held still agree
  have haligned' : (b.mapLedgers (Ledger.hand count)).Aligned := by
    intro time htime
    rw [newest, hheld, List.filterMap_map] at htime
    rw [hheld, List.any_map]
    exact haligned time htime
  have hunit : (b.mapLedgers (Ledger.hand count)).unit = 1 := by
    apply unit_of_pos
    intro p' hp'
    rw [hheld] at hp'
    obtain ⟨p, hp, rfl⟩ := List.mem_map.mp hp'
    have := hlt p hp
    simp only [Part.remaining, Part.hand] at this ⊢
    omega
  have hstep : (b.mapLedgers (Ledger.hand count)).mapLedgers (Ledger.hand 1) =
      b.mapLedgers (Ledger.hand (count + 1)) := by
    rw [mapLedgers, mapLedgers, List.map_map]
    apply mapLedgers_congr
    intro l hl
    obtain ⟨p, hp, hmem⟩ := exists_part hfull hl
    exact Ledger.hand_hand_one hp (hlt p hmem)
  have hnext : Next order wireItem feed (b.mapLedgers (Ledger.hand count))
      ((b.mapLedgers (Ledger.hand count)).mapLedgers
        (Ledger.hand (b.mapLedgers (Ledger.hand count)).unit)) :=
    .hand hfull' haligned'
  rwa [hunit, hstep] at hnext

/-- Handing out many samples at once is handing them out one by one. -/
theorem reaches_hand {b : Books} {count : Nat} (hfull : b.Full) (haligned : b.Aligned)
    (hcount : ∀ p ∈ b.held, count ≤ p.remaining) :
    Relation.ReflTransGen (Next order wireItem feed) b (b.mapLedgers (Ledger.hand count)) := by
  induction count with
  | zero =>
    -- handing out nothing is a step of its own only if it clears a packet without samples
    by_cases hempty : b.held.any (fun p => p.remaining == 0) = true
    · have hunit : b.unit = 0 := by rw [unit, if_pos hempty]
      have hnext : Next order wireItem feed b (b.mapLedgers (Ledger.hand b.unit)) :=
        .hand hfull haligned
      rw [hunit] at hnext
      exact .single hnext
    · rw [Bool.not_eq_true, List.any_eq_false] at hempty
      have hpos : ∀ p ∈ b.held, 0 < p.remaining := by
        intro p hp
        exact Nat.pos_of_ne_zero (by simpa using hempty p hp)
      rw [mapLedgers_hand_zero hfull hpos]
  | succ count ih =>
    have hlt : ∀ p ∈ b.held, count < p.remaining := fun p hp => hcount p hp
    exact (ih fun p hp => Nat.le_of_lt (hlt p hp)).tail (next_hand_one hfull haligned hlt)

end Books
end SampleStream.Receive

namespace SampleStream.Receiver
open Receive

/-! ## The books of a stream -/

/-- The books of the stream `r`, which the events `es` led to. -/
def books (r₀ : Receiver) (es : List Event) (r : Receiver) : Books where
  ledgers := (List.range r₀.channels.length).map fun index => r₀.ledger index es
  markers := r.markers

/-- The frames that were on the link of a channel at first or came in since. -/
def arrived (r₀ : Receiver) (es : List Event) (index : Nat) : List Bytes :=
  (r₀.channels[index]?.map (·.link.frames)).getD [] ++ es.filterMap (Event.arrival index)

section Books
variable {r₀ r r' : Receiver} {es : List Event}

theorem getElem?_books {index : Nat} (hlt : index < r₀.channels.length) :
    (r₀.books es r).ledgers[index]? = some (r₀.ledger index es) := by
  rw [books, List.getElem?_map, List.getElem?_range hlt]
  rfl

theorem lt_of_getElem?_books {index : Nat} {l : Ledger}
    (h : (r₀.books es r).ledgers[index]? = some l) : index < r₀.channels.length := by
  obtain ⟨hlt, -⟩ := List.getElem?_eq_some_iff.mp h
  simpa [books] using hlt

/-- The channel at a position and its ledger. -/
theorem History.channel (h : History r₀ es r) (hfresh : ∀ c ∈ r₀.channels, r₀.Fresh c)
    {index : Nat} (hlt : index < r₀.channels.length) :
    ∃ c, r.channels[index]? = some c ∧
      (r₀.ledger index es).Tracks r₀.order r₀.wireItem c ∧
      r₀.arrived es index = (r₀.ledger index es).taken ++ c.link.frames := by
  have hc₀ := List.getElem?_eq_getElem hlt
  obtain ⟨c, hc, ht, hframes⟩ :=
    h.tracks hc₀ ((hfresh _ (List.mem_of_getElem? hc₀)).tracks _ _)
  refine ⟨c, hc, ht, ?_⟩
  rw [arrived, hc₀]
  exact hframes

theorem History.currents (h : History r₀ es r) (hfresh : ∀ c ∈ r₀.channels, r₀.Fresh c) :
    (r₀.books es r).ledgers.map Ledger.current =
      r.channels.map fun c => c.held.map HeldPacket.part := by
  apply List.ext_getElem?
  intro index
  rw [List.getElem?_map, List.getElem?_map]
  by_cases hlt : index < r₀.channels.length
  · obtain ⟨c, hc, ht, -⟩ := h.channel hfresh hlt
    rw [getElem?_books hlt, hc, Option.map_some, Option.map_some, ht.held]
  · have hge : r.channels.length ≤ index := by
      rw [h.length_channels]
      exact Nat.le_of_not_lt hlt
    rw [List.getElem?_eq_none hge, List.getElem?_eq_none (by simpa [books] using hlt)]
    rfl

theorem History.held_books (h : History r₀ es r) (hfresh : ∀ c ∈ r₀.channels, r₀.Fresh c) :
    (r₀.books es r).held = r.held.map HeldPacket.part := by
  have hcurrents := congrArg (List.filterMap id) (h.currents hfresh)
  rw [List.filterMap_map, List.filterMap_map] at hcurrents
  rw [Books.held, held, List.map_filterMap]
  exact hcurrents

theorem History.full_books (h : History r₀ es r) (hfresh : ∀ c ∈ r₀.channels, r₀.Fresh c)
    (hfull : r.Full) : (r₀.books es r).Full := by
  intro l hl
  have hmem := List.mem_map_of_mem (f := Ledger.current) hl
  rw [h.currents hfresh] at hmem
  obtain ⟨c, hc, heq⟩ := List.mem_map.mp hmem
  rw [← heq, Option.isSome_map]
  exact hfull c hc

theorem History.newest_books (h : History r₀ es r) (hfresh : ∀ c ∈ r₀.channels, r₀.Fresh c) :
    (r₀.books es r).newest = r.newest := by
  rw [Books.newest, h.held_books hfresh, List.filterMap_map, newest]
  rfl

theorem History.older_books (h : History r₀ es r) (hfresh : ∀ c ∈ r₀.channels, r₀.Fresh c)
    (time : UInt64) :
    (r₀.books es r).held.any (Part.isOlder time) = r.held.any (isOlder time) := by
  rw [h.held_books hfresh, List.any_map]
  rfl

/-- An event that each ledger writes down in the same way. -/
theorem books_snoc {e : Event} {f : Ledger → Ledger} (hmarkers : r'.markers = r.markers)
    (h : ∀ index, (r₀.ledger index es).record r₀.order r₀.wireItem index e =
      f (r₀.ledger index es)) :
    r₀.books (es ++ [e]) r' = (r₀.books es r).mapLedgers f := by
  rw [books, books, Books.mapLedgers, List.map_map, hmarkers]
  congr 1
  apply List.map_congr_left
  intro index _
  rw [ledger, Ledger.recordAll_snoc]
  exact h index

/-- A frame taken changes the ledger of its channel and no other. -/
theorem books_took {index : Nat} {c : Channel} {frame : Bytes} {rest : List Bytes}
    {found : Option Condition} (h : History r₀ es r) (hlt : index < r₀.channels.length)
    (hlast : c.lastCount = (r₀.ledger index es).lastCount)
    (htook : r.Took index c frame rest r' found) :
    r₀.books (es ++ [.took index frame]) r' =
      { ledgers := (r₀.books es r).ledgers.set index
          ((r₀.ledger index es).take r₀.order r₀.wireItem frame)
        markers := (r₀.books es r).markers ++
          (contentOf r₀.order frame).markers (r₀.ledger index es).lastCount } := by
  rw [books, htook.markers, order_of_setup h.setup, hlast]
  congr 1
  apply List.ext_getElem?
  intro j
  rw [List.getElem?_set, books, List.getElem?_map, List.getElem?_map, List.length_map,
    List.length_range, if_pos hlt]
  by_cases hj : index = j
  · subst hj
    rw [if_pos rfl, List.getElem?_range hlt, Option.map_some, ledger, Ledger.recordAll_snoc,
      Ledger.record, if_pos rfl]
    rfl
  · rw [if_neg hj]
    by_cases hlt' : j < r₀.channels.length
    · rw [List.getElem?_range hlt', Option.map_some, Option.map_some, ledger,
        Ledger.recordAll_snoc, Ledger.record, if_neg hj]
      rfl
    · rw [List.getElem?_eq_none (by simpa using hlt')]
      rfl

/-- A frame taken is the next frame of the first channel that holds nothing. -/
theorem Step.next_took {index : Nat} {c : Channel} {frame : Bytes} {rest : List Bytes}
    {found : Option Condition} (h : History r₀ es r) (hfresh : ∀ c ∈ r₀.channels, r₀.Fresh c)
    (hfirst : r.FirstVacant index c) (hlink : c.link.frames = frame :: rest)
    (hfetch : r.fetch index c = some (r', .ok found)) {feed : Nat → List Bytes}
    (hfeed : ∀ index, r₀.arrived es index <+: feed index) :
    Books.Next r₀.order r₀.wireItem feed (r₀.books es r)
      (r₀.books (es ++ [.took index frame]) r') := by
  obtain ⟨_, -, htook⟩ := fetch_of_frame hlink hfetch
  obtain ⟨hlt, -⟩ := List.getElem?_eq_some_iff.mp hfirst.channel
  rw [h.length_channels] at hlt
  obtain ⟨c', hc', ht, harrived⟩ := h.channel hfresh hlt
  cases hfirst.channel.symm.trans hc'
  have hvacant : (r₀.ledger index es).current = none := by
    rw [← ht.held, hfirst.vacant]
    rfl
  have hbefore : ∀ j < index, ∀ d, (r₀.books es r).ledgers[j]? = some d → d.current.isSome := by
    intro j hj d hd
    have hlt' := lt_of_getElem?_books hd
    obtain ⟨c', hc', ht', -⟩ := h.channel hfresh hlt'
    cases (getElem?_books hlt').symm.trans hd
    rw [← ht'.held, Option.isSome_map]
    exact hfirst.before j hj c' hc'
  -- what is still on the link follows what the channel has taken so far
  have hframe : (feed index)[(r₀.ledger index es).taken.length]? = some frame := by
    obtain ⟨more, hmore⟩ := hfeed index
    rw [← hmore, harrived, hlink]
    simp
  rw [books_took h hlt ht.lastCount htook]
  exact .take (getElem?_books hlt) hvacant hbefore hframe

/-- What a step does to the books comes next for them, if it comes to anything. -/
theorem Step.reaches {e : Event} (h : History r₀ es r) (hfresh : ∀ c ∈ r₀.channels, r₀.Fresh c)
    (hstep : Step r e r') (haligns : e ≠ .misaligned) {feed : Nat → List Bytes}
    (hfeed : ∀ index, r₀.arrived es index <+: feed index) :
    Relation.ReflTransGen (Books.Next r₀.order r₀.wireItem feed) (r₀.books es r)
      (r₀.books (es ++ [e]) r') := by
  cases hstep with
  -- what only reaches a link is not in the books
  | came index frame =>
    have hbooks : r₀.books (es ++ [.came index frame]) (r.onLink index (·.carry frame)) =
        (r₀.books es r).mapLedgers id := books_snoc rfl fun _ => rfl
    rw [hbooks, Books.mapLedgers, List.map_id]
  | closed index =>
    have hbooks : r₀.books (es ++ [.closed index]) (r.onLink index Link.closeSender) =
        (r₀.books es r).mapLedgers id := books_snoc rfl fun _ => rfl
    rw [hbooks, Books.mapLedgers, List.map_id]
  | took hfirst hlink hfetch => exact .single (Step.next_took h hfresh hfirst hlink hfetch hfeed)
  | @outdated time hfull hnewest holder =>
    have hbooks : r₀.books (es ++ [.outdated time]) (r.dropHeld (isOlder time)) =
        (r₀.books es r).mapLedgers (Ledger.drop (Part.isOlder time) (.outdated time)) :=
      books_snoc rfl fun _ => rfl
    rw [hbooks]
    refine .single (.drop (h.full_books hfresh hfull) ?_ ?_)
    · rw [h.newest_books hfresh, hnewest]
    · rw [h.older_books hfresh, holder]
  | misaligned => exact absurd rfl haligns
  | @handed count hfull haligned hcount =>
    have hbooks : r₀.books (es ++ [.handed count]) (r.advance count).1 =
        (r₀.books es r).mapLedgers (Ledger.hand count) := books_snoc rfl fun _ => rfl
    rw [hbooks]
    refine Books.reaches_hand (h.full_books hfresh hfull) ?_ ?_
    · intro time htime
      rw [h.newest_books hfresh] at htime
      rw [h.older_books hfresh]
      exact haligned time htime
    · intro q hq
      rw [h.held_books hfresh] at hq
      obtain ⟨p, hp, rfl⟩ := List.mem_map.mp hq
      exact hcount p hp

/-- A history in which the channels always come to a common time takes the books
as far as they get in the order of what comes next. -/
theorem History.reaches (h : History r₀ es r) (hfresh : ∀ c ∈ r₀.channels, r₀.Fresh c)
    (haligns : .misaligned ∉ es) {feed : Nat → List Bytes}
    (hfeed : ∀ index, r₀.arrived es index <+: feed index) :
    Relation.ReflTransGen (Books.Next r₀.order r₀.wireItem feed) (r₀.books [] r₀)
      (r₀.books es r) := by
  induction h with
  | refl => exact .refl
  | @step r₁ r₂ es e h hstep ih =>
    have hearlier (index : Nat) : r₀.arrived es index <+: feed index := by
      refine List.IsPrefix.trans ?_ (hfeed index)
      rw [arrived, arrived, List.filterMap_append, ← List.append_assoc]
      exact List.prefix_append _ _
    have hes : .misaligned ∉ es := fun hmem => haligns (List.mem_append_left _ hmem)
    have he : e ≠ .misaligned := fun heq => haligns (by simp [heq])
    exact (ih hes hearlier).trans (hstep.reaches h hfresh he hearlier)
  | aside h pending mode issued ih => exact ih haligns hfeed

end Books

/-! ## Two runs -/

/-- What one run delivered, dropped and showed is a first part of what the other
did. -/
structure Trails (r₀ : Receiver) (actions : List Action) (es : List Event) (r : Receiver)
    (actions' : List Action) (es' : List Event) (r' : Receiver) : Prop where
  delivered : ∀ index < r₀.channels.length,
    deliveredBytes index r₀.hostItem actions <+: deliveredBytes index r₀.hostItem actions'
  gone : ∀ index < r₀.channels.length,
    (r₀.ledger index es).gone <+: (r₀.ledger index es').gone
  markers : r.markers <+: r'.markers

theorem decoded_prefix {converter : Sample.Converter} {out out' : List (Bytes × Nat)}
    (h : out <+: out') : decoded converter out <+: decoded converter out' := by
  obtain ⟨more, rfl⟩ := h
  rw [decoded_append]
  exact List.prefix_append _ _

theorem Recorded.trails {r₀ r r' : Receiver} {actions actions' : List Action} {es es' : List Event}
    (h : Recorded r₀ actions es r) (h' : Recorded r₀ actions' es' r')
    (hbehind : (r₀.books es r).Behind (r₀.books es' r')) :
    Trails r₀ actions es r actions' es' r' := by
  have hledger (index : Nat) (hlt : index < r₀.channels.length) :
      (r₀.ledger index es).Behind (r₀.ledger index es') :=
    hbehind.ledgers index _ _ (getElem?_books hlt) (getElem?_books hlt)
  refine ⟨fun index hlt => ?_, fun index hlt => (hledger index hlt).gone, hbehind.markers⟩
  have hc := List.getElem?_eq_getElem hlt
  rw [h.delivered hc, h'.delivered hc]
  exact decoded_prefix (hledger index hlt).out

theorem Recorded.arrived_prefix {r₀ r : Receiver} {actions : List Action} {es : List Event}
    (h : Recorded r₀ actions es r) {feed : Nat → List Bytes}
    (hfeed : ∀ index, arrivals index actions <+: feed index) (index : Nat) :
    r₀.arrived es index <+: (r₀.channels[index]?.map (·.link.frames)).getD [] ++ feed index := by
  rw [arrived, h.frames]
  exact (List.prefix_append_right_inj _).mpr (hfeed index)

/-- Two runs of one stream over the same frames, in neither of which the channels
fail to come to a common time, are recorded by histories of which one trails the
other: on all channels alike, in the samples returned, in the packets dropped, and
in the markers. -/
theorem runs_agree {o : StreamOptions} {settings : Settings} {links : List Link}
    {r₀ r r' : Receiver} {actions actions' : List Action} {feed : Nat → List Bytes}
    (hbuilt : Built o settings links r₀) (hrun : Run r₀ actions r) (hrun' : Run r₀ actions' r')
    (hfeed : ∀ index, arrivals index actions <+: feed index)
    (hfeed' : ∀ index, arrivals index actions' <+: feed index)
    (haligns : .misaligned r₀.channels.length (r₀.alignmentThreshold + 1) ∉ r.warnings)
    (haligns' : .misaligned r₀.channels.length (r₀.alignmentThreshold + 1) ∉ r'.warnings) :
    ∃ es es', Recorded r₀ actions es r ∧ Recorded r₀ actions' es' r' ∧
      (Trails r₀ actions es r actions' es' r' ∨ Trails r₀ actions' es' r' actions es r) := by
  have hreaches {actions : List Action} {es : List Event} {r : Receiver}
      (h : Recorded r₀ actions es r) (hfeed : ∀ index, arrivals index actions <+: feed index)
      (haligns : .misaligned r₀.channels.length (r₀.alignmentThreshold + 1) ∉ r.warnings) :=
    h.history.reaches hbuilt.fresh (fun hmem => haligns <| by
      rw [h.history.warnings]
      exact List.mem_append_right _ (List.mem_flatMap.mpr ⟨_, hmem, List.mem_singleton_self _⟩))
      (h.arrived_prefix hfeed)
  obtain ⟨es, h⟩ := hrun.recorded hbuilt.fresh
  obtain ⟨es', h'⟩ := hrun'.recorded hbuilt.fresh
  refine ⟨es, es', h, h', ?_⟩
  -- both runs start from the same books, and there is one way to go on from them
  rcases Relation.ReflTransGen.total_of_right_unique Books.next_rightUnique
    (hreaches h hfeed haligns) (hreaches h' hfeed' haligns') with hnext | hnext
  · exact .inl (h.trails h' (Books.behind_of_reaches hnext))
  · exact .inr (h'.trails h (Books.behind_of_reaches hnext))

/-- Three samples of time 7. -/
def longFrame : Bytes :=
  [0x10, 0x10, 0, 7, 0, 0, 0, 0, 0, 0, 0, 0, 0, 0, 0, 7, 0, 1, 0, 2, 0, 3, 0, 4, 0, 5, 0, 6]

/-- One sample of time 5. -/
def olderFrame : Bytes := [0x10, 0x10, 0, 5, 0, 0, 0, 0, 0, 0, 0, 0, 0, 0, 0, 5, 0, 9, 0, 9]

/-- One sample of time 7 behind it. -/
def shortFrame : Bytes := [0x10, 0x11, 0, 5, 0, 0, 0, 0, 0, 0, 0, 0, 0, 0, 0, 7, 0, 1, 0, 1]

/-- Two more samples of time 7. -/
def lateFrame : Bytes :=
  [0x10, 0x12, 0, 6, 0, 0, 0, 0, 0, 0, 0, 0, 0, 0, 0, 7, 0, 2, 0, 2, 0, 3, 0, 3]

/-- All frames are there before one call, or the last ones come in only behind calls for
less. Both runs return samples, after the older packet of the second channel is dropped. -/
theorem runs_agree_late_packet :
    let buffers := List.replicate 2 (List.replicate 16 0)
    ∃ actions actions' r r',
      twoChannels.actAll [.came 0 longFrame, .came 1 olderFrame, .came 1 shortFrame,
        .came 1 lateFrame, .call buffers 4 false] = some (actions, r) ∧
      twoChannels.actAll [.came 0 longFrame, .came 1 olderFrame, .call buffers 2 true,
        .came 1 shortFrame, .call buffers 2 true, .came 1 lateFrame, .call buffers 1 false] =
          some (actions', r') ∧
      (callsOf actions).map (·.got.samples) = [3] ∧
      (callsOf actions').map (·.got.samples) = [0, 1, 1] ∧
      Run twoChannels actions r ∧ Run twoChannels actions' r' ∧
      ∃ es es', Recorded twoChannels actions es r ∧ Recorded twoChannels actions' es' r' ∧
        (Trails twoChannels actions es r actions' es' r' ∨
          Trails twoChannels actions' es' r' actions es r) := by
  intro buffers
  let told (a : List Action × Receiver) : List Nat × List Warning :=
    ((callsOf a.1).map (·.got.samples), a.2.warnings)
  have hseen : (twoChannels.actAll [.came 0 longFrame, .came 1 olderFrame, .came 1 shortFrame,
      .came 1 lateFrame, .call buffers 4 false]).map told = some ([3], []) := by decide +kernel
  have hseen' : (twoChannels.actAll [.came 0 longFrame, .came 1 olderFrame, .call buffers 2 true,
      .came 1 shortFrame, .call buffers 2 true, .came 1 lateFrame, .call buffers 1 false]).map
        told = some ([0, 1, 1], []) := by decide +kernel
  obtain ⟨actions, r, hact, hrun, harrivals, htold⟩ := exists_of_actAll hseen
  obtain ⟨actions', r', hact', hrun', harrivals', htold'⟩ := exists_of_actAll hseen'
  have hwarnings : r.warnings = [] := congrArg Prod.snd htold
  have hwarnings' : r'.warnings = [] := congrArg Prod.snd htold'
  refine ⟨actions, actions', r, r', hact, hact', congrArg Prod.fst htold,
    congrArg Prod.fst htold', hrun, hrun', ?_⟩
  have hfeed (index : Nat) : arrivals index actions' <+: arrivals index actions := by
    rw [harrivals, harrivals']
    exact List.prefix_rfl
  exact runs_agree built_twoChannels hrun hrun' (fun _ => List.prefix_rfl) hfeed
    (by simp [hwarnings]) (by simp [hwarnings'])

end SampleStream.Receiver
