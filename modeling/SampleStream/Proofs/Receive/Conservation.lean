import Mathlib.Data.List.Induction
import SampleStream.Proofs.Receive.Run

/-!
# No sample is lost, repeated or reordered

Whatever frames come in on the channels of a receive stream and whatever calls are
made, as long as none ends with an error: what the calls returned for a channel is,
packet by packet in the order of arrival, a first part of every packet of samples
(`run_conserves_samples`). It is all of the packet unless the packet is held still
or was dropped for the sake of a common time, and a stream of one channel drops
none.
-/

namespace SampleStream.Receive

/-- The event that a packet met its fate by, if not by being handed out. -/
def Fate.event? : Fate → Option Event
  | used => none
  | outdated newest => some (.outdated newest)
  | misaligned => some .misaligned

/-- Whether the event drops packets. -/
def Event.discards : Event → Bool
  | outdated _ | misaligned => true
  | _ => false

namespace Ledger

variable {order : ByteOrder} {wireItem index : Nat}

theorem gone_drop {l : Ledger} {pick : Part → Bool} {fate : Fate} {x : Part × Fate}
    (h : x ∈ (l.drop pick fate).gone) : x ∈ l.gone ∨ x.2 = fate := by
  unfold drop at h
  split at h
  · exact .inl h
  · split at h
    · rcases List.mem_append.mp h with h | h
      · exact .inl h
      · cases List.mem_singleton.mp h
        exact .inr rfl
    · exact .inl h

theorem gone_hand {l : Ledger} {count : Nat} {x : Part × Fate} (h : x ∈ (l.hand count).gone) :
    x ∈ l.gone ∨ x.2 = .used := by
  unfold hand at h
  split at h
  · exact .inl h
  · split at h
    · rcases List.mem_append.mp h with h | h
      · exact .inl h
      · cases List.mem_singleton.mp h
        exact .inr rfl
    · exact .inl h

/-- No packet is written off but by an event that drops packets. -/
theorem event_of_gone {es : List Event} {x : Part × Fate}
    (h : x ∈ (Ledger.recordAll order wireItem index {} es).gone) {e : Event}
    (he : x.2.event? = some e) : e ∈ es := by
  -- the last event wrote the packet off, or it was gone before
  induction es using List.reverseRecOn with
  | nil => cases h
  | append_singleton es e' ih =>
    rw [recordAll_snoc] at h
    have hearlier (h : x ∈ (Ledger.recordAll order wireItem index {} es).gone) : e ∈ es ++ [e'] :=
      List.mem_append_left _ (ih h)
    cases e' with
    | came | closed => exact hearlier h
    | took channel frame =>
      simp only [record] at h
      split at h <;> exact hearlier h
    | outdated time =>
      rcases gone_drop h with h | hfate
      · exact hearlier h
      · rw [hfate] at he
        cases he
        simp
    | misaligned =>
      rcases gone_drop h with h | hfate
      · exact hearlier h
      · rw [hfate] at he
        cases he
        simp
    | handed count =>
      rcases gone_hand h with h | hfate
      · exact hearlier h
      · rw [hfate] at he
        cases he

end Ledger
end SampleStream.Receive

namespace SampleStream.Receiver
open Receive

/-! ## One channel -/

theorem Step.discards_of_single {r r' : Receiver} {e : Event} (h : Step r e r')
    (hone : r.channels.length = 1) : e.discards = false := by
  have hheld : r.held.length ≤ 1 := hone ▸ List.length_filterMap_le ..
  cases h with
  | outdated _ hnewest holder =>
    rw [not_older_of_single hheld hnewest] at holder
    cases holder
  | misaligned _ hnewest holder =>
    rw [not_older_of_single hheld hnewest] at holder
    cases holder
  | _ => rfl

theorem History.discards_of_single {r r' : Receiver} {es : List Event} (h : History r es r')
    (hone : r.channels.length = 1) : ∀ e ∈ es, e.discards = false := by
  induction h with
  | refl => simp
  | step h hstep ih =>
    intro e he
    rcases List.mem_append.mp he with he | he
    · exact ih e he
    · cases List.mem_singleton.mp he
      exact hstep.discards_of_single (h.length_channels.trans hone)
  | aside _ _ _ _ ih => exact ih

/-! ## All channels -/

/-- The ledger of a channel of a new stream after these events. -/
def ledger (r₀ : Receiver) (index : Nat) (es : List Event) : Ledger :=
  Ledger.recordAll r₀.order r₀.wireItem index {} es

/-- What a run did to one channel, as its ledger has it. -/
structure Accounted (r₀ : Receiver) (actions : List Action) (es : List Event) (index : Nat)
    (c₀ c : Channel) : Prop where
  /-- A frame that came in was taken or is on the link still. -/
  frames : c₀.link.frames ++ arrivals index actions =
    (r₀.ledger index es).taken ++ c.link.frames
  /-- The packets are those of the frames taken, each once and in order. -/
  packets : (r₀.ledger index es).parts.map Part.packet =
    (r₀.ledger index es).taken.filterMap (packetOf r₀.order)
  sizes : ∀ p ∈ (r₀.ledger index es).parts,
    p.samples = p.payload.length / r₀.wireItem ∧ p.used ≤ p.samples
  /-- The packet held is handed out as far as its cursor. -/
  held : (r₀.ledger index es).current = c.held.map HeldPacket.part
  /-- A packet not held any more was handed out to its end or dropped for a reason. -/
  fates : ∀ x ∈ (r₀.ledger index es).gone, x.2.Befell x.1
  events : ∀ x ∈ (r₀.ledger index es).gone, ∀ e, x.2.event? = some e → e ∈ es
  delivered : deliveredBytes index r₀.hostItem actions =
    decoded c₀.converter (r₀.ledger index es).out
  counts : (r₀.ledger index es).out.length = ((callsOf actions).map (·.got.samples)).sum

theorem Recorded.accounted {r₀ r : Receiver} {actions : List Action} {es : List Event}
    (h : Recorded r₀ actions es r) {index : Nat} {c₀ : Channel}
    (hc₀ : r₀.channels[index]? = some c₀) (hfresh : r₀.Fresh c₀) :
    ∃ c, r.channels[index]? = some c ∧ Accounted r₀ actions es index c₀ c := by
  obtain ⟨c, hc, ht, hframes⟩ := h.history.tracks hc₀ (hfresh.tracks _ _)
  obtain ⟨out, hout, hlength⟩ := h.history.out hc₀ (hfresh.tracks _ _)
  refine ⟨c, hc, ?_, ht.packets, ht.sizes, ht.held.symm, ht.fates,
    fun x hx e he => Ledger.event_of_gone hx he, h.delivered hc₀, ?_⟩
  · rw [← h.frames]
    exact hframes
  · rw [← h.counts, ← hlength, ledger, hout]
    simp [Ledger.out, Ledger.parts]

/-- Every run has a history by which each channel is accounted for, all calls keep
to their room, a failure to align is warned of, and a single channel drops
nothing. -/
theorem run_conserves_samples {o : StreamOptions} {settings : Settings} {links : List Link}
    {r₀ r : Receiver} {actions : List Action} (hbuilt : Built o settings links r₀)
    (hrun : Run r₀ actions r) :
    ∃ es, History r₀ es r ∧
      (∀ index c₀, r₀.channels[index]? = some c₀ →
        ∃ c, r.channels[index]? = some c ∧ Accounted r₀ actions es index c₀ c) ∧
      (∀ call ∈ callsOf actions, call.KeepsWithin r₀.hostItem) ∧
      r.warnings = es.flatMap (Event.warnings r₀.channels.length (r₀.alignmentThreshold + 1)) ∧
      (r₀.channels.length = 1 → ∀ index, ∀ x ∈ (r₀.ledger index es).gone, x.2 = .used) := by
  obtain ⟨es, hrecorded⟩ := hrun.recorded hbuilt.fresh
  refine ⟨es, hrecorded.history, fun index c₀ hc₀ => ?_, hrecorded.calls, ?_,
    fun hone index x hx => ?_⟩
  · exact hrecorded.accounted hc₀ (hbuilt.fresh c₀ (List.mem_of_getElem? hc₀))
  · rw [hrecorded.history.warnings, hbuilt.warnings, List.nil_append]
  · have hkept := hrecorded.history.discards_of_single hone
    cases hfate : x.2 with
    | used => rfl
    | outdated newest =>
      cases hkept _ (Ledger.event_of_gone hx (by rw [hfate]; rfl))
    | misaligned =>
      cases hkept _ (Ledger.event_of_gone hx (by rw [hfate]; rfl))

/-- A packet of one sample comes in, two samples are asked for, and the one is
accounted for. -/
theorem run_conserves_samples_one_packet :
    ∃ got r, got.buffers = [[1, 0, 2, 0, 9, 9, 9, 9]] ∧
      let actions : List Action := [.came 0 [0x10, 0, 0, 3, 0, 0, 0, 1, 0, 1, 0, 2],
        .call ⟨[[9, 9, 9, 9, 9, 9, 9, 9]], 2, false, got⟩]
      Run oneChannel actions r ∧
        ∃ es, History oneChannel es r ∧
          (∀ index c₀, oneChannel.channels[index]? = some c₀ →
            ∃ c, r.channels[index]? = some c ∧ Accounted oneChannel actions es index c₀ c) ∧
          (∀ call ∈ callsOf actions, call.KeepsWithin 4) ∧
          r.warnings = es.flatMap (Event.warnings 1 1001) ∧
          (1 = 1 → ∀ index, ∀ x ∈ (oneChannel.ledger index es).gone, x.2 = .used) := by
  have hseen : seen ((oneChannel.onLink 0 (·.carry
      [0x10, 0, 0, 3, 0, 0, 0, 1, 0, 1, 0, 2])).recv [[9, 9, 9, 9, 9, 9, 9, 9]] 2 false) =
      some (1, [[1, 0, 2, 0, 9, 9, 9, 9]], []) := by decide +kernel
  obtain ⟨r, got, hrecv, -, hbuffers, -⟩ := exists_of_seen hseen
  have hrun : Run oneChannel [.came 0 [0x10, 0, 0, 3, 0, 0, 0, 1, 0, 1, 0, 2],
      .call ⟨[[9, 9, 9, 9, 9, 9, 9, 9]], 2, false, got⟩] r :=
    .call (.came .start 0 _) hrecv
  exact ⟨got, r, hbuffers, hrun, run_conserves_samples built_oneChannel hrun⟩

end SampleStream.Receiver
