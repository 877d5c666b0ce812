import Mathlib.Data.List.Forall2
import SampleStream.Proofs.Transmit.Send

/-!
# What any call does to the channels

Whatever a call answers, nothing of the stream changes but its channels, and a channel
changes only where its link takes a frame. A relation that is reflexive and transitive, and
holds where a link takes a frame of the call, therefore holds between each channel before
the call and after it (`send_forall₂`).
-/

namespace SampleStream.Transmit.Channel

variable {c c' : Channel}

/-- A channel that is offered a piece takes a frame of it, or stays as it is. -/
theorem offer_cases {p : Packing} {m : Metadata} {buffer : Bytes} {piece : Piece}
    {result : Except StreamError Bool} (h : c.offer p m buffer piece = some (c', result)) :
    c' = c ∨ ∃ frame, p.frame c m buffer piece = some (.ok frame) ∧ c' = c.put frame := by
  cases result with
  | ok taken =>
    rcases offer_ok h with ⟨-, -, hput⟩ | ⟨-, -, hsame⟩
    · exact .inr hput
    · exact .inl hsame
  | error e =>
    simp only [offer, bind, Option.bind_eq_some_iff] at h
    obtain ⟨framed, -, h⟩ := h
    cases framed with
    | error e => cases h; exact .inl rfl
    | ok frame =>
      dsimp only at h
      split at h
      · cases h
        exact .inl rfl
      · cases h
      · cases h

end SampleStream.Transmit.Channel

namespace SampleStream.Transmitter
open Transmit

variable {R : Channel → Channel → Prop} {p : Packing} {m : Metadata} {t t' : Transmitter}
  {buffers : List Bytes} {total : Nat}

theorem forall₂_trans (htrans : ∀ c c' c'', R c c' → R c' c'' → R c c'')
    {cs cs' cs'' : List Channel} (h : List.Forall₂ R cs cs') (h' : List.Forall₂ R cs' cs'') :
    List.Forall₂ R cs cs'' := by
  induction h generalizing cs'' with
  | nil => exact h'
  | cons hfirst _ ih =>
    cases h' with
    | cons hfirst' h' => exact .cons (htrans _ _ _ hfirst hfirst') (ih h')

theorem offerEach_forall₂ {piece : Piece} {regardless : Bool} {cs : List (Channel × Bytes)}
    {cs' : List Channel} {result : Except StreamError Bool} (hrefl : ∀ c, R c c)
    (hput : ∀ {c : Channel} {buffer frame : Bytes},
      p.frame c m buffer piece = some (.ok frame) → R c (c.put frame))
    (h : offerEach p m piece regardless cs = some (cs', result)) :
    List.Forall₂ R (cs.map Prod.fst) cs' := by
  induction cs generalizing cs' result with
  | nil =>
    cases h
    exact .nil
  | cons head rest ih =>
    obtain ⟨c, buffer⟩ := head
    have hrest : List.Forall₂ R (rest.map Prod.fst) (rest.map Prod.fst) :=
      List.forall₂_same.mpr fun c _ => hrefl c
    simp only [offerEach, bind, Option.bind_eq_some_iff] at h
    obtain ⟨⟨c', offered⟩, hoffer, h⟩ := h
    have hhead : R c c' := by
      rcases Channel.offer_cases hoffer with rfl | ⟨frame, hframe, rfl⟩
      · exact hrefl _
      · exact hput hframe
    cases offered with
    | error e =>
      cases h
      exact .cons hhead hrest
    | ok taken =>
      dsimp only at h
      split at h
      · obtain ⟨⟨cs₁, result₁⟩, hcs, h⟩ := Option.bind_eq_some_iff.mp h
        cases h
        exact .cons hhead (ih hcs)
      · cases h
        exact .cons hhead hrest

theorem offer_forall₂ {piece : Piece} {regardless : Bool} {result : Except StreamError Bool}
    (hrefl : ∀ c, R c c)
    (hput : ∀ {c : Channel} {buffer frame : Bytes},
      t.packing.frame c m buffer piece = some (.ok frame) → R c (c.put frame))
    (hlength : buffers.length = t.channels.length)
    (h : t.offer m buffers piece regardless = some (t', result)) :
    t' = { t with channels := t'.channels } ∧ List.Forall₂ R t.channels t'.channels := by
  simp only [offer, bind, Option.bind_eq_some_iff] at h
  obtain ⟨⟨cs, offered⟩, hoffer, heq⟩ := h
  cases heq
  have hchannels := offerEach_forall₂ hrefl hput hoffer
  rw [List.map_fst_zip (Nat.le_of_eq hlength.symm)] at hchannels
  exact ⟨rfl, hchannels⟩

theorem sendPieces_forall₂ {ps : List Piece} {result : Except StreamError Nat}
    (hrefl : ∀ c, R c c) (htrans : ∀ c c' c'', R c c' → R c' c'' → R c c'')
    (hput : ∀ {c : Channel} {buffer frame : Bytes} {piece : Piece},
      t.packing.frame c (pieceMetadata m total piece) buffer piece = some (.ok frame) →
        R c (c.put frame))
    (hlength : buffers.length = t.channels.length)
    (h : sendPieces m buffers total ps t = some (t', result)) :
    t' = { t with channels := t'.channels } ∧ List.Forall₂ R t.channels t'.channels := by
  induction ps generalizing t with
  | nil =>
    cases h
    exact ⟨rfl, List.forall₂_same.mpr fun c _ => hrefl c⟩
  | cons piece rest ih =>
    simp only [sendPieces, bind, Option.bind_eq_some_iff] at h
    obtain ⟨⟨t₁, offered⟩, hoffer, h⟩ := h
    obtain ⟨hsame, hfirst⟩ := offer_forall₂ hrefl hput hlength hoffer
    cases offered with
    | error e =>
      cases h
      exact ⟨hsame, hfirst⟩
    | ok taken =>
      cases taken with
      | false =>
        cases h
        exact ⟨hsame, hfirst⟩
      | true =>
        have hpacking : t₁.packing = t.packing := by rw [hsame]
        obtain ⟨hsame', hlater⟩ := ih (fun hframe => hput (hpacking ▸ hframe))
          (hlength.trans hfirst.length_eq) h
        refine ⟨?_, forall₂_trans htrans hfirst hlater⟩
        rw [hsame', hsame]

/-- Whatever a call answers, the channels after it are related to those before it by any
such relation. The end of a burst is in no packet of a call that is not asked for it. -/
theorem send_forall₂ {result : Except StreamError Nat} (hrefl : ∀ c, R c c)
    (htrans : ∀ c c' c'', R c c' → R c' c'' → R c c'')
    (hput : ∀ {c : Channel} {m' : Metadata} {buffer frame : Bytes} {piece : Piece},
      (m'.endOfBurst = true → m.endOfBurst = true) →
        t.packing.frame c m' buffer piece = some (.ok frame) → R c (c.put frame))
    (h : t.send buffers total m = some (t', result)) :
    t' = { t with channels := t'.channels } ∧ List.Forall₂ R t.channels t'.channels := by
  have hsame : List.Forall₂ R t.channels t.channels := List.forall₂_same.mpr fun c _ => hrefl c
  unfold send at h
  split at h
  · cases h
    exact ⟨rfl, hsame⟩
  · rename_i hlength
    obtain ⟨need, -, h⟩ := Option.bind_eq_some_iff.mp h
    split at h
    · cases h
      exact ⟨rfl, hsame⟩
    · split at h
      · cases h
        exact ⟨rfl, hsame⟩
      · split at h
        · split at h
          · simp only [endBurst, bind, Option.bind_eq_some_iff] at h
            obtain ⟨⟨t₁, offered⟩, hoffer, h⟩ := h
            have hall := offer_forall₂ hrefl (hput id) (by simp) hoffer
            cases offered with
            | error e =>
              cases h
              exact hall
            | ok taken =>
              cases h
              exact hall
          · cases h
            exact ⟨rfl, hsame⟩
        · refine sendPieces_forall₂ hrefl htrans (hput fun hends => ?_)
            (Decidable.not_not.mp hlength) h
          rw [pieceMetadata, Bool.and_eq_true] at hends
          exact hends.1

end SampleStream.Transmitter
