import SampleStream.Proofs.Transmit.Framing
import SampleStream.Proofs.Transmit.Send

/-!
# Sending on one link

With one channel nothing can come between the channels, and a call does one of two
things: its link takes the first pieces, as many as are counted, or it fails before
the link took any (`send_one`). A later piece cannot fail where the first did not,
for its packet is no longer.
-/

namespace SampleStream.Transmitter
open Transmit

variable {t t' : Transmitter} {c c' : Channel} {m : Metadata} {buffer : Bytes} {total : Nat}

theorem offer_one {piece : Piece} {result : Except StreamError Bool} (hchannels : t.channels = [c])
    (h : t.offer m [buffer] piece false = some (t', result)) :
    ∃ c', c.offer t.packing m buffer piece = some (c', result) ∧
      t' = { t with channels := [c'] } := by
  simp only [offer, hchannels, List.zip_cons_cons, List.zip_nil_right, offerEach, bind,
    Option.bind_eq_some_iff] at h
  obtain ⟨⟨cs, result'⟩, ⟨⟨c', taken⟩, hoffer, heach⟩, heq⟩ := h
  cases heq
  refine ⟨c', ?_⟩
  cases taken with
  | error e =>
    cases heach
    exact ⟨hoffer, rfl⟩
  | ok accepted =>
    cases accepted with
    | true =>
      cases heach
      exact ⟨hoffer, rfl⟩
    | false =>
      cases heach
      exact ⟨hoffer, rfl⟩

/-- Nothing fails as long as the link carries every piece. -/
theorem sendPieces_carries {ps : List Piece} {result : Except StreamError Nat}
    (hchannels : t.channels = [c]) (hopen : c.link.receiverOpen = true)
    (hcarries : ∀ piece ∈ ps, c.Carries t.packing (pieceMetadata m total piece) piece.samples)
    (h : sendPieces m [buffer] total ps t = some (t', result)) : ∃ k, result = .ok k := by
  induction ps generalizing t c with
  | nil =>
    cases h
    exact ⟨total, rfl⟩
  | cons piece rest ih =>
    simp only [sendPieces, bind, Option.bind_eq_some_iff] at h
    obtain ⟨⟨t₁, offered⟩, hoffer, h⟩ := h
    obtain ⟨c', hc', rfl⟩ := offer_one hchannels hoffer
    cases offered with
    | error e =>
      obtain ⟨-, hnot⟩ := Channel.offer_error hopen hc'
      exact absurd (hcarries piece (List.mem_cons_self ..)) hnot
    | ok accepted =>
      cases accepted with
      | false =>
        cases h
        exact ⟨piece.start, rfl⟩
      | true =>
        dsimp only at h
        rcases Channel.offer_ok hc' with ⟨-, -, frame, -, rfl⟩ | ⟨hno, -⟩
        · have hrest := fun other hother => hcarries other (List.mem_cons_of_mem _ hother)
          exact ih (t := { t with channels := [c.put frame] }) rfl hopen hrest h
        · cases hno

/-- The packet of the first piece is the longest. -/
theorem words_pieces_le (p : Packing) {size : Nat} :
    ∀ piece ∈ pieces size total, p.words (pieceMetadata m total piece) piece.samples ≤
      p.words (pieceMetadata m total ⟨0, min size total⟩) (min size total) := by
  intro piece hpiece
  obtain ⟨k, hk⟩ := List.getElem?_of_mem hpiece
  have heq := getElem?_pieces hk
  refine p.words_le ?_ ?_
  · simp only [pieceMetadata]
    by_cases hfirst : piece.start = 0
    · exact .inr (by simp [hfirst])
    · exact .inl (by simp [hfirst])
  · rw [heq]
    dsimp only
    omega

theorem carries_pieces {p : Packing} {size : Nat}
    (h : c.Carries p (pieceMetadata m total ⟨0, min size total⟩) (min size total)) :
    ∀ piece ∈ pieces size total, c.Carries p (pieceMetadata m total piece) piece.samples := by
  intro piece hpiece
  have hwords := words_pieces_le (m := m) p piece hpiece
  have hlimit := h.2
  exact ⟨Nat.le_trans hwords h.1, by omega⟩

theorem sendPieces_error {size : Nat} {e : StreamError} (hchannels : t.channels = [c])
    (hopen : c.link.receiverOpen = true)
    (h : sendPieces m [buffer] total (pieces size total) t = some (t', .error e)) : t' = t := by
  cases hpieces : pieces size total with
  | nil =>
    rw [hpieces] at h
    cases h
  | cons first rest =>
    have hfirst : first = ⟨0, min size total⟩ := by
      have := getElem?_pieces (k := 0) (by rw [hpieces]; rfl : (pieces size total)[0]? = some first)
      simpa using this
    rw [hpieces] at h
    simp only [sendPieces, bind, Option.bind_eq_some_iff] at h
    obtain ⟨⟨t₁, offered⟩, hoffer, h⟩ := h
    obtain ⟨c', hc', rfl⟩ := offer_one hchannels hoffer
    cases offered with
    | error e' =>
      cases h
      obtain ⟨rfl, -⟩ := Channel.offer_error hopen hc'
      rw [← hchannels]
    | ok accepted =>
      cases accepted with
      | false => cases h
      | true =>
        -- the first piece went through, and so would the others
        have hcarries := Channel.offer_carries hc'
        rw [hfirst] at hcarries
        rcases Channel.offer_ok hc' with ⟨-, -, frame, -, rfl⟩ | ⟨hno, -⟩
        · have hrest : ∀ piece ∈ rest,
              (c.put frame).Carries t.packing (pieceMetadata m total piece) piece.samples :=
            fun piece hpiece => carries_pieces hcarries piece
              (by rw [hpieces]; exact List.mem_cons_of_mem _ hpiece)
          dsimp only at h
          obtain ⟨k, hk⟩ := sendPieces_carries (t := { t with channels := [c.put frame] }) rfl hopen
            hrest h
          cases hk
        · cases hno

variable {buffers : List Bytes}

theorem send_error {e : StreamError} (hchannels : t.channels = [c])
    (hopen : c.link.receiverOpen = true) (htotal : 0 < total)
    (h : t.send buffers total m = some (t', .error e)) : t' = t := by
  unfold send at h
  by_cases hlength : buffers.length ≠ t.channels.length
  · rw [if_pos hlength] at h
    cases h
    rfl
  · rw [if_neg hlength] at h
    simp only [bind, Option.bind_eq_some_iff] at h
    obtain ⟨need, -, h⟩ := h
    have hone : buffers.length = 1 := by
      rw [hchannels] at hlength
      exact Decidable.not_not.mp hlength
    obtain ⟨buffer, rfl⟩ := List.length_eq_one_iff.mp hone
    split at h
    · cases h
      rfl
    · split at h
      · cases h
        rfl
      · rw [if_neg (Nat.pos_iff_ne_zero.mp htotal)] at h
        exact sendPieces_error hchannels hopen h

/-- On one link no channel can be ahead of the others. -/
theorem Sent.one {ps : List Piece} {rounds blocked : Nat} (hchannels : t.channels = [c])
    (h : Sent t m [buffer] total ps t' rounds blocked) :
    ∃ c', t' = { t with channels := [c'] } ∧
      Accepted t.packing m total buffer c (ps.take rounds) c' := by
  have hblocked : blocked = 0 := by
    rcases Nat.lt_or_ge rounds ps.length with hlt | hge
    · obtain ⟨d, hd, -⟩ := h.stopped hlt
      obtain ⟨hblocked, -⟩ := List.getElem?_eq_some_iff.mp hd
      rw [hchannels] at hblocked
      exact Nat.lt_one_iff.mp hblocked
    · exact h.finished (Nat.le_antisymm h.le hge)
  have hzero : t.channels[0]? = some c := by rw [hchannels]; rfl
  obtain ⟨-, -, c', hc', haccepted⟩ := h.channel hzero rfl
  rw [hblocked, if_neg (Nat.lt_irrefl 0)] at haccepted
  have hone : t'.channels = [c'] := by
    have hlength := h.length
    rw [hchannels] at hlength
    obtain ⟨only, honly⟩ := List.length_eq_one_iff.mp hlength
    rw [honly] at hc'
    cases hc'
    exact honly
  refine ⟨c', ?_, haccepted⟩
  rw [← hone]
  exact h.same

/-- A call on one link: it fails and nothing has changed, or the link took the first
pieces and these are what was counted. -/
theorem send_one {result : Except StreamError Nat} (hchannels : t.channels = [c])
    (hopen : c.link.receiverOpen = true) (hsize : 0 < t.packetSamples) (htotal : 0 < total)
    (h : t.send buffers total m = some (t', result)) :
    (∃ e, result = .error e ∧ t' = t) ∨
      ∃ buffer rounds c', buffers = [buffer] ∧
        rounds ≤ (pieces t.packetSamples total).length ∧
        result = .ok (min total (rounds * t.packetSamples)) ∧
        t' = { t with channels := [c'] } ∧
        Accepted t.packing m total buffer c ((pieces t.packetSamples total).take rounds) c' := by
  cases result with
  | error e => exact .inl ⟨e, rfl, send_error hchannels hopen htotal h⟩
  | ok k =>
    obtain ⟨hlength, rounds, blocked, hsent, rfl⟩ := send_ok hsize htotal h
    have hone : buffers.length = 1 := by rw [hlength, hchannels]; rfl
    obtain ⟨buffer, rfl⟩ := List.length_eq_one_iff.mp hone
    obtain ⟨c', hsame, haccepted⟩ := hsent.one hchannels
    exact .inr ⟨buffer, rounds, c', rfl, hsent.le, rfl, hsame, haccepted⟩

end SampleStream.Transmitter
