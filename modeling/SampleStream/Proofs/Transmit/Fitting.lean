import SampleStream.Proofs.Transmit.Offers
import SampleStream.Proofs.Transmit.OneLink

/-!
# Frames that fit

The packets of a stream are sized when it is set up, from the settings and the limits of
its links. A full packet fills whole words and leaves room for the longest header, so that
every frame that a call passes to a link is within all limits (`handed_fits`). The packets
of a call are framed in their order and the first is the longest, so that a call whose
packets cannot be framed passes nothing on (`send_framing`).
-/

namespace SampleStream

namespace Transmit

/-! ## Sizes -/

theorem frameSize_le (settings : Settings) (links : List Link) :
    Transmitter.frameSize settings links ≤ settings.sendFrameSize ∧
      ∀ l ∈ links, Transmitter.frameSize settings links ≤ l.maxFrame := by
  have hfold (size : Nat) : links.foldl (fun size l => min size l.maxFrame) size ≤ size ∧
      ∀ l ∈ links, links.foldl (fun size l => min size l.maxFrame) size ≤ l.maxFrame := by
    induction links generalizing size with
    | nil => exact ⟨Nat.le_refl size, nofun⟩
    | cons first rest ih =>
      obtain ⟨hsize, hrest⟩ := ih (min size first.maxFrame)
      refine ⟨Nat.le_trans hsize (Nat.min_le_left ..), fun l hl => ?_⟩
      rcases List.mem_cons.mp hl with rfl | hl
      · exact Nat.le_trans hsize (Nat.min_le_right ..)
      · exact hrest l hl
  exact hfold settings.sendFrameSize

/-- Samples in whole words fill them. -/
theorem wholeWords_fill {wireItem samples : Nat}
    (h : Transmitter.wholeWords wireItem ∣ samples) : 4 ∣ samples * wireItem := by
  obtain ⟨steps, rfl⟩ := h
  obtain ⟨rest, hrest⟩ := Nat.gcd_dvd_right 4 wireItem
  have hstep : Transmitter.wholeWords wireItem * Nat.gcd 4 wireItem = 4 :=
    Nat.div_mul_cancel (Nat.gcd_dvd_left 4 wireItem)
  refine ⟨steps * rest, ?_⟩
  calc Transmitter.wholeWords wireItem * steps * wireItem
      = Transmitter.wholeWords wireItem * steps * (Nat.gcd 4 wireItem * rest) := by rw [← hrest]
    _ = (Transmitter.wholeWords wireItem * Nat.gcd 4 wireItem) * (steps * rest) := by
      rw [Nat.mul_mul_mul_comm]
    _ = 4 * (steps * rest) := by rw [hstep]

/-- A packet of samples that fill whole words fits a frame that has room for them. -/
theorem Packing.words_fit (p : Packing) {m : Metadata} {samples full size : Nat}
    (hsamples : samples ≤ full) (hwhole : 4 ∣ full * p.wireItem)
    (hpos : 0 < full) (hroom : full ≤ samplesPerFrame size p.wireItem) :
    4 * p.words m samples ≤ size := by
  have hitem : 0 < p.wireItem := by
    apply Nat.pos_of_ne_zero
    intro hzero
    rw [hzero, samplesPerFrame, Nat.div_zero] at hroom
    omega
  have hfull : full * p.wireItem ≤ size - maxHeaderWords * 4 :=
    (Nat.le_div_iff_mul_le hitem).mp hroom
  have hfilled : 0 < full * p.wireItem := Nat.mul_pos hpos hitem
  have hmine : samples * p.wireItem ≤ full * p.wireItem := Nat.mul_le_mul_right _ hsamples
  have htime : m.time.isSome.toNat ≤ 1 := Bool.toNat_le _
  obtain ⟨filled, hfour⟩ := hwhole
  rw [Packing.words, Packing.payloadWords]
  rw [maxHeaderWords] at hfull
  omega

end Transmit

namespace Transmitter
open Transmit

/-- Packets have room in every frame, and fill whole words when they are full. -/
theorem packetSamples_of_plan {o : StreamOptions} {settings : Settings} {links : List Link}
    {p : Plan} (h : plan o settings links = .ok p) :
    p.packetSamples ≤ samplesPerFrame (frameSize settings links) p.conversion.wireItem := by
  simp only [plan, bind_eq_ok] at h
  obtain ⟨_, -, c, -, fullScale, -, asked, -, h⟩ := h
  split at h
  · rw [bind_eq_ok] at h
    obtain ⟨_, hnone, -⟩ := h
    cases hnone
  · split at h
    · rw [bind_eq_ok] at h
      obtain ⟨_, hnone, -⟩ := h
      cases hnone
    · cases h
      exact Nat.le_trans (Nat.div_mul_le_self ..) (Nat.min_le_right ..)

theorem Built.words_fit {o : StreamOptions} {settings : Settings} {links : List Link}
    {t : Transmitter} (h : Built o settings links t) (m : Metadata) {samples : Nat}
    (hsamples : samples ≤ t.packetSamples) :
    4 * t.packing.words m samples ≤ frameSize settings links := by
  have hpos := h.packetSamples_pos
  obtain ⟨made, hmade, ht⟩ := h
  obtain ⟨p, hplan, -, hitem, -, hsize, -⟩ := create_eq_ok hmade
  have hitem' : t.packing.wireItem = p.conversion.wireItem := by rw [ht, ← hitem]
  have hsize' : t.packetSamples = p.packetSamples := by rw [ht, ← hsize]
  obtain ⟨fullScale, -, -, hwhole⟩ := scalar_of_plan hplan
  refine t.packing.words_fit hsamples ?_ hpos ?_
  · rw [hitem', hsize']
    exact wholeWords_fill hwhole
  · rw [hitem', hsize']
    exact packetSamples_of_plan hplan

/-! ## What a call passes to the links -/

/-- The frame that the offer of a piece passes to the link, if it comes to that. -/
def passed (p : Packing) (m : Metadata) (piece : Piece) (c : Channel) (buffer : Bytes) :
    List Bytes :=
  match p.frame c m buffer piece with
  | some (.ok frame) => [frame]
  | _ => []

/-- The frames that `offerEach` passes to the links. -/
def passedEach (p : Packing) (m : Metadata) (piece : Piece) (regardless : Bool) :
    List (Channel × Bytes) → List Bytes
  | [] => []
  | (c, buffer) :: rest =>
    passed p m piece c buffer ++
      match c.offer p m buffer piece with
      | some (_, .ok taken) =>
        if taken || regardless then passedEach p m piece regardless rest else []
      | _ => []

/-- The frames that `sendPieces` passes to the links. -/
def passedPieces (m : Metadata) (buffers : List Bytes) (total : Nat) :
    List Piece → Transmitter → List Bytes
  | [], _ => []
  | piece :: rest, t =>
    passedEach t.packing (pieceMetadata m total piece) piece false (t.channels.zip buffers) ++
      match t.offer (pieceMetadata m total piece) buffers piece false with
      | some (t, .ok true) => passedPieces m buffers total rest t
      | _ => []

/-- Whether the arguments of a call are in order. -/
def admits (t : Transmitter) (buffers : List Bytes) (total : Nat) (m : Metadata) : Bool :=
  buffers.length == t.channels.length &&
    (mulSize total t.hostItem).any (fun need => buffers.all fun buffer => need ≤ buffer.length) &&
    !m.time.any fun time => time.before .zero

/-- The frames that a call passes to the links, whether they take them or not. -/
def handed (t : Transmitter) (buffers : List Bytes) (total : Nat) (m : Metadata) : List Bytes :=
  if !t.admits buffers total m then []
  else if total = 0 then
    if m.endOfBurst then
      passedEach t.packing m ⟨0, 1⟩ true
        (t.channels.zip (t.channels.map fun _ => List.replicate t.hostItem 0))
    else []
  else passedPieces m buffers total (pieces t.packetSamples total) t

section
variable {p : Packing} {m : Metadata} {t t' : Transmitter} {piece : Piece} {buffers : List Bytes}
  {total : Nat} {frame : Bytes} {regardless : Bool}

theorem length_of_passed {c : Channel} {buffer : Bytes} (h : frame ∈ passed p m piece c buffer) :
    frame.length = 4 * p.words m piece.samples := by
  rw [passed] at h
  split at h
  · rename_i made hframe
    cases List.mem_singleton.mp h
    exact (Packing.frame_holds hframe).2.1
  · cases h

theorem length_of_passedEach {cs : List (Channel × Bytes)}
    (h : frame ∈ passedEach p m piece regardless cs) :
    frame.length = 4 * p.words m piece.samples := by
  induction cs with
  | nil => cases h
  | cons head rest ih =>
    obtain ⟨c, buffer⟩ := head
    rw [passedEach] at h
    rcases List.mem_append.mp h with hfirst | hrest
    · exact length_of_passed hfirst
    · split at hrest
      · split at hrest
        · exact ih hrest
        · cases hrest
      · cases hrest

theorem packing_of_offer {result : Except StreamError Bool}
    (h : t.offer m buffers piece regardless = some (t', result)) : t'.packing = t.packing := by
  simp only [offer, bind, Option.bind_eq_some_iff] at h
  obtain ⟨⟨cs, offered⟩, -, heq⟩ := h
  cases heq
  rfl

theorem length_of_passedPieces {ps : List Piece} (h : frame ∈ passedPieces m buffers total ps t) :
    ∃ piece ∈ ps, frame.length =
      4 * t.packing.words (pieceMetadata m total piece) piece.samples := by
  induction ps generalizing t with
  | nil => cases h
  | cons piece rest ih =>
    rw [passedPieces] at h
    rcases List.mem_append.mp h with hfirst | hrest
    · exact ⟨piece, List.mem_cons_self, length_of_passedEach hfirst⟩
    · split at hrest
      · rename_i t₁ hoffer
        obtain ⟨later, hlater, hlength⟩ := ih hrest
        rw [packing_of_offer hoffer] at hlength
        exact ⟨later, List.mem_cons_of_mem _ hlater, hlength⟩
      · cases hrest

theorem samples_le_of_mem_pieces {size : Nat} (h : piece ∈ pieces size total) :
    piece.samples ≤ size := by
  obtain ⟨k, hk⟩ := List.getElem?_of_mem h
  rw [getElem?_pieces hk]
  exact Nat.min_le_left ..

/-- Every frame that a call passes to a link is one of a piece that fits a packet. -/
theorem length_of_handed (hsize : 0 < t.packetSamples) (h : frame ∈ t.handed buffers total m) :
    ∃ m' samples, samples ≤ t.packetSamples ∧ frame.length = 4 * t.packing.words m' samples := by
  rw [handed] at h
  split at h
  · cases h
  · split at h
    · split at h
      · exact ⟨m, 1, hsize, length_of_passedEach h⟩
      · cases h
    · obtain ⟨piece, hpiece, hlength⟩ := length_of_passedPieces h
      exact ⟨_, piece.samples, samples_le_of_mem_pieces hpiece, hlength⟩

/-- Every frame that a call passes to a link is within the limits that the stream was set
up with. -/
theorem handed_fits {o : StreamOptions} {settings : Settings} {links : List Link}
    (hbuilt : Built o settings links t) (h : frame ∈ t.handed buffers total m) :
    frame.length ≤ settings.sendFrameSize ∧ ∀ l ∈ links, frame.length ≤ l.maxFrame := by
  obtain ⟨m', samples, hsamples, hlength⟩ := length_of_handed hbuilt.packetSamples_pos h
  have hfits := hbuilt.words_fit m' hsamples
  obtain ⟨hsettings, hlinks⟩ := frameSize_le settings links
  rw [hlength]
  exact ⟨Nat.le_trans hfits hsettings, fun l hl => Nat.le_trans hfits (hlinks l hl)⟩

/-! ## Calls that cannot be framed -/

theorem offer_framing {c c' : Channel} {buffer : Bytes} {e : FramingError}
    (h : c.offer p m buffer piece = some (c', .error (.framing e))) :
    c' = c ∧ p.frame c m buffer piece = some (.error e) := by
  simp only [Channel.offer, bind, Option.bind_eq_some_iff] at h
  obtain ⟨framed, hframe, h⟩ := h
  cases framed with
  | error cause =>
    cases h
    exact ⟨rfl, hframe⟩
  | ok frame =>
    dsimp only at h
    split at h <;> cases h

/-- A packet that cannot be framed for one channel was framed for none before it. -/
theorem offerEach_framing {cs : List (Channel × Bytes)} {cs' : List Channel} {e : FramingError}
    (h : offerEach p m piece regardless cs = some (cs', .error (.framing e))) :
    maxPacketWords < p.words m piece.samples ∧ cs' = cs.map Prod.fst ∧
      passedEach p m piece regardless cs = [] := by
  induction cs generalizing cs' with
  | nil => cases h
  | cons head rest ih =>
    obtain ⟨c, buffer⟩ := head
    simp only [offerEach, bind, Option.bind_eq_some_iff] at h
    obtain ⟨⟨c', offered⟩, hoffer, h⟩ := h
    cases offered with
    | error cause =>
      cases h
      obtain ⟨rfl, hframe⟩ := offer_framing hoffer
      refine ⟨Packing.frame_error hframe, rfl, ?_⟩
      rw [passedEach, passed, hframe, hoffer]
      rfl
    | ok taken =>
      -- a packet of as many words was framed for this channel
      have hsmall := (Channel.offer_carries hoffer).1
      dsimp only at h
      split at h
      · obtain ⟨⟨cs₁, result₁⟩, hrest, h⟩ := Option.bind_eq_some_iff.mp h
        cases h
        exact absurd (ih hrest).1 (Nat.not_lt.mpr hsmall)
      · cases h

theorem offer_of_framing {e : FramingError}
    (hlength : buffers.length = t.channels.length)
    (h : t.offer m buffers piece regardless = some (t', .error (.framing e))) :
    maxPacketWords < t.packing.words m piece.samples ∧ t' = t ∧
      passedEach t.packing m piece regardless (t.channels.zip buffers) = [] := by
  simp only [offer, bind, Option.bind_eq_some_iff] at h
  obtain ⟨⟨cs, offered⟩, hoffer, heq⟩ := h
  cases heq
  obtain ⟨hlong, rfl, hnone⟩ := offerEach_framing hoffer
  rw [List.map_fst_zip (Nat.le_of_eq hlength.symm)]
  exact ⟨hlong, rfl, hnone⟩

/-- A piece that all channels took had a packet that can be framed, if there was a channel. -/
theorem words_le_of_offer {taken : Bool} (hlength : buffers.length = t.channels.length)
    (hsome : t.channels ≠ []) (h : t.offer m buffers piece regardless = some (t', .ok taken)) :
    t.packing.words m piece.samples ≤ maxPacketWords := by
  obtain ⟨c, cs, hcs⟩ := List.exists_cons_of_ne_nil hsome
  obtain ⟨buffer, bs, rfl⟩ := List.exists_cons_of_length_pos
    (show 0 < buffers.length by rw [hlength, hcs]; exact Nat.succ_pos _)
  simp only [offer, hcs, List.zip_cons_cons, offerEach, bind, Option.bind_eq_some_iff] at h
  obtain ⟨⟨_, _⟩, ⟨⟨c', offered⟩, hoffer, h⟩, heq⟩ := h
  cases offered with
  | error cause =>
    cases h
    cases heq
  | ok first => exact (Channel.offer_carries hoffer).1

/-- A framing error comes from a piece whose packet is too long. -/
theorem sendPieces_framing {ps : List Piece} {e : FramingError}
    (hlength : buffers.length = t.channels.length)
    (h : sendPieces m buffers total ps t = some (t', .error (.framing e))) :
    ∃ piece ∈ ps,
      maxPacketWords < t.packing.words (pieceMetadata m total piece) piece.samples := by
  induction ps generalizing t with
  | nil => cases h
  | cons piece rest ih =>
    simp only [sendPieces, bind, Option.bind_eq_some_iff] at h
    obtain ⟨⟨t₁, offered⟩, hoffer, h⟩ := h
    cases offered with
    | error cause =>
      cases h
      exact ⟨piece, List.mem_cons_self, (offer_of_framing hlength hoffer).1⟩
    | ok taken =>
      cases taken with
      | false => cases h
      | true =>
        have hchannels : t.channels.length = t₁.channels.length :=
          (offer_forall₂ (R := fun _ _ => True) (fun _ => trivial) (fun _ => trivial) hlength
            hoffer).2.length_eq
        obtain ⟨later, hlater, hlong⟩ := ih (hlength.trans hchannels) h
        rw [packing_of_offer hoffer] at hlong
        exact ⟨later, List.mem_cons_of_mem _ hlater, hlong⟩

/-- Without channels there is nothing to frame. -/
theorem sendPieces_of_no_channels (hnone : t.channels = []) (ps : List Piece) :
    sendPieces m buffers total ps t = some (t, .ok total) := by
  induction ps with
  | nil => rfl
  | cons piece rest ih =>
    have hoffer : t.offer (pieceMetadata m total piece) buffers piece false =
        some (t, .ok true) := by
      have hself : { t with channels := [] } = t := by rw [← hnone]
      rw [offer, hnone, List.zip_nil_left, offerEach]
      exact congrArg (fun t : Transmitter => (some (t, .ok true) : Checked (Answer Bool))) hself
    rw [sendPieces, hoffer]
    exact ih

/-- A call that ends in a framing error does so at its first packet. -/
theorem sendPieces_pieces_framing {e : FramingError}
    (hlength : buffers.length = t.channels.length)
    (h : sendPieces m buffers total (pieces t.packetSamples total) t =
      some (t', .error (.framing e))) :
    t' = t ∧ passedPieces m buffers total (pieces t.packetSamples total) t = [] := by
  have hsome : t.channels ≠ [] := fun hnone => by
    rw [sendPieces_of_no_channels hnone] at h
    cases h
  obtain ⟨piece, hpiece, hlong⟩ := sendPieces_framing hlength h
  have hlongest := Nat.lt_of_lt_of_le hlong (words_pieces_le t.packing piece hpiece)
  cases hpieces : pieces t.packetSamples total with
  | nil =>
    rw [hpieces] at h
    cases h
  | cons first rest =>
    have hfirst : first = ⟨0, min t.packetSamples total⟩ := by
      have := getElem?_pieces (k := 0)
        (by rw [hpieces]; rfl : (pieces t.packetSamples total)[0]? = some first)
      simpa using this
    subst hfirst
    rw [hpieces] at h
    simp only [sendPieces, bind, Option.bind_eq_some_iff] at h
    obtain ⟨⟨t₁, offered⟩, hoffer, h⟩ := h
    cases offered with
    | error cause =>
      cases h
      obtain ⟨-, rfl, hnone⟩ := offer_of_framing hlength hoffer
      refine ⟨rfl, ?_⟩
      rw [passedPieces, hnone, hoffer]
      rfl
    | ok taken =>
      -- the longest packet was framed
      have hsmall := words_le_of_offer hlength hsome hoffer
      exact absurd hsmall (Nat.not_le.mpr hlongest)

/-- A call that ends in a framing error passed nothing to any link and left the stream as
it was. -/
theorem send_framing {e : FramingError}
    (h : t.send buffers total m = some (t', .error (.framing e))) :
    t' = t ∧ t.handed buffers total m = [] := by
  unfold send at h
  split at h
  · cases h
  · rename_i hlength
    have hlength := Decidable.not_not.mp hlength
    obtain ⟨need, hneed, h⟩ := Option.bind_eq_some_iff.mp h
    split at h
    · cases h
    · split at h
      · cases h
      · split at h
        · rename_i hzero
          split at h
          · rename_i hends
            simp only [endBurst, bind, Option.bind_eq_some_iff] at h
            obtain ⟨⟨t₁, offered⟩, hoffer, h⟩ := h
            cases offered with
            | error cause =>
              cases h
              obtain ⟨-, rfl, hnone⟩ := offer_of_framing (by simp) hoffer
              refine ⟨rfl, ?_⟩
              rw [handed, if_pos hzero, if_pos hends, hnone, ite_self]
            | ok taken => cases h
          · cases h
        · rename_i hpos
          obtain ⟨rfl, hnone⟩ := sendPieces_pieces_framing hlength h
          refine ⟨rfl, ?_⟩
          rw [handed, if_neg hpos, hnone, ite_self]

/-! ## What the links take -/

/-- The link of a channel took frames of `passed` only. -/
def Took (passed : List Bytes) (c c' : Channel) : Prop :=
  ∃ taken, c'.link.frames = c.link.frames ++ taken ∧ taken ⊆ passed

theorem Took.refl (passed : List Bytes) (c : Channel) : Took passed c c :=
  ⟨[], (List.append_nil _).symm, List.nil_subset _⟩

theorem Took.trans {passed : List Bytes} {c c' c'' : Channel} (h : Took passed c c')
    (h' : Took passed c' c'') : Took passed c c'' := by
  obtain ⟨taken, hframes, hpassed⟩ := h
  obtain ⟨taken', hframes', hpassed'⟩ := h'
  refine ⟨taken ++ taken', ?_, List.append_subset.mpr ⟨hpassed, hpassed'⟩⟩
  rw [hframes', hframes, List.append_assoc]

theorem Took.more {passed passed' : List Bytes} {c c' : Channel} (h : Took passed c c')
    (hmore : passed ⊆ passed') : Took passed' c c' := by
  obtain ⟨taken, hframes, hpassed⟩ := h
  exact ⟨taken, hframes, List.Subset.trans hpassed hmore⟩

theorem took_of_offer {c c' : Channel} {buffer : Bytes} {result : Except StreamError Bool}
    (h : c.offer p m buffer piece = some (c', result)) :
    Took (passed p m piece c buffer) c c' := by
  rcases Channel.offer_cases h with rfl | ⟨frame, hframe, rfl⟩
  · exact .refl _ _
  · refine ⟨[frame], rfl, ?_⟩
    rw [passed, hframe]
    exact List.Subset.refl _

theorem took_of_offerEach {cs : List (Channel × Bytes)} {cs' : List Channel}
    {result : Except StreamError Bool}
    (h : offerEach p m piece regardless cs = some (cs', result)) :
    List.Forall₂ (Took (passedEach p m piece regardless cs)) (cs.map Prod.fst) cs' := by
  induction cs generalizing cs' result with
  | nil =>
    cases h
    exact .nil
  | cons head rest ih =>
    obtain ⟨c, buffer⟩ := head
    simp only [offerEach, bind, Option.bind_eq_some_iff] at h
    obtain ⟨⟨c', offered⟩, hoffer, h⟩ := h
    have hfirst : Took (passedEach p m piece regardless ((c, buffer) :: rest)) c c' :=
      (took_of_offer hoffer).more (List.subset_append_left ..)
    have hsame : List.Forall₂ (Took (passedEach p m piece regardless ((c, buffer) :: rest)))
        (rest.map Prod.fst) (rest.map Prod.fst) :=
      List.forall₂_same.mpr fun c _ => .refl _ c
    cases offered with
    | error cause =>
      cases h
      exact .cons hfirst hsame
    | ok taken =>
      dsimp only at h
      split at h
      · rename_i hgoes
        obtain ⟨⟨cs₁, result₁⟩, hrest, h⟩ := Option.bind_eq_some_iff.mp h
        cases h
        refine .cons hfirst ((ih hrest).imp fun c c' htook => htook.more ?_)
        simp only [passedEach, hoffer, hgoes, if_true]
        exact List.subset_append_right ..
      · cases h
        exact .cons hfirst hsame

theorem took_of_round {result : Except StreamError Bool}
    (hlength : buffers.length = t.channels.length)
    (h : t.offer m buffers piece regardless = some (t', result)) :
    List.Forall₂ (Took (passedEach t.packing m piece regardless (t.channels.zip buffers)))
      t.channels t'.channels := by
  simp only [offer, bind, Option.bind_eq_some_iff] at h
  obtain ⟨⟨cs, offered⟩, hoffer, heq⟩ := h
  cases heq
  have htook := took_of_offerEach hoffer
  rwa [List.map_fst_zip (Nat.le_of_eq hlength.symm)] at htook

theorem took_of_sendPieces {ps : List Piece} {result : Except StreamError Nat}
    (hlength : buffers.length = t.channels.length)
    (h : sendPieces m buffers total ps t = some (t', result)) :
    List.Forall₂ (Took (passedPieces m buffers total ps t)) t.channels t'.channels := by
  induction ps generalizing t with
  | nil =>
    cases h
    exact List.forall₂_same.mpr fun c _ => .refl _ c
  | cons piece rest ih =>
    simp only [sendPieces, bind, Option.bind_eq_some_iff] at h
    obtain ⟨⟨t₁, offered⟩, hoffer, h⟩ := h
    have hround := took_of_round hlength hoffer
    have hfirst : List.Forall₂ (Took (passedPieces m buffers total (piece :: rest) t))
        t.channels t₁.channels :=
      hround.imp fun c c' htook => htook.more (List.subset_append_left ..)
    cases offered with
    | error cause =>
      cases h
      exact hfirst
    | ok taken =>
      cases taken with
      | false =>
        cases h
        exact hfirst
      | true =>
        have hlater := ih (hlength.trans hround.length_eq) h
        have hmore : passedPieces m buffers total rest t₁ ⊆
            passedPieces m buffers total (piece :: rest) t := by
          simp only [passedPieces, hoffer]
          exact List.subset_append_right ..
        exact forall₂_trans (R := Took (passedPieces m buffers total (piece :: rest) t))
          (fun _ _ _ => Took.trans) hfirst
          (hlater.imp fun _ _ htook => htook.more hmore)

theorem admits_iff {need : Nat} (hneed : mulSize total t.hostItem = some need) :
    t.admits buffers total m = true ↔ buffers.length = t.channels.length ∧
      (buffers.find? fun buffer => decide (buffer.length < need)) = none ∧
      (m.time.filter fun time => time.before .zero) = none := by
  have htime : m.time.any (fun time => time.before .zero) = false ↔
      (m.time.filter fun time => time.before .zero) = none := by
    cases m.time with
    | none => simp
    | some time => simp [Option.filter]
  rw [← htime, admits, hneed, Option.any_some]
  simp [and_assoc]

/-- The links take none but the frames that the call passes to them. -/
theorem took_of_send {result : Except StreamError Nat}
    (h : t.send buffers total m = some (t', result)) :
    List.Forall₂ (Took (t.handed buffers total m)) t.channels t'.channels := by
  have hsame : List.Forall₂ (Took (t.handed buffers total m)) t.channels t.channels :=
    List.forall₂_same.mpr fun c _ => .refl _ c
  unfold send at h
  split at h
  · cases h
    exact hsame
  · rename_i hlength
    have hlength := Decidable.not_not.mp hlength
    obtain ⟨need, hneed, h⟩ := Option.bind_eq_some_iff.mp h
    split at h
    · cases h
      exact hsame
    · rename_i hfind
      split at h
      · cases h
        exact hsame
      · rename_i htime
        have hadmits := (admits_iff hneed).mpr ⟨hlength, hfind, htime⟩
        rw [handed, hadmits]
        split at h
        · rename_i hzero
          split at h
          · rename_i hends
            simp only [endBurst, bind, Option.bind_eq_some_iff] at h
            obtain ⟨⟨t₁, offered⟩, hoffer, h⟩ := h
            have htook := took_of_round (by simp) hoffer
            rw [if_pos hzero, if_pos hends]
            cases offered with
            | error cause =>
              cases h
              exact htook
            | ok taken =>
              cases h
              exact htook
          · cases h
            exact List.forall₂_same.mpr fun c _ => .refl _ c
        · rename_i hpos
          rw [if_neg hpos]
          exact took_of_sendPieces hlength h

/-- A frame within the limit of a link is not refused for its size. -/
theorem send_ne_oversized {l : Link} (h : frame.length ≤ l.maxFrame) (size limit : Nat) :
    l.send frame ≠ .error (.oversized size limit) := by
  intro hsend
  rw [Link.send, if_neg (Nat.not_lt.mpr h)] at hsend
  split at hsend
  · cases hsend
  · split at hsend <;> cases hsend

end

/-! ## All calls -/

/-- Whatever a stream is asked to send, every frame that it passes to a link is within the
limits of the settings and of all links, so that no link refuses it for its size. A call
that ends in a framing error passed on no frame and changed nothing. -/
theorem send_fits {o : StreamOptions} {settings : Settings} {links : List Link}
    {t : Transmitter} (hbuilt : Built o settings links t) (buffers : List Bytes) (total : Nat)
    (m : Metadata) :
    (∀ frame ∈ t.handed buffers total m, frame.length ≤ settings.sendFrameSize ∧
      ∀ l ∈ links, frame.length ≤ l.maxFrame ∧ ∀ link : Link, link.maxFrame = l.maxFrame →
        ∀ size limit, link.send frame ≠ .error (.oversized size limit)) ∧
    ∀ t' result, t.send buffers total m = some (t', result) →
      List.Forall₂ (Took (t.handed buffers total m)) t.channels t'.channels ∧
        ∀ e, result = .error (.framing e) → t' = t ∧ t.handed buffers total m = [] := by
  refine ⟨fun frame hframe => ?_, fun t' result hsend => ⟨took_of_send hsend, ?_⟩⟩
  · obtain ⟨hsettings, hlinks⟩ := handed_fits hbuilt hframe
    refine ⟨hsettings, fun l hl => ⟨hlinks l hl, fun link hlimit => ?_⟩⟩
    exact send_ne_oversized (by rw [hlimit]; exact hlinks l hl)
  · rintro e rfl
    exact send_framing hsend

/-- A stream on a link for very long frames, with packets one word longer than any may be. -/
def wide : Transmitter :=
  { secondFull with
    channels := [
      { link := { depth := 1, maxFrame := 300000 }, streamId := 0
        converter := (Sample.Converter.start (.compute (.packShorts .big .shorts))).setScalar
          (Sample.peak "sc16" / Real.ofNat 1) }]
    packetSamples := 65534 }

theorem built_wide :
    Built { hostFormat := "sc16", wireFormat := "sc16" }
      { packetSamples := 65534, sendFrameSize := 300000 } [{ depth := 1, maxFrame := 300000 }]
      wide :=
  ⟨_, rfl, rfl⟩

theorem frame_wide (c : Channel) (buffer : Bytes) :
    wide.packing.frame c (pieceMetadata {} 65534 ⟨0, 65534⟩) buffer ⟨0, 65534⟩ =
      some (.error .badHeader) := by
  obtain ⟨h, hheader⟩ : ∃ h, wide.packing.header c.streamId c.count
      (pieceMetadata {} 65534 ⟨0, 65534⟩) = some h := ⟨_, rfl⟩
  exact Packing.frame_of_long hheader (by decide) (by decide)

theorem send_wide {buffer : Bytes} (h : buffer.length = 262136) :
    wide.send [buffer] 65534 {} = some (wide, .error (.framing .badHeader)) := by
  have hpieces : pieces wide.packetSamples 65534 = [⟨0, 65534⟩] := by decide
  have hfind : ([buffer].find? fun buffer => decide (buffer.length < 262136)) = none := by
    simp [h]
  have hneed : mulSize 65534 wide.hostItem = some 262136 := by decide
  have hoffer : wide.offer (pieceMetadata {} 65534 ⟨0, 65534⟩) [buffer] ⟨0, 65534⟩ false =
      some (wide, .error (.framing .badHeader)) := by
    obtain ⟨c, hc⟩ : ∃ c, wide.channels = [c] := ⟨_, rfl⟩
    have hself : { wide with channels := [c] } = wide := by rw [← hc]
    simp only [offer, hc, List.zip_cons_cons, List.zip_nil_right, offerEach, Channel.offer,
      frame_wide, List.map_nil, bind, Option.bind_some, pure, hself]
  have hlength : ¬[buffer].length ≠ wide.channels.length := fun hne => hne rfl
  simp only [send, if_neg hlength, hneed, hfind, hpieces, sendPieces, hoffer, bind,
    Option.bind_some, pure, Option.filter_none]
  rfl

/-- A full packet of this stream cannot be framed; a shorter one can, and is not refused. -/
theorem send_fits_wide :
    let samples := List.replicate 262136 0
    wide.send [samples] 65534 {} = some (wide, .error (.framing .badHeader)) ∧
      wide.handed [samples] 65534 {} = [] ∧
      ∃ frame, wide.handed [[1, 0, 2, 0]] 1 {} = [frame] ∧ frame.length = 12 ∧
        ∀ size limit, Link.send { depth := 1, maxFrame := 300000 } frame ≠
          .error (.oversized size limit) := by
  have hlong := send_wide (List.length_replicate (n := 262136) (a := 0))
  obtain ⟨-, hcall⟩ := send_fits built_wide [List.replicate 262136 0] 65534 {}
  obtain ⟨hfits, -⟩ := send_fits built_wide [[1, 0, 2, 0]] 1 {}
  have hone : wide.handed [[1, 0, 2, 0]] 1 {} = [[0x10, 0, 0, 3, 0, 0, 0, 0, 0, 1, 0, 2]] := by
    decide +kernel
  refine ⟨hlong, ((hcall _ _ hlong).2 _ rfl).2, _, hone, rfl, ?_⟩
  obtain ⟨-, hlinks⟩ := hfits _ (by rw [hone]; exact List.mem_singleton_self _)
  exact (hlinks _ (List.mem_singleton_self _)).2 _ rfl

end Transmitter
end SampleStream
