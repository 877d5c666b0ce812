import SampleStream.Proofs.Transmit.Framing
import SampleStream.Proofs.Transmit.Offers

/-!
# The ends of bursts

A burst is over for the far end when it reads a packet that says so. A call without the
end of a burst sends no such packet, however it ends (`send_quiet`). A call with it sends
one as the last packet to every channel that has room for all of them. `EndsBursts` is
what a caller would go by: the answer tells whether the burst is over everywhere or
nowhere. It holds just if the links have the room that this takes (`send_ends_bursts_iff`).
-/

namespace SampleStream.Transmit

/-! ## Packets that end bursts -/

/-- A frame is read as the last packet of a burst. -/
def EndsBurst (order : ByteOrder) (frame : Bytes) : Prop :=
  ∃ h payload, Receive.contentOf order frame = .samples h payload ∧ h.endOfBurst = true

theorem Packing.endsBurst_iff {p : Packing} {c : Channel} {m : Metadata} {buffer frame : Bytes}
    {piece : Piece} (h : p.frame c m buffer piece = some (.ok frame)) :
    EndsBurst p.order frame ↔ m.endOfBurst = true := by
  obtain ⟨-, -, header, payload, hholds⟩ := frame_holds h
  constructor
  · rintro ⟨h', payload', hcontent, hends⟩
    cases hholds.content.symm.trans hcontent
    exact hholds.endOfBurst ▸ hends
  · intro hends
    exact ⟨header, payload, hholds.content, hholds.endOfBurst.trans hends⟩

namespace Channel

/-- The last frame that the link of a channel took since `c` ends a burst. -/
def Closes (order : ByteOrder) (c c' : Channel) : Prop :=
  ∃ new frame, c'.link.frames = c.link.frames ++ (new ++ [frame]) ∧ EndsBurst order frame

/-- No frame that the link of a channel took since `c` ends a burst. -/
def Quiet (order : ByteOrder) (c c' : Channel) : Prop :=
  ∃ new, c'.link.frames = c.link.frames ++ new ∧ ∀ frame ∈ new, ¬ EndsBurst order frame

variable {order : ByteOrder} {c c' c'' : Channel}

theorem Quiet.refl (order : ByteOrder) (c : Channel) : Quiet order c c :=
  ⟨[], (List.append_nil _).symm, nofun⟩

theorem Quiet.trans (h : Quiet order c c') (h' : Quiet order c' c'') : Quiet order c c'' := by
  obtain ⟨new, hnew, hquiet⟩ := h
  obtain ⟨new', hnew', hquiet'⟩ := h'
  refine ⟨new ++ new', by rw [hnew', hnew, List.append_assoc], fun frame hframe => ?_⟩
  rcases List.mem_append.mp hframe with hframe | hframe
  · exact hquiet frame hframe
  · exact hquiet' frame hframe

theorem quiet_put {frame : Bytes} (h : ¬ EndsBurst order frame) : Quiet order c (c.put frame) :=
  ⟨[frame], rfl, fun _ hmem => List.mem_singleton.mp hmem ▸ h⟩

theorem Closes.not_quiet (h : Closes order c c') : ¬ Quiet order c c' := by
  rintro ⟨new', hnew', hquiet⟩
  obtain ⟨new, frame, hnew, hends⟩ := h
  rw [hnew, List.append_cancel_left_eq] at hnew'
  exact hquiet frame (hnew' ▸ List.mem_append_right _ (List.mem_singleton_self frame)) hends

end Channel
end SampleStream.Transmit

namespace SampleStream.Transmitter
open Transmit

/-! ## The pieces that a link took -/

section
variable {p : Packing} {m : Metadata} {buffer : Bytes} {total size : Nat} {c c' : Channel}
  {ps : List Piece}

theorem Accepted.quiet (h : Accepted p m total buffer c ps c')
    (hps : ∀ piece ∈ ps, piece.start + piece.samples ≠ total) : Channel.Quiet p.order c c' := by
  induction h with
  | nil => exact .refl _ _
  | @cons c c' piece rest frame hframe _ ih =>
    refine .trans (Channel.quiet_put fun hends => ?_) (ih fun q hq => hps q (.tail _ hq))
    rw [Packing.endsBurst_iff hframe, pieceMetadata, Bool.and_eq_true, beq_iff_eq] at hends
    exact hps piece (.head _) hends.2

theorem Accepted.closes (h : Accepted p m total buffer c ps c') (hm : m.endOfBurst = true)
    {piece : Piece} (hlast : ps.getLast? = some piece)
    (hend : piece.start + piece.samples = total) : Channel.Closes p.order c c' := by
  induction h with
  | nil => cases hlast
  | @cons c c' first rest frame hframe haccepted ih =>
    cases rest with
    | nil =>
      obtain rfl : first = piece := Option.some.inj hlast
      cases haccepted
      refine ⟨[], frame, rfl, ?_⟩
      rw [Packing.endsBurst_iff hframe, pieceMetadata, hm, hend, Bool.true_and, beq_self_eq_true]
    | cons second rest =>
      obtain ⟨new, last, hnew, hends⟩ := ih hlast
      refine ⟨frame :: new, last, ?_, hends⟩
      rw [hnew, Channel.put, Link.carry, List.append_assoc]
      rfl

/-- Short of the last piece nothing ends the burst. -/
theorem Accepted.quiet_of_take {k : Nat} (hsize : 0 < size)
    (h : Accepted p m total buffer c ((pieces size total).take k) c')
    (hk : k < (pieces size total).length) : Channel.Quiet p.order c c' := by
  refine h.quiet fun piece hpiece => ?_
  obtain ⟨j, hj⟩ := List.getElem?_of_mem hpiece
  rw [List.getElem?_take] at hj
  split at hj
  · rename_i hlt
    rw [Ne, reaches_end_iff hsize hj]
    omega
  · cases hj

theorem Accepted.closes_of_all (hsize : 0 < size) (htotal : 0 < total)
    (hm : m.endOfBurst = true) (h : Accepted p m total buffer c (pieces size total) c') :
    Channel.Closes p.order c c' := by
  have hsome : 0 < (pieces size total).length :=
    (lt_length_pieces hsize).mpr (by rwa [Nat.zero_mul])
  have hlast := List.getElem?_eq_getElem (l := pieces size total)
    (Nat.sub_lt hsome Nat.one_pos)
  rw [← List.getLast?_eq_getElem?] at hlast
  refine h.closes hm hlast ?_
  rw [reaches_end_iff hsize (List.getLast?_eq_getElem?.symm.trans hlast)]
  omega

end

/-! ## Calls without the end of a burst -/

/-- A call without the end of a burst sends no packet that ends one, whatever its
answer. -/
theorem send_quiet {m : Metadata} {t t' : Transmitter} {buffers : List Bytes} {total : Nat}
    {result : Except StreamError Nat} (hm : m.endOfBurst = false)
    (h : t.send buffers total m = some (t', result)) :
    List.Forall₂ (Channel.Quiet t.packing.order) t.channels t'.channels := by
  refine (send_forall₂ (Channel.Quiet.refl _) (fun _ _ _ => .trans) (fun hnone hframe => ?_) h).2
  refine Channel.quiet_put fun hends => ?_
  have hasked := hnone ((Packing.endsBurst_iff hframe).mp hends)
  rw [hm] at hasked
  cases hasked

/-! ## Calls with the end of a burst -/

section
variable {p : Packing} {m : Metadata} {piece : Piece}

/-- What a call for nothing but the end of a burst does to a channel. -/
def Passed (p : Packing) (m : Metadata) (piece : Piece) (c : Channel × Bytes) (c' : Channel) :
    Prop :=
  (0 < c.1.room ∧ ∃ frame, p.frame c.1 m c.2 piece = some (.ok frame) ∧ c' = c.1.put frame) ∨
    (c.1.room = 0 ∧ c' = c.1)

theorem offerEach_regardless {cs : List (Channel × Bytes)} {cs' : List Channel} {taken : Bool}
    (h : offerEach p m piece true cs = some (cs', .ok taken)) :
    List.Forall₂ (Passed p m piece) cs cs' := by
  induction cs generalizing cs' taken with
  | nil =>
    cases h
    exact .nil
  | cons head rest ih =>
    obtain ⟨c, buffer⟩ := head
    simp only [offerEach, bind, Option.bind_eq_some_iff, Bool.or_true, if_true] at h
    obtain ⟨⟨c', offered⟩, hoffer, h⟩ := h
    cases offered with
    | error e => cases h
    | ok taken₁ =>
      obtain ⟨⟨cs₁, result₁⟩, hcs, h⟩ := Option.bind_eq_some_iff.mp h
      cases h
      refine .cons ?_ (ih hcs)
      rcases Channel.offer_ok hoffer with ⟨-, hroom, hput⟩ | ⟨-, hroom, hsame⟩
      · exact .inl ⟨hroom, hput⟩
      · exact .inr ⟨hroom, hsame⟩

theorem Passed.closes_iff {c : Channel × Bytes} {c' : Channel} (hm : m.endOfBurst = true)
    (h : Passed p m piece c c') : Channel.Closes p.order c.1 c' ↔ 0 < c.1.room := by
  rcases h with ⟨hroom, frame, hframe, rfl⟩ | ⟨hroom, rfl⟩
  · exact iff_of_true ⟨[], frame, rfl, (Packing.endsBurst_iff hframe).mpr hm⟩ hroom
  · refine iff_of_false ?_ (by omega)
    rintro ⟨new, frame, hnew, -⟩
    simp at hnew

variable {t t' : Transmitter} {buffers : List Bytes} {total k : Nat}

theorem forall₂_closes_iff {cs : List (Channel × Bytes)} {cs' : List Channel}
    (hm : m.endOfBurst = true) (h : List.Forall₂ (Passed p m piece) cs cs') :
    List.Forall₂ (Channel.Closes p.order) (cs.map Prod.fst) cs' ↔
      ∀ c ∈ cs.map Prod.fst, 0 < c.room := by
  induction h with
  | nil => simp
  | cons hhead _ ih =>
    rw [List.map_cons, List.forall₂_cons, hhead.closes_iff hm, ih, List.forall_mem_cons]

/-- The end of a burst alone reaches just the channels with room. -/
theorem endBurst_closes_iff (hm : m.endOfBurst = true) (h : t.endBurst m = some (t', .ok k)) :
    k = 0 ∧ (List.Forall₂ (Channel.Closes t.packing.order) t.channels t'.channels ↔
      ∀ c ∈ t.channels, 0 < c.room) := by
  simp only [endBurst, offer, bind, Option.bind_eq_some_iff] at h
  obtain ⟨⟨_, _⟩, ⟨⟨cs, offered⟩, hoffer, heq⟩, h⟩ := h
  cases heq
  cases offered with
  | error e => cases h
  | ok taken =>
    cases h
    refine ⟨rfl, ?_⟩
    have hiff := forall₂_closes_iff hm (offerEach_regardless hoffer)
    rwa [List.map_fst_zip (by simp)] at hiff

end

/-! ## What the answer tells -/

/-- A caller can go by the answer: a call for the end of a burst that sends everything
has ended it on every channel, and one that does not, or was not asked to, on none. -/
structure EndsBursts (t : Transmitter) (total : Nat) (m : Metadata)
    (result : Except StreamError Nat) (t' : Transmitter) : Prop where
  closes : m.endOfBurst = true → result = .ok total →
    List.Forall₂ (Channel.Closes t.packing.order) t.channels t'.channels
  quiet : (m.endOfBurst = false ∨ ∃ k < total, result = .ok k) →
    List.Forall₂ (Channel.Quiet t.packing.order) t.channels t'.channels

/-- The room that the end of a burst takes. The end alone takes a place on every link.
With samples, no link may lack one place just for the last packet when the first link
has it. -/
def RoomToEnd (t : Transmitter) (total : Nat) : Prop :=
  if total = 0 then ∀ c ∈ t.channels, 0 < c.room
  else ∀ first, t.channels.head? = some first →
    (pieces t.packetSamples total).length ≤ first.room →
    (∀ c ∈ t.channels, (pieces t.packetSamples total).length ≤ c.room) ∨
      ∃ c ∈ t.channels, c.room + 1 < (pieces t.packetSamples total).length

section
variable {t t' : Transmitter} {m : Metadata} {buffers : List Bytes} {total k rounds blocked : Nat}

/-- Of a call for the end of a burst that does not fail. -/
theorem endsBursts_ok_iff (hm : m.endOfBurst = true) : EndsBursts t total m (.ok k) t' ↔
    (k = total → List.Forall₂ (Channel.Closes t.packing.order) t.channels t'.channels) ∧
      (k < total → List.Forall₂ (Channel.Quiet t.packing.order) t.channels t'.channels) := by
  constructor
  · intro h
    exact ⟨fun hall => h.closes hm (congrArg _ hall), fun hless => h.quiet (.inr ⟨k, hless, rfl⟩)⟩
  · rintro ⟨hcloses, hquiet⟩
    refine ⟨fun _ hall => ?_, ?_⟩
    · cases hall
      exact hcloses rfl
    · rintro (hnot | ⟨j, hless, heq⟩)
      · rw [hm] at hnot
        cases hnot
      · cases heq
        exact hquiet hless

/-- What holds of every channel for the pieces it took holds of all. -/
theorem Sent.forall₂ {ps : List Piece} {R : Channel → Channel → Prop}
    (h : Sent t m buffers total ps t' rounds blocked)
    (hlength : buffers.length = t.channels.length)
    (hR : ∀ (index : Nat) (buffer : Bytes) (c c' : Channel), Accepted t.packing m total buffer c
      (ps.take (if index < blocked then rounds + 1 else rounds)) c' → R c c') :
    List.Forall₂ R t.channels t'.channels := by
  refine List.forall₂_iff_get.mpr ⟨h.length.symm, fun index hc hc' => ?_⟩
  have hchannel := List.getElem?_eq_getElem hc
  have hbuffer := List.getElem?_eq_getElem (hlength ▸ hc)
  obtain ⟨-, -, c', hc₁, haccepted⟩ := h.channel hchannel hbuffer
  rw [List.getElem?_eq_getElem hc', Option.some.injEq] at hc₁
  rw [← hc₁] at haccepted
  exact hR index _ _ _ haccepted

/-- There was room for the rounds, and for the one that was begun where it got to. -/
theorem Sent.room_le {ps : List Piece} (h : Sent t m buffers total ps t' rounds blocked)
    (hlength : buffers.length = t.channels.length) {index : Nat} {c : Channel}
    (hc : t.channels[index]? = some c) :
    rounds ≤ c.room ∧ (index < blocked → rounds < c.room) := by
  obtain ⟨hmany, -⟩ := List.getElem?_eq_some_iff.mp hc
  have hbuffer := List.getElem?_eq_getElem (l := buffers) (hlength ▸ hmany)
  obtain ⟨hle, hahead, -⟩ := h.channel hc hbuffer
  exact ⟨hle, hahead⟩

/-- A call that ran out of room just before its last packet: the channels before the one
without room have that packet. -/
theorem Sent.not_quiet (hsize : 0 < t.packetSamples) (htotal : 0 < total)
    (hm : m.endOfBurst = true) (hlength : buffers.length = t.channels.length)
    (h : Sent t m buffers total (pieces t.packetSamples total) t' rounds blocked)
    (hlast : rounds + 1 = (pieces t.packetSamples total).length) (hblocked : 0 < blocked) :
    ¬ List.Forall₂ (Channel.Quiet t.packing.order) t.channels t'.channels := by
  intro hquiet
  obtain ⟨d, hd, -⟩ := h.stopped (by omega)
  obtain ⟨hmany, -⟩ := List.getElem?_eq_some_iff.mp hd
  have hsome : 0 < t.channels.length := Nat.zero_lt_of_lt hmany
  have hfirst := List.getElem?_eq_getElem hsome
  have hbuffer := List.getElem?_eq_getElem (hlength ▸ hsome)
  obtain ⟨-, -, c', hc', haccepted⟩ := h.channel hfirst hbuffer
  rw [if_pos hblocked, hlast, List.take_length] at haccepted
  obtain ⟨hsome', hget⟩ := List.getElem?_eq_some_iff.mp hc'
  have hfirstQuiet := (List.forall₂_iff_get.mp hquiet).2 0 hsome hsome'
  rw [List.get_eq_getElem, List.get_eq_getElem, hget] at hfirstQuiet
  exact (haccepted.closes_of_all hsize htotal hm).not_quiet hfirstQuiet

/-- A call that ran out of room sent the end of the burst nowhere, unless only the last
packet was missing and some channel had it. -/
theorem Sent.quiet_iff (hsize : 0 < t.packetSamples) (htotal : 0 < total)
    (hm : m.endOfBurst = true) (hlength : buffers.length = t.channels.length)
    (h : Sent t m buffers total (pieces t.packetSamples total) t' rounds blocked)
    (hlt : rounds < (pieces t.packetSamples total).length) :
    List.Forall₂ (Channel.Quiet t.packing.order) t.channels t'.channels ↔
      ¬ (rounds + 1 = (pieces t.packetSamples total).length ∧ 0 < blocked) := by
  constructor
  · rintro hquiet ⟨hlast, hblocked⟩
    exact h.not_quiet hsize htotal hm hlength hlast hblocked hquiet
  · intro hnot
    refine h.forall₂ hlength fun index buffer c c' haccepted => ?_
    refine haccepted.quiet_of_take hsize ?_
    split
    · rename_i hbefore
      have : rounds + 1 ≠ (pieces t.packetSamples total).length := fun hlast =>
        hnot ⟨hlast, Nat.zero_lt_of_lt hbefore⟩
      omega
    · exact hlt

/-- The same of the room that there was. -/
theorem Sent.roomToEnd_iff (htotal : 0 < total) (hlength : buffers.length = t.channels.length)
    (h : Sent t m buffers total (pieces t.packetSamples total) t' rounds blocked)
    (hlt : rounds < (pieces t.packetSamples total).length) :
    RoomToEnd t total ↔
      ¬ (rounds + 1 = (pieces t.packetSamples total).length ∧ 0 < blocked) := by
  rw [RoomToEnd, if_neg (Nat.pos_iff_ne_zero.mp htotal)]
  obtain ⟨d, hd, hroom⟩ := h.stopped hlt
  constructor
  · rintro hends ⟨hlast, hblocked⟩
    obtain ⟨hmany, -⟩ := List.getElem?_eq_some_iff.mp hd
    have hfirst := List.getElem?_eq_getElem (Nat.zero_lt_of_lt hmany)
    have hahead := (h.room_le hlength hfirst).2 hblocked
    rcases hends _ (List.head?_eq_getElem?.trans hfirst) (by omega) with hall | ⟨c, hc, hless⟩
    · have := hall d (List.mem_of_getElem? hd)
      omega
    · obtain ⟨index, hindex⟩ := List.getElem?_of_mem hc
      have := (h.room_le hlength hindex).1
      omega
  · intro hnot first hfirst hfits
    by_cases hlast : rounds + 1 = (pieces t.packetSamples total).length
    · -- the first channel is the one without room
      obtain rfl : blocked = 0 := Nat.eq_zero_of_not_pos fun hpos => hnot ⟨hlast, hpos⟩
      cases (List.head?_eq_getElem?.symm.trans hfirst).symm.trans hd
      omega
    · exact .inr ⟨d, List.mem_of_getElem? hd, by omega⟩

theorem Sent.endsBursts_iff (hsize : 0 < t.packetSamples) (htotal : 0 < total)
    (hm : m.endOfBurst = true) (hlength : buffers.length = t.channels.length)
    (h : Sent t m buffers total (pieces t.packetSamples total) t' rounds blocked)
    (hk : k = min total (rounds * t.packetSamples)) :
    EndsBursts t total m (.ok k) t' ↔ RoomToEnd t total := by
  have hmore : rounds < (pieces t.packetSamples total).length ↔
      rounds * t.packetSamples < total := lt_length_pieces hsize
  rcases Nat.lt_or_ge rounds (pieces t.packetSamples total).length with hlt | hge
  · have hless : k < total := by
      have := hmore.mp hlt
      omega
    rw [h.roomToEnd_iff htotal hlength hlt, ← h.quiet_iff hsize htotal hm hlength hlt,
      endsBursts_ok_iff hm]
    exact ⟨fun hends => hends.2 hless, fun hquiet =>
      ⟨fun hall => absurd hall (Nat.ne_of_lt hless), fun _ => hquiet⟩⟩
  · -- every channel took all packets, the last of which ends the burst
    obtain rfl : k = total := by omega
    have hall : rounds = (pieces t.packetSamples k).length := Nat.le_antisymm h.le hge
    refine iff_of_true ((endsBursts_ok_iff hm).mpr ⟨fun _ => ?_, fun hless => ?_⟩) ?_
    · refine h.forall₂ hlength fun index buffer c c' haccepted => ?_
      rw [h.finished hall, if_neg (Nat.not_lt_zero _), hall, List.take_length] at haccepted
      exact haccepted.closes_of_all hsize htotal hm
    · exact absurd hless (Nat.lt_irrefl _)
    · rw [RoomToEnd, if_neg (Nat.pos_iff_ne_zero.mp htotal)]
      refine fun _ _ _ => .inl fun c hc => ?_
      obtain ⟨index, hindex⟩ := List.getElem?_of_mem hc
      exact hall ▸ (h.room_le hlength hindex).1

/-- A call that sends nothing ends the burst just where there is room for that. -/
theorem send_zero_endsBursts_iff (hm : m.endOfBurst = true)
    (h : t.send buffers 0 m = some (t', .ok k)) :
    EndsBursts t 0 m (.ok k) t' ↔ RoomToEnd t 0 := by
  unfold send at h
  split at h
  · cases h
  · obtain ⟨need, -, h⟩ := Option.bind_eq_some_iff.mp h
    split at h
    · cases h
    · split at h
      · cases h
      · rw [if_pos rfl] at h
        obtain ⟨rfl, hcloses⟩ := endBurst_closes_iff hm h
        rw [RoomToEnd, if_pos rfl, ← hcloses, endsBursts_ok_iff hm]
        exact ⟨fun hends => hends.1 rfl, fun hall =>
          ⟨fun _ => hall, fun hless => absurd hless (Nat.not_lt_zero 0)⟩⟩

end

/-- The answer of a call tells whether the burst is over just if, for a call that is to end
it and does not fail, the links have the room that this takes. -/
theorem send_ends_bursts_iff {o : StreamOptions} {settings : Settings} {links : List Link}
    {t t' : Transmitter} {buffers : List Bytes} {total : Nat} {m : Metadata}
    {result : Except StreamError Nat} (hbuilt : Built o settings links t)
    (h : t.send buffers total m = some (t', result)) :
    EndsBursts t total m result t' ↔
      (m.endOfBurst = true → (∃ k, result = .ok k) → RoomToEnd t total) := by
  cases hm : m.endOfBurst with
  | false =>
    refine iff_of_true ⟨fun hends => ?_, fun _ => send_quiet hm h⟩ nofun
    rw [hm] at hends
    cases hends
  | true =>
    cases result with
    | error e =>
      refine iff_of_true ⟨nofun, ?_⟩ nofun
      rintro (hnot | ⟨_, _, heq⟩)
      · rw [hm] at hnot
        cases hnot
      · cases heq
    | ok k =>
      have hiff : EndsBursts t total m (.ok k) t' ↔ RoomToEnd t total := by
        rcases Nat.eq_zero_or_pos total with rfl | htotal
        · exact send_zero_endsBursts_iff hm h
        · have hsize := hbuilt.packetSamples_pos
          obtain ⟨hlength, rounds, blocked, hsent, hk⟩ := send_ok hsize htotal h
          exact hsent.endsBursts_iff hsize htotal hm hlength hk
      rw [hiff]
      exact ⟨fun hroom _ _ => hroom, fun hroom => hroom rfl ⟨k, rfl⟩⟩

/-! ## Ends that are lost -/

/-- Two channels with links for one frame each, and room on both. -/
def roomOnBoth : Transmitter := secondFull.onLink 1 fun l => { l with frames := [] }

theorem built_roomOnBoth :
    Built { hostFormat := "sc16", wireFormat := "sc16", channels := [0, 1] } {}
      [{ depth := 1 }, { depth := 1 }] roomOnBoth :=
  ⟨_, rfl, rfl⟩

/-- With room on both links one sample ends the burst on both. -/
theorem send_ends_bursts_iff_roomOnBoth :
    ∃ t', roomOnBoth.send [[1, 0, 2, 0], [1, 0, 2, 0]] 1 { endOfBurst := true } =
        some (t', .ok 1) ∧
      List.Forall₂ (Channel.Closes .big) roomOnBoth.channels t'.channels := by
  have hsent : inFlight (roomOnBoth.send [[1, 0, 2, 0], [1, 0, 2, 0]] 1 { endOfBurst := true }) =
      some (1, [[[0x11, 0, 0, 3, 0, 0, 0, 0, 0, 1, 0, 2]],
        [[0x11, 0, 0, 3, 0, 0, 0, 1, 0, 1, 0, 2]]]) := by decide +kernel
  obtain ⟨t', hsend, -⟩ := exists_of_inFlight hsent
  have hroom : RoomToEnd roomOnBoth 1 := fun _ _ _ => .inl (by decide)
  exact ⟨t', hsend,
    ((send_ends_bursts_iff built_roomOnBoth hsend).mpr fun _ _ => hroom).closes rfl rfl⟩

/-- On a link that is full the end of a burst alone is lost, and the answer is as if it
were not. And where the second link is full, a call that returns nothing sent has ended
the burst on the first. -/
theorem send_loses_burst_end :
    (∃ t', secondFull.send [[], []] 0 { endOfBurst := true } = some (t', .ok 0) ∧
      ¬ EndsBursts secondFull 0 { endOfBurst := true } (.ok 0) t') ∧
    ∃ t', secondFull.send [[1, 0, 2, 0], [1, 0, 2, 0]] 1 { endOfBurst := true } =
        some (t', .ok 0) ∧
      ¬ EndsBursts secondFull 1 { endOfBurst := true } (.ok 0) t' := by
  constructor
  · have hsent : inFlight (secondFull.send [[], []] 0 { endOfBurst := true }) =
        some (0, [[[0x11, 0, 0, 3, 0, 0, 0, 0, 0, 0, 0, 0]], [[]]]) := by decide +kernel
    obtain ⟨t', hsend, -⟩ := exists_of_inFlight hsent
    have hroom : ¬ RoomToEnd secondFull 0 := by
      rw [RoomToEnd, if_pos rfl]
      decide
    exact ⟨t', hsend, (send_zero_endsBursts_iff rfl hsend).not.mpr hroom⟩
  · have hsent : inFlight (secondFull.send [[1, 0, 2, 0], [1, 0, 2, 0]] 1 { endOfBurst := true }) =
        some (0, [[[0x11, 0, 0, 3, 0, 0, 0, 0, 0, 1, 0, 2]], [[]]]) := by decide +kernel
    obtain ⟨t', hsend, -⟩ := exists_of_inFlight hsent
    have hroom : ¬ RoomToEnd secondFull 1 := by
      rw [RoomToEnd, if_neg Nat.one_ne_zero]
      exact fun h => absurd (h _ rfl (by decide)) (by decide)
    have hsize : 0 < secondFull.packetSamples := by decide
    obtain ⟨hlength, rounds, blocked, hrounds, hk⟩ := send_ok hsize Nat.one_pos hsend
    exact ⟨t', hsend,
      (hrounds.endsBursts_iff hsize Nat.one_pos rfl hlength hk).not.mpr hroom⟩

end SampleStream.Transmitter
