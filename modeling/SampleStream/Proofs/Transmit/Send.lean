import SampleStream.Proofs.Stream.Reading
import SampleStream.Transmit.Call

/-!
# What a send leaves on the links

A call hands its pieces to the links round by round, one piece to every channel
before the next piece. It stops at the first link without room, and this may be
any channel's: those before it have the piece already. `Accepted` lists what a link
took, and `sendPieces_ok` says for every channel how many pieces that is. The
channels are in step after the call just if the first link is not ahead
(`send_in_step_iff`).
-/

namespace SampleStream.Transmit

namespace Channel

/-- How many frames the link of a channel still takes. -/
def room (c : Channel) : Nat := c.link.depth - c.link.frames.length

/-- The channel after its link took a frame. -/
def put (c : Channel) (frame : Bytes) : Channel :=
  { c with link := c.link.carry frame, count := (c.count + 1) &&& 0xf }

@[simp] theorem length_frames_put (c : Channel) (frame : Bytes) :
    (c.put frame).link.frames.length = c.link.frames.length + 1 := by
  simp [put, Link.carry]

theorem room_put (c : Channel) (frame : Bytes) : (c.put frame).room = c.room - 1 := by
  rw [room, length_frames_put, room]
  exact Nat.sub_add_eq _ _ _

/-- A piece is taken if there is room for it, and else left. -/
theorem offer_ok {c c' : Channel} {p : Packing} {m : Metadata} {buffer : Bytes} {piece : Piece}
    {taken : Bool} (h : c.offer p m buffer piece = some (c', .ok taken)) :
    (taken = true ∧ 0 < c.room ∧
      ∃ frame, p.frame c m buffer piece = some (.ok frame) ∧ c' = c.put frame) ∨
    (taken = false ∧ c.room = 0 ∧ c' = c) := by
  simp only [offer, bind, Option.bind_eq_some_iff] at h
  obtain ⟨framed, hframe, h⟩ := h
  cases framed with
  | error e => cases h
  | ok frame =>
    dsimp only at h
    by_cases hlong : c.link.maxFrame < frame.length
    · simp [Link.send, hlong] at h
    · by_cases hgone : c.link.receiverOpen = false
      · simp [Link.send, hlong, hgone] at h
      · by_cases hfull : c.link.depth ≤ c.link.frames.length
        · have hsend : c.link.send frame = .ok none := by simp [Link.send, hlong, hgone, hfull]
          rw [hsend] at h
          cases h
          exact .inr ⟨rfl, Nat.sub_eq_zero_of_le hfull, rfl⟩
        · have hsend : c.link.send frame = .ok (some (c.link.carry frame)) := by
            simp [Link.send, hlong, hgone, hfull]
          rw [hsend] at h
          cases h
          exact .inl ⟨rfl, Nat.sub_pos_of_lt (Nat.lt_of_not_le hfull), frame, hframe, rfl⟩

end Channel

/-! ## Pieces -/

theorem length_pieces (size total : Nat) :
    (pieces size total).length = (total + size - 1) / size := by
  simp [pieces]

theorem getElem?_pieces {size total k : Nat} {piece : Piece}
    (h : (pieces size total)[k]? = some piece) :
    piece = ⟨k * size, min size (total - k * size)⟩ := by
  rw [pieces, List.getElem?_map, Option.map_eq_some_iff] at h
  obtain ⟨j, hj, rfl⟩ := h
  obtain ⟨hlt, rfl⟩ := List.getElem?_eq_some_iff.mp hj
  simp

/-- There is a piece as long as samples are left. -/
theorem lt_length_pieces {size total k : Nat} (hsize : 0 < size) :
    k < (pieces size total).length ↔ k * size < total := by
  rw [length_pieces, Nat.lt_iff_add_one_le, Nat.le_div_iff_mul_le hsize, Nat.add_mul, Nat.one_mul]
  omega

/-- The last piece is the one that reaches the end. -/
theorem reaches_end_iff {size total k : Nat} {piece : Piece} (hsize : 0 < size)
    (h : (pieces size total)[k]? = some piece) :
    piece.start + piece.samples = total ↔ k + 1 = (pieces size total).length := by
  obtain ⟨hlt, -⟩ := List.getElem?_eq_some_iff.mp h
  have hmore := (lt_length_pieces hsize).mp hlt
  have hnext : k + 1 < (pieces size total).length ↔ (k + 1) * size < total :=
    lt_length_pieces hsize
  rw [Nat.add_mul, Nat.one_mul] at hnext
  rw [getElem?_pieces h]
  dsimp only
  omega

theorem samples_pos_of_mem_pieces {size total : Nat} (hsize : 0 < size) {piece : Piece}
    (h : piece ∈ pieces size total) : 0 < piece.samples := by
  obtain ⟨k, hk⟩ := List.getElem?_of_mem h
  obtain ⟨hlt, -⟩ := List.getElem?_eq_some_iff.mp hk
  have hmore := (lt_length_pieces hsize).mp hlt
  rw [getElem?_pieces hk]
  dsimp only
  omega

/-- The first pieces are the first samples, in full pieces up to the last. -/
theorem sum_samples_pieces {size total k : Nat} (hsize : 0 < size)
    (hk : k ≤ (pieces size total).length) :
    (((pieces size total).take k).map Piece.samples).sum = min total (k * size) := by
  induction k with
  | zero => simp
  | succ k ih =>
    have hlt : k < (pieces size total).length := hk
    have hpiece := getElem?_pieces (List.getElem?_eq_getElem hlt)
    have hmore := (lt_length_pieces hsize).mp hlt
    rw [List.take_add_one, List.getElem?_eq_getElem hlt, List.map_append, List.sum_append,
      ih (Nat.le_of_lt hlt), hpiece, Nat.add_mul]
    simp only [Option.toList_some, List.map_cons, List.map_nil, List.sum_cons, List.sum_nil]
    omega

/-- Items that are given by their position follow each other through the pieces. A piece
of `n` samples has `width n` items, of which full pieces have one for each sample. -/
theorem flatMap_pieces {α : Type} {size total rounds : Nat} (hsize : 0 < size)
    (hrounds : rounds ≤ (pieces size total).length) (width : Nat → Nat) (hzero : width 0 = 0)
    (hwidth : ∀ k n, width (k * size + n) = k * size + width n) (g : Nat → α) :
    ((pieces size total).take rounds).flatMap (fun piece =>
        (List.range (width piece.samples)).map fun k => g (piece.start + k)) =
      (List.range (width (min total (rounds * size)))).map g := by
  induction rounds with
  | zero => simp [hzero]
  | succ rounds ih =>
    have hlt : rounds < (pieces size total).length := hrounds
    have hpiece := getElem?_pieces (List.getElem?_eq_getElem hlt)
    have hmore := (lt_length_pieces hsize).mp hlt
    have hbefore : width (min total (rounds * size)) = rounds * size := by
      rw [Nat.min_eq_right (Nat.le_of_lt hmore)]
      have hfull := hwidth rounds 0
      rw [Nat.add_zero, hzero, Nat.add_zero] at hfull
      exact hfull
    have hafter : width (min total ((rounds + 1) * size)) =
        rounds * size + width (min size (total - rounds * size)) := by
      have hreach : min total ((rounds + 1) * size) =
          rounds * size + min size (total - rounds * size) := by
        rw [Nat.add_mul]
        omega
      rw [hreach, hwidth]
    rw [List.take_add_one, List.getElem?_eq_getElem hlt, List.flatMap_append,
      ih (Nat.le_of_lt hlt), hpiece, hbefore, hafter, List.range_add, List.map_append, List.map_map]
    simp only [Option.toList_some, List.flatMap_cons, List.flatMap_nil, List.append_nil]
    rfl

end SampleStream.Transmit

namespace SampleStream.Transmitter
open Transmit

/-! ## One channel -/

/-- The link of a channel took just these pieces of `buffer`, one after the other. -/
inductive Accepted (p : Packing) (m : Metadata) (total : Nat) (buffer : Bytes) :
    Channel → List Piece → Channel → Prop where
  | nil (c : Channel) : Accepted p m total buffer c [] c
  | cons {c c' : Channel} {piece : Piece} {rest : List Piece} {frame : Bytes}
    (hframe : p.frame c (pieceMetadata m total piece) buffer piece = some (.ok frame))
    (h : Accepted p m total buffer (c.put frame) rest c') :
    Accepted p m total buffer c (piece :: rest) c'

theorem Accepted.length {p : Packing} {m : Metadata} {total : Nat} {buffer : Bytes}
    {c c' : Channel} {ps : List Piece} (h : Accepted p m total buffer c ps c') :
    c'.link.frames.length = c.link.frames.length + ps.length := by
  induction h with
  | nil => simp
  | cons hframe h ih =>
    rw [ih, Channel.length_frames_put, List.length_cons]
    omega

theorem Accepted.mem_frames {p : Packing} {m : Metadata} {total : Nat} {buffer frame : Bytes}
    {c c' : Channel} {ps : List Piece} (h : Accepted p m total buffer c ps c')
    (hframe : frame ∈ c'.link.frames) :
    frame ∈ c.link.frames ∨ ∃ c₁ piece,
      p.frame c₁ (pieceMetadata m total piece) buffer piece = some (.ok frame) := by
  induction h with
  | nil => exact .inl hframe
  | @cons c _ piece _ made hmade _ ih =>
    rcases ih hframe with hput | hlater
    · rcases List.mem_append.mp hput with hold | hnew
      · exact .inl hold
      · cases List.mem_singleton.mp hnew
        exact .inr ⟨c, piece, hmade⟩
    · exact .inr hlater

/-! ## One piece on all channels -/

/-- What offering a piece to all channels did: those before the `blocked` one took
it, and that one had no room. -/
structure Offered (p : Packing) (m : Metadata) (piece : Piece) (cs : List (Channel × Bytes))
    (cs' : List Channel) (taken : Bool) (blocked : Nat) : Prop where
  le : blocked ≤ cs.length
  length : cs'.length = cs.length
  all : taken = true ↔ blocked = cs.length
  before : ∀ {index : Nat} {c : Channel} {buffer : Bytes}, cs[index]? = some (c, buffer) →
    index < blocked → 0 < c.room ∧ ∃ frame, p.frame c m buffer piece = some (.ok frame) ∧
      cs'[index]? = some (c.put frame)
  full : ∀ {c : Channel} {buffer : Bytes}, cs[blocked]? = some (c, buffer) → c.room = 0
  after : ∀ {index : Nat} {c : Channel} {buffer : Bytes}, cs[index]? = some (c, buffer) →
    blocked ≤ index → cs'[index]? = some c

section
variable {p : Packing} {m : Metadata} {piece : Piece} {rest : List (Channel × Bytes)}
  {c : Channel} {buffer : Bytes}

theorem Offered.nil : Offered p m piece [] [] true 0 where
  le := Nat.le_refl 0
  length := rfl
  all := iff_of_true rfl rfl
  before h := by simp at h
  full h := by simp at h
  after h := by simp at h

/-- The first channel has no room, and the others are not asked. -/
theorem Offered.blocked (hroom : c.room = 0) :
    Offered p m piece ((c, buffer) :: rest) (c :: rest.map Prod.fst) false 0 where
  le := Nat.zero_le _
  length := by simp
  all := by simp
  before _ hlt := absurd hlt (Nat.not_lt_zero _)
  full h := by
    cases h
    exact hroom
  after {index _ _} h _ := by
    cases index with
    | zero =>
      cases h
      rfl
    | succ index =>
      rw [List.getElem?_cons_succ] at h ⊢
      rw [List.getElem?_map, h]
      rfl

/-- The first channel took the piece, and the others are asked too. -/
theorem Offered.cons {cs : List Channel} {taken : Bool} {blocked : Nat} {frame : Bytes}
    (hroom : 0 < c.room) (hframe : p.frame c m buffer piece = some (.ok frame))
    (h : Offered p m piece rest cs taken blocked) :
    Offered p m piece ((c, buffer) :: rest) (c.put frame :: cs) taken (blocked + 1) where
  le := Nat.succ_le_succ h.le
  length := by simp [h.length]
  all := by simp [h.all]
  before {index _ _} hd hlt := by
    cases index with
    | zero =>
      cases hd
      exact ⟨hroom, frame, hframe, rfl⟩
    | succ index => exact h.before hd (Nat.lt_of_succ_lt_succ hlt)
  full hd := h.full hd
  after {index _ _} hd hle := by
    cases index with
    | zero => cases hle
    | succ index => exact h.after hd (Nat.le_of_succ_le_succ hle)

theorem offerEach_ok {cs : List (Channel × Bytes)} {cs' : List Channel} {taken : Bool}
    (h : offerEach p m piece false cs = some (cs', .ok taken)) :
    ∃ blocked, Offered p m piece cs cs' taken blocked := by
  induction cs generalizing cs' with
  | nil =>
    cases h
    exact ⟨0, .nil⟩
  | cons head rest ih =>
    obtain ⟨c, buffer⟩ := head
    simp only [offerEach, bind, Option.bind_eq_some_iff] at h
    obtain ⟨⟨c', result⟩, hoffer, h⟩ := h
    cases result with
    | error e => cases h
    | ok accepted =>
      cases accepted with
      | true =>
        simp only [Bool.true_or, if_true, Option.bind_eq_some_iff] at h
        obtain ⟨⟨cs₁, result₁⟩, hrest, h⟩ := h
        cases h
        obtain ⟨blocked, hrest⟩ := ih hrest
        rcases Channel.offer_ok hoffer with ⟨-, hroom, frame, hframe, rfl⟩ | ⟨hno, -⟩
        · exact ⟨blocked + 1, .cons hroom hframe hrest⟩
        · cases hno
      | false =>
        simp only [Bool.or_self, Bool.false_eq_true, if_false, pure, Option.some.injEq,
          Prod.mk.injEq, Except.ok.injEq] at h
        obtain ⟨rfl, rfl⟩ := h
        rcases Channel.offer_ok hoffer with ⟨hno, -⟩ | ⟨-, hroom, rfl⟩
        · cases hno
        · exact ⟨0, .blocked hroom⟩

end

/-! ## All pieces -/

/-- What a call did to the channels. All took the pieces of `rounds` rounds; those
before the `blocked` one, where there is one more round to go, took its piece too. -/
structure Sent (t : Transmitter) (m : Metadata) (buffers : List Bytes) (total : Nat)
    (ps : List Piece) (t' : Transmitter) (rounds blocked : Nat) : Prop where
  le : rounds ≤ ps.length
  same : t' = { t with channels := t'.channels }
  length : t'.channels.length = t.channels.length
  channel : ∀ {index : Nat} {c : Channel} {buffer : Bytes}, t.channels[index]? = some c →
    buffers[index]? = some buffer → rounds ≤ c.room ∧ (index < blocked → rounds < c.room) ∧
      ∃ c', t'.channels[index]? = some c' ∧
        Accepted t.packing m total buffer c
          (ps.take (if index < blocked then rounds + 1 else rounds)) c'
  stopped : rounds < ps.length → ∃ c, t.channels[blocked]? = some c ∧ c.room = rounds
  finished : rounds = ps.length → blocked = 0

section
variable {t t' : Transmitter} {m : Metadata} {buffers : List Bytes} {total : Nat}

theorem getElem?_zip_buffers {cs : List Channel} {index : Nat} {c : Channel} {buffer : Bytes}
    (hc : cs[index]? = some c) (hbuffer : buffers[index]? = some buffer) :
    (cs.zip buffers)[index]? = some (c, buffer) := by
  rw [List.getElem?_zip_eq_some]
  exact ⟨hc, hbuffer⟩

theorem Sent.nil : Sent t m buffers total [] t 0 0 where
  le := Nat.le_refl 0
  same := rfl
  length := rfl
  channel {_ c _} hc _ := ⟨Nat.zero_le _, fun h => absurd h (Nat.not_lt_zero _), c, hc, .nil c⟩
  stopped h := absurd h (Nat.lt_irrefl 0)
  finished _ := rfl

/-- A round that a channel without room ends. -/
theorem Sent.blocked {piece : Piece} {rest : List Piece} {cs : List Channel} {blocked : Nat}
    (hlength : buffers.length = t.channels.length)
    (hoffered : Offered t.packing (pieceMetadata m total piece) piece (t.channels.zip buffers) cs
      false blocked) :
    Sent t m buffers total (piece :: rest) { t with channels := cs } 0 blocked := by
  have hzip : (t.channels.zip buffers).length = t.channels.length := by
    rw [List.length_zip, hlength, Nat.min_self]
  have hlt : blocked < t.channels.length := by
    have hle := hoffered.le
    have hne : blocked ≠ (t.channels.zip buffers).length := fun heq => by
      cases hoffered.all.mpr heq
    omega
  refine ⟨Nat.zero_le _, rfl, hzip ▸ hoffered.length, fun {index c buffer} hc hbuffer => ?_,
    fun _ => ?_, nofun⟩
  · have hpair := getElem?_zip_buffers hc hbuffer
    refine ⟨Nat.zero_le _, fun hlt => (hoffered.before hpair hlt).1, ?_⟩
    by_cases hbefore : index < blocked
    · obtain ⟨-, frame, hframe, hput⟩ := hoffered.before hpair hbefore
      rw [if_pos hbefore]
      exact ⟨_, hput, .cons hframe (.nil _)⟩
    · rw [if_neg hbefore]
      exact ⟨c, hoffered.after hpair (Nat.le_of_not_lt hbefore), .nil c⟩
  · have hc := List.getElem?_eq_getElem hlt
    have hbuffer := List.getElem?_eq_getElem (hlength ▸ hlt)
    exact ⟨_, hc, hoffered.full (getElem?_zip_buffers hc hbuffer)⟩

/-- A round in which every channel took its piece, and those after it. -/
theorem Sent.cons {piece : Piece} {rest : List Piece} {cs : List Channel}
    {taken rounds blocked : Nat} (hlength : buffers.length = t.channels.length)
    (hoffered : Offered t.packing (pieceMetadata m total piece) piece (t.channels.zip buffers) cs
      true taken)
    (hsent : Sent { t with channels := cs } m buffers total rest t' rounds blocked) :
    Sent t m buffers total (piece :: rest) t' (rounds + 1) blocked := by
  have hzip : (t.channels.zip buffers).length = t.channels.length := by
    rw [List.length_zip, hlength, Nat.min_self]
  have hall : taken = t.channels.length := hzip ▸ hoffered.all.mp rfl
  have hcs : cs.length = t.channels.length := hzip ▸ hoffered.length
  have hchannel {index : Nat} {c : Channel} {buffer : Bytes}
      (hc : t.channels[index]? = some c) (hbuffer : buffers[index]? = some buffer) :
      0 < c.room ∧ ∃ frame, t.packing.frame c (pieceMetadata m total piece) buffer piece =
        some (.ok frame) ∧ cs[index]? = some (c.put frame) := by
    obtain ⟨hlt, -⟩ := List.getElem?_eq_some_iff.mp hc
    exact hoffered.before (getElem?_zip_buffers hc hbuffer) (hall ▸ hlt)
  refine ⟨Nat.succ_le_succ hsent.le, hsent.same, hsent.length.trans hcs,
    fun {index c buffer} hc hbuffer => ?_, fun hlt => ?_,
    fun heq => hsent.finished (Nat.succ.inj heq)⟩
  · obtain ⟨hroom, frame, hframe, hput⟩ := hchannel hc hbuffer
    obtain ⟨hle, hahead, c', hc', haccepted⟩ := hsent.channel hput hbuffer
    rw [Channel.room_put] at hle hahead
    refine ⟨by omega, fun hlt => ?_, c', hc', ?_⟩
    · have := hahead hlt
      omega
    · have htake : (piece :: rest).take (if index < blocked then rounds + 1 + 1 else rounds + 1) =
          piece :: rest.take (if index < blocked then rounds + 1 else rounds) := by
        split <;> rfl
      rw [htake]
      exact .cons hframe haccepted
  · -- the channel that ended the call had room for the piece of this round
    obtain ⟨d, hd, hroom⟩ := hsent.stopped (Nat.lt_of_succ_lt_succ hlt)
    obtain ⟨hlt', -⟩ := List.getElem?_eq_some_iff.mp hd
    have hc := List.getElem?_eq_getElem (hcs ▸ hlt')
    have hbuffer := List.getElem?_eq_getElem (hlength ▸ hcs ▸ hlt')
    obtain ⟨hpos, frame, -, hput⟩ := hchannel hc hbuffer
    cases hd.symm.trans hput
    rw [Channel.room_put] at hroom
    exact ⟨_, hc, by omega⟩

theorem sendPieces_ok {k : Nat} {ps : List Piece} (hlength : buffers.length = t.channels.length)
    (h : sendPieces m buffers total ps t = some (t', .ok k)) :
    ∃ rounds blocked, Sent t m buffers total ps t' rounds blocked ∧
      (rounds = ps.length ∧ k = total ∨ ∃ piece, ps[rounds]? = some piece ∧ k = piece.start) := by
  induction ps generalizing t with
  | nil =>
    cases h
    exact ⟨0, 0, .nil, .inl ⟨rfl, rfl⟩⟩
  | cons piece rest ih =>
    simp only [sendPieces, offer, bind, Option.bind_eq_some_iff] at h
    obtain ⟨⟨_, _⟩, ⟨⟨cs, result⟩, hoffer, heq⟩, h⟩ := h
    cases heq
    cases result with
    | error e => cases h
    | ok accepted =>
      cases accepted with
      | true =>
        -- the other pieces are a call of their own, on links with a packet more
        obtain ⟨taken, hoffered⟩ := offerEach_ok hoffer
        have hcs : cs.length = t.channels.length := by
          rw [hoffered.length, List.length_zip, hlength, Nat.min_self]
        obtain ⟨rounds, blocked, hsent, hk⟩ := ih (hlength.trans hcs.symm) h
        refine ⟨rounds + 1, blocked, .cons hlength hoffered hsent, ?_⟩
        rcases hk with ⟨hrounds, hk⟩ | ⟨piece', hpiece, hk⟩
        · exact .inl ⟨by rw [hrounds]; rfl, hk⟩
        · exact .inr ⟨piece', hpiece, hk⟩
      | false =>
        cases h
        obtain ⟨blocked, hoffered⟩ := offerEach_ok hoffer
        exact ⟨0, blocked, .blocked hlength hoffered, .inr ⟨piece, rfl, rfl⟩⟩

end

/-! ## Calls -/

/-- A stream as it may be after it was set up: its links and counts are in any
state, and the rate is any. -/
def Built (o : StreamOptions) (settings : Settings) (links : List Link) (t : Transmitter) : Prop :=
  ∃ made, create o settings links = some (.ok made) ∧
    t = { made with
      channels := t.channels
      packing := { made.packing with tickRate := t.packing.tickRate }
      worker := t.worker }

theorem plan_eq_ok {o : StreamOptions} {settings : Settings} {links : List Link} {p : Plan}
    (h : plan o settings links = .ok p) :
    links.length = o.channels.length ∧ o.conversion settings .send = .ok p.conversion ∧
      0 < p.packetSamples := by
  simp only [plan, bind_eq_ok] at h
  obtain ⟨_, hlinks, c, hconversion, fullScale, -, asked, -, h⟩ := h
  have hlength := (StreamOptions.checkLinks_eq_ok hlinks).1
  split at h
  · rw [bind_eq_ok] at h
    obtain ⟨_, hnone, -⟩ := h
    cases hnone
  · rename_i hsamples
    split at h
    · rw [bind_eq_ok] at h
      obtain ⟨_, hnone, -⟩ := h
      cases hnone
    · cases h
      exact ⟨hlength, hconversion, Nat.pos_of_ne_zero hsamples⟩

/-- The scalar to the wire, and packets that fill whole words. -/
theorem scalar_of_plan {o : StreamOptions} {settings : Settings} {links : List Link} {p : Plan}
    (h : plan o settings links = .ok p) :
    ∃ fullScale, o.fullScale settings.fullScale = .ok fullScale ∧
      p.scalar = Sample.peak o.wireFormat / fullScale ∧
      wholeWords p.conversion.wireItem ∣ p.packetSamples := by
  simp only [plan, bind_eq_ok, StreamOptions.setup_eq_ok] at h
  obtain ⟨_, -, c, -, fullScale, hscale, asked, -, h⟩ := h
  refine ⟨fullScale, hscale, ?_⟩
  split at h
  · rw [bind_eq_ok] at h
    obtain ⟨_, hnone, -⟩ := h
    cases hnone
  · split at h
    · rw [bind_eq_ok] at h
      obtain ⟨_, hnone, -⟩ := h
      cases hnone
    · cases h
      exact ⟨rfl, Nat.dvd_mul_left ..⟩

/-- What a stream is set up with. -/
theorem create_eq_ok {o : StreamOptions} {settings : Settings} {links : List Link}
    {t : Transmitter} (h : create o settings links = some (.ok t)) :
    ∃ p, plan o settings links = .ok p ∧ t.packing.order = p.conversion.order ∧
      t.packing.wireItem = p.conversion.wireItem ∧ t.hostItem = p.conversion.hostItem ∧
      t.packetSamples = p.packetSamples ∧
      t.channels = ((links.zip o.channels).map fun (link, channel) =>
        { link, streamId := UInt32.ofNat channel
          converter := (Sample.Converter.start p.conversion.method).setScalar p.scalar }) := by
  unfold create at h
  split at h
  · cases h
  · rename_i c scalar samples hplan
    simp only [bind, Option.bind_eq_some_iff, pure] at h
    obtain ⟨queue, -, h⟩ := h
    cases h
    exact ⟨_, hplan, rfl, rfl, rfl, rfl, rfl⟩

theorem Built.packetSamples_pos {o : StreamOptions} {settings : Settings} {links : List Link}
    {t : Transmitter} (h : Built o settings links t) : 0 < t.packetSamples := by
  obtain ⟨made, hmade, ht⟩ := h
  obtain ⟨p, hplan, -, -, -, hsamples, -⟩ := create_eq_ok hmade
  rw [ht]
  exact hsamples ▸ (plan_eq_ok hplan).2.2

theorem send_ok {t t' : Transmitter} {buffers : List Bytes} {total k : Nat} {m : Metadata}
    (hsize : 0 < t.packetSamples) (htotal : 0 < total)
    (h : t.send buffers total m = some (t', .ok k)) :
    buffers.length = t.channels.length ∧ ∃ rounds blocked,
      Sent t m buffers total (pieces t.packetSamples total) t' rounds blocked ∧
        k = min total (rounds * t.packetSamples) := by
  unfold send at h
  split at h
  · cases h
  · rename_i hlength
    have hlength : buffers.length = t.channels.length := by simpa using hlength
    simp only [bind, Option.bind_eq_some_iff] at h
    obtain ⟨need, -, h⟩ := h
    split at h
    · cases h
    · split at h
      · cases h
      · rw [if_neg (Nat.pos_iff_ne_zero.mp htotal)] at h
        obtain ⟨rounds, blocked, hsent, hk⟩ := sendPieces_ok hlength h
        refine ⟨hlength, rounds, blocked, hsent, ?_⟩
        rcases hk with ⟨hrounds, rfl⟩ | ⟨piece, hpiece, rfl⟩
        · have hdone : ¬ rounds * t.packetSamples < k := fun hlt => by
            have := (lt_length_pieces hsize).mpr hlt
            omega
          omega
        · obtain ⟨hlt, -⟩ := List.getElem?_eq_some_iff.mp hpiece
          have hmore := (lt_length_pieces hsize).mp hlt
          rw [getElem?_pieces hpiece]
          dsimp only
          omega

/-- All channels took just the packets of the first `k` samples of their buffers. -/
def InStep (t : Transmitter) (buffers : List Bytes) (total : Nat) (m : Metadata) (k : Nat)
    (t' : Transmitter) : Prop :=
  ∃ ps, ps <+: pieces t.packetSamples total ∧ (ps.map Piece.samples).sum = k ∧
    ∀ (index : Nat) (c : Channel) (buffer : Bytes), t.channels[index]? = some c →
      buffers[index]? = some buffer →
      ∃ c', t'.channels[index]? = some c' ∧ Accepted t.packing m total buffer c ps c'

section
variable {t t' : Transmitter} {m : Metadata} {buffers : List Bytes} {total rounds blocked : Nat}
  {ps : List Piece}

theorem Sent.lt_of_blocked (h : Sent t m buffers total ps t' rounds blocked) (hpos : 0 < blocked) :
    rounds < ps.length :=
  Nat.lt_of_le_of_ne h.le fun heq => by simp [h.finished heq] at hpos

/-- Where some channel took a piece more than another, not all took the same pieces. -/
theorem Sent.blocked_eq_zero_of_inStep {k : Nat}
    (h : Sent t m buffers total (pieces t.packetSamples total) t' rounds blocked)
    (hlength : buffers.length = t.channels.length) (hstep : InStep t buffers total m k t') :
    blocked = 0 := by
  obtain ⟨ps, -, -, haccepted⟩ := hstep
  apply Nat.eq_zero_of_not_pos
  intro hpos
  have hlt := h.lt_of_blocked hpos
  obtain ⟨d, hd, -⟩ := h.stopped hlt
  obtain ⟨hmany, -⟩ := List.getElem?_eq_some_iff.mp hd
  have hsome : 0 < t.channels.length := Nat.zero_lt_of_lt hmany
  have hfirst := List.getElem?_eq_getElem hsome
  have hbuffer₀ := List.getElem?_eq_getElem (hlength ▸ hsome)
  have hbuffer := List.getElem?_eq_getElem (hlength ▸ hmany)
  -- the first link took a piece more than the one without room
  obtain ⟨-, -, c₀, hc₀, hlong⟩ := h.channel hfirst hbuffer₀
  obtain ⟨-, -, d₀, hd₀, hshort⟩ := h.channel hd hbuffer
  obtain ⟨c₀', hc₀', hlong'⟩ := haccepted 0 _ _ hfirst hbuffer₀
  obtain ⟨d₀', hd₀', hshort'⟩ := haccepted blocked d _ hd hbuffer
  cases hc₀.symm.trans hc₀'
  cases hd₀.symm.trans hd₀'
  have hmore := hlong.length.symm.trans hlong'.length
  have hless := hshort.length.symm.trans hshort'.length
  rw [if_pos hpos, List.length_take] at hmore
  rw [if_neg (Nat.lt_irrefl _), List.length_take] at hless
  omega

theorem Sent.blocked_eq_zero_of_room (h : Sent t m buffers total ps t' rounds blocked)
    (hlength : buffers.length = t.channels.length)
    (hrooms : ∀ first, t.channels.head? = some first → ∀ c ∈ t.channels,
      min ps.length first.room ≤ c.room) : blocked = 0 := by
  apply Nat.eq_zero_of_not_pos
  intro hpos
  have hlt := h.lt_of_blocked hpos
  obtain ⟨d, hd, hroom⟩ := h.stopped hlt
  obtain ⟨hmany, -⟩ := List.getElem?_eq_some_iff.mp hd
  have hsome : 0 < t.channels.length := Nat.zero_lt_of_lt hmany
  have hfirst := List.getElem?_eq_getElem hsome
  have hbuffer := List.getElem?_eq_getElem (hlength ▸ hsome)
  have hahead := (h.channel hfirst hbuffer).2.1 hpos
  have hle := hrooms _ (by rw [List.head?_eq_getElem?, hfirst]) d (List.mem_of_getElem? hd)
  omega

/-- As many rounds as the first link has room for, if it is the one that is full. -/
theorem Sent.room_first_le (h : Sent t m buffers total ps t' rounds 0) {first : Channel}
    (hfirst : t.channels[0]? = some first) : min ps.length first.room ≤ rounds := by
  rcases Nat.lt_or_ge rounds ps.length with hlt | hge
  · obtain ⟨d, hd, hroom⟩ := h.stopped hlt
    cases hd.symm.trans hfirst
    omega
  · omega

end

/-- A call that sends `k` samples leaves the channels in step just if no link has
less room than the first one, as far as the call needs room. Otherwise the links
before the first one that is full have one packet more than was counted. -/
theorem send_in_step_iff {o : StreamOptions} {settings : Settings} {links : List Link}
    {t t' : Transmitter} {buffers : List Bytes} {total k : Nat} {m : Metadata}
    (hbuilt : Built o settings links t) (htotal : 0 < total)
    (h : t.send buffers total m = some (t', .ok k)) :
    InStep t buffers total m k t' ↔
      ∀ first, t.channels.head? = some first → ∀ c ∈ t.channels,
        min (pieces t.packetSamples total).length first.room ≤ c.room := by
  have hsize := hbuilt.packetSamples_pos
  obtain ⟨hlength, rounds, blocked, hsent, rfl⟩ := send_ok hsize htotal h
  constructor
  · intro hstep first hfirst c hc
    rw [List.head?_eq_getElem?] at hfirst
    have hblocked := hsent.blocked_eq_zero_of_inStep hlength hstep
    subst hblocked
    obtain ⟨index, hindex⟩ := List.getElem?_of_mem hc
    obtain ⟨hlt, -⟩ := List.getElem?_eq_some_iff.mp hindex
    have hbuffer := List.getElem?_eq_getElem (l := buffers) (hlength ▸ hlt)
    exact Nat.le_trans (hsent.room_first_le hfirst) (hsent.channel hindex hbuffer).1
  · intro hrooms
    have hblocked := hsent.blocked_eq_zero_of_room hlength hrooms
    refine ⟨(pieces t.packetSamples total).take rounds, List.take_prefix _ _,
      sum_samples_pieces hsize hsent.le, fun index c buffer hc hbuffer => ?_⟩
    obtain ⟨-, -, c', hc', haccepted⟩ := hsent.channel hc hbuffer
    rw [hblocked, if_neg (Nat.not_lt_zero _)] at haccepted
    exact ⟨c', hc', haccepted⟩

/-! ## A link that is full -/

/-- Two channels with links for one frame each, of which the second has one. -/
def secondFull : Transmitter where
  channels := [
    { link := { depth := 1 }, streamId := 0
      converter := (Sample.Converter.start (.compute (.packShorts .big .shorts))).setScalar
        (Sample.peak "sc16" / Real.ofNat 1) },
    { link := { depth := 1, frames := [[]] }, streamId := 1
      converter := (Sample.Converter.start (.compute (.packShorts .big .shorts))).setScalar
        (Sample.peak "sc16" / Real.ofNat 1) }]
  packing := { order := .big, wireItem := 4, tickRate := Real.ofNat 100000000 }
  hostItem := 4
  packetSamples := 364
  worker := {
    order := .big, rate := Real.ofNat 100000000, channel := 0
    queue := { capacity := 1000, capacity_pos := by decide } }

theorem built_secondFull :
    Built { hostFormat := "sc16", wireFormat := "sc16", channels := [0, 1] } {}
      [{ depth := 1 }, { depth := 1 }] secondFull :=
  ⟨_, rfl, rfl⟩

/-- The number that a call returned, and the frames in flight on each channel. -/
def inFlight (answer : Checked (Answer Nat)) : Option (Nat × List (List Bytes)) :=
  answer.bind fun a => a.2.toOption.map fun k => (k, a.1.channels.map (·.link.frames))

theorem exists_of_inFlight {answer : Checked (Answer Nat)} {k : Nat} {frames : List (List Bytes)}
    (h : inFlight answer = some (k, frames)) :
    ∃ t, answer = some (t, .ok k) ∧ t.channels.map (·.link.frames) = frames := by
  simp only [inFlight, Option.bind_eq_some_iff, Option.map_eq_some_iff] at h
  obtain ⟨⟨t, result⟩, rfl, k', hk, heq⟩ := h
  cases result with
  | error e => cases hk
  | ok k'' =>
    cases hk
    cases heq
    exact ⟨t, rfl, rfl⟩

theorem send_secondFull :
    inFlight (secondFull.send [[1, 0, 2, 0], [1, 0, 2, 0]] 1 {}) =
      some (0, [[[0x10, 0, 0, 3, 0, 0, 0, 0, 0, 1, 0, 2]], [[]]]) := by
  decide +kernel

/-- A call that returns zero is in step just if the first link is full as well. -/
theorem send_in_step_iff_secondFull :
    ∃ t', secondFull.send [[1, 0, 2, 0], [1, 0, 2, 0]] 1 {} = some (t', .ok 0) ∧
      (InStep secondFull [[1, 0, 2, 0], [1, 0, 2, 0]] 1 {} 0 t' ↔
        ∀ first, secondFull.channels.head? = some first → ∀ c ∈ secondFull.channels,
          min (pieces 364 1).length first.room ≤ c.room) := by
  obtain ⟨t', hsend, -⟩ := exists_of_inFlight send_secondFull
  exact ⟨t', hsend, send_in_step_iff built_secondFull Nat.one_pos hsend⟩

/-- A call that returns zero and leaves a packet on the first link. -/
theorem send_out_of_step :
    ∃ t', secondFull.send [[1, 0, 2, 0], [1, 0, 2, 0]] 1 {} = some (t', .ok 0) ∧
      ¬ InStep secondFull [[1, 0, 2, 0], [1, 0, 2, 0]] 1 {} 0 t' := by
  obtain ⟨t', hsend, hframes⟩ := exists_of_inFlight send_secondFull
  refine ⟨t', hsend, ?_⟩
  rintro ⟨ps, -, hsum, haccepted⟩
  obtain ⟨c₀, hc₀, hfirst⟩ := haccepted 0 _ _ rfl rfl
  obtain ⟨c₁, hc₁, hsecond⟩ := haccepted 1 _ _ rfl rfl
  have hframes₀ := congrArg (·[0]?) hframes
  have hframes₁ := congrArg (·[1]?) hframes
  simp only [List.getElem?_map, hc₀, hc₁, Option.map_some, List.getElem?_cons_zero,
    List.getElem?_cons_succ, Option.some.injEq] at hframes₀ hframes₁
  have hlong := hfirst.length
  have hshort := hsecond.length
  rw [hframes₀] at hlong
  rw [hframes₁] at hshort
  have hnone : ps = [] := by simpa using hshort
  rw [hnone] at hlong
  cases hlong

end SampleStream.Transmitter
