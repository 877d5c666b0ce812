import SampleStream.Proofs.Receive.Closing

/-!
# Samples of one time

Samples are handed out of all channels together, and those of one round belong to the
same moment: whenever a call converts samples, every channel holds a packet, and the
packets that carry a time carry the same one (`Converts.together`). A channel may be
in the middle of a long packet while others are at new ones, and a call may have ended
with an error halfway; a stream never forgets that its packets have one time as long as
every channel holds one (`Settled`). The samples at one position of all buffers come from
such a round (`recv_sourced`).
-/

namespace SampleStream.Receive

/-- The bytes of the sample at a position of a buffer. -/
def sampleIn (host : Nat) (buffer : Bytes) (k : Nat) : Bytes := (buffer.drop (k * host)).take host

theorem sampleIn_append_left {host k : Nat} {before behind behind' : Bytes}
    (h : (k + 1) * host ≤ before.length) :
    sampleIn host (before ++ behind) k = sampleIn host (before ++ behind') k := by
  rw [Nat.add_mul, Nat.one_mul] at h
  have hfits : host ≤ (before.drop (k * host)).length := by
    rw [List.length_drop]
    omega
  have hfront (rest : Bytes) :
      sampleIn host (before ++ rest) k = (before.drop (k * host)).take host := by
    rw [sampleIn, List.drop_append_of_le_length (by omega), List.take_append_of_le_length hfits]
  rw [hfront, hfront]

/-- The samples of a run, behind those that are in place. -/
theorem sampleIn_run {converter : Sample.Converter} {wire host : Nat}
    (hreads : converter.Reads wire host) {before payload behind : Bytes} {filled start n i : Nat}
    (hbefore : before.length = filled * host) (hi : i < n) :
    sampleIn host (before ++ converter.run payload start n ++ behind) (filled + i) =
      converter.sampleAt payload (start + i) := by
  obtain ⟨m, rfl⟩ := Nat.exists_eq_add_of_lt hi
  have hplace : (before ++ converter.run payload start i).length = (filled + i) * host := by
    rw [List.length_append, hreads.length_run, hbefore, Nat.add_mul]
  rw [converter.run_around, sampleIn]
  simp only [← List.append_assoc]
  rw [List.append_assoc, List.append_assoc, List.drop_left' hplace,
    List.take_left' (hreads.length_sampleAt ..)]

end SampleStream.Receive

namespace SampleStream.Receiver
open Receive

/-! ## One time -/

/-- Times are ordered the way that their newest one is found. -/
instance : Std.LawfulOrderMax UInt64 where
  max_le_iff a b c := by
    rw [show max a b = if a ≤ b then b else a from rfl]
    split
    · rename_i hle
      exact ⟨fun hc => ⟨UInt64.le_trans hle hc, hc⟩, And.right⟩
    · rename_i hnot
      have hle := UInt64.le_of_lt (UInt64.not_le.mp hnot)
      exact ⟨fun hc => ⟨hc, UInt64.le_trans hle hc⟩, And.left⟩
  max_eq_or a b := by
    rw [show max a b = if a ≤ b then b else a from rfl]
    split
    · exact .inr rfl
    · exact .inl rfl

/-- The packets held that carry a time carry the same one. -/
def OneTime (r : Receiver) : Prop :=
  ∀ p ∈ r.held, ∀ q ∈ r.held, ∀ t u, p.header.fractionalTime = some t →
    q.header.fractionalTime = some u → t = u

theorem Aligned.oneTime {r : Receiver} (h : r.Aligned) : r.OneTime := by
  have hnewest : ∀ p ∈ r.held, ∀ t, p.header.fractionalTime = some t → r.newest = some t := by
    intro p hp t ht
    have hmem : t ∈ r.held.filterMap fun p => p.header.fractionalTime :=
      List.mem_filterMap.mpr ⟨p, hp, ht⟩
    cases hmax : r.newest with
    | none =>
      rw [newest, List.max?_eq_none_iff] at hmax
      rw [hmax] at hmem
      cases hmem
    | some newest =>
      have hle : t ≤ newest := (List.max?_eq_some_iff.mp hmax).2 t hmem
      have hnot : ¬ t < newest := by
        have := List.any_eq_false.mp (h newest hmax) p hp
        simpa [isOlder, ht] using this
      rw [UInt64.le_antisymm hle (UInt64.not_lt.mp hnot)]
  intro p hp q hq t u ht hu
  have := (hnewest p hp t ht).symm.trans (hnewest q hq u hu)
  exact Option.some.inj this

/-! ## Where samples are converted -/

/-- The streams at which the rounds of a call begin, and what the call has by then. -/
inductive Rounds (r₀ : Receiver) (buffers : List Bytes) (wanted : Nat) (onePacket : Bool) :
    Receiver → Received → Prop where
  | first (hpending : r₀.pending = none) (hlength : buffers.length = r₀.channels.length) :
    Rounds r₀ buffers wanted onePacket r₀ { buffers }
  | next {r r' : Receiver} {got got' : Received} (h : Rounds r₀ buffers wanted onePacket r got)
    (hround : r.round wanted onePacket got = some (.more r' got')) :
    Rounds r₀ buffers wanted onePacket r' got'

/-- A round of a call converts `n` samples of every packet that the stream `s` holds. -/
def Converts (r₀ : Receiver) (buffers : List Bytes) (wanted : Nat) (onePacket : Bool)
    (s : Receiver) (n : Nat) : Prop :=
  ∃ r got metadata out, Rounds r₀ buffers wanted onePacket r got ∧
    r.ready = some (s, .ok none) ∧ s.Hands wanted got n metadata out

section
variable {r₀ r r' s : Receiver} {buffers : List Bytes} {wanted n : Nat} {onePacket : Bool}
  {got got' : Received}

theorem Rounds.length (h : Rounds r₀ buffers wanted onePacket r got) :
    buffers.length = r₀.channels.length := by
  induction h with
  | first _ hlength => exact hlength
  | next _ _ ih => exact ih

theorem Rounds.progress (hsettled : r₀.Settled) (h : Rounds r₀ buffers wanted onePacket r got) :
    ∃ es, Progress r₀ buffers wanted es r got := by
  induction h with
  | first => exact ⟨[], .start hsettled buffers wanted⟩
  | next h hround ih =>
    obtain ⟨es, hp⟩ := ih
    obtain ⟨es', hp'⟩ := round_progress hp h.length hround rfl
    exact ⟨es ++ es', hp'⟩

/-- What is converted together belongs together. -/
theorem Converts.together (hsettled : r₀.Settled)
    (h : Converts r₀ buffers wanted onePacket s n) : s.Full ∧ s.OneTime := by
  obtain ⟨r, got, -, -, hrounds, hready, -⟩ := h
  obtain ⟨es, hp⟩ := hrounds.progress hsettled
  obtain ⟨-, -, -, -, -, hend⟩ := ready_history hp.settled hready
  obtain ⟨hfull, haligned⟩ := hend rfl
  exact ⟨hfull, haligned.oneTime⟩

/-! ## Where samples come from -/

/-- Sample `k` of every channel was converted from sample `i` behind the position in the
packet that the channel holds at `s`. -/
def Gives (r₀ s : Receiver) (i : Nat) (got : Received) (k : Nat) : Prop :=
  ∀ (index : Nat) (c : Channel), r₀.channels[index]? = some c → ∃ d p buffer,
    s.channels[index]? = some d ∧ d.held = some p ∧ i < p.remaining ∧
      got.buffers[index]? = some buffer ∧
      sampleIn r₀.hostItem buffer k = c.converter.sampleAt p.payload (p.cursor + i)

/-- The samples that a call has are in their places, and each was converted together with
those of the other channels. -/
structure Sourced (r₀ : Receiver) (buffers : List Bytes) (wanted : Nat) (onePacket : Bool)
    (got : Received) : Prop where
  placed : ∀ (index : Nat) (c : Channel) (buffer : Bytes), r₀.channels[index]? = some c →
    buffers[index]? = some buffer → ∃ before,
      got.buffers[index]? = some (before ++ buffer.drop (got.samples * r₀.hostItem)) ∧
        before.length = got.samples * r₀.hostItem
  sources : ∀ k < got.samples, ∃ s n i, Converts r₀ buffers wanted onePacket s n ∧ i < n ∧
    r₀.Gives s i got k

/-- Whatever is told of the samples. -/
theorem Sourced.told (h : Sourced r₀ buffers wanted onePacket got) (metadata : Metadata) :
    Sourced r₀ buffers wanted onePacket { got with metadata } :=
  ⟨h.placed, h.sources⟩

theorem Sourced.start (buffers : List Bytes) (wanted : Nat) (onePacket : Bool) :
    Sourced r₀ buffers wanted onePacket { buffers } :=
  ⟨fun _ _ _ _ hbuffer => ⟨[], by simp [hbuffer], by simp⟩,
    fun _ hk => absurd hk (Nat.not_lt_zero _)⟩

/-- After one more round a buffer has the samples that it had, and then those of the packet
that its channel holds. -/
theorem Sourced.handed {es : List Event} (h : Sourced r₀ buffers wanted onePacket got)
    (hreads : ∀ c ∈ r₀.channels, ∃ wire, c.converter.Reads wire r₀.hostItem)
    (hhistory : History r₀ es s) (hfull : s.Full) {metadata : Metadata} {out : List Bytes}
    (hhands : s.Hands wanted got n metadata out) {index : Nat} {c : Channel} {buffer : Bytes}
    (hc : r₀.channels[index]? = some c) (hb : buffers[index]? = some buffer) :
    ∃ before d p, s.channels[index]? = some d ∧ d.held = some p ∧ n ≤ p.remaining ∧
      before.length = got.samples * r₀.hostItem ∧
      got.buffers[index]? = some (before ++ buffer.drop (got.samples * r₀.hostItem)) ∧
      out[index]? = some (before ++ c.converter.run p.payload p.cursor n ++
        buffer.drop ((got.samples + n) * r₀.hostItem)) := by
  obtain ⟨before, hgot, hbefore⟩ := h.placed index c buffer hc hb
  obtain ⟨hlt, -⟩ := List.getElem?_eq_some_iff.mp hc
  have hd := List.getElem?_eq_getElem (hhistory.length_channels ▸ hlt)
  obtain ⟨p, hp⟩ := Option.isSome_iff_exists.mp (hfull _ (List.mem_of_getElem? hd))
  obtain ⟨wire, hwire⟩ := hreads c (List.mem_of_getElem? hc)
  have hconverter := hhistory.converter hc hd
  have hout := convert_channel hhands.converted hd hp (hconverter ▸ hwire) hgot hbefore
  rw [hconverter] at hout
  exact ⟨before, _, p, hd, hp, hhands.count_le p (mem_held hd hp), hbefore, hgot, hout⟩

/-- The samples of one more round. -/
theorem Sourced.hand {es : List Event} (h : Sourced r₀ buffers wanted onePacket got)
    (hreads : ∀ c ∈ r₀.channels, ∃ wire, c.converter.Reads wire r₀.hostItem)
    (hlength : buffers.length = r₀.channels.length) (hhistory : History r₀ es s) (hfull : s.Full)
    {metadata : Metadata} {out : List Bytes} (hhands : s.Hands wanted got n metadata out)
    (hconverts : Converts r₀ buffers wanted onePacket s n) (metadata' : Metadata) :
    Sourced r₀ buffers wanted onePacket
      { samples := got.samples + n, metadata := metadata', buffers := out } := by
  constructor
  · intro index c buffer hc hb
    obtain ⟨before, d, p, -, -, -, hbefore, -, hout⟩ :=
      h.handed hreads hhistory hfull hhands hc hb
    obtain ⟨wire, hwire⟩ := hreads c (List.mem_of_getElem? hc)
    refine ⟨_, hout, ?_⟩
    rw [List.length_append, hwire.length_run, hbefore, Nat.add_mul]
  · intro k hk
    have hgiven (index : Nat) (c : Channel) (hc : r₀.channels[index]? = some c) :
        ∃ buffer, buffers[index]? = some buffer := by
      obtain ⟨hlt, -⟩ := List.getElem?_eq_some_iff.mp hc
      exact ⟨_, List.getElem?_eq_getElem (hlength ▸ hlt)⟩
    rcases Nat.lt_or_ge k got.samples with hold | hnew
    · obtain ⟨s', n', i, hconverts', hi, hgives⟩ := h.sources k hold
      refine ⟨s', n', i, hconverts', hi, ?_⟩
      intro index c hc
      obtain ⟨d', p', buffer', hd', hp', hi', hbuffer', hsample⟩ := hgives index c hc
      obtain ⟨buffer, hb⟩ := hgiven index c hc
      obtain ⟨before, d, p, -, -, -, hbefore, hgot, hout⟩ :=
        h.handed hreads hhistory hfull hhands hc hb
      cases hbuffer'.symm.trans hgot
      refine ⟨d', p', _, hd', hp', hi', hout, ?_⟩
      rw [List.append_assoc, ← hsample]
      apply sampleIn_append_left
      rw [hbefore]
      exact Nat.mul_le_mul_right _ hold
    · obtain ⟨i, rfl⟩ := Nat.exists_eq_add_of_le hnew
      have hi : i < n := Nat.lt_of_add_lt_add_left hk
      refine ⟨s, n, i, hconverts, hi, ?_⟩
      intro index c hc
      obtain ⟨buffer, hb⟩ := hgiven index c hc
      obtain ⟨before, d, p, hd, hp, hcount, hbefore, -, hout⟩ :=
        h.handed hreads hhistory hfull hhands hc hb
      obtain ⟨wire, hwire⟩ := hreads c (List.mem_of_getElem? hc)
      exact ⟨d, p, _, hd, hp, Nat.lt_of_lt_of_le hi hcount, hout, sampleIn_run hwire hbefore hi⟩

/-- A round leaves samples in their places. -/
theorem Rounds.round {result : Round} (hsettled : r₀.Settled)
    (hreads : ∀ c ∈ r₀.channels, ∃ wire, c.converter.Reads wire r₀.hostItem)
    (h : Rounds r₀ buffers wanted onePacket r got)
    (hs : Sourced r₀ buffers wanted onePacket got)
    (hround : r.round wanted onePacket got = some result)
    (hreached : result.reached = some (r', got')) :
    Sourced r₀ buffers wanted onePacket got' := by
  obtain ⟨es, hp⟩ := h.progress hsettled
  obtain ⟨⟨s, outcome⟩, hready, hround⟩ := Option.bind_eq_some_iff.mp hround
  cases outcome with
  | error e =>
    cases hround
    cases hreached
  | ok found =>
    cases found with
    | some found =>
      cases hround
      obtain ⟨pending, metadata, hreport⟩ := report_eq s found got
      rw [hreport] at hreached
      cases hreached
      exact hs.told metadata
    | none =>
      obtain ⟨es', hhistory, -, -, -, hend⟩ := ready_history hp.settled hready
      have hhand {n : Nat} {metadata : Metadata} {out : List Bytes}
          (hhands : s.Hands wanted got n metadata out) :=
        hs.hand hreads h.length (hp.history.trans hhistory) (hend rfl).1 hhands
          ⟨r, got, metadata, out, h, hready, hhands⟩
      cases handOut_cases hround with
      | nothing | gap =>
        cases hreached
        exact hs
      | burst hhands =>
        obtain ⟨mode, hmode⟩ := endBurst_eq (s.advance _).1
        rw [hmode] at hreached
        cases hreached
        exact hhand hhands _
      | enough hhands | more hhands =>
        cases hreached
        exact hhand hhands _

theorem Rounds.sourced (hsettled : r₀.Settled)
    (hreads : ∀ c ∈ r₀.channels, ∃ wire, c.converter.Reads wire r₀.hostItem)
    (h : Rounds r₀ buffers wanted onePacket r got) :
    Sourced r₀ buffers wanted onePacket got := by
  induction h with
  | first => exact .start buffers wanted onePacket
  | next h hround ih => exact h.round hsettled hreads ih hround rfl

theorem Rounds.collect {rounds : Nat} (hsettled : r₀.Settled)
    (hreads : ∀ c ∈ r₀.channels, ∃ wire, c.converter.Reads wire r₀.hostItem)
    (h : Rounds r₀ buffers wanted onePacket r got)
    (hcollect : collect wanted onePacket rounds r got = some (r', .ok got')) :
    Sourced r₀ buffers wanted onePacket got' := by
  induction rounds generalizing r got with
  | zero =>
    cases hcollect
    exact h.sourced hsettled hreads
  | succ rounds ih =>
    obtain ⟨result, hround, hcollect⟩ := Option.bind_eq_some_iff.mp hcollect
    cases result with
    | done answer =>
      cases hcollect
      exact h.round hsettled hreads (h.sourced hsettled hreads) hround rfl
    | more r₁ got₁ => exact ih (h.next hround) hcollect

theorem recv_sourced (hsettled : r₀.Settled)
    (hreads : ∀ c ∈ r₀.channels, ∃ wire, c.converter.Reads wire r₀.hostItem)
    (h : r₀.recv buffers wanted onePacket = some (r', .ok got)) :
    ∀ k < got.samples, ∃ s n i, Converts r₀ buffers wanted onePacket s n ∧ i < n ∧
      r₀.Gives s i got k := by
  unfold recv at h
  split at h
  · cases h
    exact fun k hk => absurd hk (Nat.not_lt_zero k)
  · rename_i hpending
    split at h
    · cases h
    · rename_i hlength
      obtain ⟨need, -, h⟩ := Option.bind_eq_some_iff.mp h
      split at h
      · cases h
      · have hfirst : Rounds r₀ buffers wanted onePacket r₀ { buffers } :=
          .first hpending (by simpa using hlength)
        exact (hfirst.collect hsettled hreads h).sources

end

/-- In every stream that a new one can come to, whatever frames came in and however the
calls before ended: each time a call converts samples, every channel holds a packet, and
all packets held that carry a time carry the same one. So the samples at one position of
all buffers that a call returns were converted together, from packets of one time. -/
theorem samples_of_one_time {o : StreamOptions} {settings : Settings} {links : List Link}
    {r₀ r : Receiver} (hbuilt : Built o settings links r₀) (hreach : Reachable r₀ r)
    (buffers : List Bytes) (wanted : Nat) (onePacket : Bool) :
    (∀ s n, r.Converts buffers wanted onePacket s n → s.Full ∧ s.OneTime) ∧
      ∀ r' got, r.recv buffers wanted onePacket = some (r', .ok got) → ∀ k < got.samples,
        ∃ s i, s.Full ∧ s.OneTime ∧ (∃ n, i < n ∧ r.Converts buffers wanted onePacket s n) ∧
          r.Gives s i got k := by
  have hsettled : r.Settled := hreach.settled (settled_of_fresh hbuilt.fresh)
  have hsound := hreach.sound hbuilt.sound
  have hreads : ∀ c ∈ r.channels, ∃ wire, c.converter.Reads wire r.hostItem := fun c hc =>
    ⟨_, hsound.hostItem ▸ (hsound.channels c hc).reads⟩
  refine ⟨fun s n h => h.together hsettled, fun r' got hrecv k hk => ?_⟩
  obtain ⟨s, n, i, hconverts, hi, hgives⟩ := recv_sourced hsettled hreads hrecv k hk
  obtain ⟨hfull, hone⟩ := hconverts.together hsettled
  exact ⟨s, i, hfull, hone, ⟨n, hi, hconverts⟩, hgives⟩

/-- Two samples of time 7 for one channel; for the other one of time 5, and then one and
one of time 7. -/
def unevenPackets : Receiver :=
  (((twoChannels.onLink 0
    (·.carry [0x10, 0x10, 0, 6, 0, 0, 0, 0, 0, 0, 0, 0, 0, 0, 0, 7, 0, 1, 0, 2, 0, 3, 0, 4])).onLink
    1 (·.carry [0x10, 0x10, 0, 5, 0, 0, 0, 0, 0, 0, 0, 0, 0, 0, 0, 5, 0, 9, 0, 9])).onLink
    1 (·.carry [0x10, 0x11, 0, 5, 0, 0, 0, 0, 0, 0, 0, 0, 0, 0, 0, 7, 0, 5, 0, 6])).onLink
    1 (·.carry [0x10, 0x12, 0, 5, 0, 0, 0, 0, 0, 0, 0, 0, 0, 0, 0, 7, 0, 7, 0, 8])

/-- The second samples come from the middle of the long packet and a short one of the
same time. -/
theorem samples_of_one_time_uneven :
    ∃ r' got s i, Reachable twoChannels unevenPackets ∧
      unevenPackets.recv (List.replicate 2 (List.replicate 8 0)) 2 false = some (r', .ok got) ∧
      got.samples = 2 ∧ s.Full ∧ s.OneTime ∧ unevenPackets.Gives s i got 1 := by
  have hreach : Reachable twoChannels unevenPackets :=
    .linked (.linked (.linked (.linked .start 0 _) 1 _) 1 _) 1 _
  have hseen : seen (unevenPackets.recv (List.replicate 2 (List.replicate 8 0)) 2 false) =
      some (2, [[1, 0, 2, 0, 3, 0, 4, 0], [5, 0, 6, 0, 7, 0, 8, 0]], []) := by decide +kernel
  obtain ⟨r', got, hrecv, hsamples, -, -⟩ := exists_of_seen hseen
  obtain ⟨s, i, hfull, hone, -, hgives⟩ :=
    (samples_of_one_time built_twoChannels hreach _ 2 false).2 r' got hrecv 1
      (hsamples ▸ Nat.one_lt_two)
  exact ⟨r', got, s, i, hreach, hrecv, hsamples, hfull, hone, hgives⟩

end SampleStream.Receiver
