import SampleStream.Proofs.Receive.Bounds
import SampleStream.Proofs.Receive.Queue

/-!
# A call has an answer

Of a sound stream only a time can keep a call from its answer. Where the times of the
packets in flight and held are in range (`Timely`) every part of a call has a value,
and so does the call (`Timely.recv_yields`). On a single channel in order it does not
come away empty as long as there are samples to come (`InOrder.samples_pos`).
-/

namespace SampleStream

/-- The computation has a value, and one with `P`. -/
def Yields {α : Type} (x : Checked α) (P : α → Prop) : Prop := ∃ a, x = some a ∧ P a

namespace Yields
variable {α β : Type} {x : Checked α} {f : α → Checked β} {P P' : α → Prop} {Q : β → Prop}

theorem pure {a : α} (h : P a) : Yields (some a) P := ⟨a, rfl, h⟩

theorem bind (h : Yields x P) (hf : ∀ a, P a → Yields (f a) Q) : Yields (x >>= f) Q := by
  obtain ⟨a, rfl, ha⟩ := h
  exact hf a ha

/-- Part of a computation, of which the value is known. -/
theorem of_some {a : α} (hx : x = some a) (hf : Yields (f a) Q) : Yields (x >>= f) Q := by
  subst hx
  exact hf

/-- What every value of the computation has, its value has too. -/
theorem and (h : Yields x P) (hall : ∀ a, x = some a → P' a) :
    Yields x fun a => P a ∧ P' a := by
  obtain ⟨a, rfl, ha⟩ := h
  exact ⟨a, rfl, ha, hall a rfl⟩

end Yields

namespace Receive

/-! ## Times in range -/

/-- The time of every sample of a packet that begins at `time` is in range. -/
def Spans (sampleRate : Float) (time : Time) : Prop :=
  ∀ k ≤ 4 * maxPacketWords, ∃ t, time.addSeconds (Real.ofNat k / sampleRate) = some t

/-- The time of a packet with this header is in range, if it has one, and so are those
of its samples. -/
def Dates (tickRate sampleRate : Float) (h : Header) : Prop :=
  ∃ time, Channel.packetTime h tickRate = some time ∧ ∀ t, time = some t → Spans sampleRate t

theorem Dates.of_time {tickRate sampleRate : Float} {h h' : Header}
    (htime : h.fractionalTime = h'.fractionalTime) (hdates : Dates tickRate sampleRate h') :
    Dates tickRate sampleRate h := by
  unfold Dates Channel.packetTime at hdates ⊢
  rw [htime]
  exact hdates

theorem dates_of_untimed {tickRate sampleRate : Float} {h : Header}
    (htime : h.fractionalTime = none) : Dates tickRate sampleRate h := by
  refine ⟨none, ?_, nofun⟩
  rw [Channel.packetTime, htime]

namespace Channel

/-- The times of the packets in flight to a channel and of the one it holds are in
range. -/
structure Timely (order : ByteOrder) (tickRate sampleRate : Float) (c : Channel) : Prop where
  frames : ∀ frame ∈ c.link.frames, ∀ h e, Header.unpack order frame = .ok (h, e) →
    Dates tickRate sampleRate h
  held : ∀ p, c.held = some p → ∀ t, p.time = some t → Spans sampleRate t

variable {order : ByteOrder} {tickRate sampleRate : Float} {c : Channel}

theorem Timely.vacant (hc : c.Timely order tickRate sampleRate) :
    ({ c with held := none } : Channel).Timely order tickRate sampleRate :=
  ⟨hc.frames, fun _ h => (Option.some_ne_none _ h.symm).elim⟩

theorem Timely.fetch_yields (hc : c.Timely order tickRate sampleRate) (index wireItem : Nat) :
    Yields (c.fetch index order wireItem tickRate) fun result =>
      ∀ c' fetched, result = .ok (c', fetched) → c'.Timely order tickRate sampleRate := by
  unfold fetch
  cases hrecv : c.link.recv with
  | error e =>
    refine .pure fun c' fetched h => ?_
    cases h
  | ok arrived =>
    cases arrived with
    | none =>
      refine .pure fun c' fetched h => ?_
      cases h
      exact hc
    | some arrival =>
      obtain ⟨frame, link⟩ := arrival
      have hframes := Link.frames_of_recv hrecv
      have hlater : ∀ other ∈ link.frames, ∀ h e, Header.unpack order other = .ok (h, e) →
          Dates tickRate sampleRate h := by
        intro other hother
        exact hc.frames other (hframes ▸ List.mem_cons_of_mem _ hother)
      dsimp only
      cases hunpack : Header.unpack order frame with
      | error e =>
        refine .pure fun c' fetched h => ?_
        cases h
        exact ⟨hlater, hc.held⟩
      | ok parts =>
        obtain ⟨h, e⟩ := parts
        obtain ⟨payload, hpayload⟩ := Header.payloadOf_of_unpack hunpack
        have hdates : Dates tickRate sampleRate h :=
          hc.frames frame (hframes ▸ List.mem_cons_self) h e hunpack
        refine Yields.bind hdates fun time hspans => .of_some hpayload ?_
        by_cases hclass : h.packetClass = .context
        · rw [if_pos hclass]
          refine .pure fun c' fetched heq => ?_
          cases heq
          by_cases hcode : reportCode order payload = .overflow
          · rw [if_pos hcode]
            exact ⟨hlater, hc.held⟩
          · rw [if_neg hcode]
            exact ⟨hlater, hc.held⟩
        · rw [if_neg hclass]
          refine .pure fun c' fetched heq => ?_
          cases heq
          refine ⟨hlater, fun p hp => ?_⟩
          cases hp
          exact hspans

theorem Timely.advance (hc : c.Timely order tickRate sampleRate) (count : Nat) :
    (c.advance count).1.Timely order tickRate sampleRate := by
  unfold Channel.advance
  cases hheld : c.held with
  | none => exact hc
  | some p =>
    dsimp only
    split
    · exact hc.vacant
    · refine ⟨hc.frames, fun q hq => ?_⟩
      cases hq
      exact hc.held p hheld

end Channel
end Receive

namespace Receiver
open Receive

/-! ## Streams -/

/-- All times that can come up in a call are in range. -/
def Timely (r : Receiver) : Prop :=
  ∀ c ∈ r.channels, c.Timely r.order r.tickRate r.sampleRate

variable {r : Receiver} {wire host : Nat}

theorem Timely.dropHeld (hr : r.Timely) (drop : HeldPacket → Bool) : (r.dropHeld drop).Timely := by
  intro c hc
  obtain ⟨d, hd, rfl⟩ := List.mem_map.mp hc
  split
  · exact (hr d hd).vacant
  · exact hr d hd

/-! ### Getting packets together -/

theorem Timely.fetch_yields (hr : r.Timely) {c : Channel}
    (hc : c.Timely r.order r.tickRate r.sampleRate) (index : Nat) :
    Yields (r.fetch index c) fun a => a.1.Timely := by
  unfold fetch
  refine (hc.fetch_yields index r.wireItem).bind fun result hresult => ?_
  cases result with
  | error cause => exact .pure hr
  | ok fetched =>
    obtain ⟨c', fetched⟩ := fetched
    have hset : ({ r with channels := r.channels.set index c' } : Receiver).Timely := by
      intro d hd
      rcases List.mem_or_eq_of_mem_set hd with hd | rfl
      · exact hr d hd
      · exact hresult _ fetched rfl
    cases fetched with
    | packet gap => exact .pure hset
    | condition found =>
      dsimp only
      split
      · obtain ⟨issued, hrestart⟩ := restart_eq
          { r with channels := r.channels.set index c', markers := r.markers ++ [.overflow] }
        refine .pure ?_
        rw [hrestart]
        exact hset
      · exact .pure hset

theorem Timely.fill_yields (hr : r.Timely) (indices : List Nat) :
    Yields (r.fill indices) fun a => a.1.Timely := by
  induction indices generalizing r with
  | nil => exact .pure hr
  | cons index rest ih =>
    unfold fill
    cases hc : r.channels[index]? with
    | none => exact ih hr
    | some c =>
      dsimp only
      by_cases hheld : c.held.isSome = true
      · rw [if_pos hheld]
        exact ih hr
      · rw [if_neg hheld]
        have hfetch := hr.fetch_yields (hr c (List.mem_of_getElem? hc)) index
        refine hfetch.bind fun fetched hfetched => ?_
        obtain ⟨r', outcome⟩ := fetched
        cases outcome with
        | error e => exact .pure hfetched
        | ok found =>
          cases found with
          | some found => exact .pure hfetched
          | none => exact ih hfetched

theorem Timely.alignWithin_yields (hr : r.Timely) (rounds : Nat) :
    Yields (r.alignWithin rounds) fun a => a.1.Timely := by
  -- by the rounds left, of which one that drops packets uses one up
  induction rounds using Nat.strongRecOn generalizing r with
  | ind rounds ih =>
    unfold alignWithin
    refine (hr.fill_yields _).bind fun filled hfilled => ?_
    obtain ⟨r', outcome⟩ := filled
    cases outcome with
    | error e => exact .pure hfilled
    | ok found =>
      cases found with
      | some found => exact .pure hfilled
      | none =>
        dsimp only
        cases r'.newest with
        | none => exact .pure hfilled
        | some time =>
          dsimp only
          by_cases holder : r'.held.any (isOlder time) = true
          · rw [if_pos holder]
            cases rounds with
            | zero => exact .pure ((hfilled.dropHeld _).dropHeld fun _ => true)
            | succ rounds => exact ih rounds (Nat.lt_succ_self rounds) (hfilled.dropHeld _)
          · rw [if_neg holder]
            exact .pure hfilled

theorem Timely.ready_yields (hr : r.Timely) : Yields r.ready fun a => a.1.Timely := by
  unfold ready
  split
  · exact hr.alignWithin_yields _
  · exact .pure hr

/-! ### Handing out -/

variable {wanted : Nat} {got : Received} {onePacket : Bool}

/-- The metadata of the packets held can be worked out. -/
theorem Timely.describeFirst_yields (hr : r.Timely) (hs : r.Sound wire host) (got : Received) :
    Yields (r.describeFirst got) fun _ => True := by
  unfold describeFirst
  split
  · unfold describe
    cases hfirst : r.channels.head?.bind Channel.held with
    | none => exact .pure trivial
    | some p =>
      obtain ⟨c, hc, hp⟩ := Option.bind_eq_some_iff.mp hfirst
      have hmem := List.mem_of_head? hc
      dsimp only
      cases htime : p.time with
      | none => exact .pure trivial
      | some time =>
        have hinside := (hs.channels c hmem).held p hp
        have hcursor : p.cursor ≤ 4 * maxPacketWords := by
          have hpos := Nat.le_mul_of_pos_right p.samples (hs.channels c hmem).reads.wire_pos
          have hbefore := hinside.cursor
          have hsamples := hinside.samples
          have hsmall := hinside.small
          omega
        dsimp only
        obtain ⟨later, hlater⟩ := (hr c hmem).held p hp time htime p.cursor hcursor
        have htold : Yields (r.timeOf p time) fun _ => True := by
          unfold timeOf
          split
          · exact ⟨later, hlater, trivial⟩
          · exact .pure trivial
        exact htold.bind fun _ _ => .pure trivial
  · exact .pure trivial

/-- A round leaves a stream whose times are in range. -/
def Round.Timely : Round → Prop
  | .done answer => answer.1.Timely
  | .more r _ => r.Timely

theorem Timely.handOut_yields (hr : r.Timely) (hs : r.Sound wire host)
    (hroom : Room host wanted got) (onePacket : Bool) :
    Yields (r.handOut wanted onePacket got) Round.Timely := by
  unfold handOut
  cases hleast : (r.held.map HeldPacket.remaining).min? with
  | none => exact .pure hr
  | some remaining =>
    dsimp only
    by_cases hgap : 0 < got.samples ∧ r.held.any HeldPacket.outOfSequence = true
    · rw [if_pos hgap]
      exact .pure hr
    rw [if_neg hgap]
    have hbound := hroom.bound
    have hcount : ∀ p ∈ r.held, min remaining (wanted - got.samples) ≤ p.remaining := by
      intro p hp
      have hle := (List.min?_eq_some_iff.mp hleast).2 p.remaining (List.mem_map_of_mem hp)
      omega
    obtain ⟨out, hout, -⟩ := convert_of_sound hs hroom hcount (by omega)
    have hmoved : (r.advance (min remaining (wanted - got.samples))).1.Timely := by
      intro d hd
      obtain ⟨moved, hmem, rfl⟩ := List.mem_map.mp hd
      obtain ⟨c, hc, rfl⟩ := List.mem_map.mp hmem
      exact (hr c hc).advance _
    refine (hr.describeFirst_yields hs got).bind fun metadata _ => .of_some hout ?_
    generalize r.advance (min remaining (wanted - got.samples)) = moved at hmoved ⊢
    obtain ⟨r', used⟩ := moved
    have hended : r'.endBurst.Timely := by
      obtain ⟨mode, hmode⟩ := endBurst_eq r'
      rw [hmode]
      exact hmoved
    by_cases hover : onePacket = true ∨ r.held.any HeldPacket.outOfSequence = true ∨
        got.samples + min remaining (wanted - got.samples) = wanted
    · rcases used with _ | _ | _
      · simp only [if_pos hover]
        exact .pure hmoved
      · simp only [if_pos hover]
        exact .pure hmoved
      · exact .pure hended
    · rcases used with _ | _ | _
      · simp only [if_neg hover]
        exact .pure hmoved
      · simp only [if_neg hover]
        exact .pure hmoved
      · exact .pure hended

theorem Timely.round_yields (hr : r.Timely) (hs : r.Sound wire host)
    (hroom : Room host wanted got) (onePacket : Bool) :
    Yields (r.round wanted onePacket got) Round.Timely := by
  unfold round
  refine (hr.ready_yields.and (ready_guards hs).value).bind fun readied hready => ?_
  obtain ⟨r', outcome⟩ := readied
  cases outcome with
  | error e => exact .pure hready.1
  | ok found =>
    cases found with
    | some found =>
      obtain ⟨pending, metadata, hreport⟩ := report_eq r' found got
      refine .pure ?_
      rw [hreport]
      exact hready.1
    | none => exact hready.1.handOut_yields hready.2 hroom onePacket

theorem Timely.collect_yields (hr : r.Timely) (hs : r.Sound wire host)
    (hroom : Room host wanted got) (onePacket : Bool) (rounds : Nat) :
    Yields (collect wanted onePacket rounds r got) fun answer => answer.1.Timely := by
  induction rounds generalizing r got with
  | zero => exact .pure hr
  | succ rounds ih =>
    unfold collect
    have hround := (hr.round_yields hs hroom onePacket).and (round_guards hs hroom onePacket).value
    refine hround.bind fun result hresult => ?_
    cases result with
    | done answer => exact .pure hresult.1
    | more r' got' => exact ih hresult.1 hresult.2.1 hresult.2.2

/-- A call on a sound stream has an answer, whatever is in flight to it, as long as
the times of that are in range. -/
theorem Timely.recv_yields (hr : r.Timely) (hs : r.Sound wire host) (buffers : List Bytes)
    (hlimit : wanted * host < sizeLimit) (onePacket : Bool) :
    Yields (r.recv buffers wanted onePacket) fun answer => answer.1.Timely := by
  obtain ⟨-, rfl, -⟩ := id hs
  unfold recv
  cases r.pending with
  | some metadata => exact .pure hr
  | none =>
    dsimp only
    split
    · exact .pure hr
    · refine .of_some (mulSize_eq_some.mpr ⟨hlimit, rfl⟩) ?_
      cases hshort : buffers.find? fun b => decide (b.length < wanted * r.hostItem) with
      | some buffer => exact .pure hr
      | none =>
        refine hr.collect_yields hs ⟨Nat.zero_le _, hlimit, fun b hb => ?_⟩ onePacket _
        simpa using List.find?_eq_none.mp hshort b hb

/-- A call leaves a stream whose times are in range. -/
theorem Timely.recv (hr : r.Timely) (hs : r.Sound wire host) {buffers : List Bytes}
    {answer : Answer} (h : r.recv buffers wanted onePacket = some answer) : answer.1.Timely := by
  by_cases hlimit : wanted * host < sizeLimit
  · obtain ⟨given, hgiven, htimely⟩ := hr.recv_yields hs buffers hlimit onePacket
    cases h.symm.trans hgiven
    exact htimely
  · obtain ⟨-, rfl, -⟩ := id hs
    rcases recv_of_limit hlimit h with heq | heq
    · rw [heq]
      exact hr
    · rw [heq]
      exact hr

/-! ## Calls that return samples -/

section
variable {r' : Receiver} {c : Channel} {next : UInt8} {buffers : List Bytes} {got' : Received}

/-- A round never takes samples back. -/
theorem samples_le_of_round {result : Round} (h : r.round wanted onePacket got = some result)
    (hreached : result.reached = some (r', got')) : got.samples ≤ got'.samples := by
  simp only [round, bind, Option.bind_eq_some_iff] at h
  obtain ⟨⟨r₁, outcome⟩, -, h⟩ := h
  cases outcome with
  | error e =>
    cases h
    cases hreached
  | ok found =>
    cases found with
    | some found =>
      cases h
      obtain ⟨pending, metadata, hreport⟩ := report_eq r₁ found got
      rw [hreport] at hreached
      cases hreached
      exact Nat.le_refl _
    | none =>
      cases handOut_cases h with
      | nothing | gap =>
        cases hreached
        exact Nat.le_refl _
      | burst | enough | more =>
        cases hreached
        exact Nat.le_add_right ..

theorem samples_le_of_collect {rounds : Nat}
    (h : collect wanted onePacket rounds r got = some (r', .ok got')) :
    got.samples ≤ got'.samples := by
  induction rounds generalizing r got with
  | zero =>
    cases h
    exact Nat.le_refl _
  | succ rounds ih =>
    simp only [collect, bind, Option.bind_eq_some_iff] at h
    obtain ⟨result, hround, h⟩ := h
    cases result with
    | done answer =>
      cases h
      exact samples_le_of_round hround rfl
    | more r₁ got₁ => exact Nat.le_trans (samples_le_of_round hround rfl) (ih h)

/-- The first round of a call hands out samples if there are any to come. -/
theorem InOrder.samples_pos_of_round {result : Round} (hin : r.InOrder c next)
    (hqueue : c.queue r.order r.wireItem ≠ []) (hwanted : 0 < wanted) (hnone : got.samples = 0)
    (h : r.round wanted onePacket got = some result)
    (hreached : result.reached = some (r', got')) : 0 < got'.samples := by
  simp only [round, bind, Option.bind_eq_some_iff] at h
  obtain ⟨⟨r₁, outcome⟩, hready, h⟩ := h
  rcases ready_inOrder hin hready with ⟨-, -, hempty⟩ | ⟨rfl, c₁, p, hp, hpasses⟩
  · exact absurd hempty hqueue
  · have hheld : r₁.held = [p] := by
      rw [hpasses.inOrder.held_eq, hp]
      rfl
    have hcursor := (hpasses.inOrder.held p hp).2
    have hcount {n : Nat} {metadata : Metadata} {filled : List Bytes}
        (hhands : r₁.Hands wanted got n metadata filled) : 0 < n := by
      obtain ⟨remaining, hleast, hn⟩ := hhands.count
      simp only [hheld, List.map_cons, List.map_nil, List.min?_singleton,
        Option.some.injEq] at hleast
      rw [← hleast, HeldPacket.remaining] at hn
      omega
    cases handOut_cases h with
    | nothing hvacant =>
      rw [hheld] at hvacant
      cases hvacant
    | gap hsome => omega
    | burst hhands | enough hhands | more hhands =>
      cases hreached
      have hpos := hcount hhands
      show 0 < got.samples + _
      omega

/-- A call returns samples if there are any to come and any are wanted. -/
theorem InOrder.samples_pos (hin : r.InOrder c next) (hqueue : c.queue r.order r.wireItem ≠ [])
    (hwanted : 0 < wanted) (h : r.recv buffers wanted onePacket = some (r', .ok got')) :
    0 < got'.samples := by
  unfold recv at h
  simp only [hin.pending] at h
  split at h
  · cases h
  · simp only [bind, Option.bind_eq_some_iff] at h
    obtain ⟨need, -, h⟩ := h
    split at h
    · cases h
    · simp only [collect, bind, Option.bind_eq_some_iff] at h
      obtain ⟨result, hround, h⟩ := h
      cases result with
      | done answer =>
        cases h
        exact hin.samples_pos_of_round hqueue hwanted rfl hround rfl
      | more r₁ got₁ =>
        have hfirst : 0 < got₁.samples :=
          hin.samples_pos_of_round hqueue hwanted rfl hround rfl
        exact Nat.lt_of_lt_of_le hfirst (samples_le_of_collect h)

/-- A call for samples to come that gives one buffer with room for them returns some. -/
theorem InOrder.recv_returns {buffer : Bytes} (hin : r.InOrder c next) (ht : r.Timely)
    (hs : r.Sound r.wireItem r.hostItem) (hqueue : c.queue r.order r.wireItem ≠ [])
    (hwanted : 0 < wanted) (hroom : wanted * r.hostItem ≤ buffer.length)
    (hlimit : wanted * r.hostItem < sizeLimit) (onePacket : Bool) :
    ∃ r' got', r.recv [buffer] wanted onePacket = some (r', .ok got') ∧ 0 < got'.samples := by
  obtain ⟨⟨r', result⟩, hrecv, -⟩ := ht.recv_yields hs [buffer] hlimit onePacket
  suffices hok : ∃ got', result = .ok got' by
    obtain ⟨got', rfl⟩ := hok
    exact ⟨r', got', hrecv, hin.samples_pos hqueue hwanted hrecv⟩
  have hcalled := hrecv
  unfold recv at hcalled
  simp only [hin.pending, hin.channels, List.length_singleton, ne_eq, not_true_eq_false, if_false,
    mulSize_eq_some.mpr ⟨hlimit, rfl⟩, bind, Option.bind_some] at hcalled
  split at hcalled
  · rename_i short hshort
    have hless := List.find?_some hshort
    cases List.mem_singleton.mp (List.mem_of_find?_eq_some hshort)
    have hless := of_decide_eq_true hless
    omega
  · obtain ⟨c', out, got', hresult, -⟩ := collect_inOrder (.start hin buffer) rfl hcalled
    exact ⟨got', hresult⟩

end

end Receiver
end SampleStream
