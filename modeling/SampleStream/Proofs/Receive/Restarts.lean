import SampleStream.Proofs.Receive.Run
import SampleStream.Proofs.Report.Collection

/-!
# Restarts after overflows

Which commands a stream issues and which markers it shows follows from what happened to it,
in order: the commands it was given and the frames it took off its links. An observer who
keeps the last command in mind, and for each channel the last count, can tell both
(`Observed.issues`, `Observed.shows`), although the stream itself keeps a mode that the ends
of bursts change. Within a call everything else that a stream does is `Quiet`; what is left
are the frames taken (`recv_heard`), and each of them is what the observer expects
(`Follows.take`).
-/

namespace SampleStream.Receive

/-! ## Reports of overflows -/

/-- Whether a frame reports an overflow: it is a context packet, and the low byte of the
first word of its payload is the number of an overflow. -/
def reportsOverflow (order : ByteOrder) (frame : Bytes) : Bool :=
  match Header.unpack order frame with
  | .error _ => false
  | .ok (h, extent) =>
    h.packetClass = .context && extent.payload != 0 &&
      (order.wordAt frame extent.header).toNat % 256 == 0x8

theorem reportedCode_eq_overflow_iff {order : ByteOrder} {payload : Bytes} :
    reportedCode order payload = .overflow ↔
      4 ≤ payload.length ∧ (order.wordAt payload 0).toNat % 256 = 0x8 := by
  unfold reportedCode
  by_cases hshort : payload.length < 4
  · rw [if_pos hshort]
    exact ⟨nofun, fun h => absurd h.1 (Nat.not_le.mpr hshort)⟩
  · rw [if_neg hshort]
    split <;> simp_all

theorem reportsOverflow_iff (order : ByteOrder) (frame : Bytes) :
    reportsOverflow order frame = true ↔ contentOf order frame = .report .overflow := by
  cases hunpack : Header.unpack order frame with
  | error e => simp [reportsOverflow, contentOf, hunpack]
  | ok parts =>
    obtain ⟨h, extent⟩ := parts
    obtain ⟨payload, hpayload⟩ := Header.payloadOf_of_unpack hunpack
    have hlength : payload.length = 4 * extent.payload := length_of_slice hpayload
    have hword : 0 < extent.payload →
        order.wordAt frame extent.header = order.wordAt payload 0 := by
      intro hpos
      have heq : Report.payloadWord order frame extent 0 = _ := Report.payloadWord_eq hpayload 0
      rwa [Report.payloadWord, if_pos hpos, if_pos (by omega)] at heq
    simp only [reportsOverflow, contentOf, hunpack, hpayload]
    by_cases hclass : h.packetClass = .context
    · simp only [hclass, if_true, Content.report.injEq, reportedCode_eq_overflow_iff]
      by_cases hpos : 0 < extent.payload
      · simp [hword hpos]
        omega
      · simp
        omega
    · simp [hclass]

/-- The header of the samples in a frame, if it holds samples. -/
def sampleHeader (order : ByteOrder) (frame : Bytes) : Option Header :=
  match contentOf order frame with
  | .samples h _ => some h
  | _ => none

/-- The markers of a frame on a channel with this last count. -/
def shown (order : ByteOrder) (last : Option UInt8) (frame : Bytes) : List Marker :=
  if reportsOverflow order frame then [.overflow]
  else if (sampleHeader order frame).any fun h => Channel.isGap last h.count then [.dropped]
  else []

/-- The last count of a channel after a frame. A channel whose device reported an overflow
takes any count next. -/
def counted (order : ByteOrder) (last : Option UInt8) (frame : Bytes) : Option UInt8 :=
  if reportsOverflow order frame then none
  else ((sampleHeader order frame).map Header.count).or last

theorem markers_contentOf (order : ByteOrder) (last : Option UInt8) (frame : Bytes) :
    (contentOf order frame).markers last = shown order last frame := by
  have hover := reportsOverflow_iff order frame
  rw [shown, sampleHeader]
  cases hcontent : contentOf order frame with
  | unreadable => simp_all [Content.markers]
  | report code => by_cases hcode : code = .overflow <;> simp_all [Content.markers]
  | samples h payload => simp_all [Content.markers]

theorem countAfter_contentOf (order : ByteOrder) (last : Option UInt8) (frame : Bytes) :
    (contentOf order frame).countAfter last = counted order last frame := by
  have hover := reportsOverflow_iff order frame
  rw [counted, sampleHeader]
  cases hcontent : contentOf order frame with
  | unreadable => simp_all [Content.countAfter]
  | report code => by_cases hcode : code = .overflow <;> simp_all [Content.countAfter]
  | samples h payload => simp_all [Content.countAfter]

/-- Of the markers of a frame one is for an overflow, or none. -/
theorem count_overflow_shown (order : ByteOrder) (last : Option UInt8) (frame : Bytes) :
    (shown order last frame).count .overflow = (reportsOverflow order frame).toNat := by
  rw [shown]
  cases reportsOverflow order frame with
  | true => rfl
  | false =>
    simp only [Bool.false_eq_true, if_false]
    split <;> rfl

/-! ## What an observer expects -/

/-- Something that happens to a stream: it is given a command, or takes a frame off the
link of a channel. -/
inductive Occurrence where
  | commanded (command : StreamCommand)
  | took (index : Nat) (frame : Bytes)

/-- Whether a frame is taken that reports an overflow. -/
def Occurrence.isOverflow (order : ByteOrder) : Occurrence → Bool
  | .commanded _ => false
  | .took _ frame => reportsOverflow order frame

/-- What an observer keeps in mind: the last command, and the last count of each channel. -/
structure Observed where
  last : Option StreamMode := none
  counts : Nat → Option UInt8 := fun _ => none

namespace Observed

/-- What is kept in mind after an occurrence. A frame bears on its own channel only. -/
def after (order : ByteOrder) (o : Observed) : Occurrence → Observed
  | .commanded command => { o with last := some command.mode }
  | .took index frame =>
    { o with
      counts := fun other =>
        if other = index then counted order (o.counts index) frame else o.counts other }

theorem counts_took_self (order : ByteOrder) (o : Observed) (index : Nat)
    (frame : Bytes) :
    (o.after order (.took index frame)).counts index = counted order (o.counts index) frame :=
  if_pos rfl

theorem counts_took_of_ne (order : ByteOrder) (o : Observed) {index other : Nat}
    (h : other ≠ index) (frame : Bytes) :
    (o.after order (.took index frame)).counts other = o.counts other :=
  if_neg h

/-- The commands that are issued on an occurrence: one that is given, to every device
channel; and if a frame reports an overflow while the last command was to stream
continuously, an immediate start to every device channel. -/
def issues (order : ByteOrder) (deviceChannels : List Nat) (o : Observed) :
    Occurrence → List Issued
  | .commanded command => deviceChannels.map fun channel => ⟨channel, command⟩
  | .took _ frame =>
    if o.last = some .startContinuous ∧ reportsOverflow order frame = true then
      deviceChannels.map fun channel => ⟨channel, { mode := .startContinuous }⟩
    else []

/-- The markers that are shown on an occurrence. -/
def shows (order : ByteOrder) (o : Observed) : Occurrence → List Marker
  | .commanded _ => []
  | .took index frame => shown order (o.counts index) frame

/-- What comes of a story, occurrence by occurrence. -/
def along {α : Type} (order : ByteOrder) (outcome : Observed → Occurrence → List α) :
    Observed → List Occurrence → List α
  | _, [] => []
  | o, x :: story => outcome o x ++ along order outcome (o.after order x) story

/-- What is kept in mind of a story. -/
def afterAll (order : ByteOrder) (story : List Occurrence) : Observed :=
  story.foldl (after order) {}

theorem along_snoc {α : Type} (order : ByteOrder) (outcome : Observed → Occurrence → List α)
    (o : Observed) (story : List Occurrence) (x : Occurrence) :
    along order outcome o (story ++ [x]) =
      along order outcome o story ++ outcome (story.foldl (after order) o) x := by
  induction story generalizing o with
  | nil => exact List.append_nil _
  | cons y story ih => rw [List.cons_append, along, ih, along, List.append_assoc, List.foldl_cons]

theorem afterAll_snoc (order : ByteOrder) (story : List Occurrence) (x : Occurrence) :
    afterAll order (story ++ [x]) = (afterAll order story).after order x :=
  List.foldl_concat ..

theorem count_overflow_along (order : ByteOrder) (o : Observed) (story : List Occurrence) :
    (along order (shows order) o story).count .overflow =
      story.countP (Occurrence.isOverflow order) := by
  induction story generalizing o with
  | nil => rfl
  | cons x story ih =>
    have hx : (shows order o x).count .overflow =
        if Occurrence.isOverflow order x = true then 1 else 0 := by
      cases x with
      | commanded command => rfl
      | took index frame =>
        rw [shows, count_overflow_shown, Occurrence.isOverflow]
        cases reportsOverflow order frame <;> rfl
    rw [along, List.count_append, ih, hx, List.countP_cons, Nat.add_comm]

end Observed
end SampleStream.Receive

namespace SampleStream.Receiver
open Receive

variable {r₀ r r' : Receiver} {index : Nat} {c : Channel} {outcome : Outcome}

/-! ## One frame -/

theorem issuing_of_setup (h : r'.setup = r.setup) : r'.issuing = r.issuing :=
  show r'.setup.issuing = r.setup.issuing from congrArg Receiver.issuing h

theorem deviceChannels_of_setup (h : r'.setup = r.setup) : r'.deviceChannels = r.deviceChannels :=
  show r'.setup.deviceChannels = r.setup.deviceChannels from congrArg Receiver.deviceChannels h

theorem restart_issued (hissuing : r.issuing = true) :
    r.restart.issued = r.issued ++
      if r.mode = .continuous then
        r.deviceChannels.map fun channel => ⟨channel, { mode := .startContinuous }⟩
      else [] := by
  rw [restart]
  by_cases hmode : r.mode = .continuous
  · rw [if_pos hmode, if_pos hmode, issue, if_pos hissuing]
  · rw [if_neg hmode, if_neg hmode, List.append_nil]

theorem Took.length_channels {frame : Bytes} {rest : List Bytes} {found : Option Condition}
    (h : r.Took index c frame rest r' found) : r'.channels.length = r.channels.length := by
  obtain ⟨c', fetched, -, hchannels, -⟩ := h.channels
  rw [hchannels, List.length_set]

/-- Of the channels after a frame one took it, and the others are as they were. -/
theorem Took.channel {frame : Bytes} {rest : List Bytes} {found : Option Condition}
    (h : r.Took index c frame rest r' found) (hc : r.channels[index]? = some c) {other : Nat}
    {d : Channel} (hd : r'.channels[other]? = some d) :
    (other = index ∧
        ∃ fetched, Channel.Taken r.order r.wireItem r.tickRate index c frame rest d fetched) ∨
      (other ≠ index ∧ r.channels[other]? = some d) := by
  obtain ⟨c', fetched, htaken, hchannels, -⟩ := h.channels
  rw [hchannels] at hd
  by_cases hsame : index = other
  · subst hsame
    rw [List.getElem?_set_self (List.getElem?_eq_some_iff.mp hc).1] at hd
    cases hd
    exact .inl ⟨rfl, fetched, htaken⟩
  · rw [List.getElem?_set_ne hsame] at hd
    exact .inr ⟨Ne.symm hsame, hd⟩

/-- Taking a frame issues nothing, unless it reports an overflow of a continuous stream. -/
theorem issued_of_fetch {frame : Bytes} {rest : List Bytes} (hissuing : r.issuing = true)
    (hlink : c.link.frames = frame :: rest) (h : r.fetch index c = some (r', outcome)) :
    r'.issued = r.issued ++
      if r.mode = .continuous ∧ reportsOverflow r.order frame = true then
        r.deviceChannels.map fun channel => ⟨channel, { mode := .startContinuous }⟩
      else [] := by
  simp only [fetch, bind, Option.bind_eq_some_iff] at h
  obtain ⟨result, hresult, h⟩ := h
  obtain ⟨c', fetched, rfl, htaken⟩ := Channel.fetch_of_frame hlink hresult
  have hover := reportsOverflow_iff r.order frame
  have hquiet (hno : contentOf r.order frame ≠ .report .overflow) :
      ¬(r.mode = .continuous ∧ reportsOverflow r.order frame = true) :=
    fun hboth => hno (hover.mp hboth.2)
  cases htaken with
  | unreadable hcontent =>
    cases h
    rw [if_neg (hquiet (by simp [hcontent])), List.append_nil]
  | @report code hcontent time htime =>
    by_cases hcode : code = .overflow
    · subst hcode
      simp only [if_true, pure, Option.some.injEq] at h
      cases h
      rw [restart_issued (by exact hissuing), hover.mpr hcontent]
      simp only [and_true]
    · simp only [hcode, if_false, pure, Option.some.injEq] at h
      cases h
      have hother : contentOf r.order frame ≠ .report .overflow := by
        rw [hcontent]
        exact fun heq => hcode (Content.report.inj heq)
      rw [if_neg (hquiet hother), List.append_nil]
  | samples hcontent =>
    cases h
    rw [if_neg (hquiet (by simp [hcontent])), List.append_nil]

/-! ## Everything else in a call -/

/-- A change that leaves the logs of the stream and the last counts alone, and whether it is
continuous. No frame is taken. -/
structure Quiet (r r' : Receiver) : Prop where
  setup : r'.setup = r.setup
  mode : r'.mode = .continuous ↔ r.mode = .continuous
  issued : r'.issued = r.issued
  markers : r'.markers = r.markers
  channels : r'.channels.map (fun c => (c.link, c.lastCount)) =
    r.channels.map fun c => (c.link, c.lastCount)

theorem Quiet.refl (r : Receiver) : r.Quiet r := ⟨rfl, Iff.rfl, rfl, rfl, rfl⟩

theorem Quiet.trans {r'' : Receiver} (h : r.Quiet r') (h' : r'.Quiet r'') : r.Quiet r'' :=
  ⟨h'.setup.trans h.setup, h'.mode.trans h.mode, h'.issued.trans h.issued,
    h'.markers.trans h.markers, h'.channels.trans h.channels⟩

theorem quiet_dropHeld (r : Receiver) (drop : HeldPacket → Bool) : r.Quiet (r.dropHeld drop) := by
  refine ⟨rfl, Iff.rfl, rfl, rfl, ?_⟩
  rw [dropHeld, List.map_map]
  apply List.map_congr_left
  intro c _
  simp only [Function.comp_apply]
  split <;> rfl

theorem quiet_giveUp (r : Receiver) : r.Quiet r.giveUp := by
  obtain ⟨hsetup, hmode, hissued, hmarkers, hchannels⟩ := r.quiet_dropHeld fun _ => true
  exact ⟨hsetup, hmode, hissued, hmarkers, hchannels⟩

theorem quiet_advance (r : Receiver) (count : Nat) : r.Quiet (r.advance count).1 := by
  refine ⟨rfl, Iff.rfl, rfl, rfl, ?_⟩
  simp only [advance, List.map_map]
  apply List.map_congr_left
  intro c _
  simp only [Function.comp_apply, Channel.advance]
  split
  · rfl
  · split <;> rfl

/-- The end of a burst ends a finite stream, which is not a continuous one. -/
theorem quiet_endBurst (r : Receiver) : r.Quiet r.endBurst := by
  rw [endBurst]
  split
  · rename_i hfinite
    refine ⟨rfl, ?_, rfl, rfl, rfl⟩
    rw [hfinite]
    exact iff_of_false nofun nofun
  · exact .refl r

theorem quiet_report (r : Receiver) (found : Condition) (got : Received) :
    r.Quiet (r.report found got).1 := by
  obtain ⟨pending, metadata, hreport⟩ := report_eq r found got
  rw [hreport]
  exact ⟨rfl, Iff.rfl, rfl, rfl, rfl⟩

/-- Where no frame is in flight, asking for one changes nothing but the warnings. -/
theorem quiet_fetch (hc : r.channels[index]? = some c) (hlink : c.link.frames = [])
    (h : r.fetch index c = some (r', outcome)) : r.Quiet r' := by
  simp only [fetch, bind, Option.bind_eq_some_iff] at h
  obtain ⟨result, hresult, h⟩ := h
  rcases Channel.fetch_of_empty hlink hresult with rfl | rfl
  · cases h
    exact ⟨rfl, Iff.rfl, rfl, rfl, rfl⟩
  · have hset : r.channels.set index c = r.channels := by
      obtain ⟨hlt, hget⟩ := List.getElem?_eq_some_iff.mp hc
      rw [← hget, List.set_getElem_self]
    simp only [hset, reduceCtorEq, if_false, pure, Option.some.injEq] at h
    cases h
    exact .refl r

/-! ## The frames of a call -/

/-- What led from a stream to another: quiet changes, and frames that were taken, in order
and with the channel of each. -/
inductive Heard (r₀ : Receiver) : List (Nat × Bytes) → Receiver → Prop where
  | start : Heard r₀ [] r₀
  | quiet {takings : List (Nat × Bytes)} {r r' : Receiver} (h : Heard r₀ takings r)
    (hquiet : r.Quiet r') : Heard r₀ takings r'
  | took {takings : List (Nat × Bytes)} {r r' : Receiver} {index : Nat} {c : Channel}
    {frame : Bytes} {rest : List Bytes} {outcome : Outcome} (h : Heard r₀ takings r)
    (hc : r.channels[index]? = some c) (hlink : c.link.frames = frame :: rest)
    (hfetch : r.fetch index c = some (r', outcome)) : Heard r₀ (takings ++ [(index, frame)]) r'

/-- Quiet changes and frames taken led from `r₀` to `r`. -/
def Hears (r₀ r : Receiver) : Prop := ∃ takings, Heard r₀ takings r

theorem Hears.quiet (h : r₀.Hears r) (hquiet : r.Quiet r') : r₀.Hears r' := by
  obtain ⟨takings, h⟩ := h
  exact ⟨takings, h.quiet hquiet⟩

theorem Hears.fetch (h : r₀.Hears r) (hc : r.channels[index]? = some c)
    (hfetch : r.fetch index c = some (r', outcome)) : r₀.Hears r' := by
  cases hlink : c.link.frames with
  | nil => exact h.quiet (quiet_fetch hc hlink hfetch)
  | cons frame rest =>
    obtain ⟨takings, h⟩ := h
    exact ⟨_, h.took hc hlink hfetch⟩

theorem Hears.fill {indices : List Nat} (h : r₀.Hears r)
    (hfill : r.fill indices = some (r', outcome)) : r₀.Hears r' := by
  induction indices generalizing r with
  | nil =>
    cases hfill
    exact h
  | cons index rest ih =>
    unfold Receiver.fill at hfill
    cases hc : r.channels[index]? with
    | none =>
      rw [hc] at hfill
      exact ih h hfill
    | some c =>
      rw [hc] at hfill
      dsimp only at hfill
      split at hfill
      · exact ih h hfill
      · obtain ⟨⟨r₁, fetched⟩, hfetch, hfill⟩ := Option.bind_eq_some_iff.mp hfill
        have hnext := h.fetch hc hfetch
        split at hfill
        · rename_i heq
          cases heq
          exact ih hnext hfill
        · cases hfill
          exact hnext

theorem Hears.alignWithin {rounds : Nat} (h : r₀.Hears r)
    (halign : r.alignWithin rounds = some (r', outcome)) : r₀.Hears r' := by
  -- by the rounds left, of which one that drops packets uses one up
  induction rounds using Nat.strongRecOn generalizing r with
  | ind rounds ih =>
    unfold Receiver.alignWithin at halign
    obtain ⟨⟨r₁, filled⟩, hfill, halign⟩ := Option.bind_eq_some_iff.mp halign
    have hfilled := h.fill hfill
    split at halign
    · rename_i heq
      cases heq
      split at halign
      · cases halign
        exact hfilled
      · rename_i time _
        split at halign
        · have hdropped := hfilled.quiet (quiet_dropHeld r₁ (isOlder time))
          cases rounds with
          | zero =>
            cases halign
            exact hdropped.quiet (quiet_giveUp _)
          | succ rounds => exact ih rounds (Nat.lt_succ_self rounds) hdropped halign
        · cases halign
          exact hfilled
    · cases halign
      exact hfilled

theorem Hears.ready (h : r₀.Hears r) (hready : r.ready = some (r', outcome)) : r₀.Hears r' := by
  unfold Receiver.ready at hready
  split at hready
  · exact h.alignWithin hready
  · cases hready
    exact h

/-- The stream that a round leads to. -/
def Round.receiver : Round → Receiver
  | .done answer => answer.1
  | .more r _ => r

section
variable {wanted : Nat} {onePacket : Bool} {got : Received} {result : Round} {answer : Answer}

theorem quiet_handOut (h : r.handOut wanted onePacket got = some result) :
    r.Quiet result.receiver := by
  cases handOut_cases h with
  | nothing | gap => exact .refl r
  | @burst n => exact (r.quiet_advance n).trans (quiet_endBurst _)
  | @enough n => exact r.quiet_advance n
  | @more n => exact r.quiet_advance n

theorem Hears.round (h : r₀.Hears r) (hround : r.round wanted onePacket got = some result) :
    r₀.Hears result.receiver := by
  unfold Receiver.round at hround
  obtain ⟨⟨r₁, ready⟩, hready, hround⟩ := Option.bind_eq_some_iff.mp hround
  have hgathered := h.ready hready
  cases ready with
  | error e =>
    cases hround
    exact hgathered
  | ok found =>
    cases found with
    | some found =>
      cases hround
      exact hgathered.quiet (quiet_report ..)
    | none => exact hgathered.quiet (quiet_handOut hround)

theorem Hears.collect {rounds : Nat} (h : r₀.Hears r)
    (hcollect : collect wanted onePacket rounds r got = some answer) : r₀.Hears answer.1 := by
  induction rounds generalizing r got with
  | zero =>
    cases hcollect
    exact h
  | succ rounds ih =>
    unfold Receiver.collect at hcollect
    obtain ⟨result, hround, hcollect⟩ := Option.bind_eq_some_iff.mp hcollect
    have hreached := h.round hround
    cases result with
    | done answer =>
      cases hcollect
      exact hreached
    | more r₁ got₁ => exact ih hreached hcollect

/-- A call is made up of quiet changes and of the frames it takes, whether it ends with an
error or not. -/
theorem recv_heard {buffers : List Bytes} (h : r.recv buffers wanted onePacket = some answer) :
    r.Hears answer.1 := by
  have hstart : r.Hears r := ⟨[], .start⟩
  unfold recv at h
  split at h
  · cases h
    exact hstart.quiet ⟨rfl, Iff.rfl, rfl, rfl, rfl⟩
  · split at h
    · cases h
      exact hstart
    · obtain ⟨need, -, h⟩ := Option.bind_eq_some_iff.mp h
      split at h
      · cases h
        exact hstart
      · exact hstart.collect h

end

/-! ## Whose frames were taken -/

/-- The frames among those taken that were on the link of a channel. -/
def framesOf (index : Nat) (takings : List (Nat × Bytes)) : List Bytes :=
  takings.filterMap fun taking => if taking.1 = index then some taking.2 else none

/-- The frames taken are, channel by channel, those that its link lost at the front. -/
structure Takes (r : Receiver) (takings : List (Nat × Bytes)) (r' : Receiver) : Prop where
  known : ∀ taking ∈ takings, taking.1 < r.channels.length
  length : r'.channels.length = r.channels.length
  links : ∀ {index : Nat} {c c' : Channel}, r.channels[index]? = some c →
    r'.channels[index]? = some c' → c.link.frames = framesOf index takings ++ c'.link.frames

theorem framesOf_snoc (index : Nat) (takings : List (Nat × Bytes)) (taking : Nat × Bytes) :
    framesOf index (takings ++ [taking]) =
      framesOf index takings ++ if taking.1 = index then [taking.2] else [] := by
  rw [framesOf, filterMap_concat]
  split <;> rfl

/-- A channel after a quiet change, with the channel it was. -/
theorem Quiet.channel (h : r.Quiet r') {c' : Channel} (hc' : r'.channels[index]? = some c') :
    ∃ c, r.channels[index]? = some c ∧ c'.link = c.link ∧ c'.lastCount = c.lastCount := by
  have hsame := congrArg (·[index]?) h.channels
  simp only [List.getElem?_map, hc', Option.map_some] at hsame
  obtain ⟨c, hc, hpair⟩ := Option.map_eq_some_iff.mp hsame.symm
  obtain ⟨hlink, hcount⟩ := Prod.mk.inj hpair
  exact ⟨c, hc, hlink.symm, hcount.symm⟩

theorem Heard.takes {takings : List (Nat × Bytes)} (h : Heard r₀ takings r) :
    r₀.Takes takings r := by
  induction h with
  | start =>
    refine ⟨nofun, rfl, fun hc hc' => ?_⟩
    cases hc.symm.trans hc'
    rfl
  | @quiet takings r r' h hquiet ih =>
    have hlength := congrArg List.length hquiet.channels
    simp only [List.length_map] at hlength
    refine ⟨ih.known, hlength.trans ih.length, fun {i d d'} hd hd' => ?_⟩
    obtain ⟨d₁, hd₁, hlink, -⟩ := hquiet.channel hd'
    rw [hlink]
    exact ih.links hd hd₁
  | @took takings r r' index c frame rest outcome h hc hlink hfetch ih =>
    obtain ⟨found, -, htook⟩ := fetch_of_frame hlink hfetch
    refine ⟨fun taking htaking => ?_, htook.length_channels.trans ih.length,
      fun {i d d'} hd hd' => ?_⟩
    · rcases List.mem_append.mp htaking with hbefore | hlast
      · exact ih.known taking hbefore
      · rw [List.mem_singleton.mp hlast, ← ih.length]
        exact (List.getElem?_eq_some_iff.mp hc).1
    · rw [framesOf_snoc, List.append_assoc]
      rcases htook.channel hc hd' with ⟨rfl, fetched, htaken⟩ | ⟨hne, hsame⟩
      · rw [if_pos rfl, htaken.link, ih.links hd hc, hlink]
        rfl
      · rw [if_neg (Ne.symm hne), ih.links hd hsame]
        rfl

/-! ## What an observer can tell -/

/-- A stream did what an observer of its story expects: it is the stream at the start, but
for its logs, its mode, and the last counts of its channels, and these follow from the
story. -/
structure Follows (r₀ : Receiver) (story : List Occurrence) (r : Receiver) : Prop where
  setup : r.setup = r₀.setup
  mode : r.mode = .continuous ↔
    (Observed.afterAll r₀.order story).last = some .startContinuous
  issued : r.issued =
    Observed.along r₀.order (Observed.issues r₀.order r₀.deviceChannels) {} story
  markers : r.markers = Observed.along r₀.order (Observed.shows r₀.order) {} story
  lastCount : ∀ {index : Nat} {c : Channel}, r.channels[index]? = some c →
    c.lastCount = (Observed.afterAll r₀.order story).counts index

namespace Follows

variable {story : List Occurrence}

theorem quiet (h : Follows r₀ story r) (hquiet : r.Quiet r') : Follows r₀ story r' where
  setup := hquiet.setup.trans h.setup
  mode := hquiet.mode.trans h.mode
  issued := hquiet.issued.trans h.issued
  markers := hquiet.markers.trans h.markers
  lastCount hc' := by
    obtain ⟨c, hc, -, hcount⟩ := hquiet.channel hc'
    rw [hcount]
    exact h.lastCount hc

/-- A frame that is taken does what the observer expects of it. -/
theorem take (h : Follows r₀ story r) (hissuing : r₀.issuing = true) {frame : Bytes}
    {rest : List Bytes} (hc : r.channels[index]? = some c)
    (hlink : c.link.frames = frame :: rest) (hfetch : r.fetch index c = some (r', outcome)) :
    Follows r₀ (story ++ [.took index frame]) r' := by
  obtain ⟨found, -, htook⟩ := fetch_of_frame hlink hfetch
  have horder := order_of_setup h.setup
  have hlast := h.lastCount hc
  refine ⟨htook.setup.trans h.setup, ?_, ?_, ?_, fun {i d} hd => ?_⟩
  · rw [htook.mode, Observed.afterAll_snoc]
    exact h.mode
  · have hmode : (r.mode = .continuous ∧ reportsOverflow r.order frame = true) ↔
        ((Observed.afterAll r₀.order story).last = some .startContinuous ∧
          reportsOverflow r₀.order frame = true) := by
      rw [h.mode, horder]
    rw [issued_of_fetch (issuing_of_setup h.setup ▸ hissuing) hlink hfetch, h.issued,
      Observed.along_snoc, deviceChannels_of_setup h.setup, if_congr hmode rfl rfl]
    rfl
  · rw [htook.markers, markers_contentOf, h.markers, horder, hlast, Observed.along_snoc]
    rfl
  · rw [Observed.afterAll_snoc]
    rcases htook.channel hc hd with ⟨rfl, fetched, htaken⟩ | ⟨hne, hsame⟩
    · rw [htaken.lastCount, countAfter_contentOf, Observed.counts_took_self, horder, hlast]
    · rw [h.lastCount hsame, Observed.counts_took_of_ne _ _ hne]

/-- A command is issued as it is given. -/
theorem command (h : Follows r₀ story r) (hissuing : r₀.issuing = true)
    (command : StreamCommand) :
    Follows r₀ (story ++ [.commanded command]) (r.command command) := by
  have hcommand : r.command command =
      { r with
        mode := Mode.after command.mode
        issued := r.issued ++ r.deviceChannels.map fun channel => ⟨channel, command⟩ } := by
    rw [Receiver.command, issue]
    exact if_pos ((issuing_of_setup h.setup).trans hissuing)
  rw [hcommand]
  refine ⟨h.setup, ?_, ?_, ?_, fun hc => ?_⟩
  · rw [Observed.afterAll_snoc]
    cases hmode : command.mode <;> simp [Observed.after, Mode.after, hmode]
  · rw [Observed.along_snoc, ← h.issued, deviceChannels_of_setup h.setup]
    rfl
  · rw [Observed.along_snoc, ← h.markers]
    exact (List.append_nil _).symm
  · rw [Observed.afterAll_snoc]
    exact h.lastCount hc

/-- What the far end does to a link changes nothing that an observer expects. -/
theorem onLink (h : Follows r₀ story r) (index : Nat) (f : Link → Link) :
    Follows r₀ story (r.onLink index f) where
  setup := h.setup
  mode := h.mode
  issued := h.issued
  markers := h.markers
  lastCount {i c} hc := by
    rw [Receiver.onLink, List.getElem?_modify] at hc
    obtain ⟨d, hd, hsame⟩ := Option.map_eq_some_iff.mp hc
    have hlast : c.lastCount = d.lastCount := by
      rw [← hsame]
      split <;> rfl
    rw [hlast]
    exact h.lastCount hd

theorem heard {takings : List (Nat × Bytes)} (h : Follows r₀ story r)
    (hissuing : r₀.issuing = true) (hheard : Heard r takings r') :
    Follows r₀ (story ++ takings.map fun taking => .took taking.1 taking.2) r' := by
  induction hheard with
  | start =>
    rw [List.map_nil, List.append_nil]
    exact h
  | quiet _ hquiet ih => exact ih.quiet hquiet
  | took _ hc hlink hfetch ih =>
    rw [List.map_append, ← List.append_assoc]
    exact ih.take hissuing hc hlink hfetch

/-- Every overflow that was taken is worth a marker, and nothing else is worth one of its
kind. -/
theorem count_overflow (h : Follows r₀ story r) :
    r.markers.count .overflow = story.countP (Occurrence.isOverflow r₀.order) := by
  rw [h.markers, Observed.count_overflow_along]

end Follows

/-- A stream that was just set up has issued nothing and does not stream. -/
theorem Built.follows {o : StreamOptions} {settings : Settings} {links : List Link}
    (h : Built o settings links r) : Follows r [] r := by
  have hidle : r.mode = .idle ∧ r.issued = [] := by
    obtain ⟨made, hmade, hr⟩ := h
    simp only [create, bind_eq_ok] at hmade
    obtain ⟨_, -, c, -, fullScale, -, asked, -, sampleRate, -, hmade⟩ := hmade
    cases hmade
    rw [hr]
    exact ⟨rfl, rfl⟩
  refine ⟨rfl, ?_, hidle.2, h.markers, fun hc => (h.fresh _ (List.mem_of_getElem? hc)).lastCount⟩
  simp [hidle.1, Observed.afterAll]

/-! ## Runs -/

/-- Something that is done with a stream, by the far end or by a caller. -/
inductive Operation where
  | came (index : Nat) (frame : Bytes)
  | closed (index : Nat)
  | command (command : StreamCommand)
  | call (buffers : List Bytes) (wanted : Nat) (onePacket : Bool)

/-- The stream after an operation. A call that ends with an error is an operation like any
other. -/
def operate (r : Receiver) : Operation → Checked Receiver
  | .came index frame => some (r.onLink index (·.carry frame))
  | .closed index => some (r.onLink index Link.closeSender)
  | .command command => some (r.command command)
  | .call buffers wanted onePacket => (r.recv buffers wanted onePacket).map Prod.fst

/-- A story that recounts a run of operations: a command for each that was given, and for
each call the frames that it took off the links. -/
inductive Recounted (r₀ : Receiver) : List Operation → List Occurrence → Receiver → Prop where
  | start : Recounted r₀ [] [] r₀
  | came {done : List Operation} {story : List Occurrence} {r : Receiver}
    (h : Recounted r₀ done story r) (index : Nat) (frame : Bytes) :
    Recounted r₀ (done ++ [.came index frame]) story (r.onLink index (·.carry frame))
  | closed {done : List Operation} {story : List Occurrence} {r : Receiver}
    (h : Recounted r₀ done story r) (index : Nat) :
    Recounted r₀ (done ++ [.closed index]) story (r.onLink index Link.closeSender)
  | command {done : List Operation} {story : List Occurrence} {r : Receiver}
    (h : Recounted r₀ done story r) (command : StreamCommand) :
    Recounted r₀ (done ++ [.command command]) (story ++ [.commanded command]) (r.command command)
  | call {done : List Operation} {story : List Occurrence} {r : Receiver} {buffers : List Bytes}
    {wanted : Nat} {onePacket : Bool} {answer : Answer} {takings : List (Nat × Bytes)}
    (h : Recounted r₀ done story r) (hrecv : r.recv buffers wanted onePacket = some answer)
    (htakes : r.Takes takings answer.1) :
    Recounted r₀ (done ++ [.call buffers wanted onePacket])
      (story ++ takings.map fun taking => .took taking.1 taking.2) answer.1

variable {done : List Operation} {story : List Occurrence}

/-- One more operation has a story as well, and the stream follows it. -/
theorem Recounted.operate (h : Recounted r₀ done story r) (hfollows : Follows r₀ story r)
    (hissuing : r₀.issuing = true) {op : Operation} (hop : r.operate op = some r') :
    ∃ story', Recounted r₀ (done ++ [op]) story' r' ∧ Follows r₀ story' r' := by
  cases op with
  | came index frame =>
    cases hop
    exact ⟨story, h.came index frame, hfollows.onLink index _⟩
  | closed index =>
    cases hop
    exact ⟨story, h.closed index, hfollows.onLink index _⟩
  | command command =>
    cases hop
    exact ⟨_, h.command command, hfollows.command hissuing command⟩
  | call buffers wanted onePacket =>
    obtain ⟨answer, hrecv, rfl⟩ := Option.map_eq_some_iff.mp hop
    obtain ⟨takings, hheard⟩ := recv_heard hrecv
    exact ⟨_, h.call hrecv hheard.takes, hfollows.heard hissuing hheard⟩

theorem Recounted.operations (h : Recounted r₀ done story r) (hfollows : Follows r₀ story r)
    (hissuing : r₀.issuing = true) {ops : List Operation}
    (hrun : ops.foldlM Receiver.operate r = some r') :
    ∃ story', Recounted r₀ (done ++ ops) story' r' ∧ Follows r₀ story' r' := by
  induction ops generalizing r done story with
  | nil =>
    cases hrun
    rw [List.append_nil]
    exact ⟨story, h, hfollows⟩
  | cons op ops ih =>
    rw [List.foldlM_cons] at hrun
    obtain ⟨r₁, hop, hrun⟩ := Option.bind_eq_some_iff.mp hrun
    obtain ⟨story₁, hnext, hfollows₁⟩ := h.operate hfollows hissuing hop
    obtain ⟨story₂, hall, hfollows₂⟩ := ih hnext hfollows₁ hrun
    refine ⟨story₂, ?_, hfollows₂⟩
    rw [List.append_cons]
    exact hall

/-- Whatever is done with a stream whose commands reach the device, it issues the commands it
is given, and immediate starts where a frame that it takes reports an overflow while the last
command was to stream continuously, and nothing else. -/
theorem restarts_follow_story {o : StreamOptions} {settings : Settings} {links : List Link}
    {ops : List Operation} (hbuilt : Built o settings links r₀) (hissuing : r₀.issuing = true)
    (hrun : ops.foldlM operate r₀ = some r) :
    ∃ story, Recounted r₀ ops story r ∧ Follows r₀ story r ∧
      r.markers.count .overflow = story.countP (Occurrence.isOverflow r₀.order) := by
  have hstart : Recounted r₀ [] [] r₀ := .start
  obtain ⟨story, hstory, hfollows⟩ := hstart.operations hbuilt.follows hissuing hrun
  exact ⟨story, hstory, hfollows, hfollows.count_overflow⟩

/-- The stream of one channel, with its commands reaching the device. -/
def issuingOne : Receiver := { oneChannel with issuing := true }

/-- A report of an overflow. -/
def overflowFrame : Bytes := [0x40, 0, 0, 3, 0, 0, 0, 0, 0, 0, 0, 8]

/-- A continuous stream meets an overflow, and another one after it was stopped. -/
def twoOverflows : List Operation :=
  [.command { mode := .startContinuous }, .came 0 overflowFrame,
    .call [List.replicate 4 0] 1 false, .command { mode := .stopContinuous },
    .came 0 overflowFrame, .call [List.replicate 4 0] 1 false]

/-- Only the first of the overflows is answered with a start. -/
theorem restarts_follow_story_twoOverflows :
    ∃ r story, Built { hostFormat := "sc16", wireFormat := "sc16" } {} [{ depth := 4 }] issuingOne ∧
      issuingOne.issuing = true ∧ twoOverflows.foldlM operate issuingOne = some r ∧
      Recounted issuingOne twoOverflows story r ∧ Follows issuingOne story r ∧
      r.markers.count .overflow = story.countP (Occurrence.isOverflow .big) ∧
      r.issued.map (fun i => (i.deviceChannel, i.command.mode)) =
        [(0, .startContinuous), (0, .startContinuous), (0, .stopContinuous)] ∧
      r.markers = [.overflow, .overflow] := by
  have hbuilt : Built { hostFormat := "sc16", wireFormat := "sc16" } {} [{ depth := 4 }]
      issuingOne := ⟨oneChannel, rfl, rfl⟩
  have hseen : (twoOverflows.foldlM operate issuingOne).map (fun r =>
        (r.issued.map fun i => (i.deviceChannel, i.command.mode), r.markers)) =
      some ([(0, .startContinuous), (0, .startContinuous), (0, .stopContinuous)],
        [.overflow, .overflow]) := by decide +kernel
  obtain ⟨r, hrun, hlogs⟩ := Option.map_eq_some_iff.mp hseen
  obtain ⟨hissued, hmarkers⟩ := Prod.mk.inj hlogs
  obtain ⟨story, hstory, hfollows, hcount⟩ := restarts_follow_story hbuilt rfl hrun
  exact ⟨r, story, hbuilt, rfl, hrun, hstory, hfollows, hcount, hissued, hmarkers⟩

end SampleStream.Receiver
