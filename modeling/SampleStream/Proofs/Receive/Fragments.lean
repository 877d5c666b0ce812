import SampleStream.Proofs.Receive.Conditions
import SampleStream.Proofs.Receive.Tiling

/-!
# Fragments

A call on a stream of one channel uses packets up one after the other and ends within the
last of them, or with it (`Leaves`). Its answer tells where in a packet its samples begin,
whether the packet with the last of them goes on behind it, and whether the call used up a
packet that ends a burst, behind which it hands nothing out (`Fragments`). As the calls hand
out the packets piece by piece, each packet is used up in one call
(`fragments_tile_packets`).
-/

namespace SampleStream.Receive

/-- All samples left of the packets held are handed out. -/
def Share.usesUp (s : Share) : Bool := s.held.all fun p => (p.advance s.count).remaining == 0

/-- A packet that ends a burst is used up. -/
def Share.endsBurst (s : Share) : Bool := s.usesUp && s.held.any fun p => p.header.endOfBurst

/-- The packets are used up, and the burst goes on. -/
structure Share.Whole (s : Share) : Prop where
  usesUp : s.usesUp = true
  endsBurst : s.endsBurst = false

/-- The packets that shares use up. -/
def usedIn (shares : List Share) : List (Header × Bytes) :=
  (shares.filter Share.usesUp).flatMap fun s => s.held.map fun p => p.part.packet

theorem usesUp_iff (p : HeldPacket) (n : Nat) :
    (Share.mk [p] n).usesUp = true ↔ p.samples ≤ p.cursor + n := by
  simp only [Share.usesUp, List.all_cons, List.all_nil, Bool.and_true, beq_iff_eq]
  exact Nat.sub_eq_zero_iff_le

theorem usedIn_append (shares shares' : List Share) :
    usedIn (shares ++ shares') = usedIn shares ++ usedIn shares' := by
  rw [usedIn, List.filter_append, List.flatMap_append, usedIn, usedIn]

/-- Pieces that leave some of a packet do not use it up. -/
theorem usedIn_cut_of_lt {p : HeldPacket} {ns : List Nat} (h : p.cursor + ns.sum < p.samples) :
    usedIn (cut p ns) = [] := by
  induction ns generalizing p with
  | nil => rfl
  | cons n rest ih =>
    rw [List.sum_cons] at h
    have hleft : (Share.mk [p] n).usesUp = false := by
      rw [← Bool.not_eq_true, usesUp_iff]
      omega
    have hrest : usedIn (cut (p.advance n) rest) = [] :=
      ih (show p.cursor + n + rest.sum < p.samples by omega)
    rw [cut, usedIn, List.filter_cons_of_neg (by simp [hleft]), ← usedIn, hrest]

theorem HeldPacket.packet_after (p : HeldPacket) (ns : List Nat) :
    (p.after ns).part.packet = p.part.packet := by
  induction ns generalizing p with
  | nil => rfl
  | cons n rest ih =>
    rw [after, List.foldl_cons, ← after, ih]
    rfl

/-- Of the packets that are handed out each is used up by one share, but for the one held. -/
theorem Tiled.usedIn {ps : List HeldPacket} {shares : List Share} {held : Option HeldPacket}
    (h : Tiled ps shares held) :
    ps.map (fun p => p.part.packet) =
      usedIn shares ++ held.toList.map fun p => p.part.packet := by
  have hcut {p : HeldPacket} {ns : List Nat} (hstart : p.cursor = 0)
      (hleft : ns = [] ∨ ns.sum < p.samples) : Receive.usedIn (cut p ns) = [] := by
    rcases hleft with rfl | hlt
    · rfl
    · exact usedIn_cut_of_lt (by omega)
  induction h with
  | nil => rfl
  | @used ps shares p ns n h hstart hleft hall ih =>
    have hused : (Share.mk [p.after ns] n).usesUp = true := by
      rw [usesUp_iff, HeldPacket.samples_after, HeldPacket.cursor_after]
      omega
    have hlast : Receive.usedIn [⟨[p.after ns], n⟩] = [p.part.packet] := by
      simp [Receive.usedIn, hused, HeldPacket.packet_after]
    rw [List.map_append, ih, cut_concat, usedIn_append, usedIn_append, hcut hstart hleft, hlast]
    simp
  | @left ps shares p ns h hstart hleft ih =>
    rw [List.map_append, ih, usedIn_append, hcut hstart hleft]
    simp [HeldPacket.packet_after]

/-- The shares before the last with samples, that share, and those behind it. -/
theorem exists_last {shares : List Share} (h : 0 < samplesIn shares) :
    ∃ before s behind, shares = before ++ s :: behind ∧ 0 < s.count ∧
      ∀ x ∈ behind, x.count = 0 := by
  have hreverse : 0 < samplesIn shares.reverse := by
    rwa [samplesIn, List.map_reverse, List.sum_reverse, ← samplesIn]
  obtain ⟨passed, s, rest, hshares, hpassed, hs, -⟩ := exists_leading hreverse
  refine ⟨rest.reverse, s, passed.reverse, ?_, hs, by simpa using hpassed⟩
  rw [← List.reverse_reverse shares, hshares]
  simp

end SampleStream.Receive

namespace SampleStream.Receiver
open Receive

/-- What a turn does with the packets of a stream of one channel. -/
structure Fragments (t : Turn) : Prop where
  /-- A share is part of one packet. -/
  pieces : ∀ s ∈ t.shares, ∃ p, s.held = [p] ∧ s.count ≤ p.remaining
  /-- The first sample is where the packet with it stands. -/
  first : 0 < t.call.got.samples → ∃ before p n behind,
    t.shares = before ++ ⟨[p], n⟩ :: behind ∧ (∀ s ∈ before, s.count = 0) ∧ 0 < n ∧
      t.call.got.metadata.fragmentOffset = p.cursor
  /-- There are more fragments when the packet with the last sample goes on behind it. -/
  last : 0 < t.call.got.samples → ∃ before p n behind,
    t.shares = before ++ ⟨[p], n⟩ :: behind ∧ 0 < n ∧ (∀ s ∈ behind, s.count = 0) ∧
      (t.call.got.metadata.moreFragments = true ↔ p.cursor + n < p.samples)
  /-- A burst ends with a packet that is used up. -/
  ended : t.call.got.metadata.endOfBurst = true ↔ ∃ s ∈ t.shares, s.endsBurst = true
  /-- Nothing is handed out behind the end of a burst. -/
  nothingBehind : ∀ before s behind, t.shares = before ++ s :: behind → s.endsBurst = true →
    behind = []
  onePacket : t.call.onePacket = true → t.shares.length ≤ 1

/-- A call ends between packets, or with one that it used up or not. The packets before are
used up and end no burst. -/
inductive Leaves (onePacket : Bool) (m : Metadata) : List Share → Prop where
  | between {shares : List Share} (hwhole : ∀ s ∈ shares, s.Whole)
    (hone : onePacket = true → shares = []) (hmore : m.moreFragments = false)
    (hend : m.endOfBurst = false) : Leaves onePacket m shares
  | within {shares : List Share} {s : Share} (hwhole : ∀ s ∈ shares, s.Whole)
    (hone : onePacket = true → shares = []) (hmore : m.moreFragments = !s.usesUp)
    (hend : m.endOfBurst = s.endsBurst)
    (hempty : s.count = 0 → 0 < samplesIn shares → s.usesUp = true) :
    Leaves onePacket m (shares ++ [s])

section
variable {r₀ r r' s : Receiver} {buffers filled : List Bytes} {wanted n : Nat} {onePacket : Bool}
  {es : List Event} {shares : List Share} {met : Option Condition} {got : Received}
  {metadata : Metadata} {call : Call} {actions : List Action} {turns : List Turn}

/-! ## How a call leaves the packets -/

theorem Leaves.ended (h : Leaves onePacket metadata shares) :
    metadata.endOfBurst = true ↔ ∃ s ∈ shares, s.endsBurst = true := by
  have hnone {shares : List Share} (hwhole : ∀ s ∈ shares, s.Whole) :
      ¬ ∃ s ∈ shares, s.endsBurst = true := by
    rintro ⟨s, hs, hend⟩
    cases (hwhole s hs).endsBurst.symm.trans hend
  cases h with
  | between hwhole _ _ hend =>
    rw [hend]
    exact iff_of_false Bool.false_ne_true (hnone hwhole)
  | @within shares s hwhole _ _ hend =>
    rw [hend]
    constructor
    · exact fun hs => ⟨s, by simp, hs⟩
    · rintro ⟨x, hx, hxend⟩
      rcases List.mem_append.mp hx with hx | hx
      · exact absurd ⟨x, hx, hxend⟩ (hnone hwhole)
      · cases List.mem_singleton.mp hx
        exact hxend

theorem Leaves.nothingBehind (h : Leaves onePacket metadata shares) {before behind : List Share}
    {s : Share} (hshares : shares = before ++ s :: behind) (hend : s.endsBurst = true) :
    behind = [] := by
  rcases List.eq_nil_or_concat behind with rfl | ⟨front, x, rfl⟩
  · rfl
  · -- the share is not the last one, so it is one of those that end no burst
    have hwhole : s.Whole := by
      cases h with
      | between hwhole => exact hwhole s (by simp [hshares])
      | within hwhole =>
        rw [List.concat_eq_append, ← List.cons_append, ← List.append_assoc] at hshares
        obtain ⟨hsame, -⟩ := List.append_inj' hshares rfl
        exact hwhole s (by simp [hsame])
    cases hwhole.endsBurst.symm.trans hend

theorem Leaves.length_le (h : Leaves onePacket metadata shares) (hone : onePacket = true) :
    shares.length ≤ 1 := by
  cases h with
  | between _ hnil => simp [hnil hone]
  | within _ hnil => simp [hnil hone]

/-- Whether the packet with the last sample goes on behind it. -/
theorem Leaves.more (h : Leaves onePacket metadata shares) {before behind : List Share} {s : Share}
    (hshares : shares = before ++ s :: behind) (hsome : 0 < s.count)
    (hnone : ∀ x ∈ behind, x.count = 0) : metadata.moreFragments = !s.usesUp := by
  cases h with
  | between hwhole _ hmore =>
    rw [hmore, (hwhole s (by simp [hshares])).usesUp]
    rfl
  | @within shares x hwhole _ hmore _ hempty =>
    rcases List.eq_nil_or_concat behind with rfl | ⟨front, y, rfl⟩
    · obtain ⟨-, hsame⟩ := List.append_inj' hshares rfl
      cases hsame
      exact hmore
    · rw [List.concat_eq_append, ← List.cons_append, ← List.append_assoc] at hshares
      obtain ⟨hfront, hsame⟩ := List.append_inj' hshares rfl
      cases hsame
      have hs : s ∈ shares := by simp [hfront]
      have hsamples : 0 < samplesIn shares := by
        refine Nat.pos_of_ne_zero fun hzero => Nat.ne_of_gt hsome ?_
        exact samplesIn_eq_zero.mp hzero s hs
      rw [hmore, hempty (hnone x (by simp)) hsamples, (hwhole s hs).usesUp]

/-! ## One call -/

/-- What handing samples out gives back on a stream of one channel. -/
theorem advance_of_one (hone : r.channels.length = 1) (hfull : r.Full) (n : Nat) :
    (r.advance n).2 =
      if (Share.mk r.held n).usesUp then some (Share.mk r.held n).endsBurst else none := by
  obtain ⟨c, hc⟩ := List.length_eq_one_iff.mp hone
  obtain ⟨p, -, hheld, hadvance⟩ := exists_held_of_one hc hfull
  have hused : (Share.mk r.held n).usesUp = ((p.advance n).remaining == 0) := by
    simp [Share.usesUp, hheld]
  rw [hadvance, Share.endsBurst, hused, hheld]
  by_cases hzero : (p.advance n).remaining = 0 <;> simp [hzero]

theorem Course.whole (hone : r₀.channels.length = 1) (hsettled : r₀.Settled)
    (hlength : buffers.length = r₀.channels.length)
    (h : Course r₀ buffers wanted onePacket es shares r got) : ∀ s ∈ shares, s.Whole := by
  induction h with
  | start => simp
  | @next _ _ _ _ s _ n _ _ h hgathers _ hused _ _ _ ih =>
    have hhistory := (h.progress hsettled hlength).history.trans hgathers.history
    rw [advance_of_one (hhistory.length_channels.trans hone) (hgathers.full rfl)] at hused
    intro x hx
    rcases List.mem_append.mp hx with hx | hx
    · exact ih x hx
    · cases List.mem_singleton.mp hx
      split at hused
      · rename_i hall
        exact ⟨hall, Option.some.inj hused⟩
      · cases hused

theorem Course.of_onePacket (h : Course r₀ buffers wanted onePacket es shares r got)
    (hone : onePacket = true) : shares = [] := by
  cases h with
  | start => rfl
  | next _ _ _ _ hmany => cases hone.symm.trans hmany

/-- A call that goes on wants more. -/
theorem Course.lt_wanted (h : Course r₀ buffers wanted onePacket es shares r got)
    (hsome : 0 < got.samples) : got.samples < wanted := by
  cases h with
  | start => cases hsome
  | next h _ hhands _ _ _ hwanted =>
    exact Nat.lt_of_le_of_ne (hhands.le_wanted h.samples.2) hwanted

theorem moreFragments_lastMetadata (used : Option Bool) {m : Metadata}
    (hm : m.moreFragments = false) : (lastMetadata used m).moreFragments = used.isNone := by
  unfold lastMetadata
  split
  · exact hm
  · exact hm
  · rfl

theorem endOfBurst_lastMetadata (used : Option Bool) {m : Metadata} (hm : m.endOfBurst = false) :
    (lastMetadata used m).endOfBurst = used.getD false := by
  unfold lastMetadata
  split
  · rfl
  · exact hm
  · exact hm

theorem Called.leaves (hone : r.channels.length = 1) (hsettled : r.Settled)
    (hpending : ∀ m, r.pending = some m → m.moreFragments = false ∧ m.endOfBurst = false)
    (h : Called r call es shares met r') : Leaves call.onePacket call.got.metadata shares := by
  cases h with
  | told hm hgot =>
    rw [hgot]
    exact .between (by simp) (fun _ => rfl) (hpending _ hm).1 (hpending _ hm).2
  | @took es es' shares shares' _ s _ got _ hlength hcourse hends =>
    have hlength' := (hcourse.progress hsettled hlength).history.length_channels.trans hone
    have hwhole := hcourse.whole hone hsettled hlength
    have hcalm := hcourse.calm
    have hanswered := hends.answered
    generalize call.got = answer at hanswered
    cases hanswered with
    | same =>
      rw [List.append_nil]
      exact .between hwhole hcourse.of_onePacket hcalm.moreFragments hcalm.endOfBurst
    | told =>
      rw [List.append_nil]
      exact .between hwhole hcourse.of_onePacket rfl rfl
    | @handed _ s' n metadata _ hgathers hhands =>
      have hfull := hgathers.full rfl
      have hlength'' := hgathers.history.length_channels.trans hlength'
      obtain ⟨hbegun, -⟩ := hhands.begun hfull hcalm
      have hused := advance_of_one hlength'' hfull n
      refine .within hwhole hcourse.of_onePacket ?_ ?_ fun hzero hsome => ?_
      · rw [moreFragments_lastMetadata _ hbegun.moreFragments, hused]
        cases (Share.mk s'.held n).usesUp <;> rfl
      · rw [endOfBurst_lastMetadata _ hbegun.endOfBurst, hused, Share.endsBurst]
        cases (Share.mk s'.held n).usesUp <;> rfl
      · -- as more samples are wanted, the packet has none
        obtain ⟨p, hheld⟩ := held_of_one hlength'' hfull
        obtain ⟨remaining, hleast, hn⟩ := hhands.count
        rw [hheld] at hleast ⊢
        have hremaining : remaining = p.remaining := by simpa using hleast.symm
        rw [← hcourse.samples.1] at hsome
        have hwanted := hcourse.lt_wanted hsome
        have hempty : p.remaining = 0 := by
          dsimp only at hzero
          omega
        rw [usesUp_iff]
        exact (Nat.sub_eq_zero_iff_le.mp hempty).trans (Nat.le_add_right _ _)

/-- A call on a stream of one channel hands each share out of one packet. -/
theorem Called.pieces (hone : r.channels.length = 1) (hsettled : r.Settled)
    (h : Called r call es shares met r') :
    ∀ s ∈ shares, ∃ p, s.held = [p] ∧ s.count ≤ p.remaining := by
  intro s hs
  cases h.handed hsettled s hs with
  | intro _ hhistory hfull hhands =>
    obtain ⟨p, hheld⟩ := held_of_one (hhistory.length_channels.trans hone) hfull
    exact ⟨p, hheld, hhands.count_le p (by simp [hheld])⟩

theorem Called.fragments {t : Turn} (hone : t.before.channels.length = 1)
    (hsettled : t.before.Settled)
    (hpending : ∀ m, t.before.pending = some m → m.moreFragments = false ∧ m.endOfBurst = false)
    (h : Called t.before t.call t.events t.shares t.met t.after) : Fragments t := by
  have hpieces := h.pieces hone hsettled
  have hleaves := h.leaves hone hsettled hpending
  refine ⟨hpieces, fun hsome => ?_, fun hsome => ?_, hleaves.ended,
    fun _ _ _ hshares hend => hleaves.nothingBehind hshares hend, hleaves.length_le⟩
  · have htells := h.tells hsome
    rw [h.samples] at hsome
    obtain ⟨before, ⟨held, n⟩, behind, hshares, hbefore, hn, hleading⟩ := exists_leading hsome
    obtain ⟨p, hheld, -⟩ := hpieces ⟨held, n⟩ (by simp [hshares])
    dsimp only at hheld
    subst hheld
    refine ⟨before, p, n, behind, hshares, hbefore, hn, htells.fragmentOffset p ?_⟩
    rw [describedIn, hleading, List.filterMap_append]
    simp
  · rw [h.samples] at hsome
    obtain ⟨before, ⟨held, n⟩, behind, hshares, hn, hbehind⟩ := exists_last hsome
    obtain ⟨p, hheld, -⟩ := hpieces ⟨held, n⟩ (by simp [hshares])
    dsimp only at hheld
    subst hheld
    refine ⟨before, p, n, behind, hshares, hn, hbehind, ?_⟩
    rw [hleaves.more hshares hn hbehind, Bool.not_eq_true', ← Bool.not_eq_true, usesUp_iff,
      Nat.not_le]

/-! ## All calls of a session -/

theorem Logged.fragments (h : Logged r₀ actions turns r) (hsettled : r₀.Settled)
    (hone : r₀.channels.length = 1) (hnone : r₀.pending = none) : ∀ t ∈ turns, Fragments t := by
  intro t ht
  obtain ⟨_, _, hlogged, hcalled⟩ := h.of_mem ht
  have hkept := hlogged.kept hsettled
  refine hcalled.fragments (hkept.length.trans hone) hkept.settled fun m hm => ?_
  obtain ⟨_, hnames⟩ := hlogged.pending_condition hnone hm
  exact ⟨hnames.moreFragments, hnames.endOfBurst⟩

/-- In every session of a stream of one channel the calls hand out the packets in the frames
of the link piece by piece, in order, without a gap or an overlap. A call that returns samples
tells where in its packet the first of them is and whether the packet of the last one goes on
behind it. Each packet is used up by one share of one call, or still held, and a call tells
the end of a burst just if it uses up a packet that ends one, with or without samples; it
hands out nothing behind that. A call that is to return one packet has samples of one only. -/
theorem fragments_tile_packets {o : StreamOptions} {settings : Settings} {links : List Link}
    {c₀ : Channel} (hbuilt : Built o settings links r₀) (hone : r₀.channels = [c₀])
    (hsession : Session r₀ actions r) :
    ∃ turns ps c, Logged r₀ actions turns r ∧ turns.map Turn.call = callsOf actions ∧
      r.channels = [c] ∧
      c₀.link.frames ++ arrivals 0 actions = takenIn 0 turns ++ c.link.frames ∧
      Opened r₀.order r₀.wireItem (takenIn 0 turns) ps ∧
      Tiled ps (turns.flatMap Turn.shares) c.held ∧
      ps.map (fun p => p.part.packet) =
        turns.flatMap (fun t => usedIn t.shares) ++ c.held.toList.map (fun p => p.part.packet) ∧
      ∀ t ∈ turns, Returns r₀ t ∧ Fragments t := by
  have hsettled := settled_of_fresh hbuilt.fresh
  have hlength : r₀.channels.length = 1 := by rw [hone]; rfl
  obtain ⟨turns, ps, c, hlogged, hframes, hline⟩ := hsession.line hbuilt hone
  have hused : usedIn (turns.flatMap Turn.shares) = turns.flatMap fun t => usedIn t.shares := by
    rw [usedIn, List.filter_flatMap, List.flatMap_assoc]
    rfl
  refine ⟨turns, ps, c, hlogged, hlogged.calls, hline.channels, hframes, hline.opened, hline.tiled,
    hused ▸ hline.tiled.usedIn, fun t ht => ⟨hlogged.returns hbuilt.fresh t ht,
      hlogged.fragments hsettled hlength hbuilt.pending t ht⟩⟩

end

/-- A packet of one sample came in, one that ends a burst without a sample, and one more
sample. -/
def burstBehindSample : Receiver :=
  ((oneChannel.onLink 0 (·.carry [0x10, 0, 0, 3, 0, 0, 0, 0, 0, 1, 0, 2])).onLink 0
    (·.carry [0x11, 1, 0, 2, 0, 0, 0, 0])).onLink 0
      (·.carry [0x10, 2, 0, 3, 0, 0, 0, 0, 0, 1, 0, 2])

/-- A call for three samples returns the first one and tells the end of the burst. -/
theorem fragments_tile_packets_burst :
    ∃ got r, ∃ turns : List Turn,
      Session oneChannel [.came 0 [0x10, 0, 0, 3, 0, 0, 0, 0, 0, 1, 0, 2],
        .came 0 [0x11, 1, 0, 2, 0, 0, 0, 0], .came 0 [0x10, 2, 0, 3, 0, 0, 0, 0, 0, 1, 0, 2],
        .call ⟨[List.replicate 12 0], 3, false, got⟩] r ∧
      got.samples = 1 ∧ got.metadata.endOfBurst = true ∧
      turns.map (fun t => (t.call.got.samples, t.call.got.metadata.endOfBurst)) =
        [(got.samples, got.metadata.endOfBurst)] ∧
      ∀ t ∈ turns, Fragments t := by
  let told (_ : Receiver) (got : Received) : Option (Nat × Bool) :=
    some (got.samples, got.metadata.endOfBurst)
  have hseen : (burstBehindSample.recv [List.replicate 12 0] 3 false).bind (fun a =>
      a.2.toOption.bind (told a.1)) = some (1, true) := by decide +kernel
  obtain ⟨r, got, hrecv, hgot⟩ := exists_of_answer hseen
  simp only [told, Option.some.injEq, Prod.mk.injEq] at hgot
  have hcame : Run oneChannel [.came 0 [0x10, 0, 0, 3, 0, 0, 0, 0, 0, 1, 0, 2],
      .came 0 [0x11, 1, 0, 2, 0, 0, 0, 0], .came 0 [0x10, 2, 0, 3, 0, 0, 0, 0, 0, 1, 0, 2]]
      burstBehindSample := .came (.came (.came .start 0 _) 0 _) 0 _
  have hcall : Run oneChannel (_ ++ [.call ⟨[List.replicate 12 0], 3, false, got⟩]) r :=
    hcame.call hrecv
  obtain ⟨turns, ps, c, -, hcalls, -, -, -, -, -, hall⟩ :=
    fragments_tile_packets built_oneChannel rfl (.run .start hcall)
  refine ⟨got, r, turns, .run .start hcall, hgot.1, hgot.2, ?_, fun t ht => (hall t ht).2⟩
  have hanswers := congrArg
    (List.map fun call => (call.got.samples, call.got.metadata.endOfBurst)) hcalls
  rw [List.map_map] at hanswers
  exact hanswers

end SampleStream.Receiver
