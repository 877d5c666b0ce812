import SampleStream.Proofs.Receive.Conditions
import SampleStream.Proofs.Receive.Tiling

/-!
# Gaps are told once

A packet that packets are missing before is handed out like any other one, but not in a call
that has samples already, and nothing else comes behind it in the same call. So each such
packet on a stream of one channel is told by one call, the first one that comes to it without
samples, and no other call tells a gap (`gaps_told_once`).
-/

namespace SampleStream.Receive

/-- The packets in shares that packets are missing before. -/
def gapsIn (shares : List Share) : List HeldPacket := shares.flatMap fun s => gapsOf s.held

@[simp] theorem gapsIn_append (shares shares' : List Share) :
    gapsIn (shares ++ shares') = gapsIn shares ++ gapsIn shares' :=
  List.flatMap_append

theorem gapsOf_eq_nil {ps : List HeldPacket} :
    gapsOf ps = [] ↔ ps.any HeldPacket.outOfSequence = false := by
  simp [gapsOf]

/-- Of the pieces of a packet only the first is told a gap before it. -/
theorem gapsIn_cut (p : HeldPacket) (ns : List Nat) :
    gapsOf [p] = gapsIn (cut p ns) ++ if ns = [] then gapsOf [p] else [] := by
  have hrest {q : HeldPacket} (hq : q.outOfSequence = false) (ms : List Nat) :
      gapsIn (cut q ms) = [] := by
    induction ms generalizing q with
    | nil => rfl
    | cons m ms ih =>
      have hfirst : gapsOf [q] = [] := by simp [gapsOf, hq]
      rw [cut, gapsIn, List.flatMap_cons, ← gapsIn, hfirst, ih rfl]
      rfl
  cases ns with
  | nil => rfl
  | cons n rest =>
    rw [if_neg (List.cons_ne_nil n rest), List.append_nil, cut, gapsIn, List.flatMap_cons, ← gapsIn,
      hrest rfl, List.append_nil]

theorem gapsOf_after (p : HeldPacket) (ns : List Nat) :
    gapsOf [p.after ns] = if ns = [] then gapsOf [p] else [] := by
  rcases List.eq_nil_or_concat ns with rfl | ⟨front, n, rfl⟩
  · rfl
  · rw [List.concat_eq_append, HeldPacket.after_concat, if_neg (by simp)]
    rfl

/-- The gaps that packets are told are those of the shares, and the one still to be told. -/
theorem Tiled.gaps {ps : List HeldPacket} {shares : List Share} {held : Option HeldPacket}
    (h : Tiled ps shares held) : gapsOf ps = gapsIn shares ++ gapsOf held.toList := by
  have hconcat (ps : List HeldPacket) (p : HeldPacket) :
      gapsOf (ps ++ [p]) = gapsOf ps ++ gapsOf [p] := List.filter_append ps [p]
  induction h with
  | nil => rfl
  | @used ps shares p ns n h hstart hleft hall ih =>
    have hp := gapsIn_cut p (ns ++ [n])
    rw [if_neg (by simp)] at hp
    rw [hconcat, ih, gapsIn_append, hp]
    simp [gapsOf]
  | @left ps shares p ns h hstart hleft ih =>
    have hp := gapsIn_cut p ns
    rw [← gapsOf_after] at hp
    rw [hconcat, ih, gapsIn_append, hp]
    simp [gapsOf]

/-- No packets are missing between frames. -/
def LossFree (order : ByteOrder) (frames : List Bytes) : Prop :=
  ∀ before frame behind h payload, frames = before ++ frame :: behind →
    contentOf order frame = .samples h payload → ¬ Skips order before h

theorem LossFree.take {order : ByteOrder} {frames rest : List Bytes}
    (h : LossFree order (frames ++ rest)) : LossFree order frames := by
  intro before frame behind header payload hframes
  exact h before frame (behind ++ rest) header payload (by rw [hframes]; simp)

theorem Opened.gaps_eq_nil {order : ByteOrder} {wireItem : Nat} {frames : List Bytes}
    {ps : List HeldPacket} (h : Opened order wireItem frames ps) (hfree : LossFree order frames) :
    gapsOf ps = [] := by
  induction h with
  | nil => rfl
  | other _ _ ih => exact ih hfree.take
  | @packet frames ps h frame p hp hgap ih =>
    have hno : p.outOfSequence = false := by
      rw [← Bool.not_eq_true, hgap]
      exact hfree frames frame [] p.header p.payload rfl hp.content
    rw [gapsOf, List.filter_append, ← gapsOf, ih hfree.take]
    simp [hno]

end SampleStream.Receive

namespace SampleStream.Receiver
open Receive

section
variable {r₀ r r' s : Receiver} {buffers filled : List Bytes} {wanted n : Nat} {onePacket : Bool}
  {es : List Event} {shares : List Share} {met : Option Condition} {got got' : Received}
  {metadata : Metadata} {c : Channel} {c₀ : Condition} {call : Call} {actions : List Action}
  {turns : List Turn}

/-! ## One call -/

/-- What a turn does with gaps. -/
structure TellsGaps (t : Turn) : Prop where
  /-- A turn that tells a gap tells the one before the packet that it hands out last, and
  returns no samples from before it. -/
  told : t.call.got.metadata.outOfSequence = true → t.call.got.metadata.code = .overflow ∧
    ∃ before p n, t.shares = before ++ [⟨[p], n⟩] ∧ gapsIn t.shares = [p] ∧
      ∀ s ∈ before, s.count = 0
  /-- A turn that does not hands out no such packet. -/
  silent : t.call.got.metadata.outOfSequence = false → gapsIn t.shares = []
  /-- A turn that leaves such a packet for later has samples already. -/
  waits : t.after.held.any HeldPacket.outOfSequence = true → 0 < t.call.got.samples

theorem Course.gapsIn (h : Course r₀ buffers wanted onePacket es shares r got) :
    gapsIn shares = [] := by
  induction h with
  | start => rfl
  | next _ _ _ _ _ hnogap _ ih =>
    rw [gapsIn_append, ih]
    simpa [Receive.gapsIn, gapsOf_eq_nil] using hnogap

/-- Something is met only when not every channel holds a packet. -/
theorem Gathers.not_full {condition : Condition} (h : r.Gathers es s (some condition)) :
    ¬ s.Full := by
  have hready := h.ready
  unfold Receiver.ready at hready
  split at hready
  · obtain ⟨_, -, -, -, -, hfull⟩ := align_history hready
    exact fun hall => nomatch hfull.mpr hall
  · cases hready

theorem held_eq_nil_of_not_full (hone : r.channels.length = 1) (hnotfull : ¬ r.Full) :
    r.held = [] := by
  obtain ⟨c, hc⟩ := List.length_eq_one_iff.mp hone
  have hvacant : c.held = none := by
    rw [← Option.not_isSome_iff_eq_none]
    intro hsome
    exact hnotfull fun d hd => by
      rw [hc] at hd
      cases List.mem_singleton.mp hd
      exact hsome
  simp [held, hc, hvacant]

/-- Packets that samples were handed out of are not told a gap any more. -/
theorem held_advance_no_gap (r : Receiver) (n : Nat) :
    (r.advance n).1.held.any HeldPacket.outOfSequence = false := by
  rw [List.any_eq_false]
  intro p hp
  obtain ⟨c', hc', hheld⟩ := List.mem_filterMap.mp hp
  simp only [advance, List.map_map, List.mem_map] at hc'
  obtain ⟨c, -, rfl⟩ := hc'
  cases hq : c.held with
  | none => simp [Channel.advance, hq] at hheld
  | some q =>
    by_cases hused : (q.advance n).remaining = 0
    · simp [Channel.advance_of_used hq hused] at hheld
    · simp only [Function.comp_apply, Channel.advance_of_left hq hused, Option.some.injEq] at hheld
      rw [← hheld]
      exact Bool.false_ne_true

/-- The stream after the last round of a call on one channel holds a gap only if the call has
samples. -/
theorem Ends.gap_waits (hone : s.channels.length = 1)
    (h : Ends wanted onePacket s got es shares met r' got')
    (hgap : r'.held.any HeldPacket.outOfSequence = true) : 0 < got'.samples := by
  cases h with
  | @met es s' _ _ _ hgathers hreport =>
    have hlength : s'.channels.length = 1 := hgathers.history.length_channels.trans hone
    have hnone := held_eq_nil_of_not_full hlength hgathers.not_full
    obtain ⟨pending, metadata, hreported⟩ := report_eq s' _ got
    rw [hreported] at hreport
    cases hreport
    rw [show ({ s' with pending } : Receiver).held = s'.held from rfl, hnone] at hgap
    cases hgap
  | gap _ hsome => exact hsome
  | @last _ s' n _ _ hgathers hhands =>
    obtain ⟨mode, hfinish⟩ := finish_eq s' n
    rw [hfinish] at hgap
    exact absurd hgap (Bool.eq_false_iff.mp (held_advance_no_gap s' n))

/-- A gap is told before there are samples. -/
theorem Hands.samples_of_gap (h : s.Hands wanted got n metadata filled) (hfull : s.Full)
    (hcalm : Calm got.metadata) (hgap : metadata.outOfSequence = true) : got.samples = 0 := by
  rw [(h.begun hfull hcalm).2] at hgap
  exact Nat.eq_zero_of_not_pos fun hsome => h.together ⟨hsome, hgap⟩

theorem Called.tellsGaps {t : Turn} (hone : t.before.channels.length = 1)
    (hsettled : t.before.Settled)
    (hpending : ∀ m, t.before.pending = some m → m.outOfSequence = false ∧ t.before.held = [])
    (h : Called t.before t.call t.events t.shares t.met t.after) : TellsGaps t := by
  obtain ⟨before, ⟨buffers, wanted, onePacket, answer⟩, events, shares, met, after⟩ := t
  dsimp only at hone hsettled hpending h
  cases h with
  | @told m hm hgot =>
    obtain ⟨hcalm, hheld⟩ := hpending m hm
    dsimp only at hgot
    refine ⟨fun hgap => ?_, fun _ => rfl, fun hgap => ?_⟩
    · rw [hgot] at hgap
      cases hcalm.symm.trans hgap
    · have hsame : ({ before with pending := none } : Receiver).held = before.held := rfl
      rw [hsame, hheld] at hgap
      cases hgap
  | @took es es' shares shares' met s r' got hnone hlength hcourse hends =>
    have hlength' := (hcourse.progress hsettled hlength).history.length_channels.trans hone
    have hwaits := fun hgap => hends.gap_waits hlength' hgap
    have hcalm := hcourse.calm
    have hnogap := hcourse.gapsIn
    cases hends.answered with
    | same =>
      refine ⟨fun hgap => ?_, fun _ => by simpa using hnogap, hwaits⟩
      cases hcalm.outOfSequence.symm.trans hgap
    | told => exact ⟨nofun, fun _ => by simpa using hnogap, hwaits⟩
    | @handed _ s' n metadata _ hgathers hhands =>
      have hfull := hgathers.full rfl
      obtain ⟨p, hheld⟩ := held_of_one (hgathers.history.length_channels.trans hlength') hfull
      obtain ⟨hbegun, hsequence⟩ := hhands.begun hfull hcalm
      have hgaps : gapsIn (shares ++ [⟨s'.held, n⟩]) = gapsOf s'.held := by
        rw [gapsIn_append, hnogap]
        simp [Receive.gapsIn]
      refine ⟨fun hgap => ?_, fun hno => ?_, hwaits⟩
      · rw [outOfSequence_lastMetadata] at hgap
        refine ⟨by rw [code_lastMetadata, hbegun.code, hgap]; rfl, shares, p, n, by rw [hheld], ?_,
          ?_⟩
        · rw [hgaps, hheld]
          rw [hsequence, hheld] at hgap
          simpa [gapsOf] using hgap
        · exact samplesIn_eq_zero.mp
            (hcourse.samples.1.symm.trans (hhands.samples_of_gap hfull hcalm hgap))
      · rw [outOfSequence_lastMetadata, hsequence] at hno
        rw [hgaps]
        exact gapsOf_eq_nil.mpr hno

/-- A call that meets something leaves a channel that holds nothing. -/
theorem Called.not_full {condition : Condition}
    (h : Called r call es shares (some condition) r') : ¬ r'.Full := by
  cases h with
  | took _ _ _ hends =>
    generalize call.got = answer at hends
    cases hends with
    | met hgathers hreport =>
      obtain ⟨pending, metadata, hreported⟩ := report_eq _ condition _
      rw [hreported] at hreport
      cases hreport
      exact hgathers.not_full

/-! ## All calls of a session -/

/-- Something is kept for the next call only while nothing is held. -/
theorem Logged.pending_vacant (h : Logged r₀ actions turns r) (hsettled : r₀.Settled)
    (hone : r₀.channels.length = 1) (hnone : r₀.pending = none) {m : Metadata}
    (hm : r.pending = some m) : r.held = [] := by
  induction h with
  | start => cases hnone.symm.trans hm
  | aside _ haside ih =>
    have halike := haside.alike
    rw [halike.held]
    exact ih (halike.pending ▸ hm)
  | @call _ turns t h hrecv hcalled ih =>
    have hlength := ((Logged.call h hrecv hcalled).kept hsettled).length.trans hone
    cases hmet : t.met with
    | none => cases (hcalled.reports.nothing hmet).1.symm.trans hm
    | some condition =>
      rw [hmet] at hcalled
      exact held_eq_nil_of_not_full hlength hcalled.not_full

/-- The gaps of a session of a stream of one channel are told once each. -/
theorem Logged.tellsGaps (h : Logged r₀ actions turns r) (hsettled : r₀.Settled)
    (hone : r₀.channels.length = 1) (hnone : r₀.pending = none) :
    ∀ t ∈ turns, TellsGaps t := by
  intro t ht
  obtain ⟨_, _, hlogged, hcalled⟩ := h.of_mem ht
  have hkept := hlogged.kept hsettled
  refine hcalled.tellsGaps (hkept.length.trans hone) hkept.settled fun m hm => ?_
  obtain ⟨_, hnames⟩ := hlogged.pending_condition hnone hm
  exact ⟨hnames.outOfSequence, hlogged.pending_vacant hsettled hone hnone hm⟩

theorem TellsGaps.outOfSequence_eq {t : Turn} (h : TellsGaps t) (hnone : gapsIn t.shares = []) :
    t.call.got.metadata.outOfSequence = false := by
  rw [← Bool.not_eq_true]
  intro hgap
  obtain ⟨-, before, p, n, -, hone, -⟩ := h.told hgap
  rw [hnone] at hone
  cases hone

/-- In every session of a stream of one channel the packets that packets are missing before
are told once each, in order: the count of such a packet does not follow that of the packet
before it, if there was one since the last report of an overflow. Each is worth one marker.
The call that tells it is the first that comes to it without samples, returns no samples from
before it and none from behind it, and no other call tells a gap. In particular none does when
no packets are missing. -/
theorem gaps_told_once {o : StreamOptions} {settings : Settings} {links : List Link} {c₀ : Channel}
    (hbuilt : Built o settings links r₀) (hone : r₀.channels = [c₀])
    (hsession : Session r₀ actions r) :
    ∃ turns ps c, Logged r₀ actions turns r ∧ turns.map Turn.call = callsOf actions ∧
      r.channels = [c] ∧
      c₀.link.frames ++ arrivals 0 actions = takenIn 0 turns ++ c.link.frames ∧
      Opened r₀.order r₀.wireItem (takenIn 0 turns) ps ∧
      Tiled ps (turns.flatMap Turn.shares) c.held ∧
      r.markers.count .dropped = (gapsOf ps).length ∧
      gapsOf ps = turns.flatMap (fun t => gapsIn t.shares) ++ gapsOf c.held.toList ∧
      (∀ t ∈ turns, Returns r₀ t ∧ TellsGaps t) ∧
      (LossFree r₀.order (c₀.link.frames ++ arrivals 0 actions) →
        ∀ call ∈ callsOf actions, call.got.metadata.outOfSequence = false) := by
  have hsettled := settled_of_fresh hbuilt.fresh
  have hlength : r₀.channels.length = 1 := by rw [hone]; rfl
  obtain ⟨turns, ps, c, hlogged, hframes, hline⟩ := hsession.line hbuilt hone
  have hgaps : gapsOf ps = turns.flatMap (fun t => gapsIn t.shares) ++ gapsOf c.held.toList := by
    rw [hline.tiled.gaps, gapsIn, List.flatMap_assoc]
    rfl
  have htells := hlogged.tellsGaps hsettled hlength hbuilt.pending
  refine ⟨turns, ps, c, hlogged, hlogged.calls, hline.channels, hframes, hline.opened, hline.tiled,
    hline.markers, hgaps, fun t ht => ⟨hlogged.returns hbuilt.fresh t ht, htells t ht⟩,
    fun hfree call hcall => ?_⟩
  rw [hframes] at hfree
  rw [hline.opened.gaps_eq_nil hfree.take, eq_comm, List.append_eq_nil_iff,
    List.flatMap_eq_nil_iff] at hgaps
  rw [← hlogged.calls] at hcall
  obtain ⟨t, ht, rfl⟩ := List.mem_map.mp hcall
  exact (htells t ht).outOfSequence_eq (hgaps.1 t ht)

end

/-- Packets of one sample with the counts 0 and 2 came in. -/
def oneMissing : Receiver :=
  (oneChannel.onLink 0 (·.carry [0x10, 0, 0, 3, 0, 0, 0, 0, 0, 1, 0, 2])).onLink 0
    (·.carry [0x10, 2, 0, 3, 0, 0, 0, 0, 0, 1, 0, 2])

/-- The first call returns the first sample, and the second one tells of the gap. -/
theorem gaps_told_once_later :
    ∃ got got' r, ∃ turns : List Turn, ∃ ps,
      Session oneChannel [.came 0 [0x10, 0, 0, 3, 0, 0, 0, 0, 0, 1, 0, 2],
        .came 0 [0x10, 2, 0, 3, 0, 0, 0, 0, 0, 1, 0, 2],
        .call ⟨[List.replicate 8 0], 2, false, got⟩,
        .call ⟨[List.replicate 8 0], 2, false, got'⟩] r ∧
      (got.samples, got.metadata.outOfSequence) = (1, false) ∧
      (got'.samples, got'.metadata.outOfSequence) = (1, true) ∧
      r.markers.count .dropped = 1 ∧
      turns.map (fun t => t.call.got.samples) = [got.samples, got'.samples] ∧
      r.markers.count .dropped = (gapsOf ps).length ∧ ∀ t ∈ turns, TellsGaps t := by
  let told (r : Receiver) (got : Received) : Option ((Nat × Bool) × Nat) :=
    some ((got.samples, got.metadata.outOfSequence), r.markers.count .dropped)
  let second (r : Receiver) (got : Received) : Option ((Nat × Bool) × (Nat × Bool) × Nat) :=
    (r.recv [List.replicate 8 0] 2 false).bind fun a =>
      a.2.toOption.bind fun got' =>
        (told a.1 got').map ((got.samples, got.metadata.outOfSequence), ·)
  have hseen : (oneMissing.recv [List.replicate 8 0] 2 false).bind (fun a =>
      a.2.toOption.bind (second a.1)) = some ((1, false), (1, true), 1) := by decide +kernel
  obtain ⟨r, got, hrecv, hrest⟩ := exists_of_answer hseen
  obtain ⟨r', got', hrecv', hgot⟩ := @exists_of_answer _ (fun r' got' =>
    (told r' got').map ((got.samples, got.metadata.outOfSequence), ·)) _ _ hrest
  simp only [told, Option.map_some, Option.some.injEq, Prod.mk.injEq] at hgot
  obtain ⟨hfirst, hsecond, hmarkers⟩ := hgot
  have hcame : Run oneChannel [.came 0 [0x10, 0, 0, 3, 0, 0, 0, 0, 0, 1, 0, 2],
      .came 0 [0x10, 2, 0, 3, 0, 0, 0, 0, 0, 1, 0, 2]] oneMissing := .came (.came .start 0 _) 0 _
  have hone : Run oneChannel (_ ++ [.call ⟨[List.replicate 8 0], 2, false, got⟩]) r :=
    hcame.call hrecv
  have hboth : Run oneChannel (_ ++ [.call ⟨[List.replicate 8 0], 2, false, got'⟩]) r' :=
    hone.call hrecv'
  obtain ⟨turns, ps, -, -, hcalls, -, -, -, -, hcount, -, hall, -⟩ :=
    gaps_told_once built_oneChannel rfl (.run .start hboth)
  refine ⟨got, got', r', turns, ps, .run .start hboth, Prod.ext hfirst.1 hfirst.2,
    Prod.ext hsecond.1 hsecond.2, hmarkers, ?_, hcount, fun t ht => (hall t ht).2⟩
  have hsamples := congrArg (List.map fun call => call.got.samples) hcalls
  rw [List.map_map] at hsamples
  exact hsamples

end SampleStream.Receiver
