import SampleStream.Proofs.Receive.Conservation
import SampleStream.Proofs.Receive.Session

/-!
# One channel

A stream of one channel opens the packets of samples in the frames of its link one after the
other (`Opened`) and hands each of them out piece by piece, from the first sample on and
without a gap or an overlap (`Tiled`). A `Line` is a stream that has come to some point of
this. Taking a frame and handing samples out keep it (`History.line`, `Line.hand`), so every
session of a stream of one channel does (`Logged.line`).
-/

namespace SampleStream.Receive

/-! ## Packets in frames -/

/-- `p` is the packet of samples in a frame, of which nothing is handed out yet. -/
structure HeldPacket.Opens (order : ByteOrder) (wireItem : Nat) (frame : Bytes)
    (p : HeldPacket) : Prop where
  content : contentOf order frame = .samples p.header p.payload
  samples : p.samples = p.payload.length / wireItem
  cursor : p.cursor = 0

/-- The header of the last packet of samples in frames, if no overflow was reported behind
it. -/
def Latest (order : ByteOrder) (frames : List Bytes) (h : Header) : Prop :=
  ∃ before frame behind payload, frames = before ++ frame :: behind ∧
    contentOf order frame = .samples h payload ∧
      ∀ f ∈ behind, packetOf order f = none ∧ contentOf order f ≠ .report .overflow

/-- Packets are missing between frames and a packet behind them: there was one, and this does
not have the next count. -/
def Skips (order : ByteOrder) (frames : List Bytes) (h : Header) : Prop :=
  ∃ last, Latest order frames last ∧ h.count.toNat ≠ (last.count.toNat + 1) % 16

/-- The packets of samples in frames, in order. Those that packets are missing before are
marked. -/
inductive Opened (order : ByteOrder) (wireItem : Nat) : List Bytes → List HeldPacket → Prop where
  | nil : Opened order wireItem [] []
  | other {frames : List Bytes} {ps : List HeldPacket} (h : Opened order wireItem frames ps)
    {frame : Bytes} (hnone : packetOf order frame = none) :
    Opened order wireItem (frames ++ [frame]) ps
  | packet {frames : List Bytes} {ps : List HeldPacket} (h : Opened order wireItem frames ps)
    {frame : Bytes} {p : HeldPacket} (hp : p.Opens order wireItem frame)
    (hgap : p.outOfSequence = true ↔ Skips order frames p.header) :
    Opened order wireItem (frames ++ [frame]) (ps ++ [p])

/-- The packets that packets are missing before. -/
def gapsOf (ps : List HeldPacket) : List HeldPacket := ps.filter HeldPacket.outOfSequence

section
variable {order : ByteOrder} {wireItem : Nat} {frames : List Bytes} {frame : Bytes}
  {last : Option UInt8}

theorem latest_concat {h : Header} :
    Latest order (frames ++ [frame]) h ↔
      (∃ payload, contentOf order frame = .samples h payload) ∨
        (packetOf order frame = none ∧ contentOf order frame ≠ .report .overflow ∧
          Latest order frames h) := by
  constructor
  · rintro ⟨before, f, behind, payload, hframes, hcontent, hquiet⟩
    rcases List.eq_nil_or_concat behind with rfl | ⟨behind', f', rfl⟩
    · obtain ⟨-, hsame⟩ := List.append_inj' hframes rfl
      cases hsame
      exact .inl ⟨payload, hcontent⟩
    · rw [List.concat_eq_append, ← List.cons_append, ← List.append_assoc] at hframes
      obtain ⟨hbefore, hsame⟩ := List.append_inj' hframes rfl
      cases hsame
      obtain ⟨hnone, hreport⟩ := hquiet frame (by simp)
      exact .inr ⟨hnone, hreport, before, f, behind', payload, hbefore, hcontent,
        fun g hg => hquiet g (by simp [hg])⟩
  · rintro (⟨payload, hcontent⟩ |
      ⟨hnone, hreport, before, f, behind, payload, rfl, hcontent, hquiet⟩)
    · exact ⟨frames, frame, [], payload, rfl, hcontent, by simp⟩
    · refine ⟨before, f, behind ++ [frame], payload, by simp, hcontent, fun g hg => ?_⟩
      rcases List.mem_append.mp hg with hg | hg
      · exact hquiet g hg
      · cases List.mem_singleton.mp hg
        exact ⟨hnone, hreport⟩

/-- The last count of a channel that took frames. -/
def Counted (order : ByteOrder) (frames : List Bytes) (last : Option UInt8) : Prop :=
  ∀ n, last = some n ↔ ∃ h, Latest order frames h ∧ h.count = n

theorem counted_nil : Counted order [] none := by
  intro n
  refine iff_of_false nofun ?_
  rintro ⟨h, ⟨before, f, behind, -, hframes, -⟩, -⟩
  simp at hframes

/-- Taking a frame keeps the last count up to date. -/
theorem Counted.take (h : Counted order frames last) (frame : Bytes) :
    Counted order (frames ++ [frame]) ((contentOf order frame).countAfter last) := by
  intro n
  simp only [latest_concat]
  cases hcontent : contentOf order frame with
  | unreadable => simpa [Content.countAfter, packetOf, hcontent] using h n
  | report code =>
    by_cases hcode : code = .overflow
    · simp [Content.countAfter, packetOf, hcontent, hcode]
    · simpa [Content.countAfter, packetOf, hcontent, hcode] using h n
  | samples header payload => simp [Content.countAfter, packetOf, hcontent]

theorem Counted.isGap_iff (h : Counted order frames last) (header : Header) :
    Channel.isGap last header.count = true ↔ Skips order frames header := by
  have hne (n : UInt8) : (Channel.nextCount n != header.count) = true ↔
      header.count.toNat ≠ (n.toNat + 1) % 16 := by
    rw [bne_iff_ne, Ne, ← UInt8.toNat_inj, Channel.toNat_nextCount]
    exact not_congr eq_comm
  constructor
  · intro hgap
    cases hlast : last with
    | none =>
      rw [hlast] at hgap
      cases hgap
    | some n =>
      rw [hlast] at hgap
      obtain ⟨latest, hlatest, hcount⟩ := (h n).mp hlast
      exact ⟨latest, hlatest, hcount ▸ (hne n).mp hgap⟩
  · rintro ⟨latest, hlatest, hskip⟩
    have hlast : last = some latest.count := (h _).mpr ⟨latest, hlatest, rfl⟩
    rw [hlast]
    exact (hne _).mpr hskip

end

/-! ## Pieces of packets -/

/-- The packet with so many samples more handed out each time. -/
def HeldPacket.after (p : HeldPacket) (ns : List Nat) : HeldPacket := ns.foldl HeldPacket.advance p

/-- The shares in which a packet is handed out, so many samples at a time. -/
def cut (p : HeldPacket) : List Nat → List Share
  | [] => []
  | n :: rest => ⟨[p], n⟩ :: cut (p.advance n) rest

/-- Packets are handed out in shares, one after the other and each from its start on, without
leaving a sample out or handing one out twice. All but the last of them are used up, and none
before its last share. -/
inductive Tiled : List HeldPacket → List Share → Option HeldPacket → Prop where
  | nil : Tiled [] [] none
  | used {ps : List HeldPacket} {shares : List Share} {p : HeldPacket} {ns : List Nat} {n : Nat}
    (h : Tiled ps shares none) (hstart : p.cursor = 0) (hleft : ns = [] ∨ ns.sum < p.samples)
    (hall : ns.sum + n = p.samples) : Tiled (ps ++ [p]) (shares ++ cut p (ns ++ [n])) none
  | left {ps : List HeldPacket} {shares : List Share} {p : HeldPacket} {ns : List Nat}
    (h : Tiled ps shares none) (hstart : p.cursor = 0) (hleft : ns = [] ∨ ns.sum < p.samples) :
    Tiled (ps ++ [p]) (shares ++ cut p ns) (some (p.after ns))

namespace HeldPacket

variable (p : HeldPacket) (ns : List Nat) (n : Nat)

theorem after_concat : p.after (ns ++ [n]) = (p.after ns).advance n := List.foldl_concat _ _ _ _

@[simp] theorem cursor_after : (p.after ns).cursor = p.cursor + ns.sum := by
  induction ns generalizing p with
  | nil => rfl
  | cons n rest ih =>
    rw [after, List.foldl_cons, ← after, ih, List.sum_cons, ← Nat.add_assoc]
    rfl

@[simp] theorem samples_after : (p.after ns).samples = p.samples := by
  induction ns generalizing p with
  | nil => rfl
  | cons n rest ih =>
    rw [after, List.foldl_cons, ← after, ih]
    rfl

end HeldPacket

theorem cut_concat (p : HeldPacket) (ns : List Nat) (n : Nat) :
    cut p (ns ++ [n]) = cut p ns ++ [⟨[p.after ns], n⟩] := by
  induction ns generalizing p with
  | nil => rfl
  | cons m rest ih =>
    rw [List.cons_append, cut, ih, cut, List.cons_append]
    rfl

/-- Samples of the packet held are handed out. -/
theorem Tiled.hand {ps : List HeldPacket} {shares : List Share} {p : HeldPacket} {n : Nat}
    (h : Tiled ps shares (some p)) (hn : n ≤ p.remaining) :
    Tiled ps (shares ++ [⟨[p], n⟩])
      (if (p.advance n).remaining = 0 then none else some (p.advance n)) := by
  generalize hheld : some p = held at h
  cases h with
  | nil | used => cases hheld
  | @left ps shares q ns h hstart hleft =>
    cases hheld
    have hroom : ns.sum ≤ q.samples := by
      rcases hleft with rfl | hlt
      · exact Nat.zero_le _
      · exact hlt.le
    have hremaining : ((q.after ns).advance n).remaining = q.samples - (ns.sum + n) := by
      simp [HeldPacket.remaining, HeldPacket.advance, hstart]
    have hfits : n ≤ q.samples - ns.sum := by
      simpa [HeldPacket.remaining, hstart] using hn
    rw [List.append_assoc, ← cut_concat, hremaining]
    split
    · exact .used h hstart hleft (by omega)
    · rw [← HeldPacket.after_concat]
      exact .left h hstart (.inr (by simp only [List.sum_append, List.sum_singleton]; omega))

end SampleStream.Receive

namespace SampleStream.Receiver
open Receive

section
variable {r₀ r r' s : Receiver} {buffers filled : List Bytes} {wanted n : Nat} {onePacket : Bool}
  {es : List Event} {shares shares' : List Share} {met found : Option Condition}
  {got got' : Received} {metadata : Metadata} {call : Call} {actions : List Action}
  {turns : List Turn} {taken : List Bytes}

/-! ## A line -/

/-- A stream of one channel that took frames and handed shares out of their packets. -/
structure Line (r₀ : Receiver) (taken : List Bytes) (shares : List Share) (r : Receiver)
    (c : Channel) (ps : List HeldPacket) : Prop where
  channels : r.channels = [c]
  order : r.order = r₀.order
  wireItem : r.wireItem = r₀.wireItem
  counted : Counted r₀.order taken c.lastCount
  opened : Opened r₀.order r₀.wireItem taken ps
  tiled : Tiled ps shares c.held
  markers : r.markers.count .dropped = (gapsOf ps).length

/-- What is still to be told, the mode and the commands are of no account. -/
theorem Line.kept {c : Channel} {ps : List HeldPacket} (h : Line r₀ taken shares r c ps)
    (pending : Option Metadata) (mode : Mode) (issued : List Issued) :
    Line r₀ taken shares { r with pending, mode, issued } c ps :=
  ⟨h.channels, h.order, h.wireItem, h.counted, h.opened, h.tiled, h.markers⟩

/-- A channel that holds nothing takes a frame. -/
theorem Line.take {c : Channel} {ps : List HeldPacket} (h : Line r₀ taken shares r c ps)
    {frame : Bytes} {rest : List Bytes} (hvacant : c.held = none)
    (htook : r.Took 0 c frame rest r' found) :
    ∃ c' ps', Line r₀ (taken ++ [frame]) shares r' c' ps' := by
  obtain ⟨c', fetched, htaken, hchannels, -⟩ := htook.channels
  have hset : r'.channels = [c'] := by rw [hchannels, h.channels]; rfl
  have horder := (order_of_setup htook.setup).trans h.order
  have hwire := (wireItem_of_setup htook.setup).trans h.wireItem
  have hcounted : Counted r₀.order (taken ++ [frame]) c'.lastCount := by
    rw [htaken.lastCount, h.order]
    exact h.counted.take frame
  have hheld := htaken.held_eq hvacant
  have hmarkers := htook.markers
  have htiled := h.tiled
  rw [h.order, packetIn] at hheld
  rw [h.order] at hmarkers
  rw [hvacant] at htiled
  -- a frame without samples leaves the packets as they were
  have hsame (hnone : packetOf r₀.order frame = none) (hheld : c'.held = none)
      (hcount : r'.markers.count .dropped = r.markers.count .dropped) :
      Line r₀ (taken ++ [frame]) shares r' c' ps :=
    ⟨hset, horder, hwire, hcounted, h.opened.other hnone, hheld ▸ htiled,
      hcount.trans h.markers⟩
  cases hcontent : contentOf r₀.order frame with
  | unreadable =>
    rw [hcontent] at hheld hmarkers
    exact ⟨c', ps, hsame (by simp [packetOf, hcontent]) hheld (by simp [hmarkers, Content.markers])⟩
  | report code =>
    rw [hcontent] at hheld hmarkers
    refine ⟨c', ps, hsame (by simp [packetOf, hcontent]) hheld ?_⟩
    rw [hmarkers, List.count_append, Content.markers]
    split <;> rfl
  | samples header payload =>
    rw [hcontent] at hheld hmarkers
    obtain ⟨p, hp⟩ := Option.isSome_iff_exists.mp (hheld ▸ rfl : c'.held.isSome)
    have hparts := Option.some.inj (hheld.symm.trans hp)
    have hopens : p.Opens r₀.order r₀.wireItem frame := by
      rw [← hparts]
      exact ⟨hcontent, by rw [h.wireItem], rfl⟩
    have hflag : p.outOfSequence = Channel.isGap c.lastCount header.count := by rw [← hparts]
    have hheader : p.header = header := by rw [← hparts]
    have hgap : p.outOfSequence = true ↔ Skips r₀.order taken p.header := by
      rw [hflag, hheader]
      exact h.counted.isGap_iff header
    refine ⟨c', ps ++ [p], hset, horder, hwire, hcounted, h.opened.packet hopens hgap, ?_, ?_⟩
    · rw [hp]
      simpa [cut, HeldPacket.after] using htiled.left hopens.cursor (.inl rfl)
    · rw [hmarkers, List.count_append, h.markers, Content.markers, ← hflag, gapsOf, gapsOf,
        List.filter_append, List.length_append]
      cases hflag : p.outOfSequence <;> simp [hflag]

/-- Getting packets together on a stream of one channel takes frames and does nothing else. -/
theorem Step.line {e : Event} {c : Channel} {ps : List HeldPacket} (h : Step r e r')
    (hgathers : e.gathers = true) (hline : Line r₀ taken shares r c ps) :
    ∃ c' ps', Line r₀ (taken ++ (e.taking 0).toList) shares r' c' ps' := by
  have hone : r.channels.length = 1 := by rw [hline.channels]; rfl
  have hkept := h.discards_of_single hone
  cases h with
  | came | closed | handed => cases hgathers
  | outdated | misaligned => cases hkept
  | @took _ index d frame rest found hfirst hlink hfetch =>
    have hc := hfirst.channel
    obtain ⟨hlt, -⟩ := List.getElem?_eq_some_iff.mp hc
    have hzero : index = 0 := by omega
    subst hzero
    have hsame : d = c := by
      rw [hline.channels] at hc
      exact (Option.some.inj hc).symm
    subst hsame
    obtain ⟨_, -, htook⟩ := fetch_of_frame hlink hfetch
    exact hline.take hfirst.vacant htook

theorem History.line {c : Channel} {ps : List HeldPacket} (h : History r es r')
    (hgathers : ∀ e ∈ es, e.gathers = true) (hline : Line r₀ taken shares r c ps) :
    ∃ c' ps', Line r₀ (taken ++ es.filterMap (Event.taking 0)) shares r' c' ps' := by
  induction h with
  | refl => exact ⟨c, ps, by simpa using hline⟩
  | @step r₁ r₂ es e h hstep ih =>
    obtain ⟨c₁, ps₁, ih⟩ := ih fun e he => hgathers e (List.mem_append_left _ he)
    obtain ⟨c₂, ps₂, hline₂⟩ := hstep.line (hgathers e (by simp)) ih
    exact ⟨c₂, ps₂, by rwa [filterMap_concat, ← List.append_assoc]⟩
  | aside h pending mode issued ih =>
    obtain ⟨c₁, ps₁, ih⟩ := ih hgathers
    exact ⟨c₁, ps₁, ih.kept pending mode issued⟩

/-- What a stream of one channel holds, and what becomes of it when samples are handed out. -/
theorem exists_held_of_one {c : Channel} (hchannels : r.channels = [c]) (hfull : r.Full) :
    ∃ p, c.held = some p ∧ r.held = [p] ∧ ∀ n, (r.advance n).2 =
      if (p.advance n).remaining = 0 then some p.header.endOfBurst else none := by
  obtain ⟨p, hp⟩ := Option.isSome_iff_exists.mp (hfull c (by simp [hchannels]))
  refine ⟨p, hp, by simp [held, hchannels, hp], fun n => ?_⟩
  simp only [advance, hchannels, List.map_cons, List.map_nil]
  split
  · rename_i hused
    rw [Channel.advance_of_used hp hused]
    rfl
  · rename_i hleft
    rw [Channel.advance_of_left hp hleft]
    rfl

theorem held_of_one (hone : r.channels.length = 1) (hfull : r.Full) : ∃ p, r.held = [p] := by
  obtain ⟨c, hc⟩ := List.length_eq_one_iff.mp hone
  obtain ⟨p, -, hheld, -⟩ := exists_held_of_one hc hfull
  exact ⟨p, hheld⟩

/-- Handing samples out adds a share. -/
theorem Line.hand {c : Channel} {ps : List HeldPacket} (hline : Line r₀ taken shares r c ps)
    (hfull : r.Full) (hcount : ∀ p ∈ r.held, n ≤ p.remaining) :
    ∃ c', Line r₀ taken (shares ++ [⟨r.held, n⟩]) (r.advance n).1 c' ps := by
  obtain ⟨p, hp, hheld, -⟩ := exists_held_of_one hline.channels hfull
  have htiled := hline.tiled
  rw [hp] at htiled
  have hnext := htiled.hand (hcount p (by simp [hheld]))
  rw [hheld]
  have hchannels : (r.advance n).1.channels = [(c.advance n).1] := by
    simp [advance, hline.channels]
  have hlast : (c.advance n).1.lastCount = c.lastCount := by
    unfold Channel.advance
    rw [hp]
    dsimp only
    split <;> rfl
  refine ⟨(c.advance n).1, hchannels, hline.order, hline.wireItem, ?_, hline.opened, ?_,
    hline.markers⟩
  · rw [hlast]
    exact hline.counted
  · split at hnext
    · rename_i hused
      rw [Channel.advance_of_used hp hused]
      exact hnext
    · rename_i hleft
      rw [Channel.advance_of_left hp hleft]
      exact hnext

theorem Line.aside {c : Channel} {ps : List HeldPacket} (hline : Line r₀ taken shares r c ps)
    (halike : Alike r actions r') : ∃ c', Line r₀ taken shares r' c' ps := by
  have hc : r.channels[0]? = some c := by rw [hline.channels]; rfl
  obtain ⟨link, hc', -⟩ := halike.channels hc
  have hlength : r'.channels.length = 1 := by rw [halike.length, hline.channels]; rfl
  obtain ⟨c', hchannels⟩ := List.length_eq_one_iff.mp hlength
  have hsame : c' = { c with link } := by
    rw [hchannels] at hc'
    exact Option.some.inj hc'
  subst hsame
  exact ⟨_, hchannels, halike.order.trans hline.order, halike.wireItem.trans hline.wireItem,
    hline.counted, hline.opened, hline.tiled, halike.markers ▸ hline.markers⟩

/-! ## Calls on a line -/

theorem Gathers.line {c : Channel} {ps : List HeldPacket} (h : r.Gathers es s found)
    (hline : Line r₀ taken shares r c ps) :
    ∃ c' ps', Line r₀ (taken ++ es.filterMap (Event.taking 0)) shares s c' ps' :=
  h.history.line h.gathers hline

theorem taking_handed (es : List Event) (n : Nat) :
    (es ++ [Event.handed n]).filterMap (Event.taking 0) = es.filterMap (Event.taking 0) := by
  simp [Event.taking]

theorem Course.line {c : Channel} {ps : List HeldPacket}
    (h : Course r buffers wanted onePacket es shares' s got)
    (hline : Line r₀ taken shares r c ps) :
    ∃ c' ps', Line r₀ (taken ++ es.filterMap (Event.taking 0)) (shares ++ shares') s c' ps' := by
  induction h with
  | start => exact ⟨c, ps, by simpa using hline⟩
  | @next es es' _ _ _ _ n _ _ _ hgathers hhands _ _ _ _ ih =>
    obtain ⟨c₁, ps₁, ih⟩ := ih
    obtain ⟨c₂, ps₂, hready⟩ := hgathers.line ih
    obtain ⟨c₃, hnext⟩ := hready.hand (hgathers.full rfl) hhands.count_le
    refine ⟨c₃, ps₂, ?_⟩
    rw [List.filterMap_append, taking_handed, ← List.append_assoc, ← List.append_assoc]
    exact hnext

/-- A call on a stream of one channel hands out what comes next. -/
theorem Called.line {c : Channel} {ps : List HeldPacket} (h : Called r call es shares' met r')
    (hline : Line r₀ taken shares r c ps) :
    ∃ c' ps', Line r₀ (taken ++ es.filterMap (Event.taking 0)) (shares ++ shares') r' c' ps' := by
  cases h with
  | told =>
    refine ⟨c, ps, ?_⟩
    rw [List.filterMap_nil, List.append_nil, List.append_nil]
    exact hline.kept none r.mode r.issued
  | took _ _ hcourse hends =>
    obtain ⟨c₁, ps₁, hline₁⟩ := hcourse.line hline
    generalize call.got = answer at hends
    cases hends with
    | met hgathers hreport =>
      obtain ⟨c₂, ps₂, hline₂⟩ := hgathers.line hline₁
      obtain ⟨pending, metadata, hreported⟩ := report_eq _ _ _
      rw [hreported] at hreport
      cases hreport
      refine ⟨c₂, ps₂, ?_⟩
      rw [List.append_nil, List.filterMap_append, ← List.append_assoc]
      exact hline₂.kept pending _ _
    | gap hgathers =>
      obtain ⟨c₂, ps₂, hline₂⟩ := hgathers.line hline₁
      refine ⟨c₂, ps₂, ?_⟩
      rwa [List.append_nil, List.filterMap_append, ← List.append_assoc]
    | last hgathers hhands =>
      obtain ⟨c₂, ps₂, hline₂⟩ := hgathers.line hline₁
      obtain ⟨c₃, hline₃⟩ := hline₂.hand (hgathers.full rfl) hhands.count_le
      obtain ⟨mode, hfinish⟩ := finish_eq _ _
      refine ⟨c₃, ps₂, ?_⟩
      rw [List.filterMap_append, taking_handed, ← List.append_assoc, ← List.append_assoc, hfinish]
      exact hline₃.kept _ mode _

/-- Every session of a stream of one channel is a line. -/
theorem Logged.line (h : Logged r₀ actions turns r) (hfresh : ∀ c ∈ r₀.channels, r₀.Fresh c)
    (hone : r₀.channels.length = 1) (hmarkers : r₀.markers = []) :
    ∃ c ps, Line r₀ (takenIn 0 turns) (turns.flatMap Turn.shares) r c ps := by
  induction h with
  | start =>
    obtain ⟨c₀, hc₀⟩ := List.length_eq_one_iff.mp hone
    have hc := hfresh c₀ (by simp [hc₀])
    refine ⟨c₀, [], hc₀, rfl, rfl, ?_, .nil, ?_, by rw [hmarkers]; rfl⟩
    · rw [hc.lastCount]
      exact counted_nil
    · rw [hc.held]
      exact .nil
  | aside _ haside ih =>
    obtain ⟨c, ps, ih⟩ := ih
    obtain ⟨c', hline⟩ := ih.aside haside.alike
    exact ⟨c', ps, hline⟩
  | call _ _ hcalled ih =>
    obtain ⟨c, ps, ih⟩ := ih
    obtain ⟨c', ps', hline⟩ := hcalled.line ih
    refine ⟨c', ps', ?_⟩
    rw [takenIn_append, takenIn_singleton, List.flatMap_append, List.flatMap_singleton]
    exact hline

/-- A session of a stream of one channel has a log that makes it a line. -/
theorem Session.line {o : StreamOptions} {settings : Settings} {links : List Link} {c₀ : Channel}
    (hsession : Session r₀ actions r) (hbuilt : Built o settings links r₀)
    (hone : r₀.channels = [c₀]) :
    ∃ turns ps c, Logged r₀ actions turns r ∧
      c₀.link.frames ++ arrivals 0 actions = takenIn 0 turns ++ c.link.frames ∧
      Line r₀ (takenIn 0 turns) (turns.flatMap Turn.shares) r c ps := by
  have hsettled := settled_of_fresh hbuilt.fresh
  obtain ⟨turns, hlogged⟩ := hsession.logged hsettled hbuilt.channels_ne_nil
  obtain ⟨c, ps, hline⟩ := hlogged.line hbuilt.fresh (by rw [hone]; rfl) hbuilt.markers
  have hc₀ : r₀.channels[0]? = some c₀ := by rw [hone]; rfl
  obtain ⟨c', hc', hframes⟩ := hlogged.frames hsettled hc₀
  rw [hline.channels] at hc'
  cases hc'
  exact ⟨turns, ps, c, hlogged, hframes, hline⟩

end

end SampleStream.Receiver
