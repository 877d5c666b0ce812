import SampleStream.Proofs.Receive.Bounds

/-!
# Calls that meet a closed link

A call that finds a link closed ends with an error, whatever it has handed out by then.
The measure for it is the same stream with its links still open (`Receiver.opened`): that
does the same, round by round, up to where the closed link is met, and there the call
is over in time with the samples handed out so far (`collect_closed`). So what the
samples of a failed call are is known exactly, and when there are none.
-/

namespace SampleStream.Receive

/-- The channel with its link still open. -/
def Channel.opened (c : Channel) : Channel :=
  { c with link := { c.link with senderOpen := true } }

namespace Channel

/-- An open link differs from a closed one only when there is nothing on it. -/
theorem fetch_opened (c : Channel) (index : Nat) (order : ByteOrder) (wireItem : Nat)
    (tickRate : Float) :
    c.opened.fetch index order wireItem tickRate =
      (c.fetch index order wireItem tickRate).map fun
        | .error _ => .ok (c.opened, .condition { code := .timeout, channel := index })
        | .ok (c', fetched) => .ok (c'.opened, fetched) := by
  cases hframes : c.link.frames with
  | nil => cases hopen : c.link.senderOpen <;> simp [fetch, Link.recv, opened, hframes, hopen]
  | cons frame rest =>
    simp only [fetch, Link.recv, opened, hframes]
    cases Header.unpack order frame with
    | error e => rfl
    | ok parts =>
      obtain ⟨h, extent⟩ := parts
      cases htime : packetTime h tickRate with
      | none => simp [htime]
      | some time =>
        cases hpayload : extent.payloadOf frame with
        | none => simp [htime, hpayload]
        | some payload =>
          simp only [htime, hpayload, bind, Option.bind_some]
          by_cases hclass : h.packetClass = .context
          · by_cases hcode : reportCode order payload = .overflow <;> simp [hclass, hcode]
          · simp [hclass]

theorem advance_opened (c : Channel) (count : Nat) :
    c.opened.advance count = ((c.advance count).1.opened, (c.advance count).2) := by
  cases hheld : c.held with
  | none => simp [advance, opened, hheld]
  | some p =>
    simp only [advance, opened, hheld]
    split <;> rfl

end Channel
end SampleStream.Receive

namespace SampleStream.Receiver
open Receive

/-! ## The stream with its links still open -/

/-- The stream with all its links still open. -/
def opened (r : Receiver) : Receiver := { r with channels := r.channels.map Channel.opened }

/-- Where the call stands after a round on open links. -/
def Round.opened : Round → Round
  | .done (r, result) => .done (r.opened, result)
  | .more r got => .more r.opened got

section
variable (r : Receiver)

@[simp] theorem length_opened : r.opened.channels.length = r.channels.length :=
  List.length_map _

@[simp] theorem held_opened : r.opened.held = r.held := by
  rw [held, opened, List.filterMap_map]
  rfl

@[simp] theorem newest_opened : r.opened.newest = r.newest := by
  rw [newest, held_opened, newest]

@[simp] theorem backlog_opened : r.opened.backlog = r.backlog := by
  rw [backlog, opened, List.map_map]
  rfl

@[simp] theorem mode_opened : r.opened.mode = r.mode := rfl

theorem restart_opened : r.opened.restart = r.restart.opened := by
  unfold restart issue
  by_cases hmode : r.mode = .continuous
  · cases hissuing : r.issuing with
    | true => simp [opened, hmode, hissuing]
    | false => simp [opened, hmode, hissuing]
  · simp [hmode]

theorem dropHeld_opened (drop : HeldPacket → Bool) :
    r.opened.dropHeld drop = (r.dropHeld drop).opened := by
  simp only [dropHeld, opened, List.map_map]
  congr 1
  apply List.map_congr_left
  intro c _
  rw [Function.comp_apply, Function.comp_apply, show c.opened.held = c.held from rfl]
  split <;> rfl

theorem giveUp_opened : r.opened.giveUp = r.giveUp.opened := by
  unfold giveUp
  dsimp only
  rw [dropHeld_opened, length_opened]
  rfl

theorem describeFirst_opened (got : Received) :
    r.opened.describeFirst got = r.describeFirst got := by
  have hhead : r.opened.channels.head?.bind Channel.held = r.channels.head?.bind Channel.held := by
    rw [opened, List.head?_map]
    cases r.channels.head? <;> rfl
  unfold describeFirst describe
  rw [hhead, held_opened]
  rfl

theorem convert_opened (buffers : List Bytes) (filled count : Nat) :
    r.opened.convert buffers filled count = r.convert buffers filled count := by
  unfold convert opened
  rw [List.zip_map_left, List.mapM_map]
  rfl

theorem advance_opened (count : Nat) :
    r.opened.advance count = ((r.advance count).1.opened, (r.advance count).2) := by
  have hmoved : r.opened.channels.map (fun c => c.advance count) =
      (r.channels.map fun c => c.advance count).map fun moved => (moved.1.opened, moved.2) := by
    rw [opened, List.map_map, List.map_map]
    exact List.map_congr_left fun c _ => c.advance_opened count
  unfold advance
  rw [hmoved]
  simp only [opened, List.map_map, List.filterMap_map]
  rfl

theorem endBurst_opened : r.opened.endBurst = r.endBurst.opened := by
  unfold endBurst
  by_cases hmode : r.mode = .finite
  · simp [opened, hmode]
  · simp [hmode]

theorem handOut_opened (wanted : Nat) (onePacket : Bool) (got : Received) :
    r.opened.handOut wanted onePacket got = (r.handOut wanted onePacket got).map Round.opened := by
  unfold handOut
  rw [held_opened]
  cases (r.held.map HeldPacket.remaining).min? with
  | none => rfl
  | some remaining =>
    dsimp only
    split
    · rfl
    · rw [describeFirst_opened, convert_opened, advance_opened]
      cases r.describeFirst got with
      | none => rfl
      | some metadata =>
        cases r.convert got.buffers got.samples (min remaining (wanted - got.samples)) with
        | none => rfl
        | some buffers =>
          dsimp only [bind, Option.bind_some]
          split
          · rw [endBurst_opened]
            rfl
          · split <;> rfl

end

/-! ## Up to a closed link -/

/-- `r'` is the stream `r` after its channel `index`, of which a packet was wanted, was
found closed. -/
structure FoundClosed (r : Receiver) (index : Nat) (r' : Receiver) (e : StreamError) : Prop where
  error : e = .linkClosed
  after : r' = { r with warnings := r.warnings ++ [.linkClosed index .senderGone] }
  notFull : ¬ r.Full

/-- Nothing came in time. -/
def late (index : Nat) : Outcome := .ok (some { code := .timeout, channel := index })

/-- Looking for packets, the stream `r` comes to a closed link and is left as `r'`. With
open links it comes as far, and there it is late. -/
inductive MeetsClosed (r r' : Receiver) (e : StreamError) : Checked (Receiver × Outcome) → Prop where
  | intro {es : List Event} {r₁ : Receiver} {index : Nat} (history : History r es r₁)
    (gathers : ∀ e ∈ es, e.gathers = true) (closed : r₁.FoundClosed index r' e) :
    MeetsClosed r r' e (some (r₁.opened, late index))

/-- What happens before comes on top. -/
theorem MeetsClosed.after {r r₁ r' : Receiver} {e : StreamError} {es : List Event}
    {opened : Checked (Receiver × Outcome)} (h : MeetsClosed r₁ r' e opened)
    (hhistory : History r es r₁) (hgathers : ∀ e ∈ es, e.gathers = true) :
    MeetsClosed r r' e opened := by
  cases h with
  | intro history gathers closed =>
    refine .intro (hhistory.trans history) (fun event hevent => ?_) closed
    rcases List.mem_append.mp hevent with hevent | hevent
    · exact hgathers event hevent
    · exact gathers event hevent

section
variable {r r' : Receiver} {index : Nat} {c : Channel} {found : Option Condition} {e : StreamError}

theorem set_opened :
    r.opened.channels.set index c.opened = (r.channels.set index c).map Channel.opened :=
  List.map_set.symm

theorem fetch_opened (h : r.fetch index c = some (r', .ok found)) :
    r.opened.fetch index c.opened = some (r'.opened, .ok found) := by
  have hopened := c.fetch_opened index r.order r.wireItem r.tickRate
  unfold fetch at h ⊢
  obtain ⟨result, hresult, h⟩ := Option.bind_eq_some_iff.mp h
  rw [hresult] at hopened
  rw [show c.opened.fetch index r.opened.order r.opened.wireItem r.opened.tickRate = _ from hopened]
  cases result with
  | error cause => cases h
  | ok parts =>
    obtain ⟨c', fetched⟩ := parts
    simp only [Option.map_some, bind, Option.bind_some, set_opened]
    cases fetched with
    | packet gap =>
      cases h
      rfl
    | condition found =>
      dsimp only at h ⊢
      split at h
      · rename_i hcode
        cases h
        rw [if_pos hcode]
        exact congrArg (fun s => some (s, (.ok (some found) : Outcome))) (restart_opened
          { r with channels := r.channels.set index c', markers := r.markers ++ [.overflow] })
      · rename_i hcode
        cases h
        rw [if_neg hcode]
        rfl

theorem fetch_closed (hfirst : r.FirstVacant index c) (h : r.fetch index c = some (r', .error e)) :
    r.FoundClosed index r' e ∧ r.opened.fetch index c.opened = some (r.opened, late index) := by
  cases hframes : c.link.frames with
  | cons frame rest =>
    obtain ⟨_, hok, -⟩ := fetch_of_frame hframes h
    cases hok
  | nil =>
    have hopened := c.fetch_opened index r.order r.wireItem r.tickRate
    have hset : r.channels.set index c = r.channels := by
      obtain ⟨hlt, hget⟩ := List.getElem?_eq_some_iff.mp hfirst.channel
      rw [← hget, List.set_getElem_self]
    unfold fetch at h ⊢
    obtain ⟨result, hresult, h⟩ := Option.bind_eq_some_iff.mp h
    rw [hresult] at hopened
    rw [show c.opened.fetch index r.opened.order r.opened.wireItem r.opened.tickRate = _ from
      hopened]
    rcases Channel.fetch_of_empty hframes hresult with rfl | rfl
    · cases h
      refine ⟨⟨rfl, rfl, hfirst.not_full⟩, ?_⟩
      simp only [Option.map_some, bind, Option.bind_some, set_opened, hset, reduceCtorEq, if_false]
      rfl
    · simp at h

/-- The channel at a position, its link still open. -/
theorem getElem?_opened (r : Receiver) (index : Nat) :
    r.opened.channels[index]? = (r.channels[index]?).map Channel.opened :=
  List.getElem?_map ..

theorem fill_opened {indices : List Nat} (h : r.fill indices = some (r', .ok found)) :
    r.opened.fill indices = some (r'.opened, .ok found) := by
  induction indices generalizing r with
  | nil =>
    cases h
    rfl
  | cons index rest ih =>
    unfold fill at h ⊢
    rw [getElem?_opened]
    cases hchannel : r.channels[index]? with
    | none =>
      rw [hchannel] at h
      exact ih h
    | some c =>
      rw [hchannel] at h
      dsimp only [Option.map_some] at h ⊢
      rw [show c.opened.held = c.held from rfl]
      split at h
      · rename_i hheld
        rw [if_pos hheld]
        exact ih h
      · rename_i hheld
        rw [if_neg hheld]
        obtain ⟨⟨r₁, outcome⟩, hfetch, h⟩ := Option.bind_eq_some_iff.mp h
        cases outcome with
        | error e => cases h
        | ok found₁ =>
          rw [fetch_opened hfetch]
          cases found₁ with
          | none => exact ih h
          | some condition =>
            cases h
            rfl

/-- Filling the channels from `k` on, when those before it hold packets already, comes
to a closed link. -/
theorem fill_closed {m k : Nat}
    (hbefore : ∀ j < k, ∀ d, r.channels[j]? = some d → d.held.isSome)
    (hlength : k + m = r.channels.length)
    (h : r.fill (List.range' k m) = some (r', .error e)) :
    MeetsClosed r r' e (r.opened.fill (List.range' k m)) := by
  -- by the channels left, as in `fill_history`
  induction m generalizing k r with
  | zero => cases h
  | succ m ih =>
    have hk : k < r.channels.length := by omega
    have hchannel : r.channels[k]? = some r.channels[k] := List.getElem?_eq_getElem hk
    rw [List.range'_succ, fill] at h ⊢
    rw [getElem?_opened]
    rw [hchannel] at h ⊢
    dsimp only [Option.map_some] at h ⊢
    rw [show r.channels[k].opened.held = r.channels[k].held from rfl]
    split at h
    · rename_i hheld
      rw [if_pos hheld]
      exact ih (held_lt_succ hbefore hchannel hheld) (by omega) h
    · rename_i hheld
      rw [if_neg hheld]
      have hfirst : r.FirstVacant k r.channels[k] := ⟨hchannel, by simpa using hheld, hbefore⟩
      obtain ⟨⟨r₁, outcome⟩, hfetch, h⟩ := Option.bind_eq_some_iff.mp h
      cases outcome with
      | error e₁ =>
        cases h
        obtain ⟨hclosed, hopened⟩ := fetch_closed hfirst hfetch
        rw [hopened]
        exact .intro (.refl r) (by simp) hclosed
      | ok found₁ =>
        rw [fetch_opened hfetch]
        cases found₁ with
        | some condition => cases h
        | none =>
          cases hframes : r.channels[k].link.frames with
          | nil =>
            rcases fetch_of_empty hchannel hframes hfetch with herror | ⟨-, hok⟩
            · cases herror
            · cases hok
          | cons frame rest =>
            obtain ⟨_, hok, htook⟩ := fetch_of_frame hframes hfetch
            cases hok
            have hstep : Step r (.took k frame) r₁ := .took hfirst hframes hfetch
            obtain ⟨-, hbefore'⟩ | ⟨hne, -⟩ := htook.held hfirst
            · have hlater := ih hbefore' (by rw [hstep.history.length_channels]; omega) h
              exact hlater.after hstep.history (by simp [Event.gathers])
            · exact absurd rfl hne

theorem alignWithin_opened {rounds : Nat} (h : r.alignWithin rounds = some (r', .ok found)) :
    r.opened.alignWithin rounds = some (r'.opened, .ok found) := by
  induction rounds using Nat.strongRecOn generalizing r with
  | ind rounds ih =>
    unfold alignWithin at h ⊢
    obtain ⟨⟨r₁, outcome⟩, hfill, h⟩ := Option.bind_eq_some_iff.mp h
    cases outcome with
    | error e => cases h
    | ok found₁ =>
      rw [length_opened, fill_opened hfill]
      cases found₁ with
      | some condition =>
        cases h
        rfl
      | none =>
        simp only [bind, Option.bind_some, newest_opened, held_opened] at h ⊢
        cases hnewest : r₁.newest with
        | none =>
          rw [hnewest] at h
          cases h
          rfl
        | some time =>
          rw [hnewest] at h
          dsimp only at h ⊢
          split at h
          · rename_i holder
            rw [if_pos holder]
            rw [dropHeld_opened]
            cases rounds with
            | zero =>
              cases h
              rw [giveUp_opened]
              rfl
            | succ n => exact ih n (Nat.lt_succ_self n) h
          · rename_i holder
            cases h
            rw [if_neg holder]
            rfl

theorem alignWithin_closed {rounds : Nat} (h : r.alignWithin rounds = some (r', .error e)) :
    MeetsClosed r r' e (r.opened.alignWithin rounds) := by
  induction rounds using Nat.strongRecOn generalizing r with
  | ind rounds ih =>
    unfold alignWithin at h ⊢
    obtain ⟨⟨r₁, outcome⟩, hfill, h⟩ := Option.bind_eq_some_iff.mp h
    rw [length_opened]
    cases outcome with
    | error e₁ =>
      cases h
      rw [List.range_eq_range'] at hfill
      have hmeets := fill_closed (by simp) (by simp) hfill
      rw [← List.range_eq_range'] at hmeets
      generalize r.opened.fill (List.range r.channels.length) = opened at hmeets ⊢
      cases hmeets with
      | intro hhistory hgathers hclosed => exact .intro hhistory hgathers hclosed
    | ok found₁ =>
      rw [fill_opened hfill]
      cases found₁ with
      | some condition => cases h
      | none =>
        simp only [bind, Option.bind_some, newest_opened, held_opened] at h ⊢
        cases hnewest : r₁.newest with
        | none =>
          rw [hnewest] at h
          cases h
        | some time =>
          rw [hnewest] at h
          dsimp only at h ⊢
          split at h
          · rename_i holder
            rw [if_pos holder, dropHeld_opened]
            cases rounds with
            | zero => cases h
            | succ n =>
              rw [List.range_eq_range'] at hfill
              obtain ⟨es, hhistory, hgathers, -, hfull⟩ := fill_history (by simp) (by simp) hfill
              have hlater := ih n (Nat.lt_succ_self n) h
              refine hlater.after (hhistory.step (.outdated (hfull.mp rfl) hnewest holder)) ?_
              simpa [or_imp, forall_and, Event.gathers] using hgathers
          · cases h

theorem any_vacant_opened (r : Receiver) :
    r.opened.channels.any (·.held.isNone) = r.channels.any (·.held.isNone) := by
  rw [opened, List.any_map]
  rfl

theorem ready_opened (h : r.ready = some (r', .ok found)) :
    r.opened.ready = some (r'.opened, .ok found) := by
  unfold ready at h ⊢
  rw [any_vacant_opened]
  split at h
  · rename_i hvacant
    rw [if_pos hvacant]
    exact alignWithin_opened h
  · rename_i hall
    cases h
    rw [if_neg hall]

theorem ready_closed (h : r.ready = some (r', .error e)) :
    MeetsClosed r r' e r.opened.ready := by
  unfold ready at h ⊢
  rw [any_vacant_opened]
  split at h
  · rename_i hvacant
    rw [if_pos hvacant]
    exact alignWithin_closed h
  · cases h

end

/-! ## Calls -/

section
variable {r r' : Receiver} {buffers : List Bytes} {wanted : Nat} {onePacket : Bool}
  {got got' : Received} {e : StreamError}

theorem round_of_ready {s : Receiver} (h : r.ready = some (s, .ok none)) :
    r.round wanted onePacket got = s.handOut wanted onePacket got := by
  rw [round, h]
  rfl

/-- Another round comes only after samples of packets on all channels were handed out. -/
theorem ready_of_more (h : r.round wanted onePacket got = some (.more r' got')) :
    ∃ s, r.ready = some (s, .ok none) ∧
      s.handOut wanted onePacket got = some (.more r' got') := by
  obtain ⟨⟨s, outcome⟩, hready, h'⟩ := Option.bind_eq_some_iff.mp h
  cases outcome with
  | error e => cases h'
  | ok found =>
    cases found with
    | some condition => cases h'
    | none => exact ⟨s, hready, h'⟩

theorem round_opened (h : r.round wanted onePacket got = some (.more r' got')) :
    r.opened.round wanted onePacket got = some (.more r'.opened got') := by
  obtain ⟨s, hready, hmore⟩ := ready_of_more h
  rw [round_of_ready (ready_opened hready), handOut_opened, hmore]
  rfl

theorem ready_of_error (h : r.round wanted onePacket got = some (.done (r', .error e))) :
    r.ready = some (r', .error e) := by
  obtain ⟨⟨s, outcome⟩, hready, h'⟩ := Option.bind_eq_some_iff.mp h
  cases outcome with
  | error e₁ =>
    cases h'
    exact hready
  | ok found =>
    cases found with
    | some condition =>
      obtain ⟨pending, metadata, hreport⟩ := report_eq s condition got
      cases h'.symm.trans (congrArg (some ∘ Round.done) hreport)
    | none => cases handOut_cases h'

/-- Where a round finds a link closed, a round on open links ends in time with the
samples there are. -/
theorem round_closed (h : r.ready = some (r', .error e)) (wanted : Nat) (onePacket : Bool)
    (got : Received) :
    ∃ es r₁ index metadata, History r es r₁ ∧ (∀ e ∈ es, e.gathers = true) ∧
      r₁.FoundClosed index r' e ∧ r.opened.round wanted onePacket got =
        some (.done (r₁.opened, .ok { got with metadata })) := by
  have hmeets := ready_closed h
  unfold round
  generalize r.opened.ready = ready at hmeets ⊢
  cases hmeets with
  | @intro es r₁ index hhistory hgathers hclosed =>
    obtain ⟨metadata, hreport⟩ : ∃ metadata, r₁.opened.report
        { code := .timeout, channel := index } got = (r₁.opened, .ok { got with metadata }) := by
      unfold report
      split
      · exact ⟨_, rfl⟩
      · exact ⟨got.metadata, rfl⟩
    exact ⟨es, r₁, index, metadata, hhistory, hgathers, hclosed,
      congrArg (some ∘ Round.done) hreport⟩

/-- A call that meets a closed link has by then done what it does on open links, where it
returns the samples. -/
theorem collect_closed {r₀ : Receiver} {rounds : Nat} {es : List Event}
    (hp : Progress r₀ buffers wanted es r got) (hlength : buffers.length = r₀.channels.length)
    (h : collect wanted onePacket rounds r got = some (r', .error e)) :
    ∃ es' r₁ got₁ index metadata, Progress r₀ buffers wanted (es ++ es') r₁ got₁ ∧
      r₁.FoundClosed index r' e ∧ collect wanted onePacket rounds r.opened got =
        some (r₁.opened, .ok { got₁ with metadata }) := by
  induction rounds generalizing r got es with
  | zero => cases h
  | succ rounds ih =>
    unfold collect at h ⊢
    obtain ⟨result, hround, h⟩ := Option.bind_eq_some_iff.mp h
    cases result with
    | done answer =>
      cases h
      obtain ⟨es', r₁, index, metadata, hhistory, hgathers, hclosed, hopened⟩ :=
        round_closed (ready_of_error hround) wanted onePacket got
      have hsettled : r₁.Settled := fun hfull => absurd hfull hclosed.notFull
      rw [hopened]
      exact ⟨es', r₁, got, index, metadata, hp.gather hhistory hgathers hsettled, hclosed, rfl⟩
    | more r₁ got₁ =>
      rw [round_opened hround]
      obtain ⟨es₁, hp₁⟩ := round_progress hp hlength hround rfl
      obtain ⟨es₂, r₂, got₂, index, metadata, hp₂, hclosed, hopened⟩ := ih hp₁ h
      exact ⟨es₁ ++ es₂, r₂, got₂, index, metadata, by rw [← List.append_assoc]; exact hp₂,
        hclosed, hopened⟩

/-- How many samples are wanted makes no difference to packets that are used up. -/
theorem handOut_of_usedUp (hleast : (r.held.map HeldPacket.remaining).min? = some 0)
    (hwanted : 0 < wanted) (hnone : got.samples = 0) :
    r.handOut (min wanted 1) onePacket got = r.handOut wanted onePacket got := by
  have hone : min wanted 1 = 1 := by omega
  have hmore : (0 = wanted) ↔ (0 = 1) := by omega
  simp only [handOut, hleast, hnone, hone, Nat.zero_min, Nat.add_zero, Nat.lt_irrefl, hmore]

/-- A call for one sample is over once there is one. -/
theorem handOut_one {remaining : Nat} {result : Round}
    (hleast : (r.held.map HeldPacket.remaining).min? = some remaining) (hsome : 0 < remaining)
    (hwanted : 0 < wanted) (hnone : got.samples = 0)
    (h : r.handOut (min wanted 1) onePacket got = some result) :
    ∃ r' got', result = .done (r', .ok got') := by
  cases handOut_cases h with
  | nothing | gap | burst | enough => exact ⟨_, _, rfl⟩
  | more hhands _ _ _ hfurther =>
    obtain ⟨least, hleast', hcount⟩ := hhands.count
    cases hleast.symm.trans hleast'
    omega

/-- A call that meets a closed link has handed nothing out just if a call for one sample
meets it too. -/
theorem collect_one {r₀ r₂ : Receiver} {rounds : Nat} {es : List Event} {got₂ : Received}
    (hp : Progress r₀ buffers wanted es r got) (hlength : buffers.length = r₀.channels.length)
    (hnone : got.samples = 0) (h : collect wanted onePacket rounds r got = some (r', .error e))
    (hopened : collect wanted onePacket rounds r.opened got = some (r₂, .ok got₂)) :
    got₂.samples = 0 ↔
      ∃ r₃, collect (min wanted 1) onePacket rounds r got = some (r₃, .error e) := by
  induction rounds generalizing r got es with
  | zero => cases h
  | succ rounds ih =>
    unfold collect at h hopened ⊢
    obtain ⟨result, hround, h⟩ := Option.bind_eq_some_iff.mp h
    cases result with
    | done answer =>
      -- the first round that gets to hand anything out comes after this one
      cases h
      have hready := ready_of_error hround
      obtain ⟨_, r₁, _, metadata, -, -, -, hround'⟩ := round_closed hready wanted onePacket got
      rw [hround'] at hopened
      cases hopened
      refine iff_of_true hnone ⟨r', ?_⟩
      rw [round, hready]
      rfl
    | more r₁ got₁ =>
      rw [round_opened hround] at hopened
      obtain ⟨es₁, hp₁⟩ := round_progress hp hlength hround rfl
      obtain ⟨s, hready, hmore⟩ := ready_of_more hround
      rw [round_of_ready hready]
      cases handOut_cases hmore with
      | @more n metadata buffers' hhands _ _ _ hfurther =>
        obtain ⟨remaining, hleast, rfl⟩ := hhands.count
        have hwanted : 0 < wanted := by omega
        rcases Nat.eq_zero_or_pos remaining with rfl | hsome
        · rw [handOut_of_usedUp hleast hwanted hnone, hmore]
          exact ih hp₁ (by simp [hnone]) h hopened
        · refine iff_of_false ?_ ?_
          · obtain ⟨es₂, r₃, got₃, _, _, hp₃, -, hopened'⟩ := collect_closed hp₁ hlength h
            cases hopened'.symm.trans hopened
            have hbefore := hp₁.counts
            have hafter := hp₃.counts
            simp only [List.map_append, List.sum_append] at hbefore hafter
            dsimp only at hbefore hafter ⊢
            omega
          · rintro ⟨r₃, hone⟩
            obtain ⟨result, hresult, hone⟩ := Option.bind_eq_some_iff.mp hone
            obtain ⟨r₄, got₄, rfl⟩ := handOut_one hleast hsome hwanted hnone hresult
            cases hone

/-- The calls that find a link closed are those that get to the rounds. -/
theorem collect_of_error (h : r.recv buffers wanted onePacket = some (r', .error e)) :
    r' = r ∧ e ≠ .linkClosed ∨
      r.pending = none ∧ buffers.length = r.channels.length ∧
        wanted * r.hostItem < sizeLimit ∧ (∀ b ∈ buffers, wanted * r.hostItem ≤ b.length) ∧
        collect wanted onePacket (r.backlog + 1) r { buffers } = some (r', .error e) := by
  unfold recv at h
  split at h
  · cases h
  · rename_i hpending
    split at h
    · cases h
      exact .inl ⟨rfl, by simp⟩
    · rename_i hlength
      obtain ⟨need, hneed, h⟩ := Option.bind_eq_some_iff.mp h
      obtain ⟨hlimit, rfl⟩ := mulSize_eq_some.mp hneed
      split at h
      · cases h
        exact .inl ⟨rfl, by simp⟩
      · rename_i hroom
        refine .inr ⟨hpending, by simpa using hlength, hlimit, fun b hb => ?_, h⟩
        simpa using List.find?_eq_none.mp hroom b hb

theorem recv_of_room (hpending : r.pending = none) (hlength : buffers.length = r.channels.length)
    (hlimit : wanted * r.hostItem < sizeLimit)
    (hroom : ∀ b ∈ buffers, wanted * r.hostItem ≤ b.length) :
    r.recv buffers wanted onePacket = collect wanted onePacket (r.backlog + 1) r { buffers } := by
  have hnone : buffers.find? (fun b => decide (b.length < wanted * r.hostItem)) = none := by
    simpa using hroom
  simp only [recv, hpending, hlength, ne_eq, not_true_eq_false, if_false,
    mulSize_eq_some.mpr ⟨hlimit, rfl⟩, bind, Option.bind_some, hnone]

/-- Every call leaves packets of one time, or a channel that holds nothing. -/
theorem Settled.recv {answer : Answer} (hsettled : r.Settled)
    (h : r.recv buffers wanted onePacket = some answer) : answer.1.Settled := by
  obtain ⟨r', result⟩ := answer
  cases result with
  | ok got =>
    obtain ⟨_, hp⟩ := recv_progress hsettled h
    exact hp.settled
  | error e =>
    rcases collect_of_error h with ⟨rfl, -⟩ | ⟨-, hlength, -, -, hcollect⟩
    · exact hsettled
    · obtain ⟨_, r₁, _, _, _, -, hclosed, -⟩ :=
        collect_closed (.start hsettled buffers wanted) hlength hcollect
      rw [hclosed.after]
      exact fun hfull => absurd hfull hclosed.notFull

/-- Whatever a call answers, it leaves the stream by a history in which no frame comes in,
warnings apart. -/
theorem recv_history {answer : Answer} (hsettled : r.Settled)
    (h : r.recv buffers wanted onePacket = some answer) :
    ∃ es s warnings, History r es s ∧ (∀ index, es.filterMap (Event.arrival index) = []) ∧
      answer.1 = { s with warnings } := by
  obtain ⟨r', result⟩ := answer
  cases result with
  | ok got =>
    obtain ⟨es, hp⟩ := recv_progress hsettled h
    exact ⟨es, r', r'.warnings, hp.history, hp.quiet, rfl⟩
  | error e =>
    rcases collect_of_error h with ⟨hsame, -⟩ | ⟨-, hlength, -, -, hcollect⟩
    · exact ⟨[], r, r.warnings, .refl r, fun _ => rfl, hsame⟩
    · obtain ⟨es, s, _, _, _, hp, hclosed, -⟩ :=
        collect_closed (.start hsettled buffers wanted) hlength hcollect
      exact ⟨_, s, _, hp.history, hp.quiet, hclosed.after⟩

theorem command_eq (r : Receiver) (command : StreamCommand) :
    ∃ mode issued, r.command command = { r with mode, issued } := by
  unfold Receiver.command issue
  split
  · exact ⟨_, _, rfl⟩
  · exact ⟨_, r.issued, rfl⟩

theorem Reachable.settled {r₀ : Receiver} (h : Reachable r₀ r) (hr₀ : r₀.Settled) : r.Settled := by
  induction h with
  | start => exact hr₀
  | linked _ index f ih => exact settled_onLink ih index f
  | command _ command ih =>
    obtain ⟨mode, issued, hcommand⟩ := command_eq _ command
    rw [hcommand]
    exact ih
  | rates _ tickRate sampleRate ih => exact ih
  | call _ hrecv ih => exact ih.recv hrecv

theorem Reachable.length_channels {r₀ : Receiver} (h : Reachable r₀ r) (hr₀ : r₀.Settled) :
    r.channels.length = r₀.channels.length := by
  induction h with
  | start => rfl
  | linked _ index f ih =>
    rw [onLink, List.length_modify]
    exact ih
  | command _ command ih =>
    obtain ⟨mode, issued, hcommand⟩ := command_eq _ command
    rw [hcommand]
    exact ih
  | rates _ tickRate sampleRate ih => exact ih
  | call hreach hrecv ih =>
    obtain ⟨es, s, warnings, hhistory, -, hafter⟩ := recv_history (hreach.settled hr₀) hrecv
    rw [hafter]
    exact hhistory.length_channels.trans ih

/-- What a call takes that finds a link closed. Up to there it does what it does when the
links stay open. With open links it returns the samples that are out by then. Here they
are out of the packets and in no answer, for every channel as many. There are none just
if a call for one sample at most fails as well. -/
theorem recv_linkClosed {o : StreamOptions} {settings : Settings} {links : List Link}
    {r₀ : Receiver} (hbuilt : Built o settings links r₀) (hreach : Reachable r₀ r)
    (h : r.recv buffers wanted onePacket = some (r', .error .linkClosed)) :
    ∃ es r₁ got index metadata, Progress r buffers wanted es r₁ got ∧
      r' = { r₁ with warnings := r₁.warnings ++ [.linkClosed index .senderGone] } ∧
      r.opened.recv buffers wanted onePacket = some (r₁.opened, .ok { got with metadata }) ∧
      (∀ {i : Nat} {c : Channel} {l : Ledger}, r.channels[i]? = some c →
        l.Tracks r.order r.wireItem c → ∃ lost,
          (l.recordAll r.order r.wireItem i es).out = l.out ++ lost ∧
            lost.length = got.samples) ∧
      (got.samples = 0 ↔
        ∃ r₂, r.recv buffers (min wanted 1) onePacket = some (r₂, .error .linkClosed)) := by
  have hsettled : r.Settled := hreach.settled (settled_of_fresh hbuilt.fresh)
  rcases collect_of_error h with ⟨-, hne⟩ | ⟨hpending, hlength, hlimit, hroom, hcollect⟩
  · exact absurd rfl hne
  · have hstart := Progress.start hsettled buffers wanted
    obtain ⟨es, r₁, got, index, metadata, hp, hclosed, hopened⟩ :=
      collect_closed hstart hlength hcollect
    have hone : min wanted 1 * r.hostItem ≤ wanted * r.hostItem :=
      Nat.mul_le_mul_right _ (Nat.min_le_left _ _)
    refine ⟨es, r₁, got, index, metadata, hp, hclosed.after, ?_, fun hc ht => ?_, ?_⟩
    · have hcall : r.opened.recv buffers wanted onePacket =
          collect wanted onePacket (r.opened.backlog + 1) r.opened { buffers } :=
        recv_of_room hpending (hlength.trans r.length_opened.symm) hlimit hroom
      rw [hcall, backlog_opened]
      exact hopened
    · obtain ⟨lost, hout, hlost⟩ := hp.history.out hc ht
      exact ⟨lost, hout, hlost.trans hp.counts⟩
    · rw [recv_of_room hpending hlength (Nat.lt_of_le_of_lt hone hlimit)
        fun b hb => Nat.le_trans hone (hroom b hb)]
      have hiff := collect_one hstart hlength rfl hcollect hopened
      exact hiff

/-! ## A sample lost -/

/-- The only channel has nothing left, and its link is closed. -/
structure Drained (r : Receiver) (c : Channel) : Prop where
  pending : r.pending = none
  channels : r.channels = [c]
  vacant : c.held = none
  frames : c.link.frames = []
  closed : c.link.senderOpen = false

/-- No call on a drained stream returns samples, and it stays drained. -/
theorem Drained.recv {c : Channel} {result : Except StreamError Received} (hr : r.Drained c)
    (h : r.recv buffers wanted onePacket = some (r', result)) :
    (∃ e, result = .error e) ∧ r'.Drained c := by
  obtain ⟨r₁, hr₁⟩ :
      ∃ r₁ : Receiver, r₁ = { r with warnings := r.warnings ++ [.linkClosed 0 .senderGone] } :=
    ⟨_, rfl⟩
  have hfetch : r.fetch 0 c = some (r₁, .error .linkClosed) := by
    simp [fetch, Channel.fetch, Link.recv, hr.frames, hr.closed, hr₁]
  have hfill : r.fill (List.range r.channels.length) = some (r₁, .error .linkClosed) := by
    simp [hr.channels, List.range_succ, fill, hr.vacant, hfetch]
  have hready : r.ready = some (r₁, .error .linkClosed) := by
    have hany : r.channels.any (·.held.isNone) = true := by
      simp [hr.channels, hr.vacant]
    rw [ready, if_pos hany, align, alignWithin, hfill]
    rfl
  have hr₁' : r₁.Drained c := hr₁ ▸ ⟨hr.pending, hr.channels, hr.vacant, hr.frames, hr.closed⟩
  unfold Receiver.recv at h
  rw [hr.pending] at h
  dsimp only at h
  split at h
  · cases h
    exact ⟨⟨_, rfl⟩, hr⟩
  · obtain ⟨need, -, h⟩ := Option.bind_eq_some_iff.mp h
    split at h
    · cases h
      exact ⟨⟨_, rfl⟩, hr⟩
    · rw [collect, round, hready] at h
      cases h
      exact ⟨⟨_, rfl⟩, hr₁'⟩

end

/-- A packet of one sample came in, and then the link was closed. -/
def closedAfterOne : Receiver :=
  (oneChannel.onLink 0 (·.carry [0x10, 0, 0, 3, 0, 0, 0, 0, 0, 1, 0, 2])).onLink 0 Link.closeSender

theorem reachable_closedAfterOne : Reachable oneChannel closedAfterOne :=
  .linked (.linked .start 0 _) 0 _

/-- Whether a call found a link closed and left its stream drained. -/
def drains (answer : Answer) : Bool :=
  match answer with
  | (r, .error .linkClosed) => r.pending.isNone && match r.channels with
    | [c] => c.held.isNone && c.link.frames.isEmpty && !c.link.senderOpen
    | _ => false
  | _ => false

theorem exists_of_drains {answer : Checked Answer} (h : answer.map drains = some true) :
    ∃ r c, answer = some (r, .error .linkClosed) ∧ r.Drained c := by
  obtain ⟨a, rfl, hdrains⟩ := Option.map_eq_some_iff.mp h
  unfold drains at hdrains
  split at hdrains
  · rename_i r
    rw [Bool.and_eq_true] at hdrains
    obtain ⟨hpending, hdrains⟩ := hdrains
    split at hdrains
    · rename_i c hchannels
      simp only [Bool.and_eq_true, Option.isNone_iff_eq_none, List.isEmpty_iff,
        Bool.not_eq_true'] at hpending hdrains
      obtain ⟨⟨hvacant, hframes⟩, hclosed⟩ := hdrains
      exact ⟨r, c, rfl, hpending, hchannels, hvacant, hframes, hclosed⟩
    · cases hdrains
  · cases hdrains

/-- A call for two samples finds the link closed after the only one. -/
theorem closedAfterOne_drained :
    ∃ r c, closedAfterOne.recv [List.replicate 8 0] 2 false = some (r, .error .linkClosed) ∧
      r.Drained c :=
  exists_of_drains (by decide +kernel)

/-- With the link open it returns the sample. -/
theorem recv_linkClosed_afterOne :
    ∃ r' es r₁ got, Reachable oneChannel closedAfterOne ∧
      closedAfterOne.recv [List.replicate 8 0] 2 false = some (r', .error .linkClosed) ∧
      Progress closedAfterOne [List.replicate 8 0] 2 es r₁ got ∧ got.samples = 1 := by
  obtain ⟨r', c, hrecv, -⟩ := closedAfterOne_drained
  obtain ⟨es, r₁, got, index, metadata, hp, -, hopened, -, -⟩ :=
    recv_linkClosed built_oneChannel reachable_closedAfterOne hrecv
  have hseen : seen (closedAfterOne.opened.recv [List.replicate 8 0] 2 false) =
      some (1, [[1, 0, 2, 0, 0, 0, 0, 0]], []) := by decide +kernel
  obtain ⟨r₂, got₂, hgot₂, hsamples, -, -⟩ := exists_of_seen hseen
  cases hgot₂.symm.trans hopened
  exact ⟨r', es, r₁, got, reachable_closedAfterOne, hrecv, hp, hsamples⟩

/-- A call for one sample returns it. After the call for two nothing is held or in
flight, and neither the next call nor any after that returns anything. -/
theorem closing_loses_sample :
    ∃ r' c, Reachable oneChannel closedAfterOne ∧
      closedAfterOne.recv [List.replicate 8 0] 2 false = some (r', .error .linkClosed) ∧
      (∃ r₁ got, closedAfterOne.recv [List.replicate 8 0] 1 false = some (r₁, .ok got) ∧
        got.samples = 1 ∧ got.buffers = [[1, 0, 2, 0, 0, 0, 0, 0]]) ∧
      r'.Drained c ∧ ∀ (r : Receiver) (buffers : List Bytes) (wanted : Nat) (onePacket : Bool)
        (answer : Answer), r.Drained c → r.recv buffers wanted onePacket = some answer →
          (∃ e, answer.2 = .error e) ∧ answer.1.Drained c := by
  obtain ⟨r', c, hrecv, hdrained⟩ := closedAfterOne_drained
  have hseen : seen (closedAfterOne.recv [List.replicate 8 0] 1 false) =
      some (1, [[1, 0, 2, 0, 0, 0, 0, 0]], []) := by decide +kernel
  obtain ⟨r₁, got, hgot, hsamples, hbuffers, -⟩ := exists_of_seen hseen
  exact ⟨r', c, reachable_closedAfterOne, hrecv, ⟨r₁, got, hgot, hsamples, hbuffers⟩, hdrained,
    fun r buffers wanted onePacket answer hr h => hr.recv h⟩

end SampleStream.Receiver
