import Mathlib.Data.List.Forall2
import Mathlib.Data.List.Induction
import Mathlib.Data.List.ReduceOption
import Mathlib.Data.Nat.Bitwise
import SampleStream.Proofs.Packet.Frames
import SampleStream.Report.Worker

/-!
# What a worker collects

The reports in the frames of a link are read off the words of the frames
(`Report.Describes`), and each has a letter that its bits decide (`EventCode.letter`). A
worker that met some reports is a function of them: it holds the newest that fit, it
evicted the others and it showed the letters of all (`ReportWorker.holding`). Each frame
takes this to the same with one report more or leaves it alone, so that a whole script of
frames does so with all of its reports (`run_holds_newest`).
-/

namespace SampleStream

/-! ## Letters -/

namespace EventCode

/-- The letter that the bits of a set of events ask for: an underflow before a missed
packet, that before a late one. -/
def letter (e : EventCode) : Option Char :=
  let bit := e.bits.toNat.testBit
  if bit 1 || bit 4 then some 'U'
  else if bit 2 || bit 5 then some 'S'
  else if bit 3 then some 'L'
  else Option.none

theorem meets_bit (e : EventCode) {mask : UInt32} {k : Nat} (hmask : mask.toNat = 2 ^ k) :
    e.meets mask = e.bits.toNat.testBit k := by
  have hand : (e.bits &&& mask).toNat = (e.bits.toNat.testBit k).toNat * 2 ^ k := by
    rw [UInt32.toNat_and, hmask, Nat.and_two_pow]
  rw [Bool.eq_iff_iff, meets, bne_iff_ne, ne_eq, ← UInt32.toNat_inj, hand]
  cases e.bits.toNat.testBit k <;> simp

theorem meets_or (e : EventCode) (mask mask' : UInt32) :
    e.meets (mask ||| mask') = (e.meets mask || e.meets mask') := by
  have hsplit : e.bits &&& (mask ||| mask') = (e.bits &&& mask) ||| (e.bits &&& mask') := by
    apply UInt32.toNat_inj.mp
    simp only [UInt32.toNat_and, UInt32.toNat_or, Nat.and_or_distrib_left]
  rw [Bool.eq_iff_iff, Bool.or_eq_true, meets, meets, meets, bne_iff_ne, bne_iff_ne, bne_iff_ne,
    hsplit, ne_eq, UInt32.or_eq_zero_iff, Decidable.not_and_iff_not_or_not]

theorem letter_marker (e : EventCode) : e.marker.map Marker.letter = e.letter := by
  rw [marker, letter, meets_or, meets_or, meets_bit e (k := 1) rfl, meets_bit e (k := 4) rfl,
    meets_bit e (k := 2) rfl, meets_bit e (k := 5) rfl, meets_bit e (k := 3) rfl]
  split
  · rfl
  · split
    · rfl
    · split <;> rfl

end EventCode

/-! ## Reports in frames -/

namespace Report

/-- Whether a frame holds a report: it is a context packet with a payload. -/
def isIn (order : ByteOrder) (frame : Bytes) : Bool :=
  match Header.unpack order frame with
  | .ok (h, extent) => h.packetClass = .context && extent.payload != 0
  | .error _ => false

/-- The word with index `k` of the payload of a frame, zero where the payload has ended. -/
def payloadWord (order : ByteOrder) (frame : Bytes) (extent : Extent) (k : Nat) : UInt32 :=
  if k < extent.payload then order.wordAt frame (extent.header + k) else 0

/-- What the report in a frame with header `h` says, field by field. -/
structure Says (order : ByteOrder) (rate : Float) (channel : Nat) (frame : Bytes) (h : Header)
    (extent : Extent) (r : Report) : Prop where
  channel : r.channel = channel
  timed : r.timed = h.fractionalTime.isSome
  time : timeOfField h.fractionalTime rate = some r.time
  event : r.event.bits = payloadWord order frame extent 0 &&& 0xff
  payload : ∀ k : Fin 4, r.payload[k] = payloadWord order frame extent (k + 1)

/-- `r` is the report in a frame. -/
def Describes (order : ByteOrder) (rate : Float) (channel : Nat) (frame : Bytes)
    (r : Report) : Prop :=
  ∃ h extent, Header.unpack order frame = .ok (h, extent) ∧
    Says order rate channel frame h extent r

/-- Whether the time in a frame is in range. -/
def reckons (order : ByteOrder) (rate : Float) (frame : Bytes) : Bool :=
  match Header.unpack order frame with
  | .ok (h, _) => (timeOfField h.fractionalTime rate).isSome
  | .error _ => true

variable {order : ByteOrder} {rate : Float} {channel : Nat} {frame : Bytes}

theorem payloadWord_eq {extent : Extent} {payload : Bytes}
    (hpayload : extent.payloadOf frame = some payload) (k : Nat) :
    payloadWord order frame extent k =
      if 4 * (k + 1) ≤ payload.length then order.wordAt payload k else 0 := by
  have hlength := length_of_slice hpayload
  obtain ⟨-, rfl⟩ := slice_eq_some.mp hpayload
  rw [payloadWord]
  by_cases hk : k < extent.payload
  · rw [if_pos hk, if_pos (by omega), ByteOrder.wordAt_eq_take, ByteOrder.wordAt_eq_take,
      List.drop_take, List.drop_drop, List.take_take, Nat.mul_add, Nat.min_eq_left (by omega)]
  · rw [if_neg hk, if_neg (by omega)]

theorem ofFrame_of_isIn (channel : Nat) (hreport : isIn order frame = true)
    (htime : reckons order rate frame = true) :
    ∃ r, ofFrame order frame rate channel = some (some r) ∧
      Describes order rate channel frame r := by
  unfold isIn at hreport
  split at hreport
  · rename_i h extent hunpack
    rw [reckons, hunpack] at htime
    obtain ⟨time, hreckoned⟩ := Option.isSome_iff_exists.mp htime
    obtain ⟨payload, hpayload⟩ := Header.payloadOf_of_unpack hunpack
    have hholds : h.packetClass = .context ∧ extent.payload ≠ 0 := by simpa using hreport
    let r : Report :=
      { channel, timed := h.fractionalTime.isSome, time
        event := ⟨payloadWord order frame extent 0 &&& 0xff⟩
        payload := Vector.ofFn fun k => payloadWord order frame extent (k + 1) }
    have hread : ofFrame order frame rate channel = some (some r) := by
      simp only [r, payloadWord_eq hpayload, ofFrame, hunpack, if_pos hholds, hpayload, ofPacket,
        hreckoned]
      rfl
    exact ⟨r, hread, h, extent, hunpack, rfl, rfl, hreckoned, rfl, fun k =>
      Vector.getElem_ofFn ..⟩
  · cases hreport

theorem ofFrame_of_not_isIn (hreport : isIn order frame = false) :
    ofFrame order frame rate channel = some none := by
  unfold isIn at hreport
  rw [ofFrame]
  split at hreport
  · rename_i h extent hunpack
    have hholds : ¬ (h.packetClass = .context ∧ extent.payload ≠ 0) := by simpa using hreport
    rw [hunpack]
    exact if_neg hholds
  · rename_i e hunpack
    rw [hunpack]

end Report

/-! ## The newest elements -/

namespace BoundedQueue

variable {α : Type}

/-- The queue after the elements of `all` were pushed and none was taken: the newest that
fit are in it and the others were evicted. -/
def holding (q : BoundedQueue α) (all : List α) : BoundedQueue α :=
  { q with
    items := all.drop (all.length - q.capacity)
    evicted := all.length - q.capacity }

theorem isFull_holding (q : BoundedQueue α) (all : List α) :
    (q.holding all).isFull = decide (q.capacity ≤ all.length) := by
  simp only [isFull, holding, List.length_drop, decide_eq_decide]
  omega

theorem pushEvicting_holding (q : BoundedQueue α) (all : List α) (x : α) :
    (q.holding all).pushEvicting x = q.holding (all ++ [x]) := by
  have hpos := q.capacity_pos
  rw [pushEvicting, isFull_holding]
  by_cases hfull : q.capacity ≤ all.length
  · have hmore : all.length + 1 - q.capacity = all.length - q.capacity + 1 := by omega
    have hdrop : (all ++ [x]).drop (all.length - q.capacity + 1) =
        all.drop (all.length - q.capacity + 1) ++ [x] := List.drop_append_of_le_length (by omega)
    simp only [hfull, decide_true, if_true, holding, List.tail_drop, List.length_append,
      List.length_singleton, hmore, hdrop]
  · have hnone : all.length + 1 - q.capacity = 0 := by omega
    have hbefore : all.length - q.capacity = 0 := by omega
    simp only [hfull, decide_false, Bool.false_eq_true, if_false, holding, List.length_append,
      List.length_singleton, hnone, hbefore, List.drop_zero]

end BoundedQueue

/-! ## A worker and its script -/

namespace ReportWorker

variable {w : ReportWorker} {reports : List Report} {frame : Bytes}

/-- The worker after it met `reports`. -/
def holding (w : ReportWorker) (reports : List Report) : ReportWorker :=
  { w with
    queue := w.queue.holding reports
    markers := reports.flatMap fun r => r.event.marker.toList }

theorem letters_holding (w : ReportWorker) (reports : List Report) :
    Marker.letters (w.holding reports).markers =
      String.ofList (reports.filterMap (·.event.letter)) := by
  rw [Marker.letters, holding, List.map_flatMap, List.filterMap_eq_flatMap_toList]
  simp only [← Option.toList_map, EventCode.letter_marker]

theorem accept_holding (w : ReportWorker) (reports : List Report) (r : Report) :
    (w.holding reports).accept r = w.holding (reports ++ [r]) := by
  simp only [accept, holding, BoundedQueue.pushEvicting_holding, List.flatMap_append,
    List.flatMap_singleton]

theorem take_of_isIn (hrunning : w.running = true) (hreport : Report.isIn w.order frame = true)
    (htime : Report.reckons w.order w.rate frame = true) :
    ∃ r, Report.Describes w.order w.rate w.channel frame r ∧
      (w.holding reports).take frame = w.holding (reports ++ [r]) := by
  obtain ⟨r, hr, hdescribes⟩ := Report.ofFrame_of_isIn w.channel hreport htime
  refine ⟨r, hdescribes, ?_⟩
  rw [← accept_holding, take, if_pos (show (w.holding reports).running = true from hrunning)]
  -- what the worker met does not change how it reads
  have hread : Report.ofFrame (w.holding reports).order frame (w.holding reports).rate
      (w.holding reports).channel = some (some r) := hr
  rw [hread]

theorem take_of_not_isIn (hreport : Report.isIn w.order frame = false) :
    w.take frame = w := by
  rw [take, Report.ofFrame_of_not_isIn hreport]
  split <;> rfl

/-- What a script of frames leaves behind is what its reports do. -/
theorem foldl_holding (hrunning : w.running = true) (script : List (Option Bytes))
    (htime : ∀ frame ∈ script.reduceOption, Report.isIn w.order frame = true →
      Report.reckons w.order w.rate frame = true) :
    ∃ reports, List.Forall₂ (Report.Describes w.order w.rate w.channel)
        (script.reduceOption.filter (Report.isIn w.order)) reports ∧
      script.foldl (fun w event => event.elim w w.take) (w.holding []) = w.holding reports := by
  induction script using List.reverseRecOn with
  | nil => exact ⟨[], .nil, rfl⟩
  | append_singleton script event ih =>
    obtain ⟨reports, hreports, hfold⟩ := ih fun frame hframe => htime frame (by
      rw [List.reduceOption_append]
      exact List.mem_append_left _ hframe)
    rw [List.foldl_concat, hfold, List.reduceOption_append, List.filter_append]
    cases event with
    | none => exact ⟨reports, by simpa using hreports, rfl⟩
    | some frame =>
      have hlast : frame ∈ (script ++ [some frame]).reduceOption := by
        simp [List.reduceOption_append]
      rw [List.reduceOption_cons_of_some, List.reduceOption_nil, Option.elim_some]
      cases hreport : Report.isIn w.order frame with
      | false =>
        refine ⟨reports, ?_, take_of_not_isIn hreport⟩
        rwa [List.filter_singleton, hreport, cond_false, List.append_nil]
      | true =>
        obtain ⟨r, hr, htake⟩ := take_of_isIn hrunning hreport (htime frame hlast hreport)
        refine ⟨reports ++ [r], ?_, htake⟩
        rw [List.filter_singleton, hreport, cond_true]
        exact List.rel_append hreports (.cons hr .nil)

/-- A worker that met nothing yet, with a queue of its own. -/
def fresh (order : ByteOrder) (rate : Float) (channel : Nat) {capacity : Nat}
    (hcapacity : 0 < capacity) : ReportWorker :=
  { order, rate, channel, queue := { capacity, capacity_pos := hcapacity } }

theorem holding_nil_fresh {order : ByteOrder} {rate : Float} {channel capacity : Nat}
    (hcapacity : 0 < capacity) :
    (fresh order rate channel hcapacity).holding [] = fresh order rate channel hcapacity := by
  simp [holding, fresh, BoundedQueue.holding]

/-- Whatever comes on the link, and when: once it is closed, the queue holds the newest of
the reports in the frames that came, as many as fit, oldest first. The others were evicted
and counted, and the letters of all of them were shown in their order. -/
theorem run_holds_newest (order : ByteOrder) (rate : Float) (channel : Nat) {capacity : Nat}
    (hcapacity : 0 < capacity) (script : List (Option Bytes))
    (htime : ∀ frame ∈ script.reduceOption, Report.isIn order frame = true →
      Report.reckons order rate frame = true) :
    ∃ reports, List.Forall₂ (Report.Describes order rate channel)
        (script.reduceOption.filter (Report.isIn order)) reports ∧
      let kept := min capacity reports.length
      let w := (fresh order rate channel hcapacity).run script
      w.running = false ∧
        w.queue.items = reports.drop (reports.length - kept) ∧
        w.queue.evicted = reports.length - kept ∧
        Marker.letters w.markers = String.ofList (reports.filterMap (·.event.letter)) := by
  obtain ⟨reports, hreports, hfold⟩ :=
    foldl_holding (w := fresh order rate channel hcapacity) rfl script htime
  have hkept : reports.length - min capacity reports.length = reports.length - capacity := by
    omega
  rw [holding_nil_fresh] at hfold
  refine ⟨reports, hreports, ?_⟩
  dsimp only
  rw [run, hfold, hkept]
  exact ⟨rfl, rfl, rfl, letters_holding (fresh order rate channel hcapacity) reports⟩

/-- An underflow, at tick 5. -/
def underflowFrame : Bytes :=
  [0x40, 0x30, 0, 5, 0, 0, 0, 7, 0, 0, 0, 0, 0, 0, 0, 5, 0, 0, 0, 0x0a]

/-- A missed packet, with one word more than a report has. -/
def missedFrame : Bytes :=
  [0x40, 0, 0, 8, 0, 0, 0, 7, 0, 0, 1, 0x20, 0, 0, 0, 1, 0, 0, 0, 2, 0, 0, 0, 3, 0, 0, 0, 4,
    0, 0, 0, 5]

/-- Two reports come, beside a frame that is no packet, and one fits. -/
theorem run_holds_newest_one_of_two :
    ∃ r r', Report.Describes .big 1 0 underflowFrame r ∧
      Report.Describes .big 1 0 missedFrame r' ∧
      let w := (fresh .big 1 0 Nat.one_pos).run
        [some underflowFrame, none, some [0x40], some missedFrame]
      w.running = false ∧ w.queue.items = [r'] ∧ w.queue.evicted = 1 := by
  obtain ⟨reports, hreports, hended, hitems, hevicted, -⟩ :=
    run_holds_newest .big 1 0 Nat.one_pos
      [some underflowFrame, none, some [0x40], some missedFrame] (by decide +kernel)
  have hframes : [some underflowFrame, none, some [0x40], some missedFrame].reduceOption.filter
      (Report.isIn .big) = [underflowFrame, missedFrame] := by decide +kernel
  rw [hframes] at hreports
  cases hreports with
  | cons hr hrest =>
    cases hrest with
    | cons hr' hnone =>
      cases hnone
      exact ⟨_, _, hr, hr', hended, hitems, hevicted⟩

end ReportWorker
end SampleStream
