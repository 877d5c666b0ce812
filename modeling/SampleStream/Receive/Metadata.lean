import SampleStream.Time.Timestamp

/-!
# Metadata of receive calls

Every receive call tells what it met: the time and the place of the samples it
returned, the ends of bursts, and at most one condition by its code.
-/

namespace SampleStream.Receive

/-! ## Conditions -/

/-- A condition that a receive call reports. -/
inductive Code where
  /-- Nothing to report. -/
  | none
  /-- No packet came in time. -/
  | timeout
  /-- The device got a command too late. -/
  | lateCommand
  /-- The device expected another command. -/
  | brokenChain
  /-- Samples were lost, by the device or on the link. -/
  | overflow
  /-- The channels could not be brought to a common time. -/
  | alignment
  /-- A packet could not be parsed. -/
  | badPacket
deriving DecidableEq, Repr, Inhabited

namespace Code

/-- The number of a code, which is how the device names it. -/
def number : Code → Nat
  | none => 0x0
  | timeout => 0x1
  | lateCommand => 0x2
  | brokenChain => 0x4
  | overflow => 0x8
  | alignment => 0xc
  | badPacket => 0xf

/-- The code of a number. -/
def ofNumber? : Nat → Option Code
  | 0x0 => some none
  | 0x1 => some timeout
  | 0x2 => some lateCommand
  | 0x4 => some brokenChain
  | 0x8 => some overflow
  | 0xc => some alignment
  | 0xf => some badPacket
  | _ => Option.none

/-- The name of a code. -/
def name : Code → String
  | none => "ERROR_CODE_NONE"
  | timeout => "ERROR_CODE_TIMEOUT"
  | lateCommand => "ERROR_CODE_LATE_COMMAND"
  | brokenChain => "ERROR_CODE_BROKEN_CHAIN"
  | overflow => "ERROR_CODE_OVERFLOW"
  | alignment => "ERROR_CODE_ALIGNMENT"
  | badPacket => "ERROR_CODE_BAD_PACKET"

theorem ofNumber?_number (c : Code) : ofNumber? c.number = some c := by
  cases c <;> rfl

theorem number_of_ofNumber? {n : Nat} {c : Code} (h : ofNumber? n = some c) :
    c.number = n := by
  unfold ofNumber? at h
  split at h <;> cases h <;> rfl

end Code

/-! ## Metadata -/

/-- What a receive call tells about the samples it returned. -/
structure Metadata where
  /-- The channel that the metadata is about. -/
  channel : Nat := 0
  /-- Time of the first sample. -/
  time : Option Time := none
  /-- Samples of the packet remain for the next call. -/
  moreFragments : Bool := false
  /-- Position of the first sample in its packet. -/
  fragmentOffset : Nat := 0
  startOfBurst : Bool := false
  endOfBurst : Bool := false
  /-- Packets are missing before the samples. -/
  outOfSequence : Bool := false
  code : Code := .none

namespace Metadata

/-- What the code means. An overflow is the fault of the link when packets are
missing and of the device otherwise. -/
def explanation (m : Metadata) : String :=
  match m.code with
  | .none => "no error"
  | .timeout => "no packet received, implementation timed out"
  | .lateCommand => "a stream command was issued in the past"
  | .brokenChain => "expected another stream command"
  | .overflow =>
    if m.outOfSequence then "dropped packet detected on the link"
    else "an internal receive buffer has filled"
  | .alignment => "multi-channel alignment failed"
  | .badPacket => "the packet could not be parsed"

/-- The name of the code and what it means. -/
def condition (m : Metadata) : String := m.code.name ++ ": " ++ m.explanation

/-- What there is to tell, on one line. -/
def text (m : Metadata) : String :=
  let part (holds : Bool) (text : String) : List String := if holds then [text] else []
  ", ".intercalate <|
    (m.time.toList.map fun t => "Time: " ++ t.text)
      ++ part m.moreFragments ("Fragment offset: " ++ toString m.fragmentOffset)
      ++ part m.startOfBurst "SOB"
      ++ part m.endOfBurst "EOB"
      ++ part (m.code ≠ .none) m.condition

/-- Everything, a line for each field. -/
def description (m : Metadata) : String :=
  "RX metadata:\n  Channel: " ++ toString m.channel
    ++ "\n  Time: " ++ (m.time.map Timestamp.text).getD "none"
    ++ "\n  More fragments: " ++ toString m.moreFragments
    ++ " (offset " ++ toString m.fragmentOffset ++ ")"
    ++ "\n  Start of burst: " ++ toString m.startOfBurst
    ++ "\n  End of burst: " ++ toString m.endOfBurst
    ++ "\n  Out of sequence: " ++ toString m.outOfSequence
    ++ "\n  Error: " ++ m.condition ++ "\n"

end Metadata
end SampleStream.Receive
