import SampleStream.Bytes

/-!
# Links

A link carries whole frames from one sender to one receiver, in order and
without loss. It holds a limited number of frames in flight and takes no frame
above a size limit. Either end may close. Frames in flight outlive their
sender; nothing is taken from a sender whose receiver is gone.
-/

namespace SampleStream

/-- A link and the frames in flight on it, oldest first. -/
structure Link where
  depth : Nat
  maxFrame : Nat := 8000
  frames : List Bytes := []
  senderOpen : Bool := true
  receiverOpen : Bool := true
deriving DecidableEq, Repr

/-- Why a link refuses for good. -/
inductive LinkError where
  /-- The frame is above the size limit. -/
  | oversized (size limit : Nat)
  | receiverGone
  | senderGone
deriving DecidableEq, Repr

/-- The text of a link error. -/
def LinkError.message : LinkError → String
  | oversized size limit =>
    "frame of " ++ toString size ++ " bytes exceeds " ++ toString limit
  | receiverGone => "receiver dropped"
  | senderGone => "sender dropped"

namespace Link

/-- The bytes that a link sets aside for a frame in flight. -/
def slotBytes : Nat := 64

/-- The link with one more frame in flight. -/
def carry (l : Link) (frame : Bytes) : Link := { l with frames := l.frames ++ [frame] }

/-- The link with a frame sent on it, or nothing when no more frames fit. A link
of depth zero has no room at all. -/
def send (l : Link) (frame : Bytes) : Except LinkError (Option Link) :=
  if l.maxFrame < frame.length then .error (.oversized frame.length l.maxFrame)
  else if !l.receiverOpen then .error .receiverGone
  else if l.depth ≤ l.frames.length then .ok none
  else .ok (some (l.carry frame))

/-- The oldest frame and the link without it, or nothing when none is there
yet. -/
def recv (l : Link) : Except LinkError (Option (Bytes × Link)) :=
  match l.frames with
  | frame :: rest => .ok (some (frame, { l with frames := rest }))
  | [] => if l.senderOpen then .ok none else .error .senderGone

/-- The link after the sender is gone. -/
def closeSender (l : Link) : Link := { l with senderOpen := false }

/-- The link after the receiver is gone. -/
def closeReceiver (l : Link) : Link := { l with receiverOpen := false }

/-- A link with nothing in flight, if storage can be found for its frames. -/
def create (depth maxFrame : Nat) : Checked Link :=
  (fitStorage (slotBytes * depth)).map fun _ => { depth, maxFrame }

/-! ## Lemmas -/

theorem frames_of_send {l l' : Link} {frame : Bytes} (h : l.send frame = .ok (some l')) :
    l'.frames = l.frames ++ [frame] ∧ frame.length ≤ l.maxFrame := by
  unfold send at h
  split at h
  · cases h
  · split at h
    · cases h
    · split at h
      · cases h
      · cases h
        exact ⟨rfl, by omega⟩

theorem frames_of_recv {l l' : Link} {frame : Bytes}
    (h : l.recv = .ok (some (frame, l'))) : l.frames = frame :: l'.frames := by
  unfold recv at h
  split at h
  · rename_i hframes
    cases h
    exact hframes
  · split at h <;> cases h

end Link
end SampleStream
