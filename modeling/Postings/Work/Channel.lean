/-!
# A channel for one value

A channel has a sending and a receiving end, and each of them is used once.  It
is pending until the value is sent or the sending end is given up; then the
receiving end gets the value, or nothing.
-/

namespace Postings

/-- What is in a channel. -/
inductive Slot (α : Type) where
  /-- The value may still come. -/
  | pending
  /-- The value is there. -/
  | ready (value : α)
  /-- The value was taken, or will not come. -/
  | closed
  deriving DecidableEq, Repr

/-- A channel and its two ends. -/
structure Channel (α : Type) where
  /-- What is in it. -/
  slot : Slot α
  /-- The sending end has not been used. -/
  sender : Bool
  /-- The receiving end has not been used. -/
  receiver : Bool := true
  deriving DecidableEq, Repr

/-- What comes out at the receiving end. -/
inductive Reception (α : Type) where
  /-- The end was used before. -/
  | gone
  /-- Nothing can be said yet. -/
  | blocked
  /-- The value, or nothing if it will not come. -/
  | received (value : Option α)
  deriving DecidableEq, Repr

namespace Channel

variable {α : Type}

/-- A channel with both ends. -/
def opened : Channel α := { slot := .pending, sender := true }

/-- A receiving end that has its value. -/
def ready (value : α) : Channel α := { slot := .ready value, sender := false }

/-- Sends a value, if the sending end is there. -/
def send? (channel : Channel α) (value : α) : Option (Channel α) :=
  if channel.sender then some { channel with slot := .ready value, sender := false } else none

/-- Gives up the sending end, if it is there. -/
def drop? (channel : Channel α) : Option (Channel α) :=
  if channel.sender then some { channel with slot := .closed, sender := false } else none

/-- Whether the value may still come; asked at the receiving end. -/
def isPending? (channel : Channel α) : Option Bool :=
  if channel.receiver then
    match channel.slot with
    | .pending => some true
    | _ => some false
  else none

/-- Takes the value at the receiving end. -/
def receive (channel : Channel α) : Reception α × Channel α :=
  if channel.receiver then
    match channel.slot with
    | .pending => (.blocked, channel)
    | .ready value => (.received (some value), { channel with slot := .closed, receiver := false })
    | .closed => (.received none, { channel with receiver := false })
  else (.gone, channel)

@[simp] theorem receive_ready (value : α) :
    (ready value).receive.1 = .received (some value) := rfl

/-- What is sent is received. -/
theorem receive_send {channel sent : Channel α} {value : α} (h : channel.receiver = true)
    (hsend : channel.send? value = some sent) : sent.receive.1 = .received (some value) := by
  unfold send? at hsend
  split at hsend
  · cases hsend
    simp [receive, h]
  · cases hsend

end Channel
end Postings
