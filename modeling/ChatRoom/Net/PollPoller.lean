import Mathlib.Algebra.Order.Group.Int
import ChatRoom.Core.SortedMap
import ChatRoom.Net.PollerAgreement

/-!
# PollPoller

The poller of `net/PollPoller.cpp`, which keeps an array of `pollfd` for `poll(2)` and the
slot of a channel in its `m_index`. A slot is put to sleep by negating its descriptor. The
owner checks of `EventLoop` pass, as for `EPollPoller`, and `none` is undefined behaviour:
an index outside the array or a null pointer.
-/

namespace ChatRoom.Net

open ChatRoom.Core

/-- The descriptor, the events asked for and `m_index`. -/
structure SlotChannel where
  fd : Nat
  events : BitVec 32
  index : Int
  deriving DecidableEq, Repr

namespace SlotChannel

/-- A channel as its constructor leaves it. -/
def new (fd : Nat) : SlotChannel := ⟨fd, Channel.kNoneEvent, -1⟩

/-- `isNoneEvent`. -/
def isNoneEvent (ch : SlotChannel) : Bool := ch.events == Channel.kNoneEvent

end SlotChannel

/-- `struct pollfd`. -/
structure PollFd where
  fd : Int
  events : BitVec 16
  revents : BitVec 16
  deriving DecidableEq, Repr

/-- The channel objects by address, `m_channels` by descriptor, and `m_pollfds`. -/
structure PollPoller where
  objects : Nat → SlotChannel
  channels : SortedMap Int Nat
  pollfds : List PollFd

namespace PollPoller

/-- A poller with nothing registered, and channels for some descriptors. -/
def new (fd : Nat → Nat) : PollPoller := ⟨fun c => SlotChannel.new (fd c), SortedMap.empty, []⟩

/-- The index of a channel is set. -/
def setIndex (p : PollPoller) (c : Nat) (index : Int) : PollPoller :=
  { p with objects := Function.update p.objects c { p.objects c with index := index } }

/-- The interest of a channel is set. -/
def setEvents (p : PollPoller) (c : Nat) (events : BitVec 32) : PollPoller :=
  { p with objects := Function.update p.objects c { p.objects c with events := events } }

/-- `updateChannel`; false where the source uses a channel or an index that is not there. -/
def updateChannel (p : PollPoller) (c : Nat) : PollPoller × Bool :=
  let ch := p.objects c
  if ch.index < 0 then
    if (p.channels.get? ch.fd).isSome then (p, false)
    else
      let pfd : PollFd := ⟨ch.fd, ch.events.setWidth 16, 0⟩
      let pushed := { p with pollfds := p.pollfds ++ [pfd] }
      let indexed := pushed.setIndex c (pushed.pollfds.length - 1)
      ({ indexed with channels := indexed.channels.insert ch.fd c }, true)
  else if p.channels.get? ch.fd ≠ some c then (p, false)
  else
    match p.pollfds[ch.index.toNat]? with
    | none => (p, false)
    | some pfd =>
      let fd : Int := if ch.isNoneEvent then -ch.fd - 1 else pfd.fd
      ({ p with pollfds := p.pollfds.set ch.index.toNat ⟨fd, ch.events.setWidth 16, 0⟩ }, true)

/-- The test of the index is written so that it never holds. -/
def removeChannel (p : PollPoller) (c : Nat) : Option PollPoller :=
  let ch := p.objects c
  if p.channels.get? ch.fd ≠ some c ∨ !ch.isNoneEvent then some p
  else if 0 > ch.index ∧ ch.index ≥ p.pollfds.length then some p
  else if 0 > ch.index ∨ ch.index ≥ p.pollfds.length then none
  else
    let erased := { p with channels := p.channels.erase ch.fd }
    if ch.index = p.pollfds.length - 1 then some { erased with pollfds := p.pollfds.dropLast }
    else
      p.pollfds.getLast?.bind fun back =>
        let channelAtEnd := if back.fd < 0 then -back.fd - 1 else back.fd
        (erased.channels.get? channelAtEnd).map fun atEnd =>
          { erased.setIndex atEnd ch.index with
            pollfds := (p.pollfds.set ch.index.toNat back).dropLast }

/-- `enableReading`. -/
def enableReading (p : PollPoller) (c : Nat) : PollPoller × Bool :=
  (p.setEvents c ((p.objects c).events ||| Channel.kReadEvent)).updateChannel c

/-- `disableReading`. -/
def disableReading (p : PollPoller) (c : Nat) : PollPoller × Bool :=
  (p.setEvents c ((p.objects c).events &&& ~~~Channel.kReadEvent)).updateChannel c

/-- `enableWriting`. -/
def enableWriting (p : PollPoller) (c : Nat) : PollPoller × Bool :=
  (p.setEvents c ((p.objects c).events ||| Channel.kWriteEvent)).updateChannel c

/-- `disableWriting`. -/
def disableWriting (p : PollPoller) (c : Nat) : PollPoller × Bool :=
  (p.setEvents c ((p.objects c).events &&& ~~~Channel.kWriteEvent)).updateChannel c

/-- `disableAll`. -/
def disableAll (p : PollPoller) (c : Nat) : PollPoller × Bool :=
  (p.setEvents c Channel.kNoneEvent).updateChannel c

/-- `Channel::remove`. -/
def remove (p : PollPoller) (c : Nat) : Option PollPoller :=
  if (p.objects c).isNoneEvent then p.removeChannel c else some p

/-- An operation of the channel at address `c`. -/
def operate (p : PollPoller) (c : Nat) : ChannelOp → Option PollPoller
  | .enableReading => some (p.enableReading c).1
  | .disableReading => some (p.disableReading c).1
  | .enableWriting => some (p.enableWriting c).1
  | .disableWriting => some (p.disableWriting c).1
  | .disableAll => some (p.disableAll c).1
  | .remove => p.remove c

end PollPoller

/-- A call on a channel, which nothing follows once the behaviour is undefined. -/
def slotStep (s : Option PollPoller) (call : Nat × ChannelOp) : Option PollPoller :=
  s.bind fun p => p.operate call.1 call.2

end ChatRoom.Net
