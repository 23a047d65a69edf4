import Mathlib.Logic.Function.Basic

/-!
# Channel and EPollPoller

A channel is named by its address and belongs to the loop of the poller it is
registered with, so the owner checks of `EventLoop::updateChannel` and
`removeChannel` pass and are left out. `interest` is the kernel's side of
`epoll_ctl`: adding a registered descriptor fails, and so does changing or
deleting one that is not registered. A kernel that is `full` refuses to add.
-/

namespace ChatRoom.Net

/-- `XPOLLIN`. -/
def xpollIn : BitVec 32 := 0x1
/-- `XPOLLPRI`. -/
def xpollPri : BitVec 32 := 0x2
/-- `XPOLLOUT`. -/
def xpollOut : BitVec 32 := 0x4
/-- `XPOLLERR`. -/
def xpollErr : BitVec 32 := 0x8
/-- `XPOLLHUP`. -/
def xpollHup : BitVec 32 := 0x10
/-- `XPOLLNVAL`. -/
def xpollNval : BitVec 32 := 0x20
/-- `XPOLLRDHUP`. -/
def xpollRdhup : BitVec 32 := 0x2000

/-- A mask shares a bit with another: the test `m & mask` of the source. -/
def hasBits (m mask : BitVec 32) : Bool := m &&& mask != 0

/-- The values of `m_index`. -/
inductive ChannelIndex where
  | kNew
  | kAdded
  | kDeleted
  deriving DecidableEq, Repr

/-- The descriptor, the events asked for and the poller's mark on the channel. -/
structure Channel where
  fd : Nat
  events : BitVec 32
  index : ChannelIndex
  deriving DecidableEq, Repr

namespace Channel

/-- `kNoneEvent`. -/
def kNoneEvent : BitVec 32 := 0
/-- `kReadEvent`. -/
def kReadEvent : BitVec 32 := xpollIn ||| xpollPri
/-- `kWriteEvent`. -/
def kWriteEvent : BitVec 32 := xpollOut

/-- A channel as its constructor leaves it. -/
def new (fd : Nat) : Channel := ⟨fd, kNoneEvent, .kNew⟩

/-- `isNoneEvent`. -/
def isNoneEvent (ch : Channel) : Bool := ch.events == kNoneEvent

/-- `isWriting`. -/
def isWriting (ch : Channel) : Bool := hasBits ch.events kWriteEvent

end Channel

/-- The operations of `epoll_ctl`. -/
inductive EpollCtl where
  | add
  | mod
  | del
  deriving DecidableEq, Repr

/-- The channel objects by address, `m_channels` by descriptor, and the kernel's
interest set: for a descriptor the address it was registered with and the events. -/
structure EPollPoller where
  objects : Nat → Channel
  channels : Nat → Option Nat
  interest : Nat → Option (Nat × BitVec 32)
  full : Bool

namespace EPollPoller

/-- A poller with nothing registered. -/
def new (objects : Nat → Channel) : EPollPoller := ⟨objects, fun _ => none, fun _ => none, false⟩

/-- The index of a channel is set. -/
def setIndex (p : EPollPoller) (c : Nat) (index : ChannelIndex) : EPollPoller :=
  { p with objects := Function.update p.objects c { p.objects c with index := index } }

/-- The interest of a channel is set, without telling the kernel. -/
def setEvents (p : EPollPoller) (c : Nat) (events : BitVec 32) : EPollPoller :=
  { p with objects := Function.update p.objects c { p.objects c with events := events } }

/-- `epoll_ctl` on the descriptor of a channel, with the events of the channel. -/
def update (p : EPollPoller) (operation : EpollCtl) (c : Nat) : EPollPoller × Bool :=
  let ch := p.objects c
  match operation with
  | .add =>
    if (p.interest ch.fd).isSome || p.full then (p, false)
    else ({ p with interest := Function.update p.interest ch.fd (some (c, ch.events)) }, true)
  | .mod =>
    if (p.interest ch.fd).isNone then (p, false)
    else ({ p with interest := Function.update p.interest ch.fd (some (c, ch.events)) }, true)
  | .del =>
    if (p.interest ch.fd).isNone then (p, false)
    else ({ p with interest := Function.update p.interest ch.fd none }, true)

/-- `updateChannel`: the index says whether the channel is new to the poller, known to the kernel,
or taken out of it. -/
def updateChannel (p : EPollPoller) (c : Nat) : EPollPoller × Bool :=
  let ch := p.objects c
  match ch.index with
  | .kNew =>
    if (p.channels ch.fd).isSome then (p, false)
    else
      let entered := { p with channels := Function.update p.channels ch.fd (some c) }
      (entered.setIndex c .kAdded).update .add c
  | .kDeleted =>
    if p.channels ch.fd ≠ some c then (p, false) else (p.setIndex c .kAdded).update .add c
  | .kAdded =>
    if p.channels ch.fd ≠ some c then (p, false)
    else if ch.isNoneEvent then
      let deleted := p.update .del c
      if deleted.2 then (deleted.1.setIndex c .kDeleted, true) else (deleted.1, false)
    else p.update .mod c

/-- `removeChannel`; a channel that is not in the map, or still has an interest, is left alone. -/
def removeChannel (p : EPollPoller) (c : Nat) : EPollPoller :=
  let ch := p.objects c
  if p.channels ch.fd ≠ some c ∨ !ch.isNoneEvent then p
  else
    let erased := { p with channels := Function.update p.channels ch.fd none }
    match ch.index with
    | .kNew => p
    | .kAdded => (erased.update .del c).1.setIndex c .kNew
    | .kDeleted => erased.setIndex c .kNew

/-- `enableReading`; false when the update has failed. -/
def enableReading (p : EPollPoller) (c : Nat) : EPollPoller × Bool :=
  (p.setEvents c ((p.objects c).events ||| Channel.kReadEvent)).updateChannel c

/-- `disableReading`. -/
def disableReading (p : EPollPoller) (c : Nat) : EPollPoller × Bool :=
  (p.setEvents c ((p.objects c).events &&& ~~~Channel.kReadEvent)).updateChannel c

/-- `enableWriting`. -/
def enableWriting (p : EPollPoller) (c : Nat) : EPollPoller × Bool :=
  (p.setEvents c ((p.objects c).events ||| Channel.kWriteEvent)).updateChannel c

/-- `disableWriting`. -/
def disableWriting (p : EPollPoller) (c : Nat) : EPollPoller × Bool :=
  (p.setEvents c ((p.objects c).events &&& ~~~Channel.kWriteEvent)).updateChannel c

/-- `disableAll`. -/
def disableAll (p : EPollPoller) (c : Nat) : EPollPoller × Bool :=
  (p.setEvents c Channel.kNoneEvent).updateChannel c

/-- `Channel::remove`. -/
def remove (p : EPollPoller) (c : Nat) : EPollPoller :=
  if (p.objects c).isNoneEvent then p.removeChannel c else p

end EPollPoller

end ChatRoom.Net
