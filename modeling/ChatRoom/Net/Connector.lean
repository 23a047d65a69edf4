import ChatRoom.Net.Refusals

/-!
# The connector

`Connector` makes a socket, watches it with a channel of its own until the connection is
made or has failed, and then hands the socket to its client or closes it. It takes the
channel out of the poller at once and leaves its destruction to a functor. Descriptors
are numbers that the kernel uses again; a socket is known by its place in the list of all
sockets made so far. Other channels of the loop use the same poller.
-/

namespace ChatRoom.Net

open ChatRoom.Core

/-- A socket made by `connect`, with how often the connector has closed it and handed it on. -/
structure Socket where
  fd : Nat
  isOpen : Bool
  closed : Nat
  handed : Nat
  deriving DecidableEq, Repr

namespace Socket

/-- Closed once and kept, or handed on once and left open. -/
def Settled (x : Socket) : Prop :=
  (x.closed = 1 ∧ x.handed = 0) ∨ (x.closed = 0 ∧ x.handed = 1)

/-- `sockets::close` on a descriptor. -/
def close (fd : Nat) (x : Socket) : Socket :=
  if x.isOpen ∧ x.fd = fd then { x with isOpen := false, closed := x.closed + 1 } else x

/-- The callback takes over a descriptor. -/
def hand (fd : Nat) (x : Socket) : Socket :=
  if x.isOpen ∧ x.fd = fd then { x with handed := x.handed + 1 } else x

/-- The end of a connection closes the descriptor it was handed. -/
def release (fd : Nat) (x : Socket) : Socket :=
  if x.fd = fd ∧ 0 < x.handed then { x with isOpen := false } else x

end Socket

/-- The sockets, the poller of the loop, and the channels destroyed while it knew them. -/
structure Resources where
  sockets : List Socket
  poller : EPollPoller
  lost : List Nat

/-- The address of the connector's channel for a socket. Other channels have odd ones. -/
def channelOf (k : Nat) : Nat := 2 * k

namespace Resources

/-- The kernel gives a new socket a descriptor that is not in use. -/
def Used (r : Resources) (fd : Nat) : Prop := ∃ x ∈ r.sockets, x.isOpen = true ∧ x.fd = fd

instance (r : Resources) (fd : Nat) : Decidable (r.Used fd) :=
  inferInstanceAs (Decidable (∃ x ∈ r.sockets, _))

/-- A socket is opened under the number. -/
def socket (r : Resources) (fd : Nat) : Resources :=
  { r with sockets := r.sockets ++ [⟨fd, true, 0, 0⟩] }

/-- The socket is closed, and the kernel forgets the descriptor. -/
def close (r : Resources) (fd : Nat) : Resources :=
  { r with sockets := r.sockets.map (Socket.close fd), poller := r.poller.close fd }

/-- The socket goes over to a connection. -/
def hand (r : Resources) (fd : Nat) : Resources :=
  { r with sockets := r.sockets.map (Socket.hand fd) }

/-- The connection that owns the socket closes it. -/
def release (r : Resources) (fd : Nat) : Resources :=
  { r with sockets := r.sockets.map (Socket.release fd), poller := r.poller.close fd }

/-- A new channel that waits for its socket to become writable. -/
def install (r : Resources) (k fd : Nat) : Resources :=
  { r with poller := ((r.poller.create (channelOf k) fd).enableWriting (channelOf k)).1 }

/-- `disableAll` and `remove`. -/
def withdraw (r : Resources) (k : Nat) : Resources :=
  { r with poller := (r.poller.disableAll (channelOf k)).1.remove (channelOf k) }

/-- The descriptor of the connector's `k`-th channel. -/
def fdOf (r : Resources) (k : Nat) : Nat := (r.poller.objects (channelOf k)).fd

/-- The destructor of a channel. -/
def destroy (r : Resources) (k : Nat) : Resources :=
  if r.poller.Present (channelOf k) then { r with lost := r.lost ++ [k] } else r

end Resources

/-- `Connector::State`. -/
inductive ConnectorState where
  | kDisconnected
  | kConnecting
  | kConnected
  deriving DecidableEq, Repr

/-- The functors that a connector queues. -/
inductive ConnectorTask where
  | startInLoop
  | stopInLoop
  | resetChannel
  deriving DecidableEq, Repr

/-- The `errno` values that `Connector::connect` tells apart. -/
def eIntr : Nat := 4
/-- `EAGAIN`. -/
def eAgain : Nat := 11
/-- `EADDRINUSE`. -/
def eAddrInUse : Nat := 98
/-- `EADDRNOTAVAIL`. -/
def eAddrNotAvail : Nat := 99
/-- `ENETUNREACH`. -/
def eNetUnreach : Nat := 101
/-- `EISCONN`. -/
def eIsConn : Nat := 106
/-- `ECONNREFUSED`. -/
def eConnRefused : Nat := 111
/-- `EINPROGRESS`. -/
def eInProgress : Nat := 115

/-- What the kernel answers to an attempt: the new descriptor, and 0 or the `errno` of
`sockets::connect`. -/
structure Attempt where
  sockfd : Nat
  savedErrno : Nat
  deriving DecidableEq, Repr

/-- What becomes of a new connection inside `newConnectionCallback`. One that closes at once
may have its client restart the connector there. -/
inductive Handover where
  | stays
  | closes (restart : Option Attempt)
  deriving DecidableEq, Repr

/-- What `handleWrite` finds: `SO_ERROR`, whether the socket met itself, and the callback. -/
structure Writable where
  err : Nat
  isSelfConnect : Bool
  handover : Handover
  deriving DecidableEq, Repr

/-- A connector with its client, and the sockets and channels that it has made. -/
structure Connector where
  /-- The flag `m_connect`. -/
  wanted : Bool
  state : ConnectorState
  /-- The socket that `m_channel` was made for. -/
  channel : Option Nat
  /-- The connector's functors in the queue of the loop. -/
  pending : List ConnectorTask
  /-- The client has a connection. -/
  connection : Bool
  resources : Resources
  /-- A null `m_channel` or a destroyed channel was used. -/
  crashed : Bool

/-- What can happen to a connector. -/
inductive ConnectorInput where
  | start (inLoopThread : Bool) (a : Attempt)
  | stop
  /-- The connection of the client closes; the client may restart the connector. -/
  | removeConnection (restart : Option Attempt)
  | event (k : Nat) (revents : BitVec 32) (w : Writable)
  | runNext (a : Attempt)
  /-- An operation of another channel of the loop. -/
  | other (n : Nat) (op : ChannelOp)
  /-- The object of a former connection closes its descriptor. -/
  | release (fd : Nat)
  /-- From now on the kernel refuses, or accepts, new descriptors in the poller. -/
  | refuse (full : Bool)

namespace Connector

/-- A connector as its constructor leaves it; channel `c` is made for the descriptor `fds c`. -/
def new (fds : Nat → Nat) : Connector where
  wanted := false
  state := .kDisconnected
  channel := none
  pending := []
  connection := false
  resources := ⟨[], .new fun c => Channel.new (fds c), []⟩
  crashed := false

/-- A functor of the connector is queued. -/
def queueInLoop (s : Connector) (task : ConnectorTask) : Connector :=
  { s with pending := s.pending ++ [task] }

/-- The destruction of whatever `m_channel` points to. -/
def destroyChannel (s : Connector) : Connector :=
  match s.channel with
  | some k => { s with channel := none, resources := s.resources.destroy k }
  | none => s

/-- `resetChannel` destroys the channel object. -/
def resetChannel (s : Connector) : Connector := s.destroyChannel

/-- The new channel is made before the old one is destroyed. -/
def connecting (s : Connector) (k sockfd : Nat) : Connector :=
  let t := s.destroyChannel
  { t with
    state := .kConnecting
    channel := some k
    resources := t.resources.install k sockfd }

/-- The timer of the retry is commented out in the source. -/
def retry (s : Connector) (sockfd : Nat) : Connector :=
  { s with resources := s.resources.close sockfd, state := .kDisconnected }

/-- `connect`: the errors that a later attempt may overcome lead to `retry`, all others close the
socket. -/
def connect (s : Connector) (a : Attempt) : Connector :=
  if s.resources.Used a.sockfd then s
  else
    let k := s.resources.sockets.length
    let t := { s with resources := s.resources.socket a.sockfd }
    if a.savedErrno ∈ [0, eInProgress, eIntr, eIsConn] then t.connecting k a.sockfd
    else if a.savedErrno ∈ [eAgain, eAddrInUse, eAddrNotAvail, eConnRefused, eNetUnreach] then
      t.retry a.sockfd
    else { t with resources := t.resources.close a.sockfd }

/-- `startInLoop`; a `stop` that came first has cleared the flag. -/
def startInLoop (s : Connector) (a : Attempt) : Connector :=
  if s.state ≠ .kDisconnected then s else if s.wanted then s.connect a else s

/-- `start`, on the loop's thread or on another one. -/
def start (s : Connector) (inLoopThread : Bool) (a : Attempt) : Connector :=
  let t := { s with wanted := true }
  if inLoopThread then t.startInLoop a else t.queueInLoop .startInLoop

/-- `stop`; the rest is left to the loop. -/
def stop (s : Connector) : Connector := { s with wanted := false }.queueInLoop .stopInLoop

/-- `restart`, on the loop's thread. -/
def restart (s : Connector) (a : Attempt) : Connector :=
  { s with state := .kDisconnected, wanted := true }.startInLoop a

/-- Takes the channel out of the poller, queues its destruction and goes on with its
descriptor. -/
def removeAndResetChannel (s : Connector) (next : Connector → Nat → Connector) : Connector :=
  match s.channel with
  | some k =>
    let t := { s with resources := s.resources.withdraw k }.queueInLoop .resetChannel
    next t (t.resources.fdOf k)
  | none => { s with crashed := true }

/-- `stopInLoop` gives up an attempt that is under way. -/
def stopInLoop (s : Connector) : Connector :=
  if s.state = .kConnecting then
    { s with state := .kDisconnected }.removeAndResetChannel retry
  else s

/-- `TcpClient::removeConnection`. -/
def removeConnection (s : Connector) (again : Option Attempt) : Connector :=
  if s.connection then
    let t := { s with connection := false }
    match again with
    | some a => t.restart a
    | none => t
  else s

/-- `TcpClient::newConnection`, called by the callback of the connector. -/
def newConnection (s : Connector) (sockfd : Nat) (handover : Handover) : Connector :=
  let t := { s with connection := true, resources := s.resources.hand sockfd }
  match handover with
  | .stays => t
  | .closes again => t.removeConnection again

/-- `handleWrite`: the attempt has come to an end, with an error, a connection to itself or a
connection. -/
def handleWrite (s : Connector) (w : Writable) : Connector :=
  if s.state = .kConnecting then
    s.removeAndResetChannel fun t sockfd =>
      if w.err ≠ 0 then t.retry sockfd
      else if w.isSelfConnect then t.retry sockfd
      else
        let u := { t with state := .kConnected }
        if u.wanted then u.newConnection sockfd w.handover
        else { u with resources := u.resources.close sockfd }
  else s

/-- `handleError`. -/
def handleError (s : Connector) : Connector :=
  if s.state = .kConnecting then s.removeAndResetChannel retry else s

/-- `Channel::handleEvent` with the two callbacks that the connector sets. -/
def handleEvent (s : Connector) (revents : BitVec 32) (w : Writable) : Connector :=
  let t := if hasBits revents (xpollErr ||| xpollNval) then s.handleError else s
  if hasBits revents xpollOut then t.handleWrite w else t

/-- An event of a channel that the kernel watches. -/
def event (s : Connector) (k : Nat) (revents : BitVec 32) (w : Writable) : Connector :=
  if (s.resources.poller.interest (s.resources.fdOf k)).map Prod.fst = some (channelOf k) then
    if s.channel = some k then s.handleEvent revents w else { s with crashed := true }
  else s

/-- What a functor does. -/
def perform (s : Connector) (a : Attempt) : ConnectorTask → Connector
  | .startInLoop => s.startInLoop a
  | .stopInLoop => s.stopInLoop
  | .resetChannel => s.resetChannel

/-- The loop runs the next functor. -/
def runNext (s : Connector) (a : Attempt) : Connector :=
  match s.pending with
  | task :: rest => { s with pending := rest }.perform a task
  | [] => s

/-- Another channel of the loop is changed; these have the odd numbers. -/
def other (s : Connector) (n : Nat) (op : ChannelOp) : Connector :=
  { s with resources := { s.resources with
    poller := s.resources.poller.operate (2 * n + 1) op } }

/-- One input. -/
def call (s : Connector) : ConnectorInput → Connector
  | .start inLoopThread a => s.start inLoopThread a
  | .stop => s.stop
  | .removeConnection again => s.removeConnection again
  | .event k revents w => s.event k revents w
  | .runNext a => s.runNext a
  | .other n op => s.other n op
  | .release fd => { s with resources := s.resources.release fd }
  | .refuse full => { s with resources := { s.resources with
      poller := { s.resources.poller with full := full } } }

/-- Nothing happens after a crash. -/
def step (s : Connector) (i : ConnectorInput) : Connector := if s.crashed then s else s.call i

end Connector

end ChatRoom.Net
