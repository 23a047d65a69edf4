import ChatRoom.Net.ByteBufferSpec
import ChatRoom.Net.EpollPoller

/-!
# TcpConnection on its event loop

One connection together with the queue of its loop and the poller its channel is
registered with. Each method is a function of this state and of the results of the
system calls it makes, so a run is a fold over any order of calls, poll events and
loop iterations. Methods the source asserts to run in the loop thread are only
reached from the loop. What has been observed is kept in three histories: the
messages accepted by `send`, the bytes taken by the socket, and the callbacks.
-/

namespace ChatRoom.Net

open ChatRoom.Core

/-- The error numbers the connection tells apart. -/
inductive Errno where
  | wouldBlock
  | pipe
  | connReset
  | other
  deriving DecidableEq, Repr

/-- What a call of `::write` meets: room for `n` bytes, or an error. -/
inductive WriteOutcome where
  | room (n : Nat)
  | error (errno : Errno)
  deriving DecidableEq, Repr

/-- The `int32_t` parameter a length is passed as. -/
def writeCount (len : Nat) : Int := (BitVec.ofNat 32 len).toInt

/-- `sockets::write`: at most the count is taken, and a negative count is refused. -/
def socketWrite (data : Bytes) : WriteOutcome → Except Errno Nat
  | .room n =>
    if writeCount data.length < 0 then .error .other
    else .ok (min n (writeCount data.length).toNat)
  | .error errno => .error errno

/-- `StateE`. -/
inductive StateE where
  | kDisconnected
  | kConnecting
  | kConnected
  | kDisconnecting
  deriving DecidableEq, Repr

/-- The functors this connection puts on its loop, or its server puts there for it. -/
inductive Functor where
  | sendInLoop (message : Bytes)
  | shutdownInLoop
  | forceCloseInLoop
  | connectEstablished
  | connectDestroyed
  | writeComplete
  | highWaterMark (size : Nat)
  deriving DecidableEq, Repr

/-- The task queue of a loop: what is pending, and what is left of the vector that
`doOtherTasks` has swapped out. -/
structure EventLoop where
  threadId : Nat
  pendingFunctors : List Functor
  functors : List Functor
  doingOtherTasks : Bool
  wakeups : Nat
  deriving DecidableEq, Repr

/-- `queueInLoop`; the loop is woken up by another thread, and by its own while it runs functors. -/
def EventLoop.queueInLoop (loop : EventLoop) (thread : Nat) (f : Functor) : EventLoop :=
  { loop with
    pendingFunctors := loop.pendingFunctors ++ [f]
    wakeups :=
      if thread ≠ loop.threadId ∨ loop.doingOtherTasks then loop.wakeups + 1 else loop.wakeups }

/-- A callback of the connection, `shutdownWrite`, or a write that met a dead peer. -/
inductive Event where
  | up
  | down
  | message
  | closed
  | shutdownWrite
  | fault
  deriving DecidableEq, Repr

/-- A connection with its loop and its poller, and a record of what it has done. -/
structure TcpConnection where
  loop : EventLoop
  poller : EPollPoller
  channel : Nat
  state : StateE
  inputBuffer : Buffer
  outputBuffer : Buffer
  highWaterMark : Nat
  writeCompleteCallback : Bool
  highWaterMarkCallback : Bool
  /-- Messages of `send` calls made while connected, with the calling thread. -/
  accepted : List (Nat × Bytes)
  /-- Bytes taken by the socket. -/
  written : Bytes
  trace : List Event

/-- What a callback may call on the connection it is handed. -/
inductive Call where
  | send (message : Bytes) (outcome : WriteOutcome)
  | shutdown
  | forceClose
  deriving DecidableEq, Repr

/-- The system call results met by one event, and what the message callback does. -/
structure EventOutcome where
  read : Except Errno Bytes
  consumed : Nat
  calls : List Call
  write : WriteOutcome

namespace TcpConnection

/-- A connection as its constructor leaves it. -/
def new (threadId : Nat) (poller : EPollPoller) (channel : Nat)
    (writeCompleteCallback highWaterMarkCallback : Bool) : TcpConnection where
  loop := ⟨threadId, [], [], false, 0⟩
  poller := poller
  channel := channel
  state := .kConnecting
  inputBuffer := .empty
  outputBuffer := .empty
  highWaterMark := 64 * 1024 * 1024
  writeCompleteCallback := writeCompleteCallback
  highWaterMarkCallback := highWaterMarkCallback
  accepted := []
  written := []
  trace := []

/-- The channel has an interest in writing. -/
def isWriting (t : TcpConnection) : Bool := (t.poller.objects t.channel).isWriting

/-- `setState`. -/
def setState (t : TcpConnection) (state : StateE) : TcpConnection := { t with state := state }

/-- The poller after an update of the channel. -/
def setPoller (t : TcpConnection) (poller : EPollPoller) : TcpConnection :=
  { t with poller := poller }

/-- The socket takes bytes. -/
def wrote (t : TcpConnection) (data : Bytes) : TcpConnection :=
  { t with written := t.written ++ data }

/-- The input buffer is changed. -/
def setInput (t : TcpConnection) (inputBuffer : Buffer) : TcpConnection :=
  { t with inputBuffer := inputBuffer }

/-- The output buffer is changed. -/
def setOutput (t : TcpConnection) (outputBuffer : Buffer) : TcpConnection :=
  { t with outputBuffer := outputBuffer }

/-- Record an observation. -/
def note (t : TcpConnection) (e : Event) : TcpConnection := { t with trace := t.trace ++ [e] }

/-- The loop is changed. -/
def setLoop (t : TcpConnection) (loop : EventLoop) : TcpConnection := { t with loop := loop }

/-- A functor of the connection is queued. -/
def queueInLoop (t : TcpConnection) (thread : Nat) (f : Functor) : TcpConnection :=
  t.setLoop (t.loop.queueInLoop thread f)

/-- Queue the write-complete callback, if one is set. -/
def queueWriteComplete (t : TcpConnection) : TcpConnection :=
  if t.writeCompleteCallback then t.queueInLoop t.loop.threadId .writeComplete else t

/-- The connection callback finds the connection up or down. -/
def connectionCallback (t : TcpConnection) : TcpConnection :=
  t.note (if t.state = .kConnected then .up else .down)

/-- `handleClose`: the connection callback and the close callback, once. -/
def handleClose (t : TcpConnection) : TcpConnection :=
  if t.state = .kDisconnected then t
  else
    let t := (t.setState .kDisconnected).setPoller (t.poller.disableAll t.channel).1
    t.connectionCallback.note .closed

/-- A closed connection is disconnected. -/
theorem handleClose_state (t : TcpConnection) : t.handleClose.state = .kDisconnected := by
  unfold handleClose
  split
  · assumption
  · rfl

/-- `handleError` logs the pending socket error and closes. -/
def handleError (t : TcpConnection) : TcpConnection := t.handleClose

/-- Queue the high-water-mark callback when `remaining` more bytes cross the mark. -/
def queueHighWaterMark (t : TcpConnection) (remaining : Nat) : TcpConnection :=
  let oldLen := t.outputBuffer.readableBytes
  if t.highWaterMark ≤ oldLen + remaining ∧ oldLen < t.highWaterMark ∧ t.highWaterMarkCallback then
    t.queueInLoop t.loop.threadId (.highWaterMark (oldLen + remaining))
  else t

/-- The interest in writing is set if it is not there. -/
def enableWriting (t : TcpConnection) : TcpConnection :=
  if t.isWriting then t else t.setPoller (t.poller.enableWriting t.channel).1

/-- The second half of `sendInLoop`: keep what the socket did not take. -/
def bufferRest (t : TcpConnection) (rest : Bytes) : TcpConnection :=
  if rest.length = 0 then t
  else
    let t := t.queueHighWaterMark rest.length
    (t.setOutput (t.outputBuffer.append rest)).enableWriting

-- `nwrote` never exceeds `len`, so the check `remaining > len` of the source is never taken.
/-- `sendInLoop`: what the socket does not take at once goes into the output buffer. -/
def sendInLoop (t : TcpConnection) (message : Bytes) (outcome : WriteOutcome) : TcpConnection :=
  if t.state = .kDisconnected then t
  else if !t.isWriting ∧ t.outputBuffer.readableBytes = 0 then
    match socketWrite message outcome with
    | .ok nwrote =>
      let t := t.wrote (message.take nwrote)
      let t := if message.length - nwrote = 0 then t.queueWriteComplete else t
      t.bufferRest (message.drop nwrote)
    | .error errno =>
      if errno = .pipe ∨ errno = .connReset then t.note .fault else t.bufferRest message
  else t.bufferRest message

/-- Record a message that `send` accepts. -/
def accept (t : TcpConnection) (thread : Nat) (message : Bytes) : TcpConnection :=
  { t with accepted := t.accepted ++ [(thread, message)] }

/-- The overloads of `send` differ in how the caller passes the bytes. -/
def send (t : TcpConnection) (thread : Nat) (message : Bytes) (outcome : WriteOutcome) :
    TcpConnection :=
  if t.state = .kConnected then
    let t := t.accept thread message
    if thread = t.loop.threadId then t.sendInLoop message outcome
    else t.queueInLoop thread (.sendInLoop message)
  else t

/-- `shutdownInLoop` waits for the output buffer to drain. -/
def shutdownInLoop (t : TcpConnection) : TcpConnection :=
  if t.isWriting then t else t.note .shutdownWrite

/-- `shutdown`. -/
def shutdown (t : TcpConnection) (thread : Nat) : TcpConnection :=
  if t.state = .kConnected then
    let t := t.setState .kDisconnecting
    if thread = t.loop.threadId then t.shutdownInLoop else t.queueInLoop thread .shutdownInLoop
  else t

/-- `forceClose`. -/
def forceClose (t : TcpConnection) (thread : Nat) : TcpConnection :=
  if t.state = .kConnected ∨ t.state = .kDisconnecting then
    (t.setState .kDisconnecting).queueInLoop thread .forceCloseInLoop
  else t

/-- `forceCloseInLoop`. -/
def forceCloseInLoop (t : TcpConnection) : TcpConnection :=
  if t.state = .kConnected ∨ t.state = .kDisconnecting then t.handleClose else t

/-- `connectEstablished`; a connection that cannot be watched is closed. -/
def connectEstablished (t : TcpConnection) : TcpConnection :=
  if t.state ≠ .kConnecting then t
  else
    let enabled := t.poller.enableReading t.channel
    let t := (t.setState .kConnected).setPoller enabled.1
    if enabled.2 then t.connectionCallback else t.handleClose

/-- `connectDestroyed`: the channel leaves the poller, if it has no interest left. -/
def connectDestroyed (t : TcpConnection) : TcpConnection :=
  let t :=
    if t.state = .kConnected then
      let t := (t.setState .kDisconnected).setPoller (t.poller.disableAll t.channel).1
      t.connectionCallback
    else t
  t.setPoller (t.poller.remove t.channel)

/-- A call of a public method by some thread. -/
def call (t : TcpConnection) (thread : Nat) : Call → TcpConnection
  | .send message outcome => t.send thread message outcome
  | .shutdown => t.shutdown thread
  | .forceClose => t.forceClose thread

/-- The calls a callback makes in the loop thread, one after another. -/
def react (t : TcpConnection) (calls : List Call) : TcpConnection :=
  calls.foldl (fun t c => t.call t.loop.threadId c) t

/-- The session reads from the input buffer and makes its calls. -/
def messageCallback (t : TcpConnection) (consumed : Nat) (calls : List Call) : TcpConnection :=
  let t := t.note .message
  (t.setInput (t.inputBuffer.retrieve consumed)).react calls

/-- `handleRead`: no bytes means that the peer has closed. -/
def handleRead (t : TcpConnection) (o : EventOutcome) : TcpConnection :=
  match o.read with
  | .ok available =>
    let filled := t.inputBuffer.readFd available
    let t := t.setInput filled.1
    if 0 < filled.2 then t.messageCallback o.consumed o.calls else t.handleClose
  | .error _ => t.handleError

/-- `handleWrite` drains the output buffer, and ends a shutdown that waits for that. -/
def handleWrite (t : TcpConnection) (outcome : WriteOutcome) : TcpConnection :=
  if t.isWriting then
    match socketWrite t.outputBuffer.content outcome with
    | .ok n =>
      if 0 < n then
        let t := (t.wrote (t.outputBuffer.content.take n)).setOutput (t.outputBuffer.retrieve n)
        if t.outputBuffer.readableBytes = 0 then
          let t := (t.setPoller (t.poller.disableWriting t.channel).1).queueWriteComplete
          if t.state = .kDisconnecting then t.shutdownInLoop else t
        else t
      else t.handleClose
    | .error _ => t.handleClose
  else t

/-- An event that closes before it reads: a hang-up without input. -/
def closesFirst (revents : BitVec 32) : Bool :=
  hasBits revents xpollHup && !hasBits revents xpollIn

/-- `Channel::handleEvent` with the callbacks the constructor binds. -/
def handleEvent (t : TcpConnection) (revents : BitVec 32) (o : EventOutcome) : TcpConnection :=
  let t := if closesFirst revents then t.handleClose else t
  let t := if hasBits revents (xpollErr ||| xpollNval) then t.handleError else t
  let t := if hasBits revents (xpollIn ||| xpollPri ||| xpollRdhup) then t.handleRead o else t
  if hasBits revents xpollOut then t.handleWrite o.write else t

/-- Run one functor; the two callbacks among them make any calls they like. -/
def runFunctor (t : TcpConnection) (outcome : WriteOutcome) (calls : List Call) :
    Functor → TcpConnection
  | .sendInLoop message => t.sendInLoop message outcome
  | .shutdownInLoop => t.shutdownInLoop
  | .forceCloseInLoop => t.forceCloseInLoop
  | .connectEstablished => t.connectEstablished
  | .connectDestroyed => t.connectDestroyed
  | .writeComplete => t.react calls
  | .highWaterMark _ => t.react calls

/-- `doOtherTasks` takes all pending functors at once. -/
def swapFunctors (t : TcpConnection) : TcpConnection :=
  if t.loop.functors = [] then
    t.setLoop
      { t.loop with
        functors := t.loop.pendingFunctors, pendingFunctors := [], doingOtherTasks := true }
  else t

/-- `doOtherTasks` runs the next functor of its vector, or is done. -/
def runNext (t : TcpConnection) (outcome : WriteOutcome) (calls : List Call) : TcpConnection :=
  match t.loop.functors with
  | [] => t.setLoop { t.loop with doingOtherTasks := false }
  | f :: rest => (t.setLoop { t.loop with functors := rest }).runFunctor outcome calls f

/-- The two functors a server posts: through `runInLoop`, or through `queueInLoop`. -/
def establish (t : TcpConnection) (thread : Nat) : TcpConnection :=
  if thread = t.loop.threadId then t.connectEstablished
  else t.queueInLoop thread .connectEstablished

/-- The server has `connectDestroyed` run or queued. -/
def destroy (t : TcpConnection) (thread : Nat) (queue : Bool) : TcpConnection :=
  if thread = t.loop.threadId ∧ !queue then t.connectDestroyed
  else t.queueInLoop thread .connectDestroyed

end TcpConnection

/-- One step of a run: a call by any thread, a poll event, a part of a loop iteration, or a
change of what the kernel has room for. -/
inductive ConnectionInput where
  | call (thread : Nat) (c : Call)
  | establish (thread : Nat)
  | destroy (thread : Nat) (queue : Bool)
  | handleEvent (revents : BitVec 32) (o : EventOutcome)
  | swapFunctors
  | runNext (outcome : WriteOutcome) (calls : List Call)
  | kernel (full : Bool)

/-- One input of a connection. -/
def connectionStep (t : TcpConnection) : ConnectionInput → TcpConnection
  | .call thread c => t.call thread c
  | .establish thread => t.establish thread
  | .destroy thread queue => t.destroy thread queue
  | .handleEvent revents o => t.handleEvent revents o
  | .swapFunctors => t.swapFunctors
  | .runNext outcome calls => t.runNext outcome calls
  | .kernel full => t.setPoller { t.poller with full := full }

end ChatRoom.Net
