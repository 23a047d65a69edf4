import Mathlib.Logic.Relation
import ChatRoom.Core.Run
import ChatRoom.Net.PollerAgreement
import ChatRoom.Net.TcpConnection

/-!
# The moves of a connection

Whatever a method of a connection does, it does by a few guarded moves: queue a
functor, buffer or drain output, start to disconnect, close. Each method is taken
apart into moves once, here, so an invariant of every run follows from one case for
each move. Two things are kept apart: the message callback, the only place where
input is handed on, and the functors that other threads queue.
-/

namespace ChatRoom.Net

open ChatRoom.Core Relation

/-- The functors that are bound to the connection itself and not to a `shared_ptr` to it. -/
def Functor.isRaw : Functor → Bool
  | .sendInLoop _ | .shutdownInLoop => true
  | .forceCloseInLoop | .connectEstablished | .connectDestroyed | .writeComplete
  | .highWaterMark _ => false

namespace TcpConnection

/-- What a method may do at once in the loop thread, and when. -/
inductive Move (t : TcpConnection) : TcpConnection → Prop where
  | queue (thread : Nat) {f : Functor} (hshared : f.isRaw = false) :
      Move t (t.queueInLoop thread f)
  | accept (thread : Nat) (message : Bytes) : Move t (t.accept thread message)
  | input (inputBuffer : Buffer) : Move t (t.setInput inputBuffer)
  | fault : Move t (t.note .fault)
  | wrote (data : Bytes) (hidle : t.isWriting = false)
      (hempty : t.outputBuffer.readableBytes = 0) : Move t (t.wrote data)
  | shutdownWrite (hidle : t.isWriting = false) : Move t (t.note .shutdownWrite)
  | disconnecting (hstate : t.state = .kConnected ∨ t.state = .kDisconnecting) :
      Move t (t.setState .kDisconnecting)
  | buffer (rest : Bytes) (hstate : t.state ≠ .kDisconnected) (hrest : rest.length ≠ 0) :
      Move t (t.setOutput (t.outputBuffer.append rest)).enableWriting
  | drain (n : Nat) (hwriting : t.isWriting = true)
      (hleft : (t.outputBuffer.retrieve n).readableBytes ≠ 0) :
      Move t ((t.wrote (t.outputBuffer.content.take n)).setOutput (t.outputBuffer.retrieve n))
  | drained (n : Nat) (hwriting : t.isWriting = true)
      (hleft : (t.outputBuffer.retrieve n).readableBytes = 0) :
      Move t (((t.wrote (t.outputBuffer.content.take n)).setOutput
        (t.outputBuffer.retrieve n)).setPoller (t.poller.disableWriting t.channel).1)
  | close (hstate : t.state ≠ .kDisconnected) :
      Move t ((((t.setState .kDisconnected).setPoller (t.poller.disableAll t.channel).1).note
        .down).note .closed)
  | up (hstate : t.state = .kConnecting) (henabled : (t.poller.enableReading t.channel).2 = true) :
      Move t (((t.setState .kConnected).setPoller (t.poller.enableReading t.channel).1).note .up)
  | refused (hstate : t.state = .kConnecting)
      (henabled : (t.poller.enableReading t.channel).2 = false) :
      Move t ((t.setState .kConnected).setPoller (t.poller.enableReading t.channel).1).handleClose
  | destroyed (hstate : t.state = .kConnected) :
      Move t (((t.setState .kDisconnected).setPoller (t.poller.disableAll t.channel).1).note .down)
  | removed (hstate : t.state ≠ .kConnected) : Move t (t.setPoller (t.poller.remove t.channel))

/-- Any number of moves. -/
def Moves : TcpConnection → TcpConnection → Prop := ReflTransGen Move

/-- A move, or a message handed on. -/
def Step (t t' : TcpConnection) : Prop := Move t t' ∨ t' = t.note .message

/-- Any number of moves and messages. -/
def Steps : TcpConnection → TcpConnection → Prop := ReflTransGen Step

/-- `Moves` is reflexive. -/
theorem Moves.refl (t : TcpConnection) : t.Moves t := ReflTransGen.refl

private theorem Move.moves {t t' : TcpConnection} (h : t.Move t') :
    t.Moves t' := ReflTransGen.single h

/-- `Moves` is transitive. -/
theorem Moves.trans {t t' t'' : TcpConnection} (h : t.Moves t') (h' : t'.Moves t'') :
    t.Moves t'' := ReflTransGen.trans h h'

/-- `Steps` is reflexive. -/
theorem Steps.refl (t : TcpConnection) : t.Steps t := ReflTransGen.refl

/-- `Steps` is transitive. -/
theorem Steps.trans {t t' t'' : TcpConnection} (h : t.Steps t') (h' : t'.Steps t'') :
    t.Steps t'' := ReflTransGen.trans h h'

/-- Moves are steps without a message. -/
theorem Moves.steps {t t' : TcpConnection} (h : t.Moves t') : t.Steps t' :=
  ReflTransGen.mono (fun _ _ => Or.inl) _ _ h

private theorem steps_message (t : TcpConnection) : t.Steps (t.note .message) :=
  ReflTransGen.single (Or.inr rfl)

/-- What every step preserves is preserved by any number of them. -/
theorem Steps.invariant {P : TcpConnection → Prop} {t t' : TcpConnection} (h : t.Steps t')
    (hstep : ∀ u u', P u → u.Step u' → P u') (ht : P t) : P t' := by
  induction h with
  | refl => exact ht
  | tail _ hlast ih => exact hstep _ _ ih hlast

/-! ## The methods, taken apart -/

private theorem moves_handleClose (t : TcpConnection) : t.Moves t.handleClose := by
  unfold handleClose
  split
  · exact .refl t
  · next hstate => exact (Move.close hstate).moves

private theorem moves_queueWriteComplete (t : TcpConnection) : t.Moves t.queueWriteComplete := by
  unfold queueWriteComplete
  split
  · exact (Move.queue _ rfl).moves
  · exact .refl t

private theorem moves_queueHighWaterMark (t : TcpConnection) (remaining : Nat) :
    t.Moves (t.queueHighWaterMark remaining) := by
  unfold queueHighWaterMark
  dsimp only
  split
  · exact (Move.queue _ rfl).moves
  · exact .refl t

/-- The high water mark callback is queued without changing the state. -/
theorem queueHighWaterMark_state (t : TcpConnection) (remaining : Nat) :
    (t.queueHighWaterMark remaining).state = t.state := by
  unfold queueHighWaterMark
  dsimp only
  split <;> rfl

/-- An interest in writing is no change of the state. -/
theorem enableWriting_state (t : TcpConnection) : t.enableWriting.state = t.state := by
  unfold enableWriting
  split <;> rfl

/-- An interest in writing calls nobody back. -/
theorem enableWriting_trace (t : TcpConnection) : t.enableWriting.trace = t.trace := by
  unfold enableWriting
  split <;> rfl

private theorem moves_bufferRest {t : TcpConnection} (hstate : t.state ≠ .kDisconnected)
    (rest : Bytes) :
    t.Moves (t.bufferRest rest) := by
  unfold bufferRest
  split
  · exact .refl t
  · next hrest =>
    refine (t.moves_queueHighWaterMark rest.length).trans (Move.buffer rest ?_ hrest).moves
    rw [queueHighWaterMark_state]
    exact hstate

private theorem queueWriteComplete_state (t : TcpConnection) :
    t.queueWriteComplete.state = t.state := by
  unfold queueWriteComplete
  split <;> rfl

private theorem moves_sendInLoop (t : TcpConnection) (message : Bytes) (outcome : WriteOutcome) :
    t.Moves (t.sendInLoop message outcome) := by
  unfold sendInLoop
  split
  · exact .refl t
  · next hstate =>
    split
    · next hidle =>
      split
      · next nwrote _ =>
        have hwrote : t.Moves (t.wrote (message.take nwrote)) :=
          (Move.wrote _ (Bool.not_eq_true' _ |>.mp hidle.1) hidle.2).moves
        dsimp only
        split
        · refine (hwrote.trans (moves_queueWriteComplete _)).trans (moves_bufferRest ?_ _)
          rw [queueWriteComplete_state]
          exact hstate
        · exact hwrote.trans (moves_bufferRest (t := t.wrote _) hstate _)
      · split
        · exact Move.fault.moves
        · exact moves_bufferRest hstate message
    · exact moves_bufferRest hstate message

private theorem moves_shutdownInLoop (t : TcpConnection) : t.Moves t.shutdownInLoop := by
  unfold shutdownInLoop
  split
  · exact .refl t
  · next hidle => exact (Move.shutdownWrite (Bool.not_eq_true _ |>.mp hidle)).moves

/-- A call makes moves; made outside the loop thread, it may end by queueing a raw functor. -/
theorem call_cases (t : TcpConnection) (thread : Nat) (c : Call) :
    t.Moves (t.call thread c) ∨ ∃ u f, t.Moves u ∧ thread ≠ t.loop.threadId ∧
      t.call thread c = u.queueInLoop thread f := by
  cases c with
  | send message outcome =>
    simp only [call, send]
    split
    · have haccept : t.Moves (t.accept thread message) := (Move.accept _ _).moves
      split
      · exact Or.inl (haccept.trans (moves_sendInLoop _ _ _))
      · next hthread => exact Or.inr ⟨_, _, haccept, hthread, rfl⟩
    · exact Or.inl (.refl t)
  | shutdown =>
    simp only [call, shutdown]
    split
    · next hstate =>
      have hset : t.Moves (t.setState .kDisconnecting) :=
        (Move.disconnecting (Or.inl hstate)).moves
      split
      · exact Or.inl (hset.trans (moves_shutdownInLoop _))
      · next hthread => exact Or.inr ⟨_, _, hset, hthread, rfl⟩
    · exact Or.inl (.refl t)
  | forceClose =>
    simp only [call, forceClose]
    split
    · next hstate =>
      exact Or.inl ((Move.disconnecting hstate).moves.trans (Move.queue _ rfl).moves)
    · exact Or.inl (.refl t)

private theorem moves_call (t : TcpConnection) (c : Call) : t.Moves (t.call t.loop.threadId c) :=
  (t.call_cases t.loop.threadId c).resolve_right fun ⟨_, _, _, hthread, _⟩ => hthread rfl

/-- The calls of a callback are moves. -/
theorem moves_react (t : TcpConnection) (calls : List Call) : t.Moves (t.react calls) :=
  foldl_invariant (P := t.Moves) (.refl t) (fun u c h => h.trans (u.moves_call c)) calls

private theorem moves_forceCloseInLoop (t : TcpConnection) : t.Moves t.forceCloseInLoop := by
  unfold forceCloseInLoop
  split
  · exact t.moves_handleClose
  · exact .refl t

private theorem moves_connectEstablished (t : TcpConnection) : t.Moves t.connectEstablished := by
  unfold connectEstablished
  split
  · exact .refl t
  · next hstate =>
    dsimp only
    split
    · next henabled => exact (Move.up (not_not.mp hstate) henabled).moves
    · next henabled =>
      exact (Move.refused (not_not.mp hstate) (Bool.not_eq_true _ |>.mp henabled)).moves

private theorem moves_connectDestroyed (t : TcpConnection) : t.Moves t.connectDestroyed := by
  unfold connectDestroyed
  split
  · next hstate =>
    exact (Move.destroyed hstate).moves.trans (Move.removed (by intro h; cases h)).moves
  · next hstate => exact (Move.removed hstate).moves

/-- `handleWrite` makes moves only. -/
theorem moves_handleWrite (t : TcpConnection) (outcome : WriteOutcome) :
    t.Moves (t.handleWrite outcome) := by
  unfold handleWrite
  split
  · next hwriting =>
    split
    · next n _ =>
      split
      · dsimp only
        split
        · next hleft =>
          have hdrained := (Move.drained n hwriting hleft).moves.trans (moves_queueWriteComplete _)
          split
          · exact hdrained.trans (moves_shutdownInLoop _)
          · exact hdrained
        · next hleft => exact (Move.drain n hwriting hleft).moves
      · exact t.moves_handleClose
    · exact t.moves_handleClose
  · exact .refl t

/-- A functor makes moves only. -/
theorem moves_runFunctor (t : TcpConnection) (outcome : WriteOutcome) (calls : List Call)
    (f : Functor) : t.Moves (t.runFunctor outcome calls f) := by
  cases f with
  | sendInLoop message => exact t.moves_sendInLoop message outcome
  | shutdownInLoop => exact t.moves_shutdownInLoop
  | forceCloseInLoop => exact t.moves_forceCloseInLoop
  | connectEstablished => exact t.moves_connectEstablished
  | connectDestroyed => exact t.moves_connectDestroyed
  | writeComplete => exact t.moves_react calls
  | highWaterMark size => exact t.moves_react calls

private theorem moves_establish (t : TcpConnection) (thread : Nat) :
    t.Moves (t.establish thread) := by
  unfold establish
  split
  · exact t.moves_connectEstablished
  · exact (Move.queue _ rfl).moves

private theorem moves_destroy (t : TcpConnection) (thread : Nat) (queue : Bool) :
    t.Moves (t.destroy thread queue) := by
  unfold destroy
  split
  · exact t.moves_connectDestroyed
  · exact (Move.queue _ rfl).moves

private theorem steps_messageCallback (t : TcpConnection) (consumed : Nat) (calls : List Call) :
    t.Steps (t.messageCallback consumed calls) :=
  t.steps_message.trans ((Move.input _).moves.trans (moves_react _ calls)).steps

private theorem steps_handleRead (t : TcpConnection) (o : EventOutcome) :
    t.Steps (t.handleRead o) := by
  unfold handleRead
  split
  · have hinput : ∀ b, t.Steps (t.setInput b) := fun b => (Move.input b).moves.steps
    dsimp only
    split
    · exact (hinput _).trans (steps_messageCallback _ _ _)
    · exact (hinput _).trans (moves_handleClose _).steps
  · exact t.moves_handleClose.steps

/-- A callback that an event may or may not call. -/
theorem Steps.ite {t u : TcpConnection} (b : Bool) (h : t.Steps u) :
    t.Steps (if b then u else t) := by
  cases b with
  | false => exact .refl t
  | true => exact h

/-- An event makes moves, and may deliver a message. -/
theorem steps_handleEvent (t : TcpConnection) (revents : BitVec 32) (o : EventOutcome) :
    t.Steps (t.handleEvent revents o) := by
  unfold handleEvent
  have hhup := Steps.ite (closesFirst revents) t.moves_handleClose.steps
  have herr := fun u : TcpConnection =>
    Steps.ite (hasBits revents (xpollErr ||| xpollNval)) u.moves_handleClose.steps
  have hin := fun u : TcpConnection =>
    Steps.ite (hasBits revents (xpollIn ||| xpollPri ||| xpollRdhup)) (u.steps_handleRead o)
  have hout := fun u : TcpConnection =>
    Steps.ite (hasBits revents xpollOut) (u.moves_handleWrite o.write).steps
  exact ((hhup.trans (herr _)).trans (hin _)).trans (hout _)

/-- A step of the connection on its loop makes moves, with a change of the queue of the loop
before or after them; an event may also hand a message on. -/
theorem connectionStep_moves (t : TcpConnection) {i : ConnectionInput}
    (hevent : ∀ revents o, i ≠ .handleEvent revents o) (hroom : ∀ full, i ≠ .kernel full) :
    ∃ loop u loop', (t.setLoop loop).Moves u ∧ connectionStep t i = u.setLoop loop' := by
  have hmoves : ∀ loop u, (t.setLoop loop).Moves u → ∃ loop u' loop',
      (t.setLoop loop).Moves u' ∧ u = u'.setLoop loop' := fun loop u hs => ⟨loop, u, u.loop, hs, rfl⟩
  cases i with
  | call thread c =>
    rcases t.call_cases thread c with hcall | ⟨u, f, hcall, _, heq⟩
    · exact hmoves t.loop _ hcall
    · exact ⟨t.loop, u, u.loop.queueInLoop thread f, hcall, heq⟩
  | establish thread => exact hmoves t.loop _ (t.moves_establish thread)
  | destroy thread queue => exact hmoves t.loop _ (t.moves_destroy thread queue)
  | handleEvent revents o => exact absurd rfl (hevent revents o)
  | swapFunctors =>
    simp only [connectionStep, swapFunctors]
    split
    · exact hmoves _ _ (.refl _)
    · exact hmoves t.loop _ (.refl _)
  | runNext outcome calls =>
    simp only [connectionStep, runNext]
    split
    · exact hmoves _ _ (.refl _)
    · exact hmoves _ _ (moves_runFunctor _ outcome calls _)
  | kernel full => exact absurd rfl (hroom full)

end TcpConnection

/-! ## Runs of methods -/

/-- A method of the connection called on its own, in whatever order; the kernel runs out
of room or has some again; another channel of the loop uses the poller. -/
inductive Method where
  | connectEstablished
  | handleEvent (revents : BitVec 32) (o : EventOutcome)
  | handleRead (o : EventOutcome)
  | handleWrite (outcome : WriteOutcome)
  | handleClose
  | call (thread : Nat) (c : Call)
  | sendInLoop (message : Bytes) (outcome : WriteOutcome)
  | shutdownInLoop
  | forceCloseInLoop
  | connectDestroyed
  | kernel (full : Bool)
  | other (c : Nat) (op : ChannelOp)

namespace TcpConnection

/-- Another channel of the same loop uses the poller. -/
def other (t : TcpConnection) (c : Nat) (op : ChannelOp) : TcpConnection :=
  if c = t.channel then t else t.setPoller (t.poller.operate c op)

end TcpConnection

/-- One method of a connection, run on its own. -/
def methodStep (t : TcpConnection) : Method → TcpConnection
  | .connectEstablished => t.connectEstablished
  | .handleEvent revents o => t.handleEvent revents o
  | .handleRead o => t.handleRead o
  | .handleWrite outcome => t.handleWrite outcome
  | .handleClose => t.handleClose
  | .call thread c => t.call thread c
  | .sendInLoop message outcome => t.sendInLoop message outcome
  | .shutdownInLoop => t.shutdownInLoop
  | .forceCloseInLoop => t.forceCloseInLoop
  | .connectDestroyed => t.connectDestroyed
  | .kernel full => t.setPoller { t.poller with full := full }
  | .other c op => t.other c op

namespace TcpConnection

/-- A method takes steps, after which a call from outside may queue a functor, or it changes
the poller on behalf of others. -/
theorem methodStep_cases (t : TcpConnection) (m : Method) :
    t.Steps (methodStep t m) ∨
      (∃ u thread f, t.Steps u ∧ methodStep t m = u.queueInLoop thread f) ∨
      (∃ full, methodStep t m = t.setPoller { t.poller with full := full }) ∨
      ∃ c op, c ≠ t.channel ∧ methodStep t m = t.setPoller (t.poller.operate c op) := by
  cases m with
  | connectEstablished => exact Or.inl t.moves_connectEstablished.steps
  | handleEvent revents o => exact Or.inl (t.steps_handleEvent revents o)
  | handleRead o => exact Or.inl (t.steps_handleRead o)
  | handleWrite outcome => exact Or.inl (t.moves_handleWrite outcome).steps
  | handleClose => exact Or.inl t.moves_handleClose.steps
  | call thread c =>
    rcases t.call_cases thread c with hmoves | ⟨u, f, hmoves, _, heq⟩
    · exact Or.inl hmoves.steps
    · exact Or.inr (Or.inl ⟨u, thread, f, hmoves.steps, heq⟩)
  | sendInLoop message outcome => exact Or.inl (t.moves_sendInLoop message outcome).steps
  | shutdownInLoop => exact Or.inl t.moves_shutdownInLoop.steps
  | forceCloseInLoop => exact Or.inl t.moves_forceCloseInLoop.steps
  | connectDestroyed => exact Or.inl t.moves_connectDestroyed.steps
  | kernel full => exact Or.inr (Or.inr (Or.inl ⟨full, rfl⟩))
  | other c op =>
    by_cases hc : c = t.channel
    · exact Or.inl (by rw [methodStep, other, if_pos hc]; exact .refl t)
    · exact Or.inr (Or.inr (Or.inr ⟨c, op, hc, if_neg hc⟩))

end TcpConnection

end ChatRoom.Net
