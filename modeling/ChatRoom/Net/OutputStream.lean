import ChatRoom.Core.Interleave
import ChatRoom.Core.Run
import ChatRoom.Net.TcpConnection

/-!
# The output stream of a connection

A message sent on a connection is written at once, buffered in whole or in part,
or queued on the loop. `stream` is what has left the queue: the bytes the socket
took, then the output buffer. Each method either leaves the stream alone or adds
one whole message to its end (`Carries`), so the stream is always the messages
that left the queue, one after another, and the queue holds the others.
-/

namespace ChatRoom.Net

open ChatRoom.Core

/-- The message of a functor that sends one. -/
def Functor.payload? : Functor → Option Bytes
  | .sendInLoop message => some message
  | _ => none

namespace TcpConnection

/-- The bytes taken by the socket, then the output buffer. -/
def stream (t : TcpConnection) : Bytes := t.written ++ t.outputBuffer.content

/-- Messages whose functor has not run: the rest of the current batch, then the pending ones. -/
def queued (t : TcpConnection) : List Bytes :=
  (t.loop.functors ++ t.loop.pendingFunctors).filterMap Functor.payload?

/-- Not disconnected, and no write has met a dead peer. -/
def Flowing (t : TcpConnection) : Prop := t.state ≠ .kDisconnected ∧ Event.fault ∉ t.trace

/-- The stream followed by the queue is every accepted message, whole and exactly
once, in an order that keeps the order of each thread. -/
def StreamExact (t : TcpConnection) : Prop :=
  ∃ order : List (Nat × Bytes),
    order.Perm t.accepted ∧ SameByTag order t.accepted ∧
      t.written ++ t.outputBuffer.content ++ t.queued.flatten = (order.map Prod.snd).flatten

/-- The invariant behind `StreamExact`: `sent` has left the queue and `waiting` is in
it. Only other threads queue messages. -/
structure Split (t : TcpConnection) (sent waiting : List (Nat × Bytes)) : Prop where
  stream_eq : t.stream = (sent.map Prod.snd).flatten
  queued_eq : t.queued = waiting.map Prod.snd
  foreign : ∀ m ∈ waiting, m.1 ≠ t.loop.threadId
  threads : SameByTag (sent ++ waiting) t.accepted

/-- While the connection is flowing, its messages are split between stream and queue. -/
def Accounted (t : TcpConnection) : Prop := t.Flowing → ∃ sent waiting, t.Split sent waiting

/-- A method that leaves the connection flowing found it flowing, added `message` to the stream
and changed neither the queued messages nor the accepted ones. -/
def Carries (t t' : TcpConnection) (message : Bytes) : Prop :=
  t'.Flowing → t.Flowing ∧ t'.stream = t.stream ++ message ∧ t'.queued = t.queued ∧
    t'.loop.threadId = t.loop.threadId ∧ t'.accepted = t.accepted

private theorem Carries.refl (t : TcpConnection) : t.Carries t [] :=
  fun h => ⟨h, (List.append_nil _).symm, rfl, rfl, rfl⟩

/-- Two methods in a row add their messages one after the other. -/
theorem Carries.trans {t t' t'' : TcpConnection} {a b : Bytes} (h : t.Carries t' a)
    (h' : t'.Carries t'' b) : t.Carries t'' (a ++ b) := by
  intro hflow
  obtain ⟨hflow', hs', hq', hid', hacc'⟩ := h' hflow
  obtain ⟨hflow'', hs, hq, hid, hacc⟩ := h hflow'
  exact ⟨hflow'', by rw [hs', hs, List.append_assoc], hq'.trans hq, hid'.trans hid,
    hacc'.trans hacc⟩

/-- A closed connection is not flowing, so closing carries anything. -/
theorem carries_of_disconnected {t t' : TcpConnection} (message : Bytes)
    (h : t'.state = .kDisconnected) : t.Carries t' message :=
  fun hflow => absurd h hflow.1

private theorem carries_note (t : TcpConnection) (e : Event) : t.Carries (t.note e) [] := by
  rintro ⟨hstate, htrace⟩
  refine ⟨⟨hstate, ?_⟩, (List.append_nil _).symm, rfl, rfl, rfl⟩
  intro hmem
  exact htrace (List.mem_append_left _ hmem)

private theorem queued_queueInLoop (t : TcpConnection) (thread : Nat) (f : Functor) :
    (t.queueInLoop thread f).queued = t.queued ++ f.payload?.toList := by
  change (t.loop.functors ++ (t.loop.pendingFunctors ++ [f])).filterMap Functor.payload? = _
  rw [← List.append_assoc, List.filterMap_append]
  cases f <;> rfl

private theorem carries_queueInLoop (t : TcpConnection) (thread : Nat) {f : Functor}
    (hf : f.payload? = none) : t.Carries (t.queueInLoop thread f) [] := by
  intro hflow
  refine ⟨hflow, (List.append_nil _).symm, ?_, rfl, rfl⟩
  rw [queued_queueInLoop, hf, Option.toList_none, List.append_nil]

private theorem carries_queueWriteComplete (t : TcpConnection) :
    t.Carries t.queueWriteComplete [] := by
  unfold queueWriteComplete
  split
  · exact t.carries_queueInLoop _ rfl
  · exact Carries.refl t

private theorem carries_handleClose (t : TcpConnection) : t.Carries t.handleClose [] :=
  carries_of_disconnected [] t.handleClose_state

private theorem carries_shutdownInLoop (t : TcpConnection) : t.Carries t.shutdownInLoop [] := by
  unfold shutdownInLoop
  split
  · exact Carries.refl t
  · exact t.carries_note _

private theorem carries_setPoller (t : TcpConnection) (poller : EPollPoller) :
    t.Carries (t.setPoller poller) [] :=
  fun h => ⟨h, (List.append_nil _).symm, rfl, rfl, rfl⟩

private theorem carries_queueHighWaterMark (t : TcpConnection) (remaining : Nat) :
    t.Carries (t.queueHighWaterMark remaining) [] := by
  unfold queueHighWaterMark
  dsimp only
  split
  · exact t.carries_queueInLoop _ rfl
  · exact Carries.refl t

private theorem carries_enableWriting (t : TcpConnection) : t.Carries t.enableWriting [] := by
  unfold enableWriting
  split
  · exact Carries.refl t
  · exact t.carries_setPoller _

private theorem carries_appendOutput (t : TcpConnection) (data : Bytes) :
    t.Carries (t.setOutput (t.outputBuffer.append data)) data := by
  intro hflow
  refine ⟨hflow, ?_, rfl, rfl, rfl⟩
  simp only [stream, setOutput, Buffer.content_append, List.append_assoc]

private theorem carries_bufferRest (t : TcpConnection) (rest : Bytes) :
    t.Carries (t.bufferRest rest) rest := by
  unfold bufferRest
  split
  · next hnil =>
    rw [List.length_eq_zero_iff.mp hnil]
    exact Carries.refl t
  · have h := ((t.carries_queueHighWaterMark rest.length).trans
      (carries_appendOutput _ rest)).trans (carries_enableWriting _)
    rw [List.nil_append, List.append_nil] at h
    exact h

/-- The socket never takes more than it is offered. -/
theorem socketWrite_le {data : Bytes} {outcome : WriteOutcome} {n : Nat}
    (h : socketWrite data outcome = .ok n) : n ≤ data.length := by
  cases outcome with
  | error errno => cases h
  | room k =>
    rw [socketWrite] at h
    split at h
    · cases h
    · next hcount =>
      cases h
      have hbound : (writeCount data.length).toNat ≤ data.length := by
        unfold writeCount at hcount ⊢
        rw [BitVec.toInt_eq_toNat_cond] at hcount ⊢
        rw [BitVec.toNat_ofNat] at hcount ⊢
        have hmod := Nat.mod_le data.length (2 ^ 32)
        split at hcount <;> split <;> omega
      exact Nat.le_trans (Nat.min_le_right _ _) hbound

private theorem carries_sendInLoop (t : TcpConnection) (message : Bytes) (outcome : WriteOutcome) :
    t.Carries (t.sendInLoop message outcome) message := by
  unfold sendInLoop
  split
  · next hstate => exact carries_of_disconnected message hstate
  · split
    · next hdirect =>
      -- Written at once: the output buffer is empty, so the bytes taken end the stream.
      cases hw : socketWrite message outcome with
      | error errno =>
        dsimp only
        split
        · intro hflow
          exact absurd (List.mem_append_right _ (List.mem_singleton.mpr rfl)) hflow.2
        · exact t.carries_bufferRest message
      | ok nwrote =>
        have hempty : t.outputBuffer.content = [] := by
          rw [← List.length_eq_zero_iff, Buffer.length_content]
          exact hdirect.2
        have htake : t.Carries (t.wrote (message.take nwrote)) (message.take nwrote) := by
          intro hflow
          refine ⟨hflow, ?_, rfl, rfl, rfl⟩
          simp only [stream, wrote, hempty, List.append_nil]
        have hcomplete : ∀ u : TcpConnection,
            u.Carries (if message.length - nwrote = 0 then u.queueWriteComplete else u) [] := by
          intro u
          split
          · exact u.carries_queueWriteComplete
          · exact Carries.refl u
        have hall := (htake.trans (hcomplete _)).trans
          (carries_bufferRest _ (message.drop nwrote))
        rw [List.append_nil, List.take_append_drop] at hall
        exact hall
    · exact t.carries_bufferRest message

private theorem carries_handleWrite (t : TcpConnection) (outcome : WriteOutcome) :
    t.Carries (t.handleWrite outcome) [] := by
  unfold handleWrite
  split
  · cases hw : socketWrite t.outputBuffer.content outcome with
    | error errno => exact t.carries_handleClose
    | ok n =>
      dsimp only
      split
      · have hn := socketWrite_le hw
        rw [Buffer.length_content] at hn
        -- The bytes taken move from the front of the buffer to the end of what was written.
        have hmove : t.Carries ((t.wrote (t.outputBuffer.content.take n)).setOutput
            (t.outputBuffer.retrieve n)) [] := by
          intro hflow
          refine ⟨hflow, ?_, rfl, rfl, rfl⟩
          simp only [stream, wrote, setOutput, Buffer.content_retrieve hn, List.append_assoc,
            List.take_append_drop, List.append_nil]
        split
        · have hidle := fun p =>
            (hmove.trans (carries_setPoller _ p)).trans (carries_queueWriteComplete _)
          split
          · exact (hidle _).trans (carries_shutdownInLoop _)
          · exact hidle _
        · exact hmove
      · exact t.carries_handleClose
  · exact Carries.refl t

private theorem Accounted.carries_nil {t t' : TcpConnection} (h : t.Accounted)
    (hc : t.Carries t' []) :
    t'.Accounted := by
  intro hflow'
  obtain ⟨hflow, hs, hq, hid, hacc⟩ := hc hflow'
  obtain ⟨sent, waiting, hsplit⟩ := h hflow
  refine ⟨sent, waiting, ?_, hq.trans hsplit.queued_eq, ?_, ?_⟩
  · rw [hs, List.append_nil, hsplit.stream_eq]
  · rw [hid]
    exact hsplit.foreign
  · rw [hacc]
    exact hsplit.threads

/-- A new connection has neither sent nor queued anything. -/
theorem new_accounted (threadId : Nat) (poller : EPollPoller) (channel : Nat)
    (writeCompleteCallback highWaterMarkCallback : Bool) :
    (new threadId poller channel writeCompleteCallback highWaterMarkCallback).Accounted := by
  intro _
  refine ⟨[], [], ?_, rfl, ?_, SameByTag.refl []⟩
  · simp only [stream, new, Buffer.content_empty, List.append_nil, List.map_nil, List.flatten_nil]
  · intro m hm
    cases hm

/-- The loop thread's message overtakes the queue, which holds none of its own. -/
theorem Accounted.send {t : TcpConnection} (h : t.Accounted) (thread : Nat) (message : Bytes)
    (outcome : WriteOutcome) : (t.send thread message outcome).Accounted := by
  unfold TcpConnection.send
  split
  · dsimp only
    split
    · next hthread =>
      intro hflow'
      obtain ⟨hflow, hs, hq, hid, hacc⟩ := carries_sendInLoop (t.accept thread message) message
        outcome hflow'
      obtain ⟨sent, waiting, hsplit⟩ := h hflow
      refine ⟨sent ++ [(thread, message)], waiting, ?_, hq.trans hsplit.queued_eq, ?_, ?_⟩
      · rw [hs, List.map_append, List.flatten_append, ← hsplit.stream_eq]
        simp only [List.map_cons, List.map_nil, List.flatten_singleton]
        rfl
      · rw [hid]
        exact hsplit.foreign
      · rw [hacc]
        refine hsplit.threads.insert fun y hy => ?_
        have hforeign := hsplit.foreign y hy
        rw [hthread]
        exact hforeign
    · next hthread =>
      intro hflow
      obtain ⟨sent, waiting, hsplit⟩ := h hflow
      refine ⟨sent, waiting ++ [(thread, message)], hsplit.stream_eq, ?_, ?_, ?_⟩
      · rw [queued_queueInLoop, List.map_append]
        exact congrArg (· ++ [message]) hsplit.queued_eq
      · intro y hy
        rcases List.mem_append.mp hy with hold | hnew
        · exact hsplit.foreign y hold
        · rw [List.mem_singleton.mp hnew]
          exact hthread
      · rw [← List.append_assoc]
        exact hsplit.threads.concat _
  · exact h

private theorem carries_setState (t : TcpConnection) {state : StateE}
    (h : t.state ≠ .kDisconnected) :
    t.Carries (t.setState state) [] :=
  fun hflow => ⟨⟨h, hflow.2⟩, (List.append_nil _).symm, rfl, rfl, rfl⟩

private theorem carries_shutdown (t : TcpConnection) (thread : Nat) :
    t.Carries (t.shutdown thread) [] := by
  unfold shutdown
  split
  · next hstate =>
    have hset : t.Carries (t.setState .kDisconnecting) [] :=
      t.carries_setState (by rw [hstate]; decide)
    dsimp only
    split
    · exact hset.trans (carries_shutdownInLoop _)
    · exact hset.trans (carries_queueInLoop _ _ rfl)
  · exact Carries.refl t

private theorem carries_forceClose (t : TcpConnection) (thread : Nat) :
    t.Carries (t.forceClose thread) [] := by
  unfold forceClose
  split
  · next hstate =>
    have hset : t.Carries (t.setState .kDisconnecting) [] := t.carries_setState
      (by rcases hstate with hstate | hstate <;> rw [hstate] <;> decide)
    exact hset.trans (carries_queueInLoop _ _ rfl)
  · exact Carries.refl t

/-- Every call keeps the messages accounted for. -/
theorem Accounted.call {t : TcpConnection} (h : t.Accounted) (thread : Nat) (c : Call) :
    (t.call thread c).Accounted := by
  cases c with
  | send message outcome => exact h.send thread message outcome
  | shutdown => exact h.carries_nil (t.carries_shutdown thread)
  | forceClose => exact h.carries_nil (t.carries_forceClose thread)

private theorem Accounted.react {t : TcpConnection} (h : t.Accounted) (calls : List Call) :
    (t.react calls).Accounted :=
  foldl_invariant h (fun _ c hu => hu.call _ c) calls

private theorem carries_connectEstablished (t : TcpConnection) :
    t.Carries t.connectEstablished [] := by
  unfold connectEstablished
  split
  · exact Carries.refl t
  · next hstate =>
    have hset : t.Carries (t.setState .kConnected) [] :=
      t.carries_setState (by rw [not_not.mp hstate]; decide)
    dsimp only
    split
    · exact (hset.trans (carries_setPoller _ _)).trans (carries_note _ _)
    · exact carries_of_disconnected [] (handleClose_state _)

private theorem carries_connectDestroyed (t : TcpConnection) : t.Carries t.connectDestroyed [] := by
  unfold connectDestroyed
  split
  · exact carries_of_disconnected [] rfl
  · exact t.carries_setPoller _

private theorem Accounted.handleRead {t : TcpConnection} (h : t.Accounted) (o : EventOutcome) :
    (t.handleRead o).Accounted := by
  unfold TcpConnection.handleRead
  split
  · dsimp only
    have hinput : ∀ (u : TcpConnection) (b : Buffer), u.Carries (u.setInput b) [] :=
      fun u b hflow => ⟨hflow, (List.append_nil _).symm, rfl, rfl, rfl⟩
    split
    · refine Accounted.react ?_ o.calls
      exact h.carries_nil (((hinput _ _).trans (carries_note _ _)).trans (hinput _ _))
    · exact h.carries_nil (carries_of_disconnected [] (handleClose_state _))
  · exact h.carries_nil t.carries_handleClose

/-- Every event keeps the messages accounted for. -/
theorem Accounted.handleEvent {t : TcpConnection} (h : t.Accounted) (revents : BitVec 32)
    (o : EventOutcome) : (t.handleEvent revents o).Accounted := by
  have hclose : ∀ (u : TcpConnection) (b : Bool),
      u.Accounted → (if b then u.handleClose else u).Accounted := by
    intro u b hu
    cases b with
    | false => exact hu
    | true => exact hu.carries_nil u.carries_handleClose
  have hread : ∀ u : TcpConnection, u.Accounted →
      (if hasBits revents (xpollIn ||| xpollPri ||| xpollRdhup) then u.handleRead o
        else u).Accounted := by
    intro u hu
    split
    · exact hu.handleRead o
    · exact hu
  have hwrite : ∀ u : TcpConnection, u.Accounted →
      (if hasBits revents xpollOut then u.handleWrite o.write else u).Accounted := by
    intro u hu
    split
    · exact hu.carries_nil (u.carries_handleWrite o.write)
    · exact hu
  exact hwrite _ (hread _ (hclose _ _ (hclose _ _ h)))

private theorem carries_forceCloseInLoop (t : TcpConnection) : t.Carries t.forceCloseInLoop [] := by
  unfold forceCloseInLoop
  split
  · exact t.carries_handleClose
  · exact Carries.refl t

/-- A functor that sends no message keeps the account. -/
theorem Accounted.runFunctor {t : TcpConnection} (h : t.Accounted) (outcome : WriteOutcome)
    (calls : List Call) {f : Functor} (hf : f.payload? = none) :
    (t.runFunctor outcome calls f).Accounted := by
  cases f with
  | sendInLoop message => cases hf
  | shutdownInLoop => exact h.carries_nil t.carries_shutdownInLoop
  | forceCloseInLoop => exact h.carries_nil t.carries_forceCloseInLoop
  | connectEstablished => exact h.carries_nil t.carries_connectEstablished
  | connectDestroyed => exact h.carries_nil t.carries_connectDestroyed
  | writeComplete => exact h.react calls
  | highWaterMark size => exact h.react calls

/-- Running the functor of the first queued message moves it from the queue to the stream. -/
theorem Accounted.dequeue {t t' : TcpConnection} {rest : List Functor} {message : Bytes}
    (h : t.Accounted) (hfunctors : t.loop.functors = .sendInLoop message :: rest)
    (hc : (t.setLoop { t.loop with functors := rest }).Carries t' message) : t'.Accounted := by
  intro hflow'
  obtain ⟨hflow, hs, hq, hid, hacc⟩ := hc hflow'
  obtain ⟨sent, waiting, hsplit⟩ := h hflow
  have hwaiting : message :: t'.queued = waiting.map Prod.snd := by
    rw [← hsplit.queued_eq, hq, queued, queued, hfunctors]
    rfl
  cases waiting with
  | nil => cases hwaiting
  | cons first others =>
    obtain ⟨hfirst, hothers⟩ := List.cons.inj hwaiting
    refine ⟨sent ++ [first], others, ?_, hothers, ?_, ?_⟩
    · rw [hs, List.map_append, List.flatten_append, ← hsplit.stream_eq]
      simp only [List.map_cons, List.map_nil, List.flatten_singleton, ← hfirst]
      rfl
    · rw [hid]
      exact fun m hm => hsplit.foreign m (List.mem_cons_of_mem _ hm)
    · rw [hacc, List.append_assoc]
      exact hsplit.threads

/-- Every functor keeps the messages accounted for. -/
theorem Accounted.runNext {t : TcpConnection} (h : t.Accounted) (outcome : WriteOutcome)
    (calls : List Call) : (t.runNext outcome calls).Accounted := by
  unfold TcpConnection.runNext
  split
  · exact h.carries_nil fun hflow => ⟨hflow, (List.append_nil _).symm, rfl, rfl, rfl⟩
  · next f rest hfunctors =>
    cases hf : f.payload? with
    | none =>
      refine Accounted.runFunctor (h.carries_nil fun hflow => ?_) outcome calls hf
      refine ⟨hflow, (List.append_nil _).symm, ?_, rfl, rfl⟩
      simp only [queued, setLoop, hfunctors, List.cons_append, List.filterMap_cons, hf]
    | some message =>
      obtain rfl : f = .sendInLoop message := by
        cases f <;> cases hf
        rfl
      exact h.dequeue hfunctors (carries_sendInLoop _ message outcome)

private theorem carries_swapFunctors (t : TcpConnection) : t.Carries t.swapFunctors [] := by
  unfold swapFunctors
  split
  · next hdone =>
    intro hflow
    refine ⟨hflow, (List.append_nil _).symm, ?_, rfl, rfl⟩
    unfold queued
    rw [hdone]
    exact congrArg _ (List.append_nil _)
  · exact Carries.refl t

/-- Every step of a run keeps the account. -/
theorem Accounted.step {t : TcpConnection} (h : t.Accounted) (i : ConnectionInput) :
    (connectionStep t i).Accounted := by
  cases i with
  | call thread c => exact h.call thread c
  | establish thread =>
    simp only [connectionStep, establish]
    split
    · exact h.carries_nil t.carries_connectEstablished
    · exact h.carries_nil (t.carries_queueInLoop _ rfl)
  | destroy thread queue =>
    simp only [connectionStep, destroy]
    split
    · exact h.carries_nil t.carries_connectDestroyed
    · exact h.carries_nil (t.carries_queueInLoop _ rfl)
  | handleEvent revents o => exact h.handleEvent revents o
  | swapFunctors => exact h.carries_nil t.carries_swapFunctors
  | runNext outcome calls => exact h.runNext outcome calls
  | kernel full => exact h.carries_nil (t.carries_setPoller _)

/-- With the messages split between stream and queue, the stream is exact. -/
theorem Split.streamExact {t : TcpConnection} {sent waiting : List (Nat × Bytes)}
    (h : t.Split sent waiting) : t.StreamExact := by
  refine ⟨sent ++ waiting, h.threads.perm, h.threads, ?_⟩
  rw [h.queued_eq, List.map_append, List.flatten_append, ← h.stream_eq]
  rfl

end TcpConnection

end ChatRoom.Net
