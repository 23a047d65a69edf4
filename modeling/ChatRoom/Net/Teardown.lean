import ChatRoom.Net.Lifecycle
import ChatRoom.Net.WriteInterest

/-!
# Tearing a connection down

`connectDestroyed` is the last thing that happens to a connection. It announces the
end and withdraws the channel of a connection that is connected, and removes the
channel of one that has been closed; a connection that is only on its way to being
closed it leaves registered. The poller is one that other channels use as well.
-/

namespace ChatRoom.Net

open ChatRoom.Core

/-- A step of the connection or an operation of another channel of the loop. -/
inductive LoopInput where
  | connection (i : ConnectionInput)
  | other (c : Nat) (op : ChannelOp)

/-- One input of the connection, or of another channel of its poller. -/
def loopStep (t : TcpConnection) : LoopInput → TcpConnection
  | .connection i => connectionStep t i
  | .other c op => t.other c op

namespace EPollPoller

variable {p : EPollPoller} {c : Nat}

/-- Removing a channel that asks for nothing takes it out of the map. -/
theorem Agrees.remove_index (h : p.Agrees) (hevents : (p.objects c).events = Channel.kNoneEvent) :
    ((p.remove c).objects c).index = .kNew := by
  by_cases hentry : p.channels (p.objects c).fd = some c
  · rw [h.remove_eq hentry hevents]
    simp only [EPollPoller.put, Function.update_self]
  · rw [remove_of_ne (Or.inl hentry)]
    exact h.index_of_ne hentry

/-- The kernel does not report to a channel that is new. -/
theorem Agrees.not_watched (h : p.Agrees) (hindex : (p.objects c).index = .kNew) (fd : Nat)
    (events : BitVec 32) : p.interest fd ≠ some (c, events) := by
  intro hinterest
  exact (h.kNew_iff c).mp hindex fd (h.known hinterest)

/-- Whatever other channels do, a channel that is new stays out of the interest set. -/
theorem Agrees.not_watched_later (h : p.Agrees) (hindex : (p.objects c).index = .kNew)
    (later : List (Nat × ChannelOp)) (hlater : ∀ o ∈ later, o.1 ≠ c) (fd : Nat)
    (events : BitVec 32) :
    (later.foldl (fun q o => q.operate o.1 o.2) p).interest fd ≠ some (c, events) := by
  induction later generalizing p with
  | nil => exact h.not_watched hindex fd events
  | cons o rest ih =>
    have hne : o.1 ≠ c := hlater o (List.mem_cons_self ..)
    refine ih (h.operate o.1 o.2) ?_ fun o' ho' => hlater o' (List.mem_cons_of_mem _ ho')
    rw [operate_objects_of_ne hne.symm]
    exact hindex

end EPollPoller

namespace TcpConnection

variable {t t' : TcpConnection}

/-- Nothing is left of the connection in its loop, and whoever knew it has been told. -/
structure TornDown (t : TcpConnection) : Prop where
  disconnected : t.state = .kDisconnected
  idle : t.events = Channel.kNoneEvent
  absent : ∀ fd, t.poller.channels fd ≠ some t.channel
  unwatched : ∀ fd events, t.poller.interest fd ≠ some (t.channel, events)
  unreported : ∀ later : List (Nat × ChannelOp), (∀ o ∈ later, o.1 ≠ t.channel) →
    ∀ fd events, (later.foldl (fun q o => q.operate o.1 o.2) t.poller).interest fd ≠
      some (t.channel, events)
  announced : Event.down ∈ t.trace

/-- The step runs `connectDestroyed`: as a task of the loop, or at once in its thread. -/
def RunsDestroyed (t : TcpConnection) : LoopInput → Prop
  | .connection (.destroy thread queue) => thread = t.loop.threadId ∧ queue = false
  | .connection (.runNext _ _) => t.loop.functors.head? = some .connectDestroyed
  | _ => False

/-- The state that holds between the steps of a loop whose kernel refuses nothing. -/
structure Sound (t : TcpConnection) : Prop where
  agrees : t.poller.Agrees
  watched : t.Watched
  tracked : t.Tracked

private theorem agrees_handleClose (h : t.poller.Agrees) : t.handleClose.poller.Agrees := by
  unfold handleClose
  split
  · exact h
  · exact h.operate t.channel .disableAll

private theorem agrees_move (h : t.poller.Agrees) (hm : t.Move t') : t'.poller.Agrees := by
  cases hm with
  | queue | accept | input | fault | wrote | shutdownWrite | disconnecting | drain => exact h
  | buffer =>
    unfold enableWriting
    split
    · exact h
    · exact h.operate t.channel .enableWriting
  | drained => exact h.operate t.channel .disableWriting
  | close | destroyed => exact h.operate t.channel .disableAll
  | up => exact h.operate t.channel .enableReading
  | refused => exact agrees_handleClose (h.operate t.channel .enableReading)
  | removed => exact h.remove t.channel

private theorem agrees_steps (h : t.poller.Agrees) (hs : t.Steps t') : t'.poller.Agrees := by
  refine hs.invariant (P := fun u => u.poller.Agrees) (fun u u' hu hstep => ?_) h
  rcases hstep with hmove | rfl
  · exact agrees_move hu hmove
  · exact hu

private theorem connectionStep_steps (t : TcpConnection) {i : ConnectionInput}
    (hroom : ∀ full, i ≠ .kernel full) :
    ∃ loop u loop', (t.setLoop loop).Steps u ∧ connectionStep t i = u.setLoop loop' := by
  cases i with
  | handleEvent revents o => exact ⟨t.loop, _, _, t.steps_handleEvent revents o, rfl⟩
  | _ =>
    obtain ⟨loop, u, loop', hmoves, heq⟩ :=
      t.connectionStep_moves (by intro _ _ hevent; cases hevent) hroom
    exact ⟨loop, u, loop', hmoves.steps, heq⟩

private theorem Sound.connectionStep (h : t.Sound) {i : ConnectionInput}
    (hroom : ∀ full, i ≠ .kernel full) : (connectionStep t i).Sound := by
  have htracked := h.tracked.step i
  obtain ⟨loop, u, loop', hs, heq⟩ := t.connectionStep_steps hroom
  have hwatched : (t.setLoop loop).Watched := h.watched.of_eq rfl rfl rfl rfl
  have hagrees : u.poller.Agrees := agrees_steps (t := t.setLoop loop) h.agrees hs
  rw [heq] at htracked ⊢
  exact ⟨hagrees, (hwatched.steps hs).of_eq rfl rfl rfl rfl, htracked⟩

private theorem Sound.other (h : t.Sound) (c : Nat) (op : ChannelOp) : (t.other c op).Sound := by
  unfold TcpConnection.other
  split
  · exact h
  · next hc => exact ⟨h.agrees.operate c op, h.watched.operate hc op, h.tracked⟩

private theorem Sound.step (h : t.Sound) {i : LoopInput}
    (hroom : ∀ full, i ≠ .connection (.kernel full)) :
    (loopStep t i).Sound := by
  cases i with
  | connection i => exact h.connectionStep fun full hi => hroom full (congrArg _ hi)
  | other c op => exact h.other c op

/-- A fresh connection on a loop whose other channels have done anything. -/
theorem sound_new (threadId : Nat) {poller : EPollPoller} (hagrees : poller.Agrees)
    {channel fd : Nat} (hfresh : poller.objects channel = Channel.new fd)
    (writeCompleteCallback highWaterMarkCallback : Bool) :
    (new threadId poller channel writeCompleteCallback highWaterMarkCallback).Sound where
  agrees := hagrees
  watched := watched_new threadId hfresh writeCompleteCallback highWaterMarkCallback
  tracked := iff_of_false (by intro h; cases h) List.not_mem_nil

/-- Removing the channel of a closed connection leaves nothing behind. -/
theorem Sound.tornDown_remove (h : t.Sound) (hstate : t.state = .kDisconnected) :
    (t.setPoller (t.poller.remove t.channel)).TornDown := by
  have hevents : t.events = Channel.kNoneEvent := h.watched.idle hstate
  have hagrees := h.agrees.remove t.channel
  have hindex := h.agrees.remove_index hevents
  exact
    { disconnected := hstate
      idle := (t.poller.remove_events t.channel).trans hevents
      absent := (hagrees.kNew_iff t.channel).mp hindex
      unwatched := hagrees.not_watched hindex
      unreported := hagrees.not_watched_later hindex
      announced := h.tracked.mp hstate }

/-- `connectDestroyed` tears the connection down unless it is half-way open or closed. -/
theorem Sound.connectDestroyed_tornDown_iff (h : t.Sound) :
    t.connectDestroyed.TornDown ↔ t.state = .kConnected ∨ t.state = .kDisconnected := by
  by_cases hconnected : t.state = .kConnected
  · have hclosed : (((t.setState .kDisconnected).setPoller
        (t.poller.disableAll t.channel).1).note .down).Sound :=
      { agrees := h.agrees.operate t.channel .disableAll
        watched := watched_of_closed rfl t.events_disableAll
        tracked := iff_of_true rfl (List.mem_append_right _ (List.mem_singleton.mpr rfl)) }
    refine iff_of_true ?_ (Or.inl hconnected)
    rw [connectDestroyed, if_pos hconnected]
    exact hclosed.tornDown_remove rfl
  · have heq : t.connectDestroyed = t.setPoller (t.poller.remove t.channel) := by
      rw [connectDestroyed, if_neg hconnected]
    rw [heq]
    exact ⟨fun htorn => Or.inr htorn.disconnected,
      fun hor => h.tornDown_remove (hor.resolve_left hconnected)⟩

/-- A step that runs `connectDestroyed` is that call, on the connection as it is. -/
theorem loopStep_of_runsDestroyed {i : LoopInput} (h : t.RunsDestroyed i) :
    ∃ loop, loopStep t i = (t.setLoop loop).connectDestroyed := by
  cases i with
  | other c op => exact absurd h id
  | connection i =>
    cases i with
    | destroy thread queue =>
      obtain ⟨hthread, hqueue⟩ := h
      refine ⟨t.loop, ?_⟩
      rw [loopStep, ChatRoom.Net.connectionStep, destroy, if_pos ⟨hthread, by rw [hqueue]; rfl⟩]
      rfl
    | runNext outcome calls =>
      have hhead : t.loop.functors.head? = some .connectDestroyed := h
      cases hfunctors : t.loop.functors with
      | nil =>
        rw [hfunctors] at hhead
        cases hhead
      | cons f rest =>
        rw [hfunctors] at hhead
        cases hhead
        refine ⟨{ t.loop with functors := rest }, ?_⟩
        simp only [loopStep, ChatRoom.Net.connectionStep, runNext, hfunctors, runFunctor]
    | call | establish | handleEvent | swapFunctors | kernel => exact absurd h id

end TcpConnection

open TcpConnection in
/-- Whenever `connectDestroyed` runs in a run of the loop in which `epoll_ctl` succeeds, it
tears the connection down exactly when the connection is connected or already closed. -/
theorem teardown_complete_iff (fds : Nat → Nat) (earlier : List PollerInput) (channel fd : Nat)
    (hfresh : (earlier.foldl pollerStep (.new fun c => Channel.new (fds c))).objects channel =
      Channel.new fd)
    (threadId : Nat) (writeCompleteCallback highWaterMarkCallback : Bool)
    (inputs : List LoopInput) (hroom : ∀ full, .connection (.kernel full) ∉ inputs)
    (t : TcpConnection) (i : LoopInput)
    (hvisits : Visits loopStep (new threadId (earlier.foldl pollerStep
      (.new fun c => Channel.new (fds c))) channel writeCompleteCallback highWaterMarkCallback)
      inputs t i)
    (hruns : t.RunsDestroyed i) :
    (loopStep t i).TornDown ↔ t.state = .kConnected ∨ t.state = .kDisconnected := by
  have hagrees : (earlier.foldl pollerStep (.new fun c => Channel.new (fds c))).Agrees :=
    foldl_invariant (EPollPoller.agrees_new fds) (fun _ i ht => ht.step i) earlier
  have hsound : t.Sound := by
    refine hvisits.invariant_of_visits (P := Sound) (sound_new threadId hagrees hfresh
      writeCompleteCallback highWaterMarkCallback) fun u j hu hs => hs.step ?_
    rintro full rfl
    obtain ⟨first, rest, hin, _⟩ := hu
    exact hroom full (hin ▸ List.mem_append_right _ (List.mem_cons_self ..))
  obtain ⟨loop, heq⟩ := loopStep_of_runsDestroyed hruns
  have hset : (t.setLoop loop).Sound :=
    ⟨hsound.agrees, hsound.watched.of_eq rfl rfl rfl rfl, hsound.tracked⟩
  rw [heq]
  exact hset.connectDestroyed_tornDown_iff

open TcpConnection in
/-- A server that stops tears down a connection that is connected. -/
theorem teardown_complete_when_connected :
    let t := loopStep (new 0 (.new fun _ => Channel.new 3) 7 false false)
      (.connection (.establish 0))
    (loopStep t (.connection (.destroy 0 false))).TornDown := by
  intro t
  have hstate : t.state = .kConnected := by decide +kernel
  exact (teardown_complete_iff (fun _ => 3) [] 7 3 rfl 0 false false
    [.connection (.establish 0), .connection (.destroy 0 false)] (by simp) t
    (.connection (.destroy 0 false)) ⟨[.connection (.establish 0)], [], rfl, rfl⟩
    ⟨rfl, rfl⟩).mpr (Or.inl hstate)

/-- A connection is established; its server stops and posts `connectDestroyed`; before
the loop gets there, its session rejects a message and closes by force. -/
def stopDuringClose : List LoopInput :=
  [.connection (.establish 1), .connection .swapFunctors, .connection (.runNext (.room 0) []),
    .connection (.destroy 1 false),
    .connection (.handleEvent xpollIn ⟨.ok [0], 1, [.forceClose], .room 0⟩),
    .connection .swapFunctors]

open TcpConnection in
/-- Then `connectDestroyed` leaves the connection as it is, registered and not announced. -/
theorem teardown_skipped_when_disconnecting :
    let t := stopDuringClose.foldl loopStep (new 0 (.new fun _ => Channel.new 3) 7 false false)
    let u := loopStep t (.connection (.runNext (.room 0) []))
    t.RunsDestroyed (.connection (.runNext (.room 0) [])) ∧ u.state = .kDisconnecting ∧
      u.events = Channel.kReadEvent ∧ u.poller.channels 3 = some 7 ∧
      u.poller.interest 3 = some (7, Channel.kReadEvent) ∧ Event.down ∉ u.trace ∧
      ¬ u.TornDown := by
  intro t u
  have hhead : t.loop.functors.head? = some .connectDestroyed := by decide +kernel
  have hstate : u.state = .kDisconnecting := by decide +kernel
  refine ⟨hhead, hstate, by decide +kernel, by decide +kernel, by decide +kernel,
    by decide +kernel, fun htorn => ?_⟩
  rw [htorn.disconnected] at hstate
  cases hstate

end ChatRoom.Net
