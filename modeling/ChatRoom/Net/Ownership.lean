import ChatRoom.Net.Moves

/-!
# Who keeps a connection alive

A connection lives as long as its server's table, a functor with a `shared_ptr` to it,
or a thread in the middle of a call holds it. Its I/O loop and the main loop run in
different threads. `doOtherTasks` destroys its vector of functors when it is through
with all of them, so what a batch holds is held to its end. A call from another thread
tests the state, acts on it and queues its functor in separate steps. Tasks of other
connections neither hold nor use this one and are left out.
-/

namespace ChatRoom.Net

open ChatRoom.Core

namespace Call

/-- The test of `m_state` that lets the call go on. -/
def passes (state : StateE) : Call → Bool
  | .send _ _ | .shutdown => state = .kConnected
  | .forceClose => state = .kConnected ∨ state = .kDisconnecting

/-- What the call does before it queues its functor. -/
def begin (t : TcpConnection) (thread : Nat) : Call → TcpConnection
  | .send message _ => t.accept thread message
  | .shutdown | .forceClose => t.setState .kDisconnecting

/-- What a call from outside the loop thread queues. -/
def functor : Call → Functor
  | .send message _ => .sendInLoop message
  | .shutdown => .shutdownInLoop
  | .forceClose => .forceCloseInLoop

end Call

/-- How far a thread has got: it has locked its `weak_ptr`, passed the test, acted on it,
returned from the call, and let go of the connection. -/
inductive Stage where
  | locked
  | passed
  | begun
  | returned
  | released
  deriving DecidableEq, Repr

/-- A thread that has locked the pointer to the connection, and how far its call has come. -/
structure Sender where
  thread : Nat
  call : Call
  stage : Stage
  deriving DecidableEq, Repr

/-- The `removeConnectionInLoop` tasks of the main loop: pending, left of the vector being
run, and already run but not destroyed. -/
structure MainTasks where
  pending : Nat
  functors : Nat
  done : Nat
  deriving DecidableEq, Repr

/-- A connection and all who may hold it. `entry` says that `m_connections` has its name,
`holds` that the pointer there is not null. -/
structure Custody where
  conn : TcpConnection
  /-- Functors of the vector being run that have been run already. -/
  done : List Functor
  entry : Bool
  holds : Bool
  main : MainTasks
  mainThread : Nat
  senders : List Sender

/-- A step of a sender, of the connection's loop, of the main loop, or a `stop` of the server. -/
inductive CustodyInput where
  | lock (thread : Nat) (call : Call)
  | test (k : Nat)
  | begin (k : Nat)
  | push (k : Nat)
  | release (k : Nat)
  | handleEvent (revents : BitVec 32) (o : EventOutcome)
  | swapFunctors
  | runNext (outcome : WriteOutcome) (calls : List Call)
  | mainSwap
  | mainNext
  | stop

/-- Some functor holds a `shared_ptr`. -/
def Shared (functors : List Functor) : Prop := ∃ f ∈ functors, f.isRaw = false

/-- Some functor is bound to the raw pointer. -/
def Raw (functors : List Functor) : Prop := ∃ f ∈ functors, f.isRaw = true

instance (functors : List Functor) : Decidable (Shared functors) :=
  inferInstanceAs (Decidable (∃ f ∈ functors, _))

namespace Custody

/-- `newConnection` has entered the connection and posted `connectEstablished`. -/
def newConnection (t : TcpConnection) (mainThread : Nat) : Custody where
  conn := t.queueInLoop mainThread .connectEstablished
  done := []
  entry := true
  holds := true
  main := ⟨0, 0, 0⟩
  mainThread := mainThread
  senders := []

/-- Someone holds the connection. It is destroyed when nobody does. -/
def Referenced (w : Custody) : Prop :=
  w.holds = true ∨ Shared (w.done ++ w.conn.loop.functors ++ w.conn.loop.pendingFunctors) ∨
    0 < w.main.pending + w.main.functors + w.main.done ∨
    ∃ s ∈ w.senders, s.stage ≠ .released

instance (w : Custody) : Decidable w.Referenced :=
  inferInstanceAs (Decidable (_ ∨ _ ∨ _ ∨ _))

/-- The connection goes on; its close callback posts `removeConnectionInLoop`. -/
def advance (w : Custody) (t : TcpConnection) : Custody :=
  { w with
    conn := t
    main := { w.main with
      pending := w.main.pending + (t.trace.count .closed - w.conn.trace.count .closed) } }

/-- A sender goes on to a stage. -/
def setStage (w : Custody) (k : Nat) (s : Sender) (stage : Stage) : Custody :=
  { w with senders := w.senders.set k { s with stage := stage } }

/-- A step of the sender at position `k`. -/
def senderStep (w : Custody) (k : Nat) (act : Custody → Sender → Custody) : Custody :=
  match w.senders[k]? with
  | some s => act w s
  | none => w

/-- The sender tests the state of the connection. -/
def test (w : Custody) (k : Nat) : Custody :=
  w.senderStep k fun w s =>
    if s.stage = .locked then
      w.setStage k s (if s.call.passes w.conn.state then .passed else .returned)
    else w

/-- The sender does what its call does before it queues a functor. -/
def begin (w : Custody) (k : Nat) : Custody :=
  w.senderStep k fun w s =>
    if s.stage = .passed then
      { w.setStage k s .begun with conn := s.call.begin w.conn s.thread }
    else w

/-- The sender queues the functor of its call. -/
def push (w : Custody) (k : Nat) : Custody :=
  w.senderStep k fun w s =>
    if s.stage = .begun then
      { w.setStage k s .returned with conn := w.conn.queueInLoop s.thread s.call.functor }
    else w

/-- The sender lets go of its pointer. -/
def release (w : Custody) (k : Nat) : Custody :=
  w.senderStep k fun w s => if s.stage = .returned then w.setStage k s .released else w

/-- The loop swaps functors out when the last vector is gone. -/
def swapFunctors (w : Custody) : Custody :=
  if w.done = [] then { w with conn := w.conn.swapFunctors } else w

/-- The loop runs the next functor, or destroys its vector. What a raw functor does to a
destroyed connection is anybody's guess; here it does nothing. -/
def runNext (w : Custody) (outcome : WriteOutcome) (calls : List Call) : Custody :=
  match w.conn.loop.functors with
  | [] => { w with conn := w.conn.runNext outcome calls, done := [] }
  | f :: rest =>
    if f.isRaw ∧ ¬ w.Referenced then
      { w with conn := w.conn.setLoop { w.conn.loop with functors := rest }, done := w.done ++ [f] }
    else { w.advance (w.conn.runNext outcome calls) with done := w.done ++ [f] }

/-- The main loop swaps out its functors, once those of the last turn are gone. -/
def mainSwap (w : Custody) : Custody :=
  if w.main.functors = 0 ∧ w.main.done = 0 then { w with main := ⟨0, w.main.pending, 0⟩ } else w

/-- `removeConnectionInLoop`, if there is one to run: the entry is erased, and
`connectDestroyed` is posted if there was one. -/
def mainNext (w : Custody) : Custody :=
  match w.main.functors with
  | 0 => { w with main := { w.main with done := 0 } }
  | n + 1 =>
    let w := { w with main := { w.main with functors := n, done := w.main.done + 1 } }
    if w.entry then
      { w with
        entry := false
        holds := false
        conn := w.conn.queueInLoop w.mainThread .connectDestroyed }
    else w

/-- `TcpServer::stop` clears the pointer, keeps the name and posts `connectDestroyed`. -/
def stop (w : Custody) : Custody :=
  if w.holds then
    { w with holds := false, conn := w.conn.queueInLoop w.mainThread .connectDestroyed }
  else w

end Custody

/-- One step of the connection and those who hold it; a thread locks the pointer only while somebody
holds it. -/
def custodyStep (w : Custody) : CustodyInput → Custody
  | .lock thread call =>
    if w.Referenced ∧ thread ≠ w.conn.loop.threadId then
      { w with senders := w.senders ++ [⟨thread, call, .locked⟩] }
    else w
  | .test k => w.test k
  | .begin k => w.begin k
  | .push k => w.push k
  | .release k => w.release k
  | .handleEvent revents o =>
    if w.Referenced then w.advance (w.conn.handleEvent revents o) else w
  | .swapFunctors => w.swapFunctors
  | .runNext outcome calls => w.runNext outcome calls
  | .mainSwap => w.mainSwap
  | .mainNext => w.mainNext
  | .stop => w.stop

/-- The steps of a sender with nothing between them are the call. -/
theorem TcpConnection.call_eq_steps (t : TcpConnection) {thread : Nat}
    (hthread : thread ≠ t.loop.threadId) (c : Call) :
    t.call thread c =
      if c.passes t.state then (c.begin t thread).queueInLoop thread c.functor else t := by
  cases c with
  | send message outcome =>
    have hloop : ¬ thread = (t.accept thread message).loop.threadId := hthread
    simp only [call, send, Call.passes, Call.begin, Call.functor, decide_eq_true_eq, if_neg hloop]
  | shutdown =>
    have hloop : ¬ thread = (t.setState .kDisconnecting).loop.threadId := hthread
    simp only [call, shutdown, Call.passes, Call.begin, Call.functor, decide_eq_true_eq,
      if_neg hloop]
  | forceClose =>
    simp only [call, forceClose, Call.passes, Call.begin, Call.functor, decide_eq_true_eq]

namespace TcpConnection

variable {t t' t'' : TcpConnection}

/-- In the loop thread functors are queued behind the others, with a `shared_ptr` each. -/
def Appends (t t' : TcpConnection) : Prop :=
  t'.loop.functors = t.loop.functors ∧
    ∃ more, t'.loop.pendingFunctors = t.loop.pendingFunctors ++ more ∧ ¬ Raw more

private theorem appends_of_eq (h : t'.loop = t.loop) : t.Appends t' := by
  refine ⟨by rw [h], [], by rw [h, List.append_nil], ?_⟩
  rintro ⟨f, hf, _⟩
  exact absurd hf List.not_mem_nil

private theorem Appends.trans (h : t.Appends t') (h' : t'.Appends t'') : t.Appends t'' := by
  obtain ⟨hfunctors, more, hpending, hraw⟩ := h
  obtain ⟨hfunctors', more', hpending', hraw'⟩ := h'
  refine ⟨hfunctors'.trans hfunctors, more ++ more', ?_, ?_⟩
  · rw [hpending', hpending, List.append_assoc]
  · rintro ⟨f, hf, hfraw⟩
    rcases List.mem_append.mp hf with hin | hin
    · exact hraw ⟨f, hin, hfraw⟩
    · exact hraw' ⟨f, hin, hfraw⟩

private theorem handleClose_loop (t : TcpConnection) : t.handleClose.loop = t.loop := by
  unfold handleClose
  split <;> rfl

private theorem Move.appends (h : t.Move t') : t.Appends t' := by
  cases h with
  | queue thread hshared =>
    refine ⟨rfl, [_], rfl, ?_⟩
    rintro ⟨f, hf, hraw⟩
    rw [List.mem_singleton.mp hf, hshared] at hraw
    cases hraw
  | buffer =>
    apply appends_of_eq
    unfold enableWriting
    split <;> rfl
  | refused => exact appends_of_eq (handleClose_loop _)
  | accept | input | fault | wrote | shutdownWrite | disconnecting | drain | drained | close | up
  | destroyed | removed => exact appends_of_eq rfl

private theorem Steps.appends (h : t.Steps t') : t.Appends t' := by
  refine h.invariant (P := t.Appends) (fun u u' hu hstep => ?_) (appends_of_eq rfl)
  rcases hstep with hmove | rfl
  · exact hu.trans hmove.appends
  · exact hu.trans (appends_of_eq rfl)

end TcpConnection

namespace Custody

variable {w : Custody}

/-- A raw functor is queued while the table holds the connection or a functor that holds
it waits in the same list. -/
def PushOk (w : Custody) : CustodyInput → Prop
  | .push k => (∃ s ∈ w.senders[k]?, s.stage = .begun ∧ s.call.functor.isRaw = true) →
      w.holds = true ∨ Shared w.conn.loop.pendingFunctors
  | _ => True

/-- Whatever is still to run without a reference of its own runs beside one that has it. -/
structure Safe (w : Custody) : Prop where
  pending : Raw w.conn.loop.pendingFunctors →
    w.holds = true ∨ Shared w.conn.loop.pendingFunctors
  batch : Raw w.conn.loop.functors → w.holds = true ∨ Shared w.conn.loop.pendingFunctors ∨
    Shared (w.done ++ w.conn.loop.functors)

private theorem raw_append {a b : List Functor} : Raw (a ++ b) ↔ Raw a ∨ Raw b := by
  simp only [Raw, List.mem_append, or_and_right, exists_or]

private theorem shared_append {a b : List Functor} : Shared (a ++ b) ↔ Shared a ∨ Shared b := by
  simp only [Shared, List.mem_append, or_and_right, exists_or]

/-- A reference in the pending list covers all. -/
theorem safe_of_shared (h : Shared w.conn.loop.pendingFunctors) : w.Safe :=
  ⟨fun _ => Or.inr h, fun _ => Or.inr (Or.inl h)⟩

private theorem shared_queueInLoop (t : TcpConnection) (thread : Nat) {f : Functor}
    (hf : f.isRaw = false) : Shared (t.queueInLoop thread f).loop.pendingFunctors :=
  shared_append.mpr (Or.inr ⟨f, List.mem_singleton.mpr rfl, hf⟩)

private theorem Safe.of_eq {w' : Custody} (h : w.Safe) (hloop : w'.conn.loop = w.conn.loop)
    (hdone : w'.done = w.done) (hholds : w'.holds = w.holds) : w'.Safe := by
  constructor
  · rw [hloop, hholds]
    exact h.pending
  · rw [hloop, hholds, hdone]
    exact h.batch

/-- Functors may be queued that hold the connection, or while something else does. -/
theorem Safe.append (h : w.Safe) (w' : Custody) (more : List Functor)
    (hfunctors : w'.conn.loop.functors = w.conn.loop.functors)
    (hpending : w'.conn.loop.pendingFunctors = w.conn.loop.pendingFunctors ++ more)
    (hdone : w'.done = w.done) (hholds : w'.holds = w.holds)
    (hmore : Raw more → w.holds = true ∨ Shared w.conn.loop.pendingFunctors) : w'.Safe := by
  constructor
  · rw [hpending, raw_append, shared_append, hholds]
    intro hraw
    exact (hraw.elim h.pending hmore).imp_right Or.inl
  · rw [hpending, hfunctors, hdone, hholds, shared_append]
    intro hraw
    exact (h.batch hraw).imp_right (Or.imp_left Or.inl)

private theorem Safe.advance (h : w.Safe) {t : TcpConnection} (ht : w.conn.Appends t) :
    (w.advance t).Safe := by
  obtain ⟨hfunctors, more, hpending, hraw⟩ := ht
  exact h.append (w.advance t) more hfunctors hpending rfl rfl fun hmore => absurd hmore hraw

/-- A step of a sender that exists, or none at all. -/
theorem Safe.senderStep (h : w.Safe) {k : Nat} {act : Custody → Sender → Custody}
    (hact : ∀ s, w.senders[k]? = some s → (act w s).Safe) : (w.senderStep k act).Safe := by
  unfold Custody.senderStep
  cases hs : w.senders[k]? with
  | none => exact h
  | some s => exact hact s hs

private theorem Safe.push (h : w.Safe) {k : Nat} (hok : w.PushOk (.push k)) : (w.push k).Safe := by
  refine h.senderStep fun s hs => ?_
  dsimp only
  split
  · next hstage =>
    refine h.append _ [s.call.functor] rfl rfl rfl rfl ?_
    rintro ⟨f, hf, hraw⟩
    rw [List.mem_singleton.mp hf] at hraw
    exact hok ⟨s, hs, hstage, hraw⟩
  · exact h

private theorem Safe.begin (h : w.Safe) (k : Nat) : (w.begin k).Safe := by
  refine h.senderStep fun s _ => ?_
  dsimp only
  split
  · refine h.of_eq ?_ rfl rfl
    cases s.call <;> rfl
  · exact h

/-- Testing the state and letting go change the sender only. -/
theorem Safe.test (h : w.Safe) (k : Nat) : (w.test k).Safe := by
  refine h.senderStep fun s _ => ?_
  split
  · exact h.of_eq rfl rfl rfl
  · exact h

private theorem Safe.release (h : w.Safe) (k : Nat) : (w.release k).Safe := by
  refine h.senderStep fun s _ => ?_
  split
  · exact h.of_eq rfl rfl rfl
  · exact h

private theorem Safe.swapFunctors (h : w.Safe) : w.swapFunctors.Safe := by
  unfold Custody.swapFunctors
  split
  · next hdone =>
    by_cases hnone : w.conn.loop.functors = []
    · have hempty : ¬ Raw [] := fun ⟨f, hf, _⟩ => List.not_mem_nil hf
      have heq : w.conn.swapFunctors = w.conn.setLoop
          { w.conn.loop with
            functors := w.conn.loop.pendingFunctors
            pendingFunctors := []
            doingOtherTasks := true } := if_pos hnone
      rw [heq]
      refine ⟨fun hraw => absurd hraw hempty, fun hraw => ?_⟩
      exact (h.pending hraw).imp_right fun hs => Or.inr (shared_append.mpr (Or.inr hs))
    · rw [show w.conn.swapFunctors = w.conn from if_neg hnone]
      exact h
  · exact h

private theorem Safe.runNext (h : w.Safe) (outcome : WriteOutcome) (calls : List Call) :
    (w.runNext outcome calls).Safe := by
  unfold Custody.runNext
  cases hfunctors : w.conn.loop.functors with
  | nil =>
    have heq : w.conn.runNext outcome calls =
        w.conn.setLoop { w.conn.loop with doingOtherTasks := false } := by
      simp only [TcpConnection.runNext, hfunctors]
    simp only [heq]
    refine ⟨h.pending, ?_⟩
    rintro ⟨f, hf, _⟩
    have hmem : f ∈ w.conn.loop.functors := hf
    rw [hfunctors] at hmem
    exact absurd hmem List.not_mem_nil
  | cons f rest =>
    -- The functor goes from the front of the vector to the part that has been run.
    have hpopped : ({ w with
        conn := w.conn.setLoop { w.conn.loop with functors := rest }
        done := w.done ++ [f] } : Custody).Safe := by
      refine ⟨h.pending, ?_⟩
      rintro ⟨g, hg, hraw⟩
      have hbatch := h.batch ⟨g, by rw [hfunctors]; exact List.mem_cons_of_mem _ hg, hraw⟩
      rw [hfunctors] at hbatch
      simpa only [TcpConnection.setLoop, List.append_assoc, List.cons_append, List.nil_append]
        using hbatch
    dsimp only
    split
    · exact hpopped
    · have heq : w.conn.runNext outcome calls =
          (w.conn.setLoop { w.conn.loop with functors := rest }).runFunctor outcome calls f := by
        simp only [TcpConnection.runNext, hfunctors]
      rw [heq]
      obtain ⟨hkept, more, hpending, hraw⟩ :=
        (TcpConnection.moves_runFunctor (w.conn.setLoop { w.conn.loop with functors := rest })
          outcome calls f).steps.appends
      exact hpopped.append _ _ hkept hpending rfl rfl fun hmore => absurd hmore hraw

private theorem Safe.mainNext (h : w.Safe) : w.mainNext.Safe := by
  unfold Custody.mainNext
  split
  · exact h.of_eq rfl rfl rfl
  · dsimp only
    split
    · exact safe_of_shared (shared_queueInLoop _ _ rfl)
    · exact h.of_eq rfl rfl rfl

private theorem Safe.step (h : w.Safe) {i : CustodyInput} (hok : w.PushOk i) :
    (custodyStep w i).Safe := by
  cases i with
  | lock thread call =>
    simp only [custodyStep]
    split
    · exact h.of_eq rfl rfl rfl
    · exact h
  | test k => exact h.test k
  | begin k => exact h.begin k
  | push k => exact h.push hok
  | release k => exact h.release k
  | handleEvent revents o =>
    simp only [custodyStep]
    split
    · exact h.advance (w.conn.steps_handleEvent revents o).appends
    · exact h
  | swapFunctors => exact h.swapFunctors
  | runNext outcome calls => exact h.runNext outcome calls
  | mainSwap =>
    simp only [custodyStep, mainSwap]
    split
    · exact h.of_eq rfl rfl rfl
    · exact h
  | mainNext => exact h.mainNext
  | stop =>
    simp only [custodyStep, stop]
    split
    · exact safe_of_shared (shared_queueInLoop _ _ rfl)
    · exact h

/-- A raw functor at the front of the vector finds its connection alive. -/
theorem Safe.referenced (h : w.Safe) {f : Functor} (hhead : w.conn.loop.functors.head? = some f)
    (hraw : f.isRaw = true) : w.Referenced := by
  rcases h.batch ⟨f, List.mem_of_head? hhead, hraw⟩ with hholds | hshared | hshared
  · exact Or.inl hholds
  · exact Or.inr (Or.inl (shared_append.mpr (Or.inr hshared)))
  · exact Or.inr (Or.inl (shared_append.mpr (Or.inl hshared)))

end Custody

open Custody in
/-- In every interleaving in which raw functors are only queued while the table or a waiting
functor holds the connection, no raw functor runs on a destroyed connection. -/
theorem no_raw_functor_outlives (threadId : Nat) (poller : EPollPoller) (channel : Nat)
    (writeCompleteCallback highWaterMarkCallback : Bool) (mainThread : Nat)
    (inputs : List CustodyInput)
    (hok : ∀ w i, Visits custodyStep (newConnection (.new threadId poller channel
      writeCompleteCallback highWaterMarkCallback) mainThread) inputs w i → w.PushOk i)
    (w : Custody) (outcome : WriteOutcome) (calls : List Call)
    (hvisits : Visits custodyStep (newConnection (.new threadId poller channel
      writeCompleteCallback highWaterMarkCallback) mainThread) inputs w (.runNext outcome calls))
    (f : Functor) (hhead : w.conn.loop.functors.head? = some f) (hraw : f.isRaw = true) :
    w.Referenced := by
  have hsafe : w.Safe := hvisits.invariant_of_visits
    (safe_of_shared (shared_queueInLoop _ mainThread rfl)) fun u i hu hs => hs.step (hok u i hu)
  exact hsafe.referenced hhead hraw

/-- A connection is established, and a thread finds it connected and queues a message. -/
def sendInTime : List CustodyInput :=
  [.swapFunctors, .runNext (.room 0) [], .runNext (.room 0) [], .lock 2 (.send [0] (.room 0)),
    .test 0, .begin 0, .push 0, .release 0, .swapFunctors]

open Custody in
/-- The functor is queued while the table holds the connection, and finds it alive. -/
theorem raw_functor_of_open_connection :
    let w := sendInTime.foldl custodyStep
      (newConnection (.new 0 (.new fun _ => Channel.new 3) 7 false false) 1)
    w.conn.loop.functors.head? = some (.sendInLoop [0]) ∧ w.Referenced := by
  intro w
  have hhead : w.conn.loop.functors.head? = some (.sendInLoop [0]) := by decide +kernel
  refine ⟨hhead, no_raw_functor_outlives 0 (.new fun _ => Channel.new 3) 7 false false 1
    (sendInTime ++ [.runNext (.room 0) []]) ?_ w (.room 0) [] ⟨sendInTime, [], rfl, rfl⟩ _ hhead rfl⟩
  intro u i hu
  simp only [sendInTime, List.cons_append, List.nil_append, visits_cons, not_visits_nil,
    or_false] at hu
  rcases hu with ⟨rfl, rfl⟩ | ⟨rfl, rfl⟩ | ⟨rfl, rfl⟩ | ⟨rfl, rfl⟩ | ⟨rfl, rfl⟩ | ⟨rfl, rfl⟩ |
    ⟨rfl, rfl⟩ | ⟨rfl, rfl⟩ | ⟨rfl, rfl⟩ | ⟨rfl, rfl⟩ <;>
    first | exact trivial | exact fun _ => Or.inl (by decide +kernel)

/-- The peer closes after the thread has found the connection connected. The main loop
erases it, the I/O loop runs `connectDestroyed`, and then the thread queues its message. -/
def sendTooLate : List CustodyInput :=
  [.swapFunctors, .runNext (.room 0) [], .runNext (.room 0) [], .lock 2 (.send [0] (.room 0)),
    .test 0, .begin 0, .handleEvent xpollHup ⟨.ok [], 0, [], .room 0⟩, .mainSwap, .mainNext,
    .mainNext, .swapFunctors, .runNext (.room 0) [], .push 0, .release 0, .runNext (.room 0) [],
    .swapFunctors]

open Custody in
/-- When the thread has let go and the batch with `connectDestroyed` has ended, nobody holds
the connection, and the functor is the next to run. -/
theorem raw_functor_outlives_connection :
    let w := sendTooLate.foldl custodyStep
      (newConnection (.new 0 (.new fun _ => Channel.new 3) 7 false false) 1)
    w.conn.loop.functors.head? = some (.sendInLoop [0]) ∧ ¬ w.Referenced := by
  decide +kernel

end ChatRoom.Net
