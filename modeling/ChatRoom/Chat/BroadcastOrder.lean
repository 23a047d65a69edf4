import Mathlib.Logic.Function.Basic
import ChatRoom.Core.Interleave
import ChatRoom.Chat.Broadcast

/-!
# The order in which clients see chat messages

`onChatResponse` runs on the loop of the client that wrote. It pushes the message to the
history, copies the list of sessions and sends to one after the other, and handlers of
different loops interleave between any two of these steps. A session served by the loop of
the handler gets the message at once, any other through the queue of its own loop. Nothing
ties the order of the sends to the order of the pushes: a session sees the history's order
when the later message is handed to it after the earlier one and by no shorter way.
-/

namespace ChatRoom.Chat

open ChatRoom.Core

/-- How far the handler that a loop is running has come. -/
inductive HandlerPhase where
  | idle
  | pushed (msg : Nat)
  | sending (msg : Nat) (targetSessions : List Nat)
  deriving DecidableEq

namespace HandlerPhase

/-- The message that the handler is at. -/
def msg? : HandlerPhase → Option Nat
  | idle => none
  | pushed msg | sending msg _ => some msg

/-- The handler is at work on the message and has the session still in front of it. -/
def ToHand (session msg : Nat) : HandlerPhase → Prop
  | idle => False
  | pushed m => m = msg
  | sending m targetSessions => m = msg ∧ session ∈ targetSessions

private theorem ToHand.msg? {session msg : Nat} {p : HandlerPhase} (h : p.ToHand session msg) :
    p.msg? = some msg := by
  cases p with
  | idle => cases h
  | pushed m => exact congrArg some h
  | sending m targets => exact congrArg some h.1

end HandlerPhase

/-- Messages are numbered in the order of their pushes, sessions in the order in which they
connect. `handed` logs the sends to connected sessions, `received` the `sendInLoop` calls. -/
structure Relay where
  history : List Nat
  next : Nat
  sessionId : Nat
  sessions : List Nat
  phase : Nat → HandlerPhase
  pendingFunctors : Nat → List (Nat × Nat)
  handed : List (Nat × Nat)
  received : Nat → List Nat
  origin : Nat → Nat

/-- One step of a handler on its loop, the next functor of a loop, or a client that comes
or goes. What redis and the connections answer is part of the step. -/
inductive RelayInput where
  | connect
  | disconnect (session : Nat)
  | rpush (loop : Nat) (stored : Bool)
  | getSessions (loop : Nat)
  | send (loop : Nat) (connected : Bool)
  | finish (loop : Nat)
  | doPendingFunctor (loop : Nat) (connected : Bool)

namespace Relay

/-- A server without sessions and messages. -/
def new : Relay where
  history := []
  next := 0
  sessionId := 0
  sessions := []
  phase := fun _ => .idle
  pendingFunctors := fun _ => []
  handed := []
  received := fun _ => []
  origin := fun _ => 0

/-- The handler of a loop goes on to a phase. -/
def setPhase (s : Relay) (loop : Nat) (p : HandlerPhase) : Relay :=
  { s with phase := Function.update s.phase loop p }

/-- The message is new: the push gives it its number, and redis may refuse to store it. -/
def rpush (s : Relay) (loop : Nat) (stored : Bool) : Relay :=
  { s.setPhase loop (.pushed s.next) with
    history := if stored then s.history ++ [s.next] else s.history
    next := s.next + 1
    origin := Function.update s.origin s.next loop }

/-- `sendInLoop` of the connection of a session. -/
def sendInLoop (s : Relay) (session msg : Nat) : Relay :=
  { s with received := Function.update s.received session (s.received session ++ [msg]) }

/-- `queueInLoop` with the send bound to the connection of a session. -/
def queueInLoop (s : Relay) (loop session msg : Nat) : Relay :=
  { s with
    pendingFunctors :=
      Function.update s.pendingFunctors loop (s.pendingFunctors loop ++ [(session, msg)]) }

/-- `TcpConnection::send` of a connected session, called on a loop. -/
def send (loopOf : Nat → Nat) (s : Relay) (loop session msg : Nat) : Relay :=
  let s := { s with handed := s.handed ++ [(session, msg)] }
  if loopOf session = loop then s.sendInLoop session msg
  else s.queueInLoop (loopOf session) session msg

/-- The loop has taken the first functor. -/
def popFunctor (s : Relay) (loop : Nat) (rest : List (Nat × Nat)) : Relay :=
  { s with pendingFunctors := Function.update s.pendingFunctors loop rest }

end Relay

/-- A loop runs handlers and functors one at a time, so a functor or a new handler starts
only when it is idle; functors run in the order in which they were queued. -/
def relayStep (loopOf : Nat → Nat) (s : Relay) : RelayInput → Relay
  | .connect => { s with sessionId := s.sessionId + 1, sessions := s.sessions ++ [s.sessionId + 1] }
  | .disconnect session => { s with sessions := s.sessions.filter (· ≠ session) }
  | .rpush loop stored =>
    match s.phase loop with
    | .idle => s.rpush loop stored
    | .pushed _ | .sending _ _ => s
  | .getSessions loop =>
    match s.phase loop with
    | .pushed msg => s.setPhase loop (.sending msg s.sessions)
    | .idle | .sending _ _ => s
  | .send loop connected =>
    match s.phase loop with
    | .sending msg (session :: rest) =>
      if connected then (s.send loopOf loop session msg).setPhase loop (.sending msg rest)
      else s.setPhase loop (.sending msg rest)
    | .idle | .pushed _ | .sending _ [] => s
  | .finish loop =>
    match s.phase loop with
    | .sending _ [] => s.setPhase loop .idle
    | .idle | .pushed _ | .sending _ (_ :: _) => s
  | .doPendingFunctor loop connected =>
    match s.phase loop, s.pendingFunctors loop with
    | .idle, (session, msg) :: rest =>
      if connected then (s.popFunctor loop rest).sendInLoop session msg else s.popFunctor loop rest
    | _, _ => s

namespace Relay

/-- Some handler still has to hand the message to the session. -/
def ToHand (s : Relay) (session msg : Nat) : Prop := ∃ loop, (s.phase loop).ToHand session msg

/-- The messages queued for a session, first to run first. -/
def waiting (loopOf : Nat → Nat) (s : Relay) (session : Nat) : List Nat :=
  ((s.pendingFunctors (loopOf session)).filter fun f => f.1 = session).map Prod.snd

/-- What a session has received or will receive from its queue, in that order. -/
def pipeline (loopOf : Nat → Nat) (s : Relay) (session : Nat) : List Nat :=
  s.received session ++ s.waiting loopOf session

/-- Two sessions that have both messages have them in one order, that of the history. -/
def OneOrder (s : Relay) (session session' a b : Nat) : Prop :=
  a ∈ s.received session → b ∈ s.received session →
  a ∈ s.received session' → b ∈ s.received session' →
    SameOrder a b (s.received session) (s.received session') ∧
      (a ∈ s.history → b ∈ s.history → SameOrder a b (s.received session) s.history)

end Relay

/-- Whenever a run hands `b` to the session, `a` has been handed to it already, and does not
wait in its queue if `b` goes past the queue. -/
def HandedInTurn (loopOf : Nat → Nat) (s : Relay) (inputs : List RelayInput)
    (session a b : Nat) : Prop :=
  ∀ t loop connected rest, Visits (relayStep loopOf) s inputs t (.send loop connected) →
    t.phase loop = .sending b (session :: rest) →
      ¬ t.ToHand session a ∧ (loopOf session = loop → a ∉ t.waiting loopOf session)

/-! ## One step -/

/-- All that one step can do. -/
inductive RelayStep (loopOf : Nat → Nat) (s : Relay) : RelayInput → Relay → Prop where
  | stay (i : RelayInput) : RelayStep loopOf s i s
  | registry (i : RelayInput) (sessionId : Nat) (sessions : List Nat) :
    RelayStep loopOf s i { s with sessionId := sessionId, sessions := sessions }
  | rpush (loop : Nat) (stored : Bool) (h : s.phase loop = .idle) :
    RelayStep loopOf s (.rpush loop stored) (s.rpush loop stored)
  | getSessions (loop msg : Nat) (h : s.phase loop = .pushed msg) :
    RelayStep loopOf s (.getSessions loop) (s.setPhase loop (.sending msg s.sessions))
  | send (loop msg session : Nat) (rest : List Nat)
    (h : s.phase loop = .sending msg (session :: rest)) :
    RelayStep loopOf s (.send loop true)
      ((s.send loopOf loop session msg).setPhase loop (.sending msg rest))
  | skip (loop msg session : Nat) (rest : List Nat)
    (h : s.phase loop = .sending msg (session :: rest)) :
    RelayStep loopOf s (.send loop false) (s.setPhase loop (.sending msg rest))
  | finish (loop : Nat) : RelayStep loopOf s (.finish loop) (s.setPhase loop .idle)
  | deliver (loop session msg : Nat) (rest : List (Nat × Nat))
    (h : s.pendingFunctors loop = (session, msg) :: rest) :
    RelayStep loopOf s (.doPendingFunctor loop true)
      ((s.popFunctor loop rest).sendInLoop session msg)
  | drop (loop session msg : Nat) (rest : List (Nat × Nat))
    (h : s.pendingFunctors loop = (session, msg) :: rest) :
    RelayStep loopOf s (.doPendingFunctor loop false) (s.popFunctor loop rest)

private theorem relayStep_cases (loopOf : Nat → Nat) (s : Relay) (i : RelayInput) :
    RelayStep loopOf s i (relayStep loopOf s i) := by
  cases i with
  | connect => exact .registry _ _ _
  | disconnect session => exact .registry _ _ _
  | rpush loop stored =>
    rw [relayStep]
    cases hp : s.phase loop with
    | idle => exact .rpush loop stored hp
    | pushed msg | sending msg targets => exact .stay _
  | getSessions loop =>
    rw [relayStep]
    cases hp : s.phase loop with
    | pushed msg => exact .getSessions loop msg hp
    | idle | sending msg targets => exact .stay _
  | send loop connected =>
    rw [relayStep]
    cases hp : s.phase loop with
    | idle | pushed msg => exact .stay _
    | sending msg targets =>
      cases targets with
      | nil => exact .stay _
      | cons session rest =>
        cases connected with
        | false => exact .skip loop msg session rest hp
        | true => exact .send loop msg session rest hp
  | finish loop =>
    rw [relayStep]
    cases hp : s.phase loop with
    | idle | pushed msg => exact .stay _
    | sending msg targets =>
      cases targets with
      | nil => exact .finish loop
      | cons session rest => exact .stay _
  | doPendingFunctor loop connected =>
    rw [relayStep]
    cases hp : s.phase loop with
    | pushed msg | sending msg targets => exact .stay _
    | idle =>
      cases hq : s.pendingFunctors loop with
      | nil => exact .stay _
      | cons f rest =>
        cases connected with
        | false => exact .drop loop f.1 f.2 rest hq
        | true => exact .deliver loop f.1 f.2 rest hq

namespace Relay

variable {loopOf : Nat → Nat} {s : Relay} {loop session session' msg a b : Nat} {p : HandlerPhase}

private theorem phase_setPhase_self (s : Relay) (loop : Nat) (p : HandlerPhase) :
    (s.setPhase loop p).phase loop = p := Function.update_self _ _ _

private theorem phase_setPhase_of_ne (s : Relay) (p : HandlerPhase) {loop loop' : Nat}
    (h : loop' ≠ loop) : (s.setPhase loop p).phase loop' = s.phase loop' :=
  Function.update_of_ne h _ _

private theorem phase_rpush_self (s : Relay) (loop : Nat) (stored : Bool) :
    (s.rpush loop stored).phase loop = .pushed s.next := s.phase_setPhase_self loop _

private theorem phase_rpush_of_ne (s : Relay) (stored : Bool) {loop loop' : Nat}
    (h : loop' ≠ loop) :
    (s.rpush loop stored).phase loop' = s.phase loop' := s.phase_setPhase_of_ne _ h

private theorem origin_rpush (s : Relay) (loop : Nat) (stored : Bool) {m : Nat} (h : m < s.next) :
    (s.rpush loop stored).origin m = s.origin m := Function.update_of_ne (Nat.ne_of_lt h) _ _

/-- A send is logged, and only what the sessions have or wait for may change. -/
theorem send_eq (loopOf : Nat → Nat) (s : Relay) (loop session msg : Nat) :
    ∃ received pendingFunctors, s.send loopOf loop session msg =
      { s with
        handed := s.handed ++ [(session, msg)]
        received := received
        pendingFunctors := pendingFunctors } := by
  unfold send
  split <;> exact ⟨_, _, rfl⟩

private theorem phase_send (s : Relay) (loop session msg : Nat) :
    (s.send loopOf loop session msg).phase = s.phase := by
  obtain ⟨_, _, heq⟩ := s.send_eq loopOf loop session msg
  rw [heq]

private theorem received_sendInLoop_self (s : Relay) (session msg : Nat) :
    (s.sendInLoop session msg).received session = s.received session ++ [msg] :=
  Function.update_self _ _ _

private theorem received_sendInLoop_of_ne (s : Relay) (msg : Nat) (h : session' ≠ session) :
    (s.sendInLoop session msg).received session' = s.received session' :=
  Function.update_of_ne h _ _

private theorem pendingFunctors_queueInLoop_self (s : Relay) (loop session msg : Nat) :
    (s.queueInLoop loop session msg).pendingFunctors loop =
      s.pendingFunctors loop ++ [(session, msg)] :=
  Function.update_self _ _ _

private theorem pendingFunctors_queueInLoop_of_ne (s : Relay) (session msg : Nat) {loop loop' : Nat}
    (h : loop' ≠ loop) :
    (s.queueInLoop loop session msg).pendingFunctors loop' = s.pendingFunctors loop' :=
  Function.update_of_ne h _ _

private theorem pendingFunctors_popFunctor_self (s : Relay) (loop : Nat) (rest : List (Nat × Nat)) :
    (s.popFunctor loop rest).pendingFunctors loop = rest :=
  Function.update_self _ _ _

private theorem pendingFunctors_popFunctor_of_ne (s : Relay) (rest : List (Nat × Nat))
    {loop loop' : Nat}
    (h : loop' ≠ loop) : (s.popFunctor loop rest).pendingFunctors loop' = s.pendingFunctors loop' :=
  Function.update_of_ne h _ _

/-- What is left to hand out was left before, or the new phase leaves it. -/
theorem ToHand.of_setPhase (h : (s.setPhase loop p).ToHand session msg) :
    p.ToHand session msg ∨ s.ToHand session msg := by
  obtain ⟨loop', h⟩ := h
  by_cases hl : loop' = loop
  · subst hl
    rw [phase_setPhase_self] at h
    exact Or.inl h
  · rw [phase_setPhase_of_ne s p hl] at h
    exact Or.inr ⟨loop', h⟩

private theorem mem_waiting :
    msg ∈ s.waiting loopOf session ↔ (session, msg) ∈ s.pendingFunctors (loopOf session) := by
  simp only [waiting, List.mem_map, List.mem_filter, decide_eq_true_eq]
  constructor
  · rintro ⟨f, ⟨hmem, rfl⟩, rfl⟩
    exact hmem
  · intro hmem
    exact ⟨(session, msg), ⟨hmem, rfl⟩, rfl⟩

private theorem pipeline_sendInLoop_self (s : Relay) (session msg : Nat) :
    (s.sendInLoop session msg).pipeline loopOf session =
      s.received session ++ [msg] ++ s.waiting loopOf session :=
  congrArg (· ++ s.waiting loopOf session) (s.received_sendInLoop_self session msg)

private theorem pipeline_sendInLoop_of_ne (s : Relay) (msg : Nat) (h : session' ≠ session) :
    (s.sendInLoop session msg).pipeline loopOf session' = s.pipeline loopOf session' :=
  congrArg (· ++ s.waiting loopOf session') (s.received_sendInLoop_of_ne msg h)

private theorem waiting_queueInLoop (s : Relay) (session msg session' : Nat) :
    (s.queueInLoop (loopOf session) session msg).waiting loopOf session' =
      s.waiting loopOf session' ++ if session = session' then [msg] else [] := by
  unfold waiting
  by_cases hl : loopOf session' = loopOf session
  · rw [hl, pendingFunctors_queueInLoop_self, List.filter_append, List.map_append]
    by_cases hs : session = session' <;> simp [hs]
  · have hs : session ≠ session' := fun h => hl (congrArg loopOf h.symm)
    rw [pendingFunctors_queueInLoop_of_ne s session msg hl, if_neg hs, List.append_nil]

private theorem pipeline_queueInLoop_self (loopOf : Nat → Nat) (s : Relay) (session msg : Nat) :
    (s.queueInLoop (loopOf session) session msg).pipeline loopOf session =
      s.pipeline loopOf session ++ [msg] := by
  rw [pipeline, waiting_queueInLoop, if_pos rfl, ← List.append_assoc]
  rfl

private theorem pipeline_queueInLoop_of_ne (s : Relay) (msg : Nat) (h : session' ≠ session) :
    (s.queueInLoop (loopOf session) session msg).pipeline loopOf session' =
      s.pipeline loopOf session' := by
  rw [pipeline, waiting_queueInLoop, if_neg h.symm, List.append_nil]
  rfl

/-- The first functor of a loop is the first message that waits for its session. -/
theorem waiting_popFunctor {rest : List (Nat × Nat)}
    (h : s.pendingFunctors loop = (session, msg) :: rest) (session' : Nat) :
    s.waiting loopOf session' =
      (if session = session' ∧ loopOf session' = loop then [msg] else []) ++
        (s.popFunctor loop rest).waiting loopOf session' := by
  unfold waiting
  by_cases hl : loopOf session' = loop
  · rw [hl, pendingFunctors_popFunctor_self, h]
    by_cases hs : session = session' <;> simp [hs]
  · rw [pendingFunctors_popFunctor_of_ne s rest hl, if_neg fun hs => hl hs.2, List.nil_append]

/-! ## What a run keeps -/

/-- Messages are numbered as they are pushed, each is at work on the loop of its handler,
and the queue of a loop has the messages of other loops for the sessions of this one. -/
structure Issued (loopOf : Nat → Nat) (s : Relay) : Prop where
  history : s.history.Pairwise (· < ·)
  stored : ∀ m ∈ s.history, m < s.next
  active : ∀ loop m, (s.phase loop).msg? = some m → m < s.next ∧ s.origin m = loop
  queued : ∀ loop, ∀ f ∈ s.pendingFunctors loop,
    f.2 < s.next ∧ loopOf f.1 = loop ∧ s.origin f.2 ≠ loop
  received : ∀ session, ∀ m ∈ s.received session, m < s.next

private theorem issued_new : (new).Issued loopOf := ⟨List.Pairwise.nil, nofun, nofun, nofun, nofun⟩

namespace Issued

private theorem setPhase (h : s.Issued loopOf)
    (hp : ∀ m, p.msg? = some m → (s.phase loop).msg? = some m) :
    (s.setPhase loop p).Issued loopOf := by
  refine ⟨h.history, h.stored, ?_, h.queued, h.received⟩
  intro loop' m hm
  by_cases hl : loop' = loop
  · subst hl
    rw [phase_setPhase_self] at hm
    exact h.active _ m (hp m hm)
  · rw [phase_setPhase_of_ne s p hl] at hm
    exact h.active _ m hm

private theorem rpush (h : s.Issued loopOf) (loop : Nat) (stored : Bool) :
    (s.rpush loop stored).Issued loopOf := by
  have hmem : ∀ m ∈ (s.rpush loop stored).history, m ∈ s.history ∨ m = s.next := by
    intro m hm
    cases stored with
    | false => exact Or.inl hm
    | true => exact (List.mem_append.mp hm).imp_right List.mem_singleton.mp
  constructor
  · cases stored with
    | false => exact h.history
    | true =>
      refine List.pairwise_append.mpr ⟨h.history, List.pairwise_singleton _ _, ?_⟩
      intro m hm n hn
      rw [List.mem_singleton.mp hn]
      exact h.stored m hm
  · intro m hm
    rcases hmem m hm with hold | rfl
    · exact Nat.lt_succ_of_lt (h.stored m hold)
    · exact Nat.lt_succ_self _
  · intro loop' m hm
    by_cases hl : loop' = loop
    · subst hl
      rw [phase_rpush_self] at hm
      obtain rfl : s.next = m := Option.some.inj hm
      exact ⟨Nat.lt_succ_self _, Function.update_self _ _ _⟩
    · rw [phase_rpush_of_ne s stored hl] at hm
      obtain ⟨hlt, horigin⟩ := h.active loop' m hm
      exact ⟨Nat.lt_succ_of_lt hlt, (s.origin_rpush loop stored hlt).trans horigin⟩
  · intro loop' f hf
    obtain ⟨hlt, hloop, hne⟩ := h.queued loop' f hf
    refine ⟨Nat.lt_succ_of_lt hlt, hloop, ?_⟩
    rw [origin_rpush s loop stored hlt]
    exact hne
  · intro session m hm
    exact Nat.lt_succ_of_lt (h.received session m hm)

private theorem sendInLoop (h : s.Issued loopOf) (session : Nat) (hlt : msg < s.next) :
    (s.sendInLoop session msg).Issued loopOf := by
  refine ⟨h.history, h.stored, h.active, h.queued, ?_⟩
  intro session' m hm
  by_cases hs : session' = session
  · subst hs
    rw [received_sendInLoop_self] at hm
    rcases List.mem_append.mp hm with hold | hnew
    · exact h.received _ m hold
    · rw [List.mem_singleton.mp hnew]
      exact hlt
  · rw [received_sendInLoop_of_ne s msg hs] at hm
    exact h.received _ m hm

private theorem queueInLoop (h : s.Issued loopOf) (hlt : msg < s.next)
    (horigin : s.origin msg ≠ loopOf session) :
    (s.queueInLoop (loopOf session) session msg).Issued loopOf := by
  refine ⟨h.history, h.stored, h.active, ?_, h.received⟩
  intro loop' f hf
  by_cases hl : loop' = loopOf session
  · subst hl
    rw [pendingFunctors_queueInLoop_self] at hf
    rcases List.mem_append.mp hf with hold | hnew
    · exact h.queued _ f hold
    · rw [List.mem_singleton.mp hnew]
      exact ⟨hlt, rfl, horigin⟩
  · rw [pendingFunctors_queueInLoop_of_ne s session msg hl] at hf
    exact h.queued _ f hf

private theorem popFunctor {f : Nat × Nat} {rest : List (Nat × Nat)} (h : s.Issued loopOf)
    (hq : s.pendingFunctors loop = f :: rest) : (s.popFunctor loop rest).Issued loopOf := by
  refine ⟨h.history, h.stored, h.active, ?_, h.received⟩
  intro loop' g hg
  by_cases hl : loop' = loop
  · subst hl
    rw [pendingFunctors_popFunctor_self] at hg
    apply h.queued _ g
    rw [hq]
    exact List.mem_cons_of_mem f hg
  · rw [pendingFunctors_popFunctor_of_ne s rest hl] at hg
    exact h.queued _ g hg

private theorem send (h : s.Issued loopOf) (session : Nat) (hm : (s.phase loop).msg? = some msg) :
    (s.send loopOf loop session msg).Issued loopOf := by
  have hlog : ({ s with handed := s.handed ++ [(session, msg)] } : Relay).Issued loopOf :=
    ⟨h.history, h.stored, h.active, h.queued, h.received⟩
  obtain ⟨hlt, horigin⟩ := h.active loop msg hm
  unfold Relay.send
  by_cases hl : loopOf session = loop
  · rw [if_pos hl]
    exact hlog.sendInLoop session hlt
  · rw [if_neg hl]
    refine hlog.queueInLoop hlt fun heq => hl ?_
    exact heq.symm.trans horigin

private theorem step (h : s.Issued loopOf) (i : RelayInput) :
    (relayStep loopOf s i).Issued loopOf := by
  have hcases := relayStep_cases loopOf s i
  generalize relayStep loopOf s i = t at hcases
  cases hcases with
  | stay => exact h
  | registry => exact ⟨h.history, h.stored, h.active, h.queued, h.received⟩
  | rpush loop stored => exact h.rpush loop stored
  | getSessions loop msg hp =>
    refine h.setPhase fun m hm => ?_
    rw [hp]
    exact hm
  | send loop msg session rest hp =>
    refine (h.send session (by rw [hp]; rfl)).setPhase fun m hm => ?_
    rw [phase_send, hp]
    exact hm
  | skip loop msg session rest hp =>
    refine h.setPhase fun m hm => ?_
    rw [hp]
    exact hm
  | finish loop => exact h.setPhase nofun
  | deliver loop session msg rest hq =>
    refine (h.popFunctor hq).sendInLoop session (h.queued loop (session, msg) ?_).1
    rw [hq]
    exact List.mem_cons_self
  | drop loop session msg rest hq => exact h.popFunctor hq

end Issued

private theorem issued_run (loopOf : Nat → Nat) (inputs : List RelayInput) :
    (inputs.foldl (relayStep loopOf) new).Issued loopOf :=
  foldl_invariant (P := Issued loopOf) issued_new (fun _ i h => h.step i) inputs

/-- Once pushed, a message keeps its number and its loop. -/
theorem origin_foldl (loopOf : Nat → Nat) (s : Relay) (inputs : List RelayInput) :
    s.next ≤ (inputs.foldl (relayStep loopOf) s).next ∧
      ∀ m < s.next, (inputs.foldl (relayStep loopOf) s).origin m = s.origin m := by
  refine foldl_invariant
    (P := fun t : Relay => s.next ≤ t.next ∧ ∀ m < s.next, t.origin m = s.origin m)
    ⟨Nat.le_refl _, fun _ _ => rfl⟩ ?_ inputs
  rintro t i ⟨hle, horigin⟩
  have hcases := relayStep_cases loopOf t i
  generalize relayStep loopOf t i = u at hcases
  cases hcases with
  | rpush loop stored =>
    refine ⟨Nat.le_succ_of_le hle, fun m hm => ?_⟩
    rw [origin_rpush t loop stored (Nat.lt_of_lt_of_le hm hle)]
    exact horigin m hm
  | send loop msg session rest =>
    obtain ⟨_, _, heq⟩ := t.send_eq loopOf loop session msg
    rw [heq]
    exact ⟨hle, horigin⟩
  | stay | registry | getSessions | skip | finish | deliver | drop => exact ⟨hle, horigin⟩

/-- What keeps `b` behind `a` for a session: once `b` is on its way, `a` is too. -/
structure InTurn (loopOf : Nat → Nat) (s : Relay) (session a b : Nat) : Prop where
  order : NotAhead b a (s.pipeline loopOf session)
  handed : b ∈ s.pipeline loopOf session → ¬ s.ToHand session a

namespace InTurn

private theorem setPhase (h : s.InTurn loopOf session a b)
    (hp : p.ToHand session a → (s.phase loop).ToHand session a) :
    (s.setPhase loop p).InTurn loopOf session a b := by
  refine ⟨h.order, fun hb hhand => ?_⟩
  rcases hhand.of_setPhase with hnew | hold
  · exact h.handed hb ⟨loop, hp hnew⟩
  · exact h.handed hb hold

private theorem popFunctor {f : Nat × Nat} {rest : List (Nat × Nat)}
    (h : s.InTurn loopOf session a b)
    (hq : s.pendingFunctors loop = f :: rest) :
    (s.popFunctor loop rest).InTurn loopOf session a b := by
  have hsub : ((s.popFunctor loop rest).pipeline loopOf session).Sublist
      (s.pipeline loopOf session) := by
    rw [pipeline, pipeline, waiting_popFunctor hq session]
    exact List.Sublist.append (List.Sublist.refl _) (List.sublist_append_right _ _)
  exact ⟨h.order.sublist hsub, fun hb => h.handed (hsub.subset hb)⟩

/-- A functor that runs moves the first waiting message of its session to the received ones. -/
theorem deliver {rest : List (Nat × Nat)} (h : s.InTurn loopOf session a b)
    (hq : s.pendingFunctors loop = (session', msg) :: rest) (hloop : loopOf session' = loop) :
    ((s.popFunctor loop rest).sendInLoop session' msg).InTurn loopOf session a b := by
  by_cases hs : session = session'
  · subst hs
    have hpipe : ((s.popFunctor loop rest).sendInLoop session msg).pipeline loopOf session =
        s.pipeline loopOf session := by
      rw [pipeline_sendInLoop_self, pipeline, waiting_popFunctor hq session, if_pos ⟨rfl, hloop⟩,
        List.append_assoc]
      rfl
    constructor
    · rw [hpipe]
      exact h.order
    · rw [hpipe]
      exact h.handed
  · have hpop := h.popFunctor hq
    constructor
    · rw [pipeline_sendInLoop_of_ne _ msg hs]
      exact hpop.order
    · rw [pipeline_sendInLoop_of_ne _ msg hs]
      exact hpop.handed

/-- A message handed to the session takes its place in what the session will receive. -/
theorem place {t : Relay} (h : s.InTurn loopOf session a b) (front back : List Nat)
    (hhand : t.ToHand session a → s.ToHand session a)
    (hold : s.pipeline loopOf session = front ++ back)
    (hnew : t.pipeline loopOf session = front ++ [msg] ++ back)
    (ha : msg = a → s.ToHand session a)
    (hb : msg = b → ¬ s.ToHand session a ∧ a ∉ back) : t.InTurn loopOf session a b := by
  constructor
  · have horder := h.order
    rw [hold] at horder
    rw [hnew]
    refine horder.insert (fun hin heq => ?_) fun heq => (hb heq).2
    refine h.handed ?_ (ha heq)
    rw [hold]
    exact List.mem_append_left _ hin
  · intro hin hlate
    rw [hnew, List.append_assoc, List.mem_append, List.mem_append, List.mem_singleton] at hin
    rcases hin with hin | heq | hin
    · exact h.handed (hold ▸ List.mem_append_left _ hin) (hhand hlate)
    · exact (hb heq.symm).1 (hhand hlate)
    · exact h.handed (hold ▸ List.mem_append_right _ hin) (hhand hlate)

private theorem send {rest : List Nat} (h : s.InTurn loopOf session a b)
    (hp : s.phase loop = .sending msg (session' :: rest))
    (hturn : msg = b → session' = session →
      ¬ s.ToHand session a ∧ (loopOf session = loop → a ∉ s.waiting loopOf session)) :
    ((s.send loopOf loop session' msg).setPhase loop (.sending msg rest)).InTurn
      loopOf session a b := by
  have hhand : ((s.send loopOf loop session' msg).setPhase loop
      (.sending msg rest)).ToHand session a → s.ToHand session a := by
    intro hlate
    rcases hlate.of_setPhase with ⟨hmsg, hmem⟩ | ⟨loop', hlate⟩
    · refine ⟨loop, ?_⟩
      rw [hp]
      exact ⟨hmsg, List.mem_cons_of_mem _ hmem⟩
    · rw [phase_send] at hlate
      exact ⟨loop', hlate⟩
  by_cases hs : session = session'
  · subst hs
    have hcurrent : msg = a → s.ToHand session a := by
      intro heq
      refine ⟨loop, ?_⟩
      rw [hp]
      exact ⟨heq, List.mem_cons_self⟩
    by_cases hl : loopOf session = loop
    · refine h.place (s.received session) (s.waiting loopOf session) hhand rfl ?_ hcurrent
        fun heq => ?_
      · rw [Relay.send, if_pos hl]
        exact pipeline_sendInLoop_self _ session msg
      · exact ⟨(hturn heq rfl).1, (hturn heq rfl).2 hl⟩
    · refine h.place (s.pipeline loopOf session) [] hhand (List.append_nil _).symm ?_ hcurrent
        fun heq => ?_
      · rw [Relay.send, if_neg hl, List.append_nil]
        exact pipeline_queueInLoop_self loopOf { s with handed := _ } session msg
      · exact ⟨(hturn heq rfl).1, List.not_mem_nil⟩
  · have hpipe : (s.send loopOf loop session' msg).pipeline loopOf session =
        s.pipeline loopOf session := by
      rw [Relay.send]
      split
      · exact pipeline_sendInLoop_of_ne _ msg hs
      · exact pipeline_queueInLoop_of_ne _ msg hs
    constructor
    · exact hpipe ▸ h.order
    · exact fun hb hlate => h.handed (hpipe ▸ hb) (hhand hlate)

/-- A new message is neither `a` nor `b` once `b` is on its way. -/
theorem rpush (h : s.InTurn loopOf session a b) (hissued : s.Issued loopOf) (hab : a < b)
    (loop : Nat) (stored : Bool) : (s.rpush loop stored).InTurn loopOf session a b := by
  refine ⟨h.order, fun hb hlate => ?_⟩
  have hlt : b < s.next := by
    rcases List.mem_append.mp hb with hreceived | hwaiting
    · exact hissued.received session b hreceived
    · exact (hissued.queued _ _ (mem_waiting.mp hwaiting)).1
  have hlate' : (s.setPhase loop (.pushed s.next)).ToHand session a := hlate
  rcases hlate'.of_setPhase with hnew | hold
  · have heq : s.next = a := hnew
    omega
  · exact h.handed hb hold

private theorem step (h : s.InTurn loopOf session a b) (hissued : s.Issued loopOf) (hab : a < b)
    (i : RelayInput)
    (hturn : ∀ loop connected rest, i = .send loop connected →
      s.phase loop = .sending b (session :: rest) →
        ¬ s.ToHand session a ∧ (loopOf session = loop → a ∉ s.waiting loopOf session)) :
    (relayStep loopOf s i).InTurn loopOf session a b := by
  have hcases := relayStep_cases loopOf s i
  generalize relayStep loopOf s i = t at hcases
  cases hcases with
  | stay => exact h
  | registry => exact ⟨h.order, h.handed⟩
  | rpush loop stored => exact h.rpush hissued hab loop stored
  | getSessions loop msg hp =>
    refine h.setPhase fun hhand => ?_
    rw [hp]
    exact hhand.1
  | send loop msg session' rest hp =>
    apply h.send hp
    rintro rfl rfl
    exact hturn loop true rest rfl hp
  | skip loop msg session' rest hp =>
    refine h.setPhase fun hhand => ?_
    rw [hp]
    exact ⟨hhand.1, List.mem_cons_of_mem _ hhand.2⟩
  | finish loop => exact h.setPhase nofun
  | deliver loop session' msg rest hq =>
    refine h.deliver hq (hissued.queued loop (session', msg) ?_).2.1
    rw [hq]
    exact List.mem_cons_self
  | drop loop session' msg rest hq => exact h.popFunctor hq

end InTurn

private theorem inTurn_new : (new).InTurn loopOf session a b := ⟨List.Pairwise.nil, nofun⟩

private theorem inTurn_run {inputs : List RelayInput} (hab : a < b)
    (hturn : HandedInTurn loopOf new inputs session a b) :
    (inputs.foldl (relayStep loopOf) new).InTurn loopOf session a b := by
  refine foldl_invariant_of_visits (P := fun t : Relay => t.InTurn loopOf session a b)
    inTurn_new inputs fun t i hvisit h => ?_
  have hissued : t.Issued loopOf := hvisit.invariant issued_new fun _ j hj => hj.step j
  apply h.step hissued hab i
  rintro loop connected rest rfl hp
  exact hturn t loop connected rest hvisit hp

/-- A loop that has come to send `b` is done with its earlier messages, and hands its own
sessions every message directly. -/
theorem handedInTurn_of_origin {inputs : List RelayInput} (hab : a < b)
    (horigin : (inputs.foldl (relayStep loopOf) new).origin a =
      (inputs.foldl (relayStep loopOf) new).origin b) :
    HandedInTurn loopOf new inputs session a b := by
  rintro _ loop connected rest ⟨before, after, rfl, rfl⟩ hp
  have hissued := issued_run loopOf before
  obtain ⟨hlt, hb⟩ := hissued.active loop b (by rw [hp]; rfl)
  rw [List.foldl_append] at horigin
  have hkeeps := (origin_foldl loopOf (before.foldl (relayStep loopOf) new)
    (.send loop connected :: after)).2
  rw [hkeeps a (Nat.lt_trans hab hlt), hkeeps b hlt, hb] at horigin
  constructor
  · rintro ⟨loop', hhand⟩
    have hat := (hissued.active loop' a hhand.msg?).2
    obtain rfl : loop' = loop := hat.symm.trans horigin
    rw [hp] at hhand
    exact Nat.ne_of_gt hab hhand.1
  · intro hl hwait
    have hne := (hissued.queued _ _ (mem_waiting.mp hwait)).2.2
    exact hne (horigin.trans hl.symm)

end Relay

/-- Two sessions that have received two messages have them in the order of the history when
one loop handled both messages, and also when each session was handed them in turn. -/
theorem clients_see_history_order (loopOf : Nat → Nat) (inputs : List RelayInput)
    {session session' a b : Nat} (hab : a < b)
    (hturn : (inputs.foldl (relayStep loopOf) .new).origin a =
        (inputs.foldl (relayStep loopOf) .new).origin b ∨
      HandedInTurn loopOf .new inputs session a b ∧ HandedInTurn loopOf .new inputs session' a b) :
    (inputs.foldl (relayStep loopOf) .new).OneOrder session session' a b := by
  have hboth : HandedInTurn loopOf .new inputs session a b ∧
      HandedInTurn loopOf .new inputs session' a b := by
    rcases hturn with horigin | hturn
    · exact ⟨Relay.handedInTurn_of_origin hab horigin, Relay.handedInTurn_of_origin hab horigin⟩
    · exact hturn
  have hreceived : ∀ x, HandedInTurn loopOf .new inputs x a b →
      NotAhead b a ((inputs.foldl (relayStep loopOf) .new).received x) :=
    fun x hx => (Relay.inTurn_run hab hx).order.sublist (List.sublist_append_left _ _)
  have hhistory : NotAhead b a (inputs.foldl (relayStep loopOf) .new).history := by
    apply (Relay.issued_run loopOf inputs).history.imp
    rintro x y hlt rfl rfl
    omega
  have hne : a ≠ b := Nat.ne_of_lt hab
  intro ha hb ha' hb'
  refine ⟨(hreceived _ hboth.1).sameOrder (hreceived _ hboth.2) hne ha hb ha' hb', ?_⟩
  intro hsa hsb
  exact (hreceived _ hboth.1).sameOrder hhistory hne ha hb hsa hsb

/-- One client on each of two loops; loop 1 pushes first and loop 2 sends first. -/
def overtaking : List RelayInput :=
  [.connect, .connect, .rpush 1 true, .rpush 2 true,
    .getSessions 2, .send 2 true, .send 2 true, .finish 2,
    .getSessions 1, .send 1 true, .send 1 true, .finish 1,
    .doPendingFunctor 1 true, .doPendingFunctor 2 true]

/-- Session 1 sees the history's order, session 2 the other one. -/
theorem clients_see_two_orders : ¬ (overtaking.foldl (relayStep id) .new).OneOrder 1 2 0 1 := by
  intro h
  obtain ⟨⟨hsame, _⟩, _⟩ := h (by decide) (by decide) (by decide) (by decide)
  have hfirst : [0, 1].Sublist ((overtaking.foldl (relayStep id) .new).received 1) := by decide
  have hsecond : ¬ [0, 1].Sublist ((overtaking.foldl (relayStep id) .new).received 2) := by decide
  exact hsecond (hsame.mp hfirst)

/-- Both messages come from the client on loop 1, and its handler runs twice. -/
def oneWriter : List RelayInput :=
  [.connect, .connect, .rpush 1 true, .getSessions 1, .send 1 true, .send 1 true, .finish 1,
    .rpush 1 true, .getSessions 1, .send 1 true, .send 1 true, .finish 1,
    .doPendingFunctor 2 true, .doPendingFunctor 2 true]

/-- With one thread that sends, the client has both messages in the order in which they were sent.
-/
theorem clients_see_one_writer_in_order :
    (oneWriter.foldl (relayStep id) .new).received 2 = [0, 1] ∧
      (oneWriter.foldl (relayStep id) .new).OneOrder 1 2 0 1 :=
  ⟨by decide, clients_see_history_order id oneWriter (by decide) (Or.inl (by decide))⟩

/-! ## A handler that is not interrupted -/

/-- The steps of one `onChatResponse` for a list of connected sessions. -/
def handlerSteps (loop : Nat) (stored : Bool) (sessions : List Nat) : List RelayInput :=
  .rpush loop stored :: .getSessions loop ::
    (List.replicate sessions.length (.send loop true) ++ [.finish loop])

namespace Relay

variable {loopOf : Nat → Nat} {s : Relay} {loop msg : Nat}

/-- The loop over the sessions hands the message to one after the other. -/
theorem foldl_sends {targets : List Nat} (h : s.phase loop = .sending msg targets) :
    let t := (List.replicate targets.length (.send loop true)).foldl (relayStep loopOf) s
    t.phase loop = .sending msg [] ∧ t.handed = s.handed ++ targets.map (·, msg) ∧
      t.history = s.history ∧ t.sessions = s.sessions := by
  induction targets generalizing s with
  | nil => exact ⟨h, (List.append_nil _).symm, rfl, rfl⟩
  | cons session rest ih =>
    have hstep : relayStep loopOf s (.send loop true) =
        (s.send loopOf loop session msg).setPhase loop (.sending msg rest) := by
      simp only [relayStep, h, if_true]
    obtain ⟨received, pendingFunctors, hsend⟩ := s.send_eq loopOf loop session msg
    obtain ⟨hphase, hhanded, hhistory, hsessions⟩ :=
      ih (s := relayStep loopOf s (.send loop true)) (by rw [hstep, phase_setPhase_self])
    rw [hstep, hsend] at hphase hhanded hhistory hsessions
    rw [List.length_cons, List.replicate_succ, List.foldl_cons, hstep, hsend]
    refine ⟨hphase, ?_, hhistory, hsessions⟩
    rw [hhanded, setPhase, List.append_assoc]
    rfl

/-- A handler alone hands the new message to the sessions of the list, in its order. -/
theorem foldl_handlerSteps (h : s.phase loop = .idle) (stored : Bool) :
    let t := (handlerSteps loop stored s.sessions).foldl (relayStep loopOf) s
    t.phase loop = .idle ∧ t.handed = s.handed ++ s.sessions.map (·, s.next) ∧
      t.history = (if stored then s.history ++ [s.next] else s.history) ∧
      t.sessions = s.sessions := by
  have hpush : relayStep loopOf s (.rpush loop stored) = s.rpush loop stored := by
    simp only [relayStep, h]
  have hget : relayStep loopOf (s.rpush loop stored) (.getSessions loop) =
      (s.rpush loop stored).setPhase loop (.sending s.next s.sessions) := by
    simp only [relayStep, phase_rpush_self]
    rfl
  obtain ⟨hphase, hhanded, hhistory, hsessions⟩ := @foldl_sends loopOf _ _ _ _
    ((s.rpush loop stored).phase_setPhase_self loop (.sending s.next s.sessions))
  rw [handlerSteps, List.foldl_cons, List.foldl_cons, List.foldl_append, hpush, hget]
  simp only [List.foldl_cons, List.foldl_nil, relayStep, hphase]
  exact ⟨phase_setPhase_self _ _ _, hhanded, hhistory, hsessions⟩

/-- The relay has the sessions of the server, and the numbers of the stored messages. -/
structure Carries (content : Nat → Bytes) (s : Relay) (srv : ChatServer) : Prop where
  sessions : s.sessions = srv.sessions.map (·.id)
  history : srv.history = s.history.map content

/-- A handler that returns has done what its steps do: the server hands the package to the
sessions that the relay hands the message to, and stores what the relay stores. -/
theorem Carries.onChatResponse {content : Nat → Bytes} {srv : ChatServer}
    (h : s.Carries content srv) (hidle : s.phase loop = .idle) (env : Env) (self : ChatSession)
    (hreturns : (srv.onChatResponse env self (content s.next)).2 = true) :
    let t := (handlerSteps loop (env.redis srv.redisCalls) s.sessions).foldl (relayStep loopOf) s
    t.Carries content (srv.onChatResponse env self (content s.next)).1 ∧
      ∃ frame, (srv.onChatResponse env self (content s.next)).1.output =
        srv.output ++ (t.handed.drop s.handed.length).map fun e => (e.1, frame) := by
  obtain ⟨-, hhanded, hhistory, hsessions⟩ :=
    @foldl_handlerSteps loopOf s loop hidle (env.redis srv.redisCalls)
  have hstored : (if env.redis srv.redisCalls then srv.history ++ [content s.next]
      else srv.history) = (if env.redis srv.redisCalls then s.history ++ [s.next]
      else s.history).map content := by
    split
    · rw [h.history, List.map_append, List.map_cons, List.map_nil]
    · exact h.history
  have htargets : ∀ frame : Bytes, ((s.sessions.map (·, s.next)).map fun e => (e.1, frame)) =
      srv.sessions.map fun self => (self.id, frame) := by
    intro frame
    rw [h.sessions, List.map_map, List.map_map]
    rfl
  dsimp only
  rw [hhanded, List.drop_left]
  unfold ChatServer.onChatResponse at hreturns ⊢
  dsimp only at hreturns ⊢
  cases hwrite : writePackage (env.stack srv.writers) msgTypeChat self.seq
      (chatReply (content s.next)) (BitVec.ofNat 64 (chatReply (content s.next)).length) with
  | none =>
    rw [hwrite] at hreturns
    cases hreturns
  | some outbuf =>
    simp only [hwrite, ChatServer.broadcast, ChatServer.addChatMsgToRedis] at hreturns ⊢
    cases hsend : sendPackage env.host outbuf with
    | none =>
      simp only [hsend] at hreturns ⊢
      have hnone : srv.sessions = [] := List.isEmpty_iff.mp hreturns
      refine ⟨⟨hsessions.trans h.sessions, hhistory ▸ hstored⟩, [], ?_⟩
      rw [h.sessions, hnone]
      exact (List.append_nil _).symm
    | some frame =>
      refine ⟨⟨hsessions.trans h.sessions, hhistory ▸ hstored⟩, frame, ?_⟩
      exact congrArg (srv.output ++ ·) (htargets frame).symm

end Relay

end ChatRoom.Chat
