import ChatRoom.Core.Run
import ChatRoom.Net.Moves

/-!
# The callbacks of a connection

Every method but the message callback is silent: it hands no message on, and
leaves the connection disconnected exactly when it was so before or has just
called the down callback. So the state of a connection tells whether the session
behind its message callback is still there, and one event can go wrong only by
closing before it reads.
-/

namespace ChatRoom.Net

open ChatRoom.Core

/-- Once the down callback has been called, no message follows. -/
def NoMessageAfterDown (trace : List Event) : Prop :=
  trace.Pairwise fun a b => a = .down → b ≠ .message

instance (trace : List Event) : Decidable (NoMessageAfterDown trace) :=
  inferInstanceAs (Decidable (trace.Pairwise _))

/-- The event reads, and the read delivers at least one byte. -/
def DeliversData (revents : BitVec 32) (o : EventOutcome) : Prop :=
  hasBits revents (xpollIn ||| xpollPri ||| xpollRdhup) = true ∧
    ∃ available, o.read = .ok available ∧ available ≠ []

/-- The event closes before it reads: a hang-up without input, an error, or a bad descriptor. -/
def ClosesBeforeRead (revents : BitVec 32) : Prop :=
  TcpConnection.closesFirst revents = true ∨ hasBits revents (xpollErr ||| xpollNval) = true

private theorem noMessageAfterDown_append_of_not_mem {trace ext : List Event} (h : .message ∉ ext) :
    NoMessageAfterDown (trace ++ ext) ↔ NoMessageAfterDown trace := by
  have hne : ∀ b ∈ ext, b ≠ Event.message := fun b hb he => h (he ▸ hb)
  refine ⟨fun hall => (List.pairwise_append.mp hall).1, fun htrace => ?_⟩
  refine List.pairwise_append.mpr ⟨htrace, ?_, fun _ _ b hb _ => hne b hb⟩
  exact List.Pairwise.imp_of_mem (fun _ hb _ _ => hne _ hb) (List.pairwise_of_forall fun _ _ => trivial)

private theorem noMessageAfterDown_concat_message {trace : List Event} :
    NoMessageAfterDown (trace ++ [.message]) ↔ NoMessageAfterDown trace ∧ .down ∉ trace := by
  constructor
  · intro h
    obtain ⟨htrace, _, hcross⟩ := List.pairwise_append.mp h
    exact ⟨htrace, fun hdown => hcross _ hdown _ (List.mem_singleton.mpr rfl) rfl rfl⟩
  · rintro ⟨htrace, hdown⟩
    refine List.pairwise_append.mpr ⟨htrace, List.pairwise_singleton _ _, ?_⟩
    intro a ha _ _ heq
    exact absurd (heq ▸ ha) hdown

namespace TcpConnection

/-- The state says whether the down callback has been called. -/
def Tracked (t : TcpConnection) : Prop := t.state = .kDisconnected ↔ Event.down ∈ t.trace

/-- `t'` follows from `t` without a message, and is disconnected exactly when `t` was or
the down callback was called on the way. -/
def Silent (t t' : TcpConnection) : Prop :=
  ∃ ext, t'.trace = t.trace ++ ext ∧ .message ∉ ext ∧
    (t'.state = .kDisconnected ↔ t.state = .kDisconnected ∨ Event.down ∈ ext)

private theorem silent_of_eq {t t' : TcpConnection} (htrace : t'.trace = t.trace)
    (hstate : t'.state = t.state) : t.Silent t' := by
  refine ⟨[], by rw [htrace, List.append_nil], List.not_mem_nil, ?_⟩
  rw [hstate]
  exact ⟨Or.inl, fun h => h.resolve_right List.not_mem_nil⟩

/-- `Silent` is transitive. -/
theorem Silent.trans {t t' t'' : TcpConnection} (h : t.Silent t') (h' : t'.Silent t'') :
    t.Silent t'' := by
  obtain ⟨ext, htrace, hmsg, hstate⟩ := h
  obtain ⟨ext', htrace', hmsg', hstate'⟩ := h'
  refine ⟨ext ++ ext', by rw [htrace', htrace, List.append_assoc], ?_, ?_⟩
  · rw [List.mem_append]
    exact fun hmem => hmem.elim hmsg hmsg'
  · rw [hstate', hstate, List.mem_append, or_assoc]

/-- Without a message the state goes on to say whether the connection is down. -/
theorem Silent.tracked {t t' : TcpConnection} (h : t.Silent t') (ht : t.Tracked) : t'.Tracked := by
  obtain ⟨ext, htrace, _, hstate⟩ := h
  unfold Tracked at ht ⊢
  rw [hstate, ht, htrace, List.mem_append]

private theorem Silent.noMessageAfterDown_iff {t t' : TcpConnection} (h : t.Silent t') :
    NoMessageAfterDown t'.trace ↔ NoMessageAfterDown t.trace := by
  obtain ⟨ext, htrace, hmsg, _⟩ := h
  rw [htrace, noMessageAfterDown_append_of_not_mem hmsg]

private theorem silent_note (t : TcpConnection) {e : Event} (hm : e ≠ .message) (hd : e ≠ .down) :
    t.Silent (t.note e) := by
  refine ⟨[e], rfl, ?_, ?_⟩
  · rw [List.mem_singleton]
    exact hm.symm
  · rw [List.mem_singleton]
    exact ⟨Or.inl, fun h => h.resolve_right hd.symm⟩

private theorem silent_setState {t : TcpConnection} {state : StateE} (h : t.state ≠ .kDisconnected)
    (h' : state ≠ .kDisconnected) : t.Silent (t.setState state) := by
  refine ⟨[], (List.append_nil _).symm, List.not_mem_nil, ?_⟩
  exact ⟨fun hs => absurd hs h', fun hs => absurd (hs.resolve_right List.not_mem_nil) h⟩

private theorem silent_handleClose (t : TcpConnection) : t.Silent t.handleClose := by
  unfold handleClose
  split
  · exact silent_of_eq rfl rfl
  · refine ⟨[.down, .closed], List.append_assoc _ _ _, by decide, ?_⟩
    exact ⟨fun _ => Or.inr (List.mem_cons_self ..), fun _ => rfl⟩

private theorem silent_connected {t : TcpConnection} (h : t.state = .kConnecting)
    (p : EPollPoller) :
    t.Silent ((t.setState .kConnected).setPoller p) := by
  have hset : t.Silent (t.setState .kConnected) := silent_setState (by rw [h]; decide) (by decide)
  exact hset.trans (silent_of_eq rfl rfl)

/-- Every move is silent. -/
theorem Move.silent {t t' : TcpConnection} (h : t.Move t') : t.Silent t' := by
  cases h with
  | queue | accept | input | wrote | drain | drained | removed => exact silent_of_eq rfl rfl
  | fault | shutdownWrite => exact t.silent_note (by decide) (by decide)
  | disconnecting hstate =>
    refine silent_setState ?_ (by decide)
    rcases hstate with hstate | hstate <;> rw [hstate] <;> decide
  | buffer rest => exact silent_of_eq (enableWriting_trace _) (enableWriting_state _)
  | close hstate =>
    have hclose := t.silent_handleClose
    rwa [handleClose, if_neg hstate] at hclose
  | up hstate => exact (silent_connected hstate _).trans (silent_note _ (by decide) (by decide))
  | refused hstate => exact (silent_connected hstate _).trans (silent_handleClose _)
  | destroyed =>
    refine ⟨[.down], rfl, by decide, ?_⟩
    exact ⟨fun _ => Or.inr (List.mem_singleton.mpr rfl), fun _ => rfl⟩

private theorem Moves.silent {t t' : TcpConnection} (h : t.Moves t') : t.Silent t' := by
  induction h with
  | refl => exact silent_of_eq rfl rfl
  | tail _ hlast ih => exact ih.trans hlast.silent

/-- Every step but a poll event is silent. -/
theorem silent_step (t : TcpConnection) {i : ConnectionInput}
    (hi : ∀ revents o, i ≠ .handleEvent revents o) : t.Silent (connectionStep t i) := by
  have hloop : ∀ (u : TcpConnection) (loop : EventLoop), u.Silent (u.setLoop loop) :=
    fun u loop => silent_of_eq rfl rfl
  cases i with
  | kernel full => exact silent_of_eq rfl rfl
  | _ =>
    obtain ⟨loop, u, loop', hmoves, heq⟩ :=
      t.connectionStep_moves hi (by intro full hfull; cases hfull)
    rw [heq]
    exact ((hloop t loop).trans hmoves.silent).trans (hloop u loop')

/-- The two callbacks that `handleEvent` may call before it reads. -/
def beforeRead (t : TcpConnection) (revents : BitVec 32) : TcpConnection :=
  let t := if closesFirst revents then t.handleClose else t
  if hasBits revents (xpollErr ||| xpollNval) then t.handleError else t

private theorem silent_beforeRead (t : TcpConnection) (revents : BitVec 32) :
    t.Silent (t.beforeRead revents) := by
  have hclose : ∀ (u : TcpConnection) (b : Bool), u.Silent (if b then u.handleClose else u) := by
    intro u b
    cases b with
    | false => exact silent_of_eq rfl rfl
    | true => exact u.silent_handleClose
  exact (hclose t _).trans (hclose _ _)

private theorem beforeRead_disconnected (t : TcpConnection) (revents : BitVec 32) :
    (t.beforeRead revents).state = .kDisconnected ↔
      t.state = .kDisconnected ∨ ClosesBeforeRead revents := by
  unfold beforeRead ClosesBeforeRead
  cases herr : hasBits revents (xpollErr ||| xpollNval) with
  | true => simp only [if_true, handleError, handleClose_state, or_true]
  | false =>
    cases hfirst : closesFirst revents with
    | true => simp only [if_true, Bool.false_eq_true, if_false, handleClose_state, true_or, or_true]
    | false => simp only [Bool.false_eq_true, if_false, or_false]

/-- `readFd` delivers a byte exactly when one is available: there is always room. -/
theorem readFd_pos_iff (b : Buffer) (available : Bytes) :
    0 < (b.readFd available).2 ↔ available ≠ [] := by
  have hroom : 0 < b.readvRoom := by
    unfold ByteBuffer.readvRoom ByteBuffer.extraSize
    by_cases hsmall : b.writableBytes < 65536
    · rw [if_pos hsmall]; omega
    · rw [if_neg hsmall]; omega
  have hlen : (b.readFd available).2 = (available.take b.readvRoom).length := by
    simp only [Buffer.readFd, ByteBuffer.readFd]
    split <;> rfl
  rw [hlen, List.length_take, ← List.length_pos_iff]
  omega

/-- Reading hands a message on exactly when data is delivered, in the state it finds. -/
theorem handleRead_cases (t : TcpConnection) (o : EventOutcome) :
    ((∃ available, o.read = .ok available ∧ available ≠ []) ∧
        ∃ u : TcpConnection, u.trace = t.trace ++ [.message] ∧ u.state = t.state ∧
          u.Silent (t.handleRead o)) ∨
      ((¬ ∃ available, o.read = .ok available ∧ available ≠ []) ∧ t.Silent (t.handleRead o)) := by
  unfold handleRead
  split
  · next available hread =>
    have hpos := readFd_pos_iff t.inputBuffer available
    dsimp only
    split
    · next hdata =>
      refine Or.inl ⟨⟨available, hread, hpos.mp hdata⟩, ?_⟩
      refine ⟨_, ?_, ?_, (moves_react _ o.calls).silent⟩ <;> rfl
    · next hdata =>
      refine Or.inr ⟨?_, (silent_of_eq rfl rfl).trans (silent_handleClose _)⟩
      rintro ⟨other, hother, hne⟩
      rw [hread] at hother
      cases hother
      exact hdata (hpos.mpr hne)
  · next hread =>
    refine Or.inr ⟨?_, t.silent_handleClose⟩
    rintro ⟨other, hother, _⟩
    rw [hread] at hother
    cases hother

/-- An event is handled by closing callbacks, a read and a write. -/
theorem handleEvent_eq (t : TcpConnection) (revents : BitVec 32) (o : EventOutcome) :
    t.handleEvent revents o =
      (let u := t.beforeRead revents
       let u := if hasBits revents (xpollIn ||| xpollPri ||| xpollRdhup) then u.handleRead o else u
       if hasBits revents xpollOut then u.handleWrite o.write else u) := rfl

/-- What an event does to the trace: nothing is handed on, or one message is, in the
state the closing callbacks leave. -/
theorem handleEvent_cases (t : TcpConnection) (revents : BitVec 32) (o : EventOutcome) :
    (DeliversData revents o ∧
        ∃ u : TcpConnection, u.trace = (t.beforeRead revents).trace ++ [.message] ∧
          u.state = (t.beforeRead revents).state ∧ u.Silent (t.handleEvent revents o)) ∨
      (¬ DeliversData revents o ∧ t.Silent (t.handleEvent revents o)) := by
  have hwrite : ∀ u : TcpConnection,
      u.Silent (if hasBits revents xpollOut then u.handleWrite o.write else u) := by
    intro u
    split
    · exact (u.moves_handleWrite o.write).silent
    · exact silent_of_eq rfl rfl
  rw [handleEvent_eq]
  cases hin : hasBits revents (xpollIn ||| xpollPri ||| xpollRdhup) with
  | false =>
    refine Or.inr ⟨fun h => ?_, (t.silent_beforeRead revents).trans (hwrite _)⟩
    rw [DeliversData, hin] at h
    exact absurd h.1 Bool.false_ne_true
  | true =>
    rcases (t.beforeRead revents).handleRead_cases o with ⟨hdata, u, htrace, hstate, hs⟩ | ⟨hdata, hs⟩
    · exact Or.inl ⟨⟨hin, hdata⟩, u, htrace, hstate, hs.trans (hwrite _)⟩
    · exact Or.inr ⟨fun h => hdata h.2, ((t.silent_beforeRead revents).trans hs).trans (hwrite _)⟩

/-- After an event the state says whether the connection is down. -/
theorem Tracked.handleEvent {t : TcpConnection} (h : t.Tracked) (revents : BitVec 32)
    (o : EventOutcome) : (t.handleEvent revents o).Tracked := by
  rcases t.handleEvent_cases revents o with ⟨_, u, htrace, hstate, hs⟩ | ⟨_, hs⟩
  · have hbefore := (t.silent_beforeRead revents).tracked h
    apply hs.tracked
    unfold Tracked at hbefore ⊢
    rw [hstate, htrace, hbefore, List.mem_append, List.mem_singleton]
    exact ⟨Or.inl, fun hd => hd.resolve_right (by decide)⟩
  · exact hs.tracked h

/-- After every input the state says whether the connection is down. -/
theorem Tracked.step {t : TcpConnection} (h : t.Tracked) (i : ConnectionInput) :
    (connectionStep t i).Tracked := by
  cases i with
  | handleEvent revents o => exact h.handleEvent revents o
  | _ => exact (t.silent_step (by intro _ _ hi; cases hi)).tracked h

/-- What keeps the order of callbacks in one step. -/
def Allowed (t : TcpConnection) (i : ConnectionInput) : Prop :=
  ∀ revents o, i = .handleEvent revents o → DeliversData revents o →
    t.state ≠ .kDisconnected ∧ ¬ ClosesBeforeRead revents

private theorem noMessageAfterDown_step {t : TcpConnection} (h : t.Tracked) (i : ConnectionInput) :
    NoMessageAfterDown (connectionStep t i).trace ↔ NoMessageAfterDown t.trace ∧ t.Allowed i := by
  cases i with
  | handleEvent revents o =>
    have hbefore := t.silent_beforeRead revents
    have htracked : (t.beforeRead revents).state = .kDisconnected ↔
        Event.down ∈ (t.beforeRead revents).trace := hbefore.tracked h
    have hallowed : t.Allowed (.handleEvent revents o) ↔
        (DeliversData revents o → t.state ≠ .kDisconnected ∧ ¬ ClosesBeforeRead revents) := by
      refine ⟨fun ha => ha revents o rfl, fun ha revents' o' heq => ?_⟩
      cases heq
      exact ha
    rw [hallowed]
    rcases t.handleEvent_cases revents o with ⟨hdata, u, htrace, _, hs⟩ | ⟨hdata, hs⟩
    · rw [show connectionStep t (.handleEvent revents o) = t.handleEvent revents o from rfl,
        hs.noMessageAfterDown_iff, htrace, noMessageAfterDown_concat_message,
        hbefore.noMessageAfterDown_iff, ← htracked, beforeRead_disconnected, not_or]
      exact and_congr_right fun _ => ⟨fun ha _ => ha, fun ha => ha hdata⟩
    · rw [show connectionStep t (.handleEvent revents o) = t.handleEvent revents o from rfl,
        hs.noMessageAfterDown_iff]
      exact ⟨fun hn => ⟨hn, fun hd => absurd hd hdata⟩, fun hn => hn.1⟩
  | _ =>
    rw [(t.silent_step (by intro _ _ hi; cases hi)).noMessageAfterDown_iff]
    refine ⟨fun hn => ⟨hn, ?_⟩, fun hn => hn.1⟩
    intro _ _ hi
    cases hi

end TcpConnection

open TcpConnection in
/-- In every run of a connection, no message follows the down callback exactly when no
event delivers data to a connection that is already disconnected, or closes the
connection before it reads. -/
theorem no_message_after_down_iff (threadId : Nat) (poller : EPollPoller) (channel : Nat)
    (writeCompleteCallback highWaterMarkCallback : Bool) (inputs : List ConnectionInput) :
    NoMessageAfterDown (inputs.foldl connectionStep (new threadId poller channel
        writeCompleteCallback highWaterMarkCallback)).trace ↔
      ∀ t revents o, Visits connectionStep (new threadId poller channel writeCompleteCallback
          highWaterMarkCallback) inputs t (.handleEvent revents o) →
        DeliversData revents o → t.state ≠ .kDisconnected ∧ ¬ ClosesBeforeRead revents := by
  have hstart : (new threadId poller channel writeCompleteCallback
      highWaterMarkCallback).Tracked := iff_of_false (by intro h; cases h) List.not_mem_nil
  have hempty : NoMessageAfterDown (new threadId poller channel writeCompleteCallback
      highWaterMarkCallback).trace := List.Pairwise.nil
  rw [foldl_iff_of_visits (P := fun t => NoMessageAfterDown t.trace) hempty hstart
    (fun _ i h => h.step i) (fun _ i h => noMessageAfterDown_step h i) inputs]
  refine ⟨fun h t revents o hv => h t _ hv revents o rfl, fun h t i hv revents o hi => ?_⟩
  subst hi
  exact h t revents o hv

/-- An error and input reported together: the connection closes, its session is
destroyed, and the data is then handed to it. -/
theorem message_follows_down_on_error :
    ¬ NoMessageAfterDown ([ConnectionInput.establish 0,
      .handleEvent (xpollErr ||| xpollIn) ⟨.ok [0], 0, [], .room 0⟩].foldl connectionStep
        (TcpConnection.new 0 (.new fun _ => Channel.new 3) 7 false false)).trace := by
  decide +kernel

end ChatRoom.Net
