import ChatRoom.Net.Moves

/-!
# The life cycle of a connection

The state of a connection moves one way, and it determines which callbacks have
been called up to the question whether the close came from the connection or from
its server. Both are kept by every move, whichever of the closing paths comes first
and however often the others follow.
-/

namespace ChatRoom.Net

open ChatRoom.Core

/-- The order in which the states are passed. -/
def StateE.rank : StateE → Nat
  | .kConnecting => 0
  | .kConnected => 1
  | .kDisconnecting => 2
  | .kDisconnected => 3

private theorem StateE.rank_le (s : StateE) : s.rank ≤ StateE.rank .kDisconnected := by
  cases s <;> decide

private theorem StateE.eq_kDisconnected {s : StateE} (h : StateE.rank .kDisconnected ≤ s.rank) :
    s = .kDisconnected := by
  cases s with
  | kDisconnected => rfl
  | kConnecting | kConnected | kDisconnecting => exact absurd h (by decide)

/-- The connection callback, in both its uses, and the close callback. -/
def Event.isCallback : Event → Bool
  | .up | .down | .closed => true
  | .message | .shutdownWrite | .fault => false

/-- The callbacks that have been called in a state. -/
def Announced : StateE → List Event → Prop
  | .kConnecting, callbacks => callbacks = []
  | .kConnected, callbacks => callbacks = [.up]
  | .kDisconnecting, callbacks => callbacks = [.up]
  | .kDisconnected, callbacks =>
    callbacks = [.down, .closed] ∨ callbacks = [.up, .down] ∨ callbacks = [.up, .down, .closed]

/-- All that can ever have been announced. -/
def announcements : List (List Event) :=
  [[], [.up], [.down, .closed], [.up, .down], [.up, .down, .closed]]

private theorem Announced.mem {s : StateE} {callbacks : List Event} (h : Announced s callbacks) :
    callbacks ∈ announcements := by
  cases s with
  | kConnecting | kConnected | kDisconnecting =>
    rw [show callbacks = _ from h]
    decide
  | kDisconnected => rcases h with rfl | rfl | rfl <;> decide

namespace TcpConnection

variable {t t' : TcpConnection}

/-- The connection and close callbacks called so far, in order. -/
def callbacks (t : TcpConnection) : List Event := t.trace.filter Event.isCallback

/-- The state tells what has been announced. -/
def InOrder (t : TcpConnection) : Prop := Announced t.state t.callbacks

private theorem callbacks_note (t : TcpConnection) {e : Event} (he : e.isCallback = true) :
    (t.note e).callbacks = t.callbacks ++ [e] := by
  unfold callbacks note
  rw [List.filter_append, List.filter_singleton, he]
  rfl

private theorem callbacks_note_of_not (t : TcpConnection) {e : Event} (he : e.isCallback = false) :
    (t.note e).callbacks = t.callbacks := by
  unfold callbacks note
  rw [List.filter_append, List.filter_singleton, he]
  exact List.append_nil _

private theorem InOrder.of_eq (h : t.InOrder) (hstate : t'.state = t.state)
    (hcallbacks : t'.callbacks = t.callbacks) : t'.InOrder := by
  unfold InOrder
  rw [hstate, hcallbacks]
  exact h

/-- Closing announces the end to whoever has heard of the connection, and to the server. -/
theorem Announced.close {s : StateE} {callbacks : List Event} (h : Announced s callbacks)
    (hs : s ≠ .kDisconnected) : Announced .kDisconnected (callbacks ++ [.down] ++ [.closed]) := by
  cases s with
  | kConnecting => exact Or.inl (by rw [show callbacks = [] from h]; rfl)
  | kConnected | kDisconnecting => exact Or.inr (Or.inr (by rw [show callbacks = [.up] from h]; rfl))
  | kDisconnected => exact absurd rfl hs

/-- One move moves the state forward. -/
theorem Move.rank_le (h : t.Move t') : t.state.rank ≤ t'.state.rank := by
  cases h with
  | queue | accept | input | fault | wrote | shutdownWrite | drain | drained | removed =>
    exact Nat.le_refl _
  | disconnecting hstate =>
    have hle : ∀ s : StateE, s = .kConnected ∨ s = .kDisconnecting →
        s.rank ≤ StateE.rank .kDisconnecting := by
      intro s hs
      rcases hs with rfl | rfl <;> decide
    exact hle t.state hstate
  | buffer => rw [enableWriting_state]; exact Nat.le_refl _
  | close | destroyed => exact StateE.rank_le _
  | up hstate => rw [hstate]; exact Nat.zero_le _
  | refused => rw [handleClose_state]; exact StateE.rank_le _

/-- One move announces what its new state says. -/
theorem InOrder.move (h : t.InOrder) (hm : t.Move t') : t'.InOrder := by
  cases hm with
  | queue | accept | input | wrote | drain | drained | removed => exact h.of_eq rfl rfl
  | fault | shutdownWrite => exact h.of_eq rfl (t.callbacks_note_of_not rfl)
  | disconnecting hstate =>
    unfold InOrder at h
    rcases hstate with hs | hs <;> rw [hs] at h <;> exact h
  | buffer =>
    refine h.of_eq (enableWriting_state _) ?_
    unfold callbacks
    rw [enableWriting_trace]
    rfl
  | close hstate =>
    unfold InOrder
    rw [callbacks_note _ rfl, callbacks_note _ rfl]
    exact Announced.close h hstate
  | up hstate =>
    unfold InOrder at h ⊢
    rw [hstate] at h
    rw [callbacks_note _ rfl]
    exact congrArg (· ++ [Event.up]) h
  | refused hstate =>
    unfold InOrder at h ⊢
    rw [hstate] at h
    rw [handleClose, if_neg (by intro heq; cases heq)]
    rw [callbacks_note _ rfl, connectionCallback, if_neg (by intro heq; cases heq),
      callbacks_note _ rfl]
    exact Announced.close h nofun
  | destroyed hstate =>
    unfold InOrder at h ⊢
    rw [hstate] at h
    rw [callbacks_note _ rfl]
    exact Or.inr (Or.inl (congrArg (· ++ [Event.down]) h))

private theorem InOrder.steps (h : t.InOrder) (hs : t.Steps t') : t'.InOrder := by
  refine hs.invariant (fun u u' hu hstep => ?_) h
  rcases hstep with hmove | rfl
  · exact hu.move hmove
  · exact hu.of_eq rfl (u.callbacks_note_of_not rfl)

private theorem Steps.rank_le (hs : t.Steps t') : t.state.rank ≤ t'.state.rank := by
  refine hs.invariant (P := fun u => t.state.rank ≤ u.state.rank) (fun u u' hu hstep => ?_)
    (Nat.le_refl _)
  rcases hstep with hmove | rfl
  · exact Nat.le_trans hu hmove.rank_le
  · exact hu

/-- Every method keeps the callbacks in order. -/
theorem InOrder.methodStep (h : t.InOrder) (m : Method) : (methodStep t m).InOrder := by
  rcases t.methodStep_cases m with hs | ⟨u, thread, f, hs, heq⟩ | ⟨full, heq⟩ | ⟨c, op, _, heq⟩
  · exact h.steps hs
  · rw [heq]
    exact (h.steps hs).of_eq rfl rfl
  · rw [heq]
    exact h.of_eq rfl rfl
  · rw [heq]
    exact h.of_eq rfl rfl

private theorem rank_le_methodStep (t : TcpConnection) (m : Method) :
    t.state.rank ≤ (ChatRoom.Net.methodStep t m).state.rank := by
  rcases t.methodStep_cases m with hs | ⟨u, thread, f, hs, heq⟩ | ⟨full, heq⟩ | ⟨c, op, _, heq⟩
  · exact hs.rank_le
  · rw [heq]
    exact hs.rank_le
  · rw [heq]
    exact Nat.le_refl _
  · rw [heq]
    exact Nat.le_refl _

private theorem rank_le_foldl (t : TcpConnection) (methods : List Method) :
    t.state.rank ≤ (methods.foldl ChatRoom.Net.methodStep t).state.rank :=
  foldl_invariant (P := fun u : TcpConnection => t.state.rank ≤ u.state.rank) (Nat.le_refl _)
    (fun u m hu => Nat.le_trans hu (u.rank_le_methodStep m)) methods

/-- A new connection has made no callback. -/
theorem inOrder_new (threadId : Nat) (poller : EPollPoller) (channel : Nat)
    (writeCompleteCallback highWaterMarkCallback : Bool) :
    (new threadId poller channel writeCompleteCallback highWaterMarkCallback).InOrder := rfl

/-- A method adds to the trace. -/
theorem Move.trace_prefix (h : t.Move t') : t.trace <+: t'.trace := by
  cases h with
  | queue | accept | input | wrote | disconnecting | drain | drained | removed =>
    exact List.prefix_rfl
  | fault | shutdownWrite | up | destroyed => exact List.prefix_append _ _
  | buffer =>
    rw [enableWriting_trace]
    exact List.prefix_rfl
  | close => exact (List.prefix_append _ _).trans (List.prefix_append _ _)
  | refused =>
    rw [handleClose, if_neg (by intro heq; cases heq)]
    exact (List.prefix_append _ _).trans (List.prefix_append _ _)

private theorem Steps.trace_prefix (hs : t.Steps t') : t.trace <+: t'.trace := by
  refine hs.invariant (P := fun u => t.trace <+: u.trace) (fun u u' hu hstep => ?_)
    List.prefix_rfl
  rcases hstep with hmove | rfl
  · exact hu.trans hmove.trace_prefix
  · exact hu.trans (List.prefix_append _ _)

/-- A method adds to what the connection has done. -/
theorem trace_prefix_methodStep (t : TcpConnection) (m : Method) :
    t.trace <+: (ChatRoom.Net.methodStep t m).trace := by
  rcases t.methodStep_cases m with hs | ⟨u, thread, f, hs, heq⟩ | ⟨full, heq⟩ | ⟨c, op, _, heq⟩
  · exact hs.trace_prefix
  · rw [heq]
    exact hs.trace_prefix
  · rw [heq]
    exact List.prefix_rfl
  · rw [heq]
    exact List.prefix_rfl

/-- After any run of methods the state tells what has been announced. -/
theorem inOrder_run (threadId : Nat) (poller : EPollPoller) (channel : Nat)
    (writeCompleteCallback highWaterMarkCallback : Bool) (methods : List Method) :
    (methods.foldl ChatRoom.Net.methodStep (new threadId poller channel writeCompleteCallback
      highWaterMarkCallback)).InOrder :=
  foldl_invariant (P := InOrder) (inOrder_new ..) (fun _ m hu => hu.methodStep m) methods

/-- No callback is called twice. -/
theorem InOrder.count_le (h : t.InOrder) {e : Event} (he : e.isCallback = true) :
    t.trace.count e ≤ 1 := by
  rw [← List.count_filter he]
  have hlists : ∀ l ∈ announcements, l.count e ≤ 1 := by cases e <;> decide
  exact hlists _ (Announced.mem h)

/-- The connection does not come up again. -/
theorem InOrder.up_before_down (h : t.InOrder) :
    t.trace.Pairwise fun a b => a = .down → b ≠ .up := by
  have hlists : ∀ l ∈ announcements,
      l.Pairwise fun a b => a = Event.down → b ≠ Event.up := by decide
  have hfilter := List.pairwise_filter.mp (hlists _ (Announced.mem h))
  refine hfilter.imp fun hab ha hb => ?_
  exact hab (by rw [ha]; rfl) (by rw [hb]; rfl) ha hb

/-- The server hears of the end after the session has. -/
theorem InOrder.down_before_closed (h : t.InOrder) :
    Along (fun before e => e = .closed → Event.down ∈ before) t.trace := by
  intro before e after heq he
  subst he
  have hlists : ∀ l ∈ announcements,
      ∀ k < l.length, l[k]? = some Event.closed → Event.down ∈ l.take k := by decide
  have hcallbacks : t.callbacks = before.filter Event.isCallback ++
      Event.closed :: after.filter Event.isCallback := by
    rw [callbacks, heq, List.filter_append, List.filter_cons_of_pos rfl]
  have hdown := hlists _ (Announced.mem h) (before.filter Event.isCallback).length
    (by rw [hcallbacks, List.length_append, List.length_cons]; omega)
    (by rw [hcallbacks, List.getElem?_append_right (Nat.le_refl _), Nat.sub_self]; rfl)
  rw [hcallbacks, List.take_left] at hdown
  exact (List.mem_filter.mp hdown).1

end TcpConnection

open TcpConnection in
/-- Along every run of the methods of a connection its state moves forward and never
leaves `kDisconnected`; each callback is called at most once, the connection does not
come up after it went down, and the close callback follows the down callback. -/
theorem connection_life_cycle (threadId : Nat) (poller : EPollPoller) (channel : Nat)
    (writeCompleteCallback highWaterMarkCallback : Bool) (earlier later : List Method) :
    let s := earlier.foldl methodStep (new threadId poller channel writeCompleteCallback
      highWaterMarkCallback)
    let t := later.foldl methodStep s
    s.state.rank ≤ t.state.rank ∧ (s.state = .kDisconnected → t.state = .kDisconnected) ∧
      t.trace.count .up ≤ 1 ∧ t.trace.count .down ≤ 1 ∧ t.trace.count .closed ≤ 1 ∧
      (t.trace.Pairwise fun a b => a = .down → b ≠ .up) ∧
      ∀ before after, t.trace = before ++ .closed :: after → Event.down ∈ before := by
  intro s t
  have hrank : s.state.rank ≤ t.state.rank := s.rank_le_foldl later
  have horder : t.InOrder := by
    have hrun := inOrder_run threadId poller channel writeCompleteCallback highWaterMarkCallback
      (earlier ++ later)
    rwa [List.foldl_append] at hrun
  refine ⟨hrank, fun hs => ?_, horder.count_le rfl, horder.count_le rfl, horder.count_le rfl,
    horder.up_before_down, fun before after heq => horder.down_before_closed _ _ _ heq rfl⟩
  rw [hs] at hrank
  exact StateE.eq_kDisconnected hrank

end ChatRoom.Net
