import ChatRoom.Core.Run
import ChatRoom.Net.Connector

/-!
# Who closes a socket

Between two calls the connector has no attempt under way, or one whose socket is open,
untouched, and watched by its channel. The functions pass through states where the
attempt is loose: its channel is out of the poller, and its socket has still to be
closed, handed on or watched.
-/

namespace ChatRoom.Net

open ChatRoom.Core

private theorem channelOf_ne {j k : Nat} (h : j ≠ k) : channelOf j ≠ channelOf k := by
  simp only [channelOf]
  omega

private theorem channelOf_ne_odd (k n : Nat) : channelOf k ≠ 2 * n + 1 := by
  simp only [channelOf]
  omega

namespace Resources

variable {r : Resources} {k fd : Nat}

/-- The poller keeps track, no channel is lost, and open sockets have descriptors of their own. -/
structure Basic (r : Resources) : Prop where
  tracks : r.poller.Tracks
  kept : r.lost = []
  distinct : ∀ {i j : Nat} {x y : Socket}, r.sockets[i]? = some x → r.sockets[j]? = some y →
    x.isOpen = true → y.isOpen = true → x.fd = y.fd → i = j

/-- No attempt is under way. -/
structure Idle (r : Resources) : Prop extends r.Basic where
  absent : ∀ j, (r.poller.objects (channelOf j)).index = .kNew
  settled : ∀ {j : Nat} {x : Socket}, r.sockets[j]? = some x → x.Settled

/-- The attempt with socket `k` has no channel in the poller. -/
structure Loose (r : Resources) (k fd : Nat) : Prop extends r.Basic where
  absent : ∀ j, (r.poller.objects (channelOf j)).index = .kNew
  held : r.sockets[k]? = some ⟨fd, true, 0, 0⟩
  settled : ∀ {j : Nat} {x : Socket}, j ≠ k → r.sockets[j]? = some x → x.Settled

/-- The attempt with socket `k` is under way. -/
structure Attempting (r : Resources) (k : Nat) : Prop extends r.Basic where
  absent : ∀ j, j ≠ k → (r.poller.objects (channelOf j)).index = .kNew
  held : r.sockets[k]? = some ⟨r.fdOf k, true, 0, 0⟩
  settled : ∀ {j : Nat} {x : Socket}, j ≠ k → r.sockets[j]? = some x → x.Settled

/-- Changes that open no socket and change no descriptor. -/
theorem Basic.map (h : r.Basic) {f : Socket → Socket} (hfd : ∀ x, (f x).fd = x.fd)
    (hopen : ∀ x, (f x).isOpen = true → x.isOpen = true) {p : EPollPoller} (hp : p.Tracks) :
    Basic { r with sockets := r.sockets.map f, poller := p } where
  tracks := hp
  kept := h.kept
  distinct := by
    intro i j x' y' hx' hy' hxo hyo heq
    rw [List.getElem?_map] at hx' hy'
    obtain ⟨x, hx, rfl⟩ := Option.map_eq_some_iff.mp hx'
    obtain ⟨y, hy, rfl⟩ := Option.map_eq_some_iff.mp hy'
    rw [hfd, hfd] at heq
    exact h.distinct hx hy (hopen x hxo) (hopen y hyo) heq

private theorem Basic.poller (h : r.Basic) {p : EPollPoller} (hp : p.Tracks) :
    Basic { r with poller := p } :=
  ⟨hp, h.kept, h.distinct⟩

/-- A channel that is out of the poller may be destroyed. -/
theorem Basic.destroy_eq (h : r.Basic) (hindex : (r.poller.objects (channelOf k)).index = .kNew) :
    r.destroy k = r := by
  rw [destroy, if_neg]
  rw [h.tracks.present_iff]
  exact not_not.mpr hindex

private theorem sockets_destroy (r : Resources) (k : Nat) : (r.destroy k).sockets = r.sockets := by
  rw [destroy]
  split
  · rfl
  · rfl

private theorem close_objects (p : EPollPoller) (fd : Nat) : (p.close fd).objects = p.objects := by
  rw [EPollPoller.close]
  split
  · rfl
  · rfl

/-- An attempt ends when its socket, and no other, is closed or handed on. -/
theorem Loose.settle (h : r.Loose k fd) {f : Socket → Socket} (hfd : ∀ x, (f x).fd = x.fd)
    (hopen : ∀ x, (f x).isOpen = true → x.isOpen = true)
    (hother : ∀ x, ¬ (x.isOpen = true ∧ x.fd = fd) → f x = x)
    (hself : (f ⟨fd, true, 0, 0⟩).Settled) {p : EPollPoller} (hp : p.Tracks)
    (hobjects : p.objects = r.poller.objects) :
    Idle { r with sockets := r.sockets.map f, poller := p } where
  toBasic := h.toBasic.map hfd hopen hp
  absent := by
    rw [hobjects]
    exact h.absent
  settled := by
    intro j x' hx'
    rw [List.getElem?_map] at hx'
    obtain ⟨x, hx, rfl⟩ := Option.map_eq_some_iff.mp hx'
    by_cases hj : j = k
    · rw [hj, h.held] at hx
      rw [← Option.some.inj hx]
      exact hself
    · rw [hother x fun hsame => hj (h.distinct hx h.held hsame.1 rfl hsame.2)]
      exact h.settled hj hx

private theorem Loose.close (h : r.Loose k fd) : (r.close fd).Idle := by
  apply h.settle (f := Socket.close fd)
  · intro x
    rw [Socket.close]
    split
    · rfl
    · rfl
  · intro x hx
    rw [Socket.close] at hx
    split at hx
    · cases hx
    · exact hx
  · intro x hx
    rw [Socket.close, if_neg hx]
  · rw [Socket.close, if_pos ⟨rfl, rfl⟩]
    exact Or.inl ⟨rfl, rfl⟩
  · exact h.tracks.close fd
  · exact close_objects r.poller fd

private theorem Loose.hand (h : r.Loose k fd) : (r.hand fd).Idle := by
  apply h.settle (f := Socket.hand fd)
  · intro x
    rw [Socket.hand]
    split
    · rfl
    · rfl
  · intro x hx
    rw [Socket.hand] at hx
    split at hx
    · exact hx
    · exact hx
  · intro x hx
    rw [Socket.hand, if_neg hx]
  · rw [Socket.hand, if_pos ⟨rfl, rfl⟩]
    exact Or.inr ⟨rfl, rfl⟩
  · exact h.tracks
  · rfl

private theorem getElem?_socket {i : Nat} {x : Socket} (h : (r.socket fd).sockets[i]? = some x) :
    r.sockets[i]? = some x ∨ (i = r.sockets.length ∧ x = ⟨fd, true, 0, 0⟩) := by
  rw [Resources.socket, List.getElem?_append] at h
  split at h
  · exact Or.inl h
  · rw [List.getElem?_singleton] at h
    split at h
    · cases h
      exact Or.inr ⟨by omega, rfl⟩
    · cases h

/-- A new socket is loose. -/
theorem Idle.socket (h : r.Idle) (hfd : ¬ r.Used fd) :
    (r.socket fd).Loose r.sockets.length fd := by
  have hunused : ∀ {i : Nat} {x : Socket}, r.sockets[i]? = some x → x.isOpen = true →
      x.fd ≠ fd := by
    intro i x hx hopen heq
    exact hfd ⟨x, List.mem_of_getElem? hx, hopen, heq⟩
  refine ⟨⟨h.tracks, h.kept, ?_⟩, h.absent, List.getElem?_concat_length, ?_⟩
  · intro i j x y hx hy hxo hyo heq
    rcases getElem?_socket hx with hx | ⟨rfl, rfl⟩
    · rcases getElem?_socket hy with hy | ⟨rfl, rfl⟩
      · exact h.distinct hx hy hxo hyo heq
      · exact absurd heq (hunused hx hxo)
    · rcases getElem?_socket hy with hy | ⟨rfl, rfl⟩
      · exact absurd heq.symm (hunused hy hyo)
      · rfl
  · intro j x hj hx
    rcases getElem?_socket hx with hx | ⟨hlen, _⟩
    · exact h.settled hx
    · exact absurd hlen hj

/-- A channel watches the loose socket, whether or not the kernel takes it. -/
theorem Loose.install (h : r.Loose k fd) : (r.install k fd).Attempting k := by
  have htracks := h.tracks.create (h.absent k) fd
  refine ⟨h.toBasic.poller (htracks.operate (channelOf k) .enableWriting), ?_, ?_, h.settled⟩
  · intro j hj
    have hobject := EPollPoller.operate_objects_of_ne (p := r.poller.create (channelOf k) fd)
      (channelOf_ne hj) .enableWriting
    have hcreate : (r.poller.create (channelOf k) fd).objects (channelOf j) =
        r.poller.objects (channelOf j) := Function.update_of_ne (channelOf_ne hj) ..
    rw [← h.absent j, ← hcreate, ← hobject]
    rfl
  · have hfd := EPollPoller.fd_operate (r.poller.create (channelOf k) fd) (channelOf k)
      .enableWriting
    have hcreate : (r.poller.create (channelOf k) fd).objects (channelOf k) = Channel.new fd :=
      Function.update_self ..
    have hsame : (r.install k fd).fdOf k = fd := by
      rw [hcreate] at hfd
      exact hfd
    rw [hsame]
    exact h.held

/-- The channel of an attempt comes out of the poller. -/
theorem Attempting.withdraw (h : r.Attempting k) : (r.withdraw k).Loose k (r.fdOf k) := by
  have htracks := (h.tracks.operate (channelOf k) .disableAll).operate (channelOf k) .remove
  refine ⟨h.toBasic.poller htracks, ?_, h.held, h.settled⟩
  intro j
  by_cases hj : j = k
  · rw [hj]
    exact h.tracks.index_disableAll_remove (channelOf k)
  · have hdisable := EPollPoller.operate_objects_of_ne (p := r.poller) (channelOf_ne hj) .disableAll
    have hremove := EPollPoller.operate_objects_of_ne
      (p := r.poller.operate (channelOf k) .disableAll) (channelOf_ne hj) .remove
    rw [← h.absent j hj, ← hdisable, ← hremove]
    rfl

private theorem fdOf_withdraw (r : Resources) (k : Nat) : (r.withdraw k).fdOf k = r.fdOf k := by
  have hdisable := EPollPoller.fd_operate r.poller (channelOf k) .disableAll
  have hremove := EPollPoller.fd_operate (r.poller.operate (channelOf k) .disableAll)
    (channelOf k) .remove
  exact hremove.trans hdisable

/-! ## What others do -/

private theorem Idle.poller (h : r.Idle) {p : EPollPoller} (hp : p.Tracks)
    (hobjects : ∀ j, p.objects (channelOf j) = r.poller.objects (channelOf j)) :
    Idle { r with poller := p } where
  toBasic := h.toBasic.poller hp
  absent := by
    intro j
    rw [hobjects]
    exact h.absent j
  settled := h.settled

private theorem Attempting.poller (h : r.Attempting k) {p : EPollPoller} (hp : p.Tracks)
    (hobjects : ∀ j, p.objects (channelOf j) = r.poller.objects (channelOf j)) :
    Attempting { r with poller := p } k where
  toBasic := h.toBasic.poller hp
  absent := by
    intro j hj
    rw [hobjects]
    exact h.absent j hj
  held := by
    rw [fdOf, hobjects]
    exact h.held
  settled := h.settled

private theorem Basic.release (h : r.Basic) (fd : Nat) : (r.release fd).Basic := by
  apply h.map (f := Socket.release fd)
  · intro x
    rw [Socket.release]
    split
    · rfl
    · rfl
  · intro x hx
    rw [Socket.release] at hx
    split at hx
    · cases hx
    · exact hx
  · exact h.tracks.close fd

private theorem settled_release {x : Socket} (hx : x.Settled) (fd : Nat) :
    (x.release fd).Settled := by
  rw [Socket.release]
  split
  · exact hx
  · exact hx

private theorem getElem?_release {j : Nat} {x : Socket} (h : (r.release fd).sockets[j]? = some x) :
    ∃ y, r.sockets[j]? = some y ∧ y.release fd = x := by
  rw [Resources.release, List.getElem?_map] at h
  exact Option.map_eq_some_iff.mp h

private theorem Idle.release (h : r.Idle) (fd : Nat) : (r.release fd).Idle where
  toBasic := h.toBasic.release fd
  absent := by
    rw [Resources.release, close_objects]
    exact h.absent
  settled := by
    intro j x hx
    obtain ⟨y, hy, rfl⟩ := getElem?_release hx
    exact settled_release (h.settled hy) fd

private theorem Attempting.release (h : r.Attempting k) (fd : Nat) :
    (r.release fd).Attempting k where
  toBasic := h.toBasic.release fd
  absent := by
    rw [Resources.release, close_objects]
    exact h.absent
  held := by
    rw [fdOf, Resources.release, close_objects, List.getElem?_map, h.held]
    exact congrArg some (if_neg fun hhanded => Nat.lt_irrefl 0 hhanded.2)
  settled := by
    intro j x hj hx
    obtain ⟨y, hy, rfl⟩ := getElem?_release hx
    exact settled_release (h.settled hj hy) fd

end Resources

namespace Connector

variable {s : Connector} {k fd : Nat}

/-- Every socket was closed once or handed on once, or is that of the attempt under way and
known to `m_channel`; no channel was destroyed while the poller knew it. -/
structure Owned (s : Connector) : Prop where
  sockets : ∀ k x, s.resources.sockets[k]? = some x → x.Settled ∨
    (x.closed = 0 ∧ x.handed = 0 ∧ s.state = .kConnecting ∧ s.channel = some k)
  channels : s.resources.lost = []

/-- What holds between two calls. -/
structure Orderly (s : Connector) : Prop where
  running : s.crashed = false
  attempt : s.state = .kConnecting → ∃ k, s.channel = some k ∧ s.resources.Attempting k
  idle : s.state ≠ .kConnecting → s.resources.Idle
  connected : s.connection = true → s.state = .kConnected

private theorem Orderly.owned (h : s.Orderly) : s.Owned := by
  by_cases hstate : s.state = .kConnecting
  · obtain ⟨k, hchannel, hattempt⟩ := h.attempt hstate
    refine ⟨fun j x hx => ?_, hattempt.kept⟩
    by_cases hj : j = k
    · rw [hj, hattempt.held] at hx
      cases hx
      exact Or.inr ⟨rfl, rfl, hstate, by rw [hj, hchannel]⟩
    · exact Or.inl (hattempt.settled hj hx)
  · have hidle := h.idle hstate
    exact ⟨fun j x hx => Or.inl (hidle.settled hx), hidle.kept⟩

private theorem orderly_new (fds : Nat → Nat) : (new fds).Orderly where
  running := rfl
  attempt := by
    intro hstate
    cases hstate
  idle := by
    intro _
    refine ⟨⟨EPollPoller.tracks_new fds, rfl, ?_⟩, fun j => rfl, ?_⟩
    · intro i j x y hx
      cases hx
    · intro j x hx
      cases hx
  connected := by
    intro hconnection
    cases hconnection

/-- Without an attempt under way. -/
theorem orderly_of_idle (hrunning : s.crashed = false) (hstate : s.state ≠ .kConnecting)
    (hidle : s.resources.Idle) (hconnected : s.connection = true → s.state = .kConnected) :
    s.Orderly :=
  ⟨hrunning, fun h => absurd h hstate, fun _ => hidle, hconnected⟩

private theorem orderly_retry (hrunning : s.crashed = false) (hloose : s.resources.Loose k fd)
    (hconnection : s.connection = false) : (s.retry fd).Orderly := by
  apply orderly_of_idle
  · exact hrunning
  · exact ConnectorState.noConfusion
  · exact hloose.close
  · intro hconnected
    exact absurd (hconnection.symm.trans hconnected) Bool.noConfusion

/-- A channel that is out of the poller leaves nothing behind. -/
theorem resources_destroyChannel (hbasic : s.resources.Basic)
    (habsent : ∀ j, (s.resources.poller.objects (channelOf j)).index = .kNew) :
    s.destroyChannel = { s with channel := none } := by
  rw [destroyChannel]
  split
  · rw [hbasic.destroy_eq (habsent _)]
  · next hnone =>
    cases s
    cases hnone
    rfl

private theorem orderly_connecting (hrunning : s.crashed = false) (hloose : s.resources.Loose k fd)
    (hconnection : s.connection = false) : (s.connecting k fd).Orderly := by
  rw [connecting, resources_destroyChannel hloose.toBasic hloose.absent]
  refine ⟨hrunning, fun _ => ⟨k, rfl, hloose.install⟩, fun h => absurd rfl h, ?_⟩
  intro hconnected
  exact absurd (hconnection.symm.trans hconnected) Bool.noConfusion

private theorem Orderly.connection_eq_false (h : s.Orderly) (hstate : s.state ≠ .kConnected) :
    s.connection = false :=
  Bool.eq_false_iff.mpr fun hconnection => hstate (h.connected hconnection)

private theorem Orderly.connect (h : s.Orderly) (hstate : s.state = .kDisconnected) (a : Attempt) :
    (s.connect a).Orderly := by
  have hconnection := h.connection_eq_false (by rw [hstate]; exact ConnectorState.noConfusion)
  have hne : s.state ≠ .kConnecting := by
    rw [hstate]
    exact ConnectorState.noConfusion
  rw [Connector.connect]
  split
  · exact h
  · next hfd =>
    have hloose := (h.idle hne).socket hfd
    split
    · exact orderly_connecting h.running hloose hconnection
    · split
      · exact orderly_retry h.running hloose hconnection
      · apply orderly_of_idle
        · exact h.running
        · exact hne
        · exact hloose.close
        · exact h.connected

private theorem Orderly.startInLoop (h : s.Orderly) (a : Attempt) : (s.startInLoop a).Orderly := by
  rw [Connector.startInLoop]
  split
  · exact h
  · next hstate =>
    split
    · exact h.connect (not_not.mp hstate) a
    · exact h

/-- The flag and the queue do not matter. -/
theorem Orderly.queue (h : s.Orderly) (wanted : Bool) (pending : List ConnectorTask) :
    Orderly { s with wanted := wanted, pending := pending } :=
  ⟨h.running, h.attempt, h.idle, h.connected⟩

private theorem Orderly.start (h : s.Orderly) (inLoopThread : Bool) (a : Attempt) :
    (s.start inLoopThread a).Orderly := by
  rw [Connector.start]
  split
  · exact (h.queue true s.pending).startInLoop a
  · exact h.queue true _

/-- What `removeAndResetChannel` leaves to its caller. -/
theorem removeAndResetChannel_eq (hchannel : s.channel = some k)
    (hattempt : s.resources.Attempting k) :
    ∃ t fd, (∀ next, s.removeAndResetChannel next = next t fd) ∧ t.resources.Loose k fd ∧
      t.crashed = s.crashed ∧ t.connection = s.connection := by
  refine ⟨{ s with resources := s.resources.withdraw k }.queueInLoop .resetChannel,
    s.resources.fdOf k, fun next => ?_, hattempt.withdraw, rfl, rfl⟩
  rw [removeAndResetChannel, hchannel]
  exact congrArg (next _) (Resources.fdOf_withdraw s.resources k)

private theorem Orderly.connection_of_attempt (h : s.Orderly) (hstate : s.state = .kConnecting) :
    s.connection = false :=
  h.connection_eq_false (by rw [hstate]; exact ConnectorState.noConfusion)

/-- An attempt is given up. -/
theorem Orderly.giveUp (h : s.Orderly) (hstate : s.state = .kConnecting)
    (state : ConnectorState) :
    ({ s with state := state }.removeAndResetChannel retry).Orderly := by
  obtain ⟨k, hchannel, hattempt⟩ := h.attempt hstate
  obtain ⟨t, fd, hnext, hloose, hcrashed, hconnection⟩ :=
    removeAndResetChannel_eq (s := { s with state := state }) hchannel hattempt
  rw [hnext]
  apply orderly_retry (hcrashed.trans h.running) hloose
  exact hconnection.trans (h.connection_of_attempt hstate)

private theorem Orderly.stopInLoop (h : s.Orderly) : s.stopInLoop.Orderly := by
  rw [Connector.stopInLoop]
  split
  · next hstate => exact h.giveUp hstate .kDisconnected
  · exact h

private theorem Orderly.handleError (h : s.Orderly) : s.handleError.Orderly := by
  rw [Connector.handleError]
  split
  · next hstate => exact h.giveUp hstate s.state
  · exact h

private theorem Orderly.removeConnection (h : s.Orderly) (again : Option Attempt) :
    (s.removeConnection again).Orderly := by
  rw [Connector.removeConnection]
  split
  · next hconnection =>
    have hidle : s.resources.Idle := by
      apply h.idle
      rw [h.connected hconnection]
      exact ConnectorState.noConfusion
    cases again with
    | none => exact ⟨h.running, h.attempt, h.idle, Bool.noConfusion⟩
    | some a =>
      apply Orderly.startInLoop
      apply orderly_of_idle
      · exact h.running
      · exact ConnectorState.noConfusion
      · exact hidle
      · exact Bool.noConfusion
  · exact h

private theorem orderly_newConnection (hrunning : s.crashed = false)
    (hstate : s.state = .kConnected)
    (hloose : s.resources.Loose k fd) (handover : Handover) :
    (s.newConnection fd handover).Orderly := by
  have hhanded : Orderly { s with connection := true, resources := s.resources.hand fd } := by
    apply orderly_of_idle
    · exact hrunning
    · rw [hstate]
      exact ConnectorState.noConfusion
    · exact hloose.hand
    · exact fun _ => hstate
  cases handover with
  | stays => exact hhanded
  | closes again => exact hhanded.removeConnection again

private theorem Orderly.handleWrite (h : s.Orderly) (w : Writable) : (s.handleWrite w).Orderly := by
  rw [Connector.handleWrite]
  split
  · next hstate =>
    obtain ⟨k, hchannel, hattempt⟩ := h.attempt hstate
    obtain ⟨t, fd, hnext, hloose, hcrashed, hconnection⟩ :=
      removeAndResetChannel_eq hchannel hattempt
    have hrunning := hcrashed.trans h.running
    have hnone := hconnection.trans (h.connection_of_attempt hstate)
    rw [hnext]
    split
    · exact orderly_retry hrunning hloose hnone
    · split
      · exact orderly_retry hrunning hloose hnone
      · dsimp only
        split
        · exact orderly_newConnection (s := { t with state := .kConnected }) hrunning rfl hloose
            w.handover
        · apply orderly_of_idle
          · exact hrunning
          · exact ConnectorState.noConfusion
          · exact hloose.close
          · exact fun _ => rfl
  · exact h

private theorem Orderly.handleEvent (h : s.Orderly) (revents : BitVec 32) (w : Writable) :
    (s.handleEvent revents w).Orderly := by
  have herror : Orderly
      (if hasBits revents (xpollErr ||| xpollNval) then s.handleError else s) := by
    split
    · exact h.handleError
    · exact h
  rw [Connector.handleEvent]
  split
  · exact herror.handleWrite w
  · exact herror

/-- The kernel reports only the channel of the attempt under way. -/
theorem Orderly.channel_of_watched (h : s.Orderly)
    (hwatched : (s.resources.poller.interest (s.resources.fdOf k)).map Prod.fst =
      some (channelOf k)) : s.channel = some k := by
  have hpresent : ∀ {r : Resources}, r.Basic →
      (r.poller.interest (r.fdOf k)).map Prod.fst = some (channelOf k) →
      (r.poller.objects (channelOf k)).index ≠ .kNew :=
    fun hbasic hk => hbasic.tracks.present_iff.mp (Or.inr hk)
  by_cases hstate : s.state = .kConnecting
  · obtain ⟨j, hchannel, hattempt⟩ := h.attempt hstate
    by_cases hj : k = j
    · rw [hj, hchannel]
    · exact absurd (hattempt.absent k hj) (hpresent hattempt.toBasic hwatched)
  · have hidle := h.idle hstate
    exact absurd (hidle.absent k) (hpresent hidle.toBasic hwatched)

private theorem Orderly.event (h : s.Orderly) (k : Nat) (revents : BitVec 32) (w : Writable) :
    (s.event k revents w).Orderly := by
  rw [Connector.event]
  split
  · next hwatched =>
    rw [if_pos (h.channel_of_watched hwatched)]
    exact h.handleEvent revents w
  · exact h

/-- A functor destroys the channel that an attempt under way relies on. -/
def ResetsAttempt (s : Connector) : ConnectorInput → Prop
  | .runNext _ => s.pending.head? = some .resetChannel ∧ s.state = .kConnecting
  | _ => False

private theorem Orderly.resetChannel (h : s.Orderly) (hstate : s.state ≠ .kConnecting) :
    s.resetChannel.Orderly := by
  have hidle := h.idle hstate
  rw [Connector.resetChannel, resources_destroyChannel hidle.toBasic hidle.absent]
  exact orderly_of_idle h.running hstate hidle h.connected

private theorem Orderly.runNext (h : s.Orderly) (a : Attempt)
    (hok : ¬ s.ResetsAttempt (.runNext a)) :
    (s.runNext a).Orderly := by
  rw [Connector.runNext]
  split
  · next task rest hpending =>
    have hrest := h.queue s.wanted rest
    cases task with
    | startInLoop => exact hrest.startInLoop a
    | stopInLoop => exact hrest.stopInLoop
    | resetChannel =>
      apply hrest.resetChannel
      intro hstate
      exact hok ⟨by rw [hpending, List.head?_cons], hstate⟩
  · exact h

/-- The poller of the loop is changed by others. -/
theorem Orderly.poller (h : s.Orderly) {p : EPollPoller}
    (hp : s.resources.poller.Tracks → p.Tracks)
    (hobjects : ∀ j, p.objects (channelOf j) = s.resources.poller.objects (channelOf j)) :
    Orderly { s with resources := { s.resources with poller := p } } := by
  refine ⟨h.running, fun hstate => ?_, fun hstate => ?_, h.connected⟩
  · obtain ⟨k, hchannel, hattempt⟩ := h.attempt hstate
    exact ⟨k, hchannel, hattempt.poller (hp hattempt.tracks) hobjects⟩
  · have hidle := h.idle hstate
    exact hidle.poller (hp hidle.tracks) hobjects

private theorem Orderly.release (h : s.Orderly) (fd : Nat) :
    Orderly { s with resources := s.resources.release fd } := by
  refine ⟨h.running, fun hstate => ?_, fun hstate => ?_, h.connected⟩
  · obtain ⟨k, hchannel, hattempt⟩ := h.attempt hstate
    exact ⟨k, hchannel, hattempt.release fd⟩
  · exact (h.idle hstate).release fd

/-- Every call keeps the order, except one that resets an attempt. -/
theorem Orderly.step (h : s.Orderly) {i : ConnectorInput} (hok : ¬ s.ResetsAttempt i) :
    (s.step i).Orderly := by
  rw [Connector.step, if_neg (ne_true_of_eq_false h.running)]
  cases i with
  | start inLoopThread a => exact h.start inLoopThread a
  | stop => exact h.queue false _
  | removeConnection again => exact h.removeConnection again
  | event k revents w => exact h.event k revents w
  | runNext a => exact h.runNext a hok
  | other n op =>
    exact h.poller (fun hp => hp.operate _ op)
      fun j => EPollPoller.operate_objects_of_ne (channelOf_ne_odd j n) op
  | release fd => exact h.release fd
  | refuse full => exact h.poller (fun hp => ⟨hp.own, hp.known⟩) fun j => rfl

/-- A reset of the attempt under way leaves its socket with nobody. -/
theorem Orderly.not_resetsAttempt (h : s.Orderly) {i : ConnectorInput}
    (howned : (s.step i).Owned) : ¬ s.ResetsAttempt i := by
  intro hreset
  cases i with
  | runNext a =>
    obtain ⟨hhead, hstate⟩ := hreset
    obtain ⟨k, hchannel, hattempt⟩ := h.attempt hstate
    obtain ⟨rest, hpending⟩ : ∃ rest, s.pending = .resetChannel :: rest :=
      List.head?_eq_some_iff.mp hhead
    have hstep : s.step (.runNext a) =
        { s with pending := rest, channel := none, resources := s.resources.destroy k } := by
      rw [Connector.step, if_neg (ne_true_of_eq_false h.running)]
      simp only [call, Connector.runNext, hpending, perform, Connector.resetChannel,
        destroyChannel, hchannel]
    rw [hstep] at howned
    have hheld := howned.sockets k ⟨s.resources.fdOf k, true, 0, 0⟩
      ((congrArg (·[k]?) (Resources.sockets_destroy s.resources k)).trans hattempt.held)
    rcases hheld with (⟨hclosed, _⟩ | ⟨_, hhanded⟩) | ⟨_, _, _, hsome⟩
    · cases hclosed
    · cases hhanded
    · cases hsome
  | _ => exact hreset

/-- Every socket is accounted for and every channel outlives its registration, all along a
run, exactly when no `resetChannel` of the run finds the connector connecting. -/
theorem sockets_owned_iff (fds : Nat → Nat) (inputs : List ConnectorInput) :
    (∀ before after, inputs = before ++ after → (before.foldl step (new fds)).Owned) ↔
      ∀ t i, Visits step (new fds) inputs t i → ¬ t.ResetsAttempt i :=
  forall_prefix_iff_of_visits (orderly_new fds) (fun _ h => h.owned)
    (fun _ _ h hok => h.step hok) (fun _ _ h howned => h.not_resetsAttempt howned) inputs

/-- A second attempt is started while the channel of the first, which has failed, waits for
its destruction. -/
def startAfterFailure : List ConnectorInput :=
  [.start true ⟨7, eInProgress⟩, .event 0 xpollErr ⟨0, false, .stays⟩,
    .start true ⟨7, eInProgress⟩, .runNext ⟨8, 0⟩]

/-- The functor destroys the channel of the second attempt, which the poller still has, and
nobody closes the socket any more. -/
theorem second_attempt_loses_channel :
    (startAfterFailure.foldl step (new fun c => c)).resources.lost = [1] ∧
      ¬ ∀ before after, startAfterFailure = before ++ after →
        (before.foldl step (new fun c => c)).Owned := by
  have hlost : (startAfterFailure.foldl step (new fun c => c)).resources.lost = [1] := by
    decide
  refine ⟨hlost, fun hall => ?_⟩
  have howned := hall startAfterFailure [] (List.append_nil _).symm
  exact absurd (hlost.symm.trans howned.channels) (List.cons_ne_nil _ _)

end Connector

end ChatRoom.Net
