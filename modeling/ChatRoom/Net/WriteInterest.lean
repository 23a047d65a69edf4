import Mathlib.Algebra.Group.Nat.Defs
import ChatRoom.Net.Moves
import ChatRoom.Net.Registration

/-!
# Write interest and unsent data

While a connection is open its channel asks for write events exactly when bytes are
buffered, and what the channel asks for is what the kernel watches. The count of a
write is a 32-bit number, however, so a buffer of a whole multiple of `2 ^ 32` bytes
is written with count zero, and the connection is closed over it.
-/

namespace ChatRoom.Net

open ChatRoom.Core

/-! ## Bits of an event mask -/

private theorem hasBits_or_self (events : BitVec 32) {mask : BitVec 32} (h : mask ≠ 0) :
    hasBits (events ||| mask) mask = true := by
  have heq : (events ||| mask) &&& mask = mask := by
    ext i hi
    simp only [BitVec.getElem_and, BitVec.getElem_or]
    cases events[i] <;> cases mask[i] <;> rfl
  rw [hasBits, heq]
  exact bne_iff_ne.mpr h

private theorem hasBits_clear_self (events mask : BitVec 32) :
    hasBits (events &&& ~~~mask) mask = false := by
  simp [hasBits, BitVec.and_assoc]

/-- Masks without a common bit do not see each other. -/
theorem hasBits_or_of_disjoint (events : BitVec 32) {mask other : BitVec 32}
    (h : other &&& mask = 0#32) : hasBits (events ||| other) mask = hasBits events mask := by
  rw [hasBits, hasBits, BitVec.and_or_distrib_right, h, BitVec.or_zero]

private theorem hasBits_clear_of_disjoint (events : BitVec 32) {mask other : BitVec 32}
    (h : ~~~other &&& mask = mask) : hasBits (events &&& ~~~other) mask = hasBits events mask := by
  rw [hasBits, hasBits, BitVec.and_assoc, h]

private theorem ne_none_of_hasBits {events mask : BitVec 32} (h : hasBits events mask = true) :
    events ≠ Channel.kNoneEvent := by
  intro hnone
  simp [hasBits, hnone, Channel.kNoneEvent] at h

/-- A length is written with count zero when it is a multiple of `2 ^ 32`. -/
theorem writeCount_eq_zero_iff (len : Nat) : writeCount len = 0 ↔ 2 ^ 32 ∣ len := by
  rw [writeCount, ← BitVec.toInt_zero (w := 32), BitVec.toInt_inj, ← BitVec.toNat_inj,
    BitVec.toNat_ofNat, BitVec.toNat_zero, Nat.dvd_iff_mod_eq_zero]

namespace TcpConnection

variable {t t' : TcpConnection}

/-- The events the channel of the connection asks for. -/
def events (t : TcpConnection) : BitVec 32 := (t.poller.objects t.channel).events

private theorem isWriting_eq (t : TcpConnection) :
    t.isWriting = hasBits t.events Channel.kWriteEvent := rfl

/-- The count `handleWrite` passes to `sockets::write`, when it gets that far. -/
def handleWriteCount (t : TcpConnection) : Option Int :=
  if t.isWriting then some (writeCount t.outputBuffer.readableBytes) else none

/-- The event set follows the output buffer, and nothing goes wrong by it: no empty write,
a write event to come for buffered bytes, no `shutdownWrite` before they are gone. -/
structure WriteInterest (t : TcpConnection) : Prop where
  writing_iff : t.isWriting = true ↔ 0 < t.outputBuffer.readableBytes
  count_ne_zero : t.handleWriteCount ≠ some 0
  pending : 0 < t.outputBuffer.readableBytes → ∃ events,
    t.poller.interest (t.poller.objects t.channel).fd = some (t.channel, events) ∧
      hasBits events Channel.kWriteEvent = true
  drained : t.shutdownInLoop = t.note .shutdownWrite → t.outputBuffer.readableBytes = 0

/-- What every state keeps: the write bit and the buffer agree until the connection is
closed, an open connection is registered for reading, a closed one asks for nothing. -/
structure Watched (t : TcpConnection) : Prop where
  writing : t.state ≠ .kDisconnected → (t.isWriting = true ↔ 0 < t.outputBuffer.readableBytes)
  live : t.state = .kConnected ∨ t.state = .kDisconnecting →
    t.poller.Registered t.channel ∧ hasBits t.events Channel.kReadEvent = true
  idle : t.state = .kDisconnected → t.events = Channel.kNoneEvent

/-- Only the channel, the poller, the output buffer and the state matter. -/
theorem Watched.of_eq (h : t.Watched) (hchannel : t'.channel = t.channel)
    (hpoller : t'.poller = t.poller) (houtput : t'.outputBuffer = t.outputBuffer)
    (hstate : t'.state = t.state) : t'.Watched := by
  have hevents : t'.events = t.events := by rw [events, hchannel, hpoller, events]
  constructor
  · rw [hstate, isWriting_eq, hevents, houtput]
    exact h.writing
  · rw [hstate, hevents, hpoller, hchannel]
    exact h.live
  · rw [hstate, hevents]
    exact h.idle

/-- A closed connection asks for nothing. -/
theorem watched_of_closed (hstate : t.state = .kDisconnected)
    (hevents : t.events = Channel.kNoneEvent) : t.Watched where
  writing hopen := absurd hstate hopen
  live hopen := by rcases hopen with h | h <;> rw [hstate] at h <;> cases h
  idle _ := hevents

/-- `disableAll` clears the interest. -/
theorem events_disableAll (t : TcpConnection) :
    (t.setPoller (t.poller.disableAll t.channel).1).events = Channel.kNoneEvent :=
  t.poller.setEvents_updateChannel_events t.channel Channel.kNoneEvent

/-- Writing is asked for until the connection is closed. -/
theorem Watched.open_of_writing (h : t.Watched) (hwriting : t.isWriting = true) :
    t.state ≠ .kDisconnected := by
  intro hclosed
  rw [isWriting_eq] at hwriting
  exact ne_none_of_hasBits hwriting (h.idle hclosed)

/-- An open connection asks for other events, among them still the reads. -/
theorem Watched.update (h : t.Watched) {events : BitVec 32} {output : Buffer}
    (hopen : t.state ≠ .kDisconnected)
    (hread : hasBits events Channel.kReadEvent = hasBits t.events Channel.kReadEvent)
    (hwrite : hasBits events Channel.kWriteEvent = true ↔ 0 < output.readableBytes) :
    ((t.setOutput output).setPoller
      ((t.poller.setEvents t.channel events).updateChannel t.channel).1).Watched := by
  have hevents : ((t.setOutput output).setPoller
      ((t.poller.setEvents t.channel events).updateChannel t.channel).1).events = events :=
    t.poller.setEvents_updateChannel_events t.channel events
  constructor
  · intro _
    rw [isWriting_eq, hevents]
    exact hwrite
  · intro hlive
    obtain ⟨hregistered, hreading⟩ := h.live hlive
    rw [hevents, hread]
    exact ⟨hregistered.update (ne_none_of_hasBits (hread.trans hreading)), hreading⟩
  · intro hclosed
    exact absurd hclosed hopen

/-- What goes into the output buffer of an open connection is waited for. -/
theorem Watched.buffer (h : t.Watched) {rest : Bytes} (hopen : t.state ≠ .kDisconnected)
    (hrest : rest.length ≠ 0) :
    (t.setOutput (t.outputBuffer.append rest)).enableWriting.Watched := by
  have hpos : 0 < (t.outputBuffer.append rest).readableBytes := by
    rw [← Buffer.length_content, Buffer.content_append, List.length_append]
    omega
  cases hwriting : t.isWriting with
  | true =>
    have heq : (t.setOutput (t.outputBuffer.append rest)).enableWriting =
        t.setOutput (t.outputBuffer.append rest) := if_pos hwriting
    rw [heq]
    exact ⟨fun _ => iff_of_true hwriting hpos, h.live, h.idle⟩
  | false =>
    have hidle : (t.setOutput (t.outputBuffer.append rest)).isWriting = false := hwriting
    have heq : (t.setOutput (t.outputBuffer.append rest)).enableWriting =
        (t.setOutput (t.outputBuffer.append rest)).setPoller
          (t.poller.enableWriting t.channel).1 := if_neg (by rw [hidle]; nofun)
    rw [heq]
    exact h.update hopen (hasBits_or_of_disjoint _ (by decide))
      (iff_of_true (hasBits_or_self _ (by decide)) hpos)

/-- Nothing is waited for once the output buffer is empty. -/
theorem Watched.drained (h : t.Watched) {n : Nat} (hwriting : t.isWriting = true)
    (hleft : (t.outputBuffer.retrieve n).readableBytes = 0) :
    ((t.setOutput (t.outputBuffer.retrieve n)).setPoller
      (t.poller.disableWriting t.channel).1).Watched := by
  apply h.update (h.open_of_writing hwriting) (hasBits_clear_of_disjoint _ (by decide))
  refine iff_of_false ?_ (by rw [hleft]; exact Nat.lt_irrefl 0)
  rw [hasBits_clear_self]
  nofun

/-- Success in asking for reads leaves the connection registered. -/
theorem Watched.up (h : t.Watched) (hstate : t.state = .kConnecting)
    (henabled : (t.poller.enableReading t.channel).2 = true) :
    ((t.setState .kConnected).setPoller (t.poller.enableReading t.channel).1).Watched := by
  have hevents : ((t.setState .kConnected).setPoller
      (t.poller.enableReading t.channel).1).events = t.events ||| Channel.kReadEvent :=
    t.poller.setEvents_updateChannel_events t.channel _
  have hreading : hasBits (t.events ||| Channel.kReadEvent) Channel.kReadEvent = true :=
    hasBits_or_self _ (by decide)
  constructor
  · intro _
    rw [isWriting_eq, hevents, hasBits_or_of_disjoint _ (by decide), ← isWriting_eq]
    exact h.writing (by rw [hstate]; nofun)
  · intro _
    rw [hevents]
    refine ⟨EPollPoller.registered_of_updateChannel ?_ henabled, hreading⟩
    rw [EPollPoller.setEvents_objects]
    exact ne_none_of_hasBits hreading
  · intro hclosed
    cases hclosed

/-- Another state of the poller in which the channel asks for the same and stays registered. -/
theorem Watched.setPoller (h : t.Watched) {poller : EPollPoller}
    (hevents : (t.setPoller poller).events = t.events)
    (hkept : hasBits t.events Channel.kReadEvent = true → t.poller.Registered t.channel →
      poller.Registered t.channel) : (t.setPoller poller).Watched := by
  constructor
  · rw [isWriting_eq, hevents]
    exact h.writing
  · intro hlive
    obtain ⟨hregistered, hreading⟩ := h.live hlive
    rw [hevents]
    exact ⟨hkept hreading hregistered, hreading⟩
  · rw [hevents]
    exact h.idle

/-- Removing the channel does nothing to one that still asks for events. -/
theorem Watched.removed (h : t.Watched) :
    (t.setPoller (t.poller.remove t.channel)).Watched := by
  have hkept : hasBits t.events Channel.kReadEvent = true → t.poller.Registered t.channel →
      (t.poller.remove t.channel).Registered t.channel := by
    intro hreading hregistered
    rw [EPollPoller.remove_of_ne (Or.inr (ne_none_of_hasBits hreading))]
    exact hregistered
  exact h.setPoller (t.poller.remove_events t.channel) hkept

private theorem Watched.move (h : t.Watched) (hm : t.Move t') : t'.Watched := by
  cases hm with
  | queue | accept | input | fault | wrote | shutdownWrite => exact h.of_eq rfl rfl rfl rfl
  | disconnecting hstate =>
    have hopen : t.state ≠ .kDisconnected := by
      rcases hstate with hs | hs <;> rw [hs] <;> nofun
    exact ⟨fun _ => h.writing hopen, fun _ => h.live hstate, nofun⟩
  | buffer rest hopen hrest => exact h.buffer hopen hrest
  | drain n hwriting hleft =>
    exact ⟨fun _ => iff_of_true hwriting (Nat.pos_of_ne_zero hleft), h.live, h.idle⟩
  | drained n hwriting hleft => exact (h.drained hwriting hleft).of_eq rfl rfl rfl rfl
  | close | destroyed => exact watched_of_closed rfl t.events_disableAll
  | up hstate henabled => exact (h.up hstate henabled).of_eq rfl rfl rfl rfl
  | refused =>
    apply watched_of_closed (handleClose_state _)
    rw [handleClose, if_neg (by intro heq; cases heq)]
    exact events_disableAll _
  | removed => exact h.removed

/-- Moves and messages keep the write bit and the buffer in agreement. -/
theorem Watched.steps (h : t.Watched) (hs : t.Steps t') : t'.Watched := by
  refine hs.invariant (fun u u' hu hstep => ?_) h
  rcases hstep with hmove | rfl
  · exact hu.move hmove
  · exact hu.of_eq rfl rfl rfl rfl

/-- What other channels do does not touch this one. -/
theorem Watched.operate (h : t.Watched) {c : Nat} (hc : c ≠ t.channel) (op : ChannelOp) :
    (t.setPoller (t.poller.operate c op)).Watched := by
  have hobject := EPollPoller.operate_objects_of_ne (p := t.poller) hc.symm op
  exact h.setPoller (congrArg Channel.events hobject) fun _ hregistered =>
    hregistered.operate hc.symm op

private theorem Watched.methodStep (h : t.Watched) (m : Method) : (methodStep t m).Watched := by
  rcases t.methodStep_cases m with hs | ⟨u, thread, f, hs, heq⟩ | ⟨full, heq⟩ | ⟨c, op, hc, heq⟩
  · exact h.steps hs
  · rw [heq]
    exact (h.steps hs).of_eq rfl rfl rfl rfl
  · rw [heq]
    refine ⟨h.writing, fun hlive => ⟨?_, (h.live hlive).2⟩, h.idle⟩
    have hregistered := (h.live hlive).1
    exact ⟨hregistered.added, hregistered.held, hregistered.watched⟩
  · rw [heq]
    exact h.operate hc op

/-- A connection whose channel is as its constructor left it. -/
theorem watched_new (threadId : Nat) {poller : EPollPoller} {channel fd : Nat}
    (hfresh : poller.objects channel = Channel.new fd)
    (writeCompleteCallback highWaterMarkCallback : Bool) :
    (new threadId poller channel writeCompleteCallback highWaterMarkCallback).Watched where
  writing _ := by
    have hnone : hasBits Channel.kNoneEvent Channel.kWriteEvent = false := by decide
    have hidle : (poller.objects channel).isWriting = false := by rw [hfresh]; exact hnone
    have hempty : ¬ 0 < Buffer.empty.readableBytes := by decide
    exact iff_of_false (Bool.eq_false_iff.mp hidle) hempty
  live hlive := by rcases hlive with h | h <;> cases h
  idle hclosed := by cases hclosed

/-- In an open connection only the count of the write can go wrong. -/
theorem Watched.writeInterest_iff (h : t.Watched)
    (hopen : t.state = .kConnected ∨ t.state = .kDisconnecting) :
    t.WriteInterest ↔
      t.outputBuffer.readableBytes = 0 ∨ ¬ 2 ^ 32 ∣ t.outputBuffer.readableBytes := by
  have hwriting := h.writing (by rcases hopen with hs | hs <;> rw [hs] <;> nofun)
  obtain ⟨hregistered, _⟩ := h.live hopen
  have hcount : t.handleWriteCount ≠ some 0 ↔
      t.outputBuffer.readableBytes = 0 ∨ ¬ 2 ^ 32 ∣ t.outputBuffer.readableBytes := by
    unfold handleWriteCount
    by_cases hw : t.isWriting = true
    · have hpos := hwriting.mp hw
      rw [if_pos hw, ne_eq, Option.some_inj, writeCount_eq_zero_iff]
      exact ⟨Or.inr, fun hor => hor.resolve_left (Nat.pos_iff_ne_zero.mp hpos)⟩
    · rw [if_neg hw]
      exact iff_of_true nofun (Or.inl (by have := mt hwriting.mpr hw; omega))
  refine ⟨fun hinterest => hcount.mp hinterest.count_ne_zero, fun hcond => ?_⟩
  refine ⟨hwriting, hcount.mpr hcond, fun hpos => ?_, fun hshut => ?_⟩
  · exact ⟨_, hregistered.watched, hwriting.mpr hpos⟩
  · by_contra hbuffered
    have hw : t.isWriting = true := hwriting.mpr (Nat.pos_of_ne_zero hbuffered)
    rw [shutdownInLoop, if_pos hw] at hshut
    have hlen := congrArg (fun u : TcpConnection => u.trace.length) hshut
    simp only [note, List.length_append, List.length_singleton] at hlen
    omega

/-! ## A backlog of any length -/

private theorem bufferRest_content (t : TcpConnection) (rest : Bytes) :
    (t.bufferRest rest).outputBuffer.content = t.outputBuffer.content ++ rest := by
  have hmark : (t.queueHighWaterMark rest.length).outputBuffer = t.outputBuffer := by
    simp only [queueHighWaterMark]
    split <;> rfl
  have henable : ∀ u : TcpConnection, u.enableWriting.outputBuffer = u.outputBuffer := by
    intro u
    unfold enableWriting
    split <;> rfl
  unfold bufferRest
  split
  · next hrest => rw [List.length_eq_zero_iff.mp hrest, List.append_nil]
  · rw [henable, ← hmark]
    exact Buffer.content_append ..

private theorem bufferRest_state (t : TcpConnection) (rest : Bytes) :
    (t.bufferRest rest).state = t.state := by
  unfold bufferRest
  split
  · rfl
  · rw [enableWriting_state]
    exact queueHighWaterMark_state t _

/-- A message that cannot be written at once is buffered. -/
theorem sendInLoop_eq_bufferRest (hopen : t.state ≠ .kDisconnected) (message : Bytes) :
    t.sendInLoop message (.error .wouldBlock) = t.bufferRest message := by
  rw [sendInLoop, if_neg hopen]
  split
  · rfl
  · rfl

/-- Messages that find no room pile up in the output buffer. -/
theorem readableBytes_of_blocked (hopen : t.state ≠ .kDisconnected) (messages : List Bytes) :
    let u := (messages.map fun m => Method.sendInLoop m (.error .wouldBlock)).foldl
      ChatRoom.Net.methodStep t
    u.state = t.state ∧ u.outputBuffer.content = t.outputBuffer.content ++ messages.flatten := by
  induction messages generalizing t with
  | nil => exact ⟨rfl, (List.append_nil _).symm⟩
  | cons m rest ih =>
    have hstep : ChatRoom.Net.methodStep t (.sendInLoop m (.error .wouldBlock)) = t.bufferRest m :=
      sendInLoop_eq_bufferRest hopen m
    have hstate := t.bufferRest_state m
    obtain ⟨hrest, hcontent⟩ := ih (t := t.bufferRest m) (by rw [hstate]; exact hopen)
    simp only [List.map_cons, List.foldl_cons, hstep]
    refine ⟨hrest.trans hstate, ?_⟩
    rw [hcontent, bufferRest_content, List.flatten_cons, List.append_assoc]

/-- A write with count zero is taken for a failure. -/
theorem handleWrite_of_count_zero (hcount : t.handleWriteCount = some 0) (n : Nat) :
    t.handleWrite (.room n) = t.handleClose := by
  unfold handleWriteCount at hcount
  split at hcount
  · next hwriting =>
    have hzero : writeCount t.outputBuffer.content.length = 0 := by
      rw [Buffer.length_content]
      exact Option.some.inj hcount
    have hwrite : socketWrite t.outputBuffer.content (.room n) = .ok 0 := by
      simp only [socketWrite, hzero, Int.lt_irrefl, if_false, Int.toNat_zero, Nat.min_zero]
    rw [handleWrite, if_pos hwriting, hwrite]
    rfl
  · cases hcount

/-- A connected peer that takes nothing until `2 ^ 32` bytes wait for it is cut off. -/
theorem closed_over_full_count (hwatched : t.Watched) (hstate : t.state = .kConnected)
    (hempty : t.outputBuffer.content = []) (messages : List Bytes)
    (hlength : messages.flatten.length = 2 ^ 32) :
    let u := (messages.map fun m => Method.sendInLoop m (.error .wouldBlock)).foldl
      ChatRoom.Net.methodStep t
    u.state = .kConnected ∧ u.outputBuffer.readableBytes = 2 ^ 32 ∧ u.handleWriteCount = some 0 ∧
      ¬ u.WriteInterest ∧ (u.handleWrite (.room 65536)).state = .kDisconnected := by
  intro u
  obtain ⟨hsame, hcontent⟩ := readableBytes_of_blocked (t := t) (by rw [hstate]; nofun) messages
  have hconnected : u.state = .kConnected := hsame.trans hstate
  have hlen : u.outputBuffer.readableBytes = 2 ^ 32 := by
    rw [← Buffer.length_content, ← hlength]
    refine congrArg List.length (hcontent.trans ?_)
    rw [hempty, List.nil_append]
  have hreached : u.Watched :=
    foldl_invariant (P := Watched) hwatched (fun _ m hu => hu.methodStep m) _
  have hinterest : ¬ u.WriteInterest := by
    rw [hreached.writeInterest_iff (Or.inl hconnected), hlen]
    exact fun h => h.elim nofun (not_not.mpr (Nat.dvd_refl _))
  have hwriting : u.isWriting = true :=
    (hreached.writing (by rw [hconnected]; nofun)).mpr (by rw [hlen]; exact Nat.two_pow_pos 32)
  have hcount : u.handleWriteCount = some 0 := by
    rw [handleWriteCount, if_pos hwriting, hlen]
    exact congrArg some ((writeCount_eq_zero_iff _).mpr (Nat.dvd_refl _))
  refine ⟨hconnected, hlen, hcount, hinterest, ?_⟩
  rw [handleWrite_of_count_zero hcount]
  exact handleClose_state u

end TcpConnection

open TcpConnection in
/-- In every state an open connection reaches, also in the middle of a method, write
interest tracks unsent data with all that follows from it, exactly when the buffer does
not hold a whole multiple of `2 ^ 32` bytes. -/
theorem write_interest_tracks_iff (threadId : Nat) (poller : EPollPoller) (channel fd : Nat)
    (hfresh : poller.objects channel = Channel.new fd)
    (writeCompleteCallback highWaterMarkCallback : Bool) (methods : List Method)
    (t : TcpConnection)
    (hreached : (methods.foldl methodStep (new threadId poller channel writeCompleteCallback
      highWaterMarkCallback)).Steps t)
    (hopen : t.state = .kConnected ∨ t.state = .kDisconnecting) :
    t.WriteInterest ↔
      t.outputBuffer.readableBytes = 0 ∨ ¬ 2 ^ 32 ∣ t.outputBuffer.readableBytes := by
  have hrun := foldl_invariant (P := Watched)
    (watched_new threadId hfresh writeCompleteCallback highWaterMarkCallback)
    (fun _ m hu => hu.methodStep m) methods
  exact (hrun.steps hreached).writeInterest_iff hopen

open TcpConnection in
/-- A message half written: the rest is buffered and waits for a write event. -/
theorem write_interest_tracks_half_written :
    let t := [Method.connectEstablished, .sendInLoop [1, 2, 3] (.room 1)].foldl methodStep
      (new 0 (.new fun _ => Channel.new 3) 7 false false)
    t.outputBuffer.readableBytes = 2 ∧ t.WriteInterest := by
  intro t
  have hlen : t.outputBuffer.readableBytes = 2 := by decide +kernel
  refine ⟨hlen, (write_interest_tracks_iff 0 (.new fun _ => Channel.new 3) 7 3 rfl false false
    [.connectEstablished, .sendInLoop [1, 2, 3] (.room 1)] t (.refl t)
    (by decide +kernel)).mpr (Or.inr ?_)⟩
  rw [hlen]
  decide

/-- The messages of a peer that takes nothing, `2 ^ 32` bytes in all. -/
def fullBacklog : List Bytes := [[0], List.replicate (2 ^ 32 - 1) 0]

private theorem length_fullBacklog : fullBacklog.flatten.length = 2 ^ 32 := by
  rw [fullBacklog, List.flatten_cons, List.flatten_singleton, List.length_append,
    List.length_replicate, List.length_singleton]
  decide

open TcpConnection in
/-- With `2 ^ 32` bytes buffered the next write has count zero, and an open connection with
unsent data is closed over it. -/
theorem empty_write_of_full_backlog :
    let t := (fullBacklog.map fun m => Method.sendInLoop m (.error .wouldBlock)).foldl methodStep
      (methodStep (new 0 (.new fun _ => Channel.new 3) 7 false false) .connectEstablished)
    t.state = .kConnected ∧ t.outputBuffer.readableBytes = 2 ^ 32 ∧ t.handleWriteCount = some 0 ∧
      ¬ t.WriteInterest ∧ (t.handleWrite (.room 65536)).state = .kDisconnected := by
  have hfresh : (EPollPoller.new fun _ => Channel.new 3).objects 7 = Channel.new 3 := rfl
  have hwatched := watched_new 0 hfresh false false
  exact closed_over_full_count (hwatched.methodStep .connectEstablished) (by decide +kernel)
    (by decide +kernel) fullBacklog length_fullBacklog

end ChatRoom.Net
