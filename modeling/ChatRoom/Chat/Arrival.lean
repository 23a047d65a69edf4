import ChatRoom.Core.Chunks
import ChatRoom.Net.OutputStream
import ChatRoom.Chat.Replies

/-!
# What a peer has received

A connection hands the frames of its sessions to the socket in pieces, and a peer cuts what has
arrived into packets. At any time of a run the peer has decoded the first packets of the order in
which the loop took them, each once, and holds a part of the next frame at most.
-/

namespace ChatRoom.Chat

open ChatRoom.Core Net

/-! ## Frames and parts of frames -/

/-- The frame of a packet that a peer accepts. -/
structure FrameOf (host : Endian) (frame : Bytes) (p : Packet) : Prop where
  sent : ∃ stack, send host stack p = some frame
  accepted : (packageSize p.data : Int) ≤ maxPackageSize

variable {host : Endian} {beyond : List Packet → Bytes → Beyond} {frame : Bytes} {p : Packet}

/-- A frame is the length of a package and the package. -/
theorem FrameOf.eq (h : FrameOf host frame p) :
    ∃ stack, frame = host.encode headerSize (package stack p).length ++ package stack p ∧
      ((package stack p).length : Int) ≤ maxPackageSize := by
  obtain ⟨stack, hsend⟩ := h.sent
  obtain ⟨hdata, hfits⟩ := data_lt_of_packageSize h.accepted
  rw [send_eq host stack p hfits] at hsend
  refine ⟨stack, (Option.some.inj hsend).symm, ?_⟩
  rw [length_package stack p (by omega)]
  exact h.accepted

private theorem FrameOf.framePacket (h : FrameOf host frame p) : framePacket frame = some p := by
  obtain ⟨stack, hsend⟩ := h.sent
  exact framePacket_of_send (data_lt_of_packageSize h.accepted).2 hsend

/-- A frame in front of the input is decoded. -/
theorem scan_frameOf (h : FrameOf host frame p) (log : List Packet) (rest : Bytes) :
    scan host (decoding beyond) log (frame ++ rest) =
      scan host (decoding beyond) (log ++ [p]) rest := by
  obtain ⟨stack, rfl, hmax⟩ := h.eq
  obtain ⟨hdata, _⟩ := data_lt_of_packageSize h.accepted
  refine scan_frame host _ _ _ _ rest hmax ?_
  rw [decoding, readPacket_package _ stack p (by omega)]

/-- A header says how long the body is. -/
theorem toInt_originsize_encode (host : Endian) {n : Nat} (h : n < 2 ^ 31) :
    (originsize host (host.encode headerSize n)).toInt = n := by
  rw [originsize, Endian.decode_encode, headerSize, Nat.mod_eq_of_lt (by omega),
    BitVec.toInt_eq_toNat_cond, BitVec.toNat_ofNat, Nat.mod_eq_of_lt (by omega)]
  omega

/-- Less than a frame is left alone. -/
theorem scan_partial {σ : Type} (process : σ → Bytes → σ × Option Bool) (st : σ)
    (h : FrameOf host frame p) {part : Bytes} (hpart : part <+: frame)
    (hlen : part.length < frame.length) : scan host process st part = ⟨st, part, .waiting⟩ := by
  obtain ⟨stack, rfl, hmax⟩ := h.eq
  have hhead : (host.encode headerSize (package stack p).length).length = headerSize :=
    host.length_encode _ _
  rw [List.length_append, hhead] at hlen
  have hfront := scan_front host process st part
  by_cases hshort : part.length < headerSize
  · generalize scan host process st part = r at hfront ⊢
    cases hfront with
    | short => rfl
    | illegal h => omega
    | negativeRaised h => omega
    | negativeWaiting h => omega
    | partialBody h => omega
    | packet n h => omega
  · -- The whole header has arrived, and it announces more than there is.
    have hheader : part.take headerSize = host.encode headerSize (package stack p).length := by
      obtain ⟨more, hmore⟩ := hpart
      rw [← List.take_left' hhead, ← hmore, List.take_append_of_le_length (Nat.le_of_not_lt hshort)]
    have hsize := toInt_originsize_encode host (n := (package stack p).length)
      (by unfold maxPackageSize at hmax; omega)
    rw [← hheader] at hsize
    generalize scan host process st part = r at hfront ⊢
    cases hfront with
    | short => rfl
    | illegal _ h => omega
    | negativeRaised _ h => omega
    | negativeWaiting => rfl
    | partialBody => rfl
    | packet n _ h => omega

/-- Whole frames in front of the input are decoded, one packet each. -/
theorem scan_frames {frames : List Bytes} (h : ∀ f ∈ frames, ∃ p, FrameOf host f p)
    (log : List Packet) (rest : Bytes) :
    ∃ packets, frames.map framePacket = packets.map some ∧
      scan host (decoding beyond) log (frames.flatten ++ rest) =
        scan host (decoding beyond) (log ++ packets) rest := by
  induction frames generalizing log with
  | nil => exact ⟨[], rfl, by rw [List.append_nil, List.flatten_nil, List.nil_append]⟩
  | cons frame frames ih =>
    obtain ⟨p, hp⟩ := h frame (List.mem_cons_self ..)
    obtain ⟨packets, hpackets, hscan⟩ :=
      ih (fun f hf => h f (List.mem_cons_of_mem _ hf)) (log ++ [p])
    refine ⟨p :: packets, ?_, ?_⟩
    · rw [List.map_cons, List.map_cons, hp.framePacket, hpackets]
    · rw [List.flatten_cons, List.append_assoc, scan_frameOf hp, hscan, List.append_assoc,
        List.singleton_append]

variable (beyond) in
/-- The front of a sequence of frames is decoded up to its last whole frame. -/
theorem scan_prefix_flatten {frames : List Bytes} (h : ∀ f ∈ frames, ∃ p, FrameOf host f p)
    {received : Bytes} (hreceived : received <+: frames.flatten) (log : List Packet) :
    ∃ first rest packets unread, frames = first ++ rest ∧ received = first.flatten ++ unread ∧
      (rest = [] ∧ unread = [] ∨
        ∃ f later, rest = f :: later ∧ unread <+: f ∧ unread.length < f.length) ∧
      first.map framePacket = packets.map some ∧
      scan host (decoding beyond) log received = ⟨log ++ packets, unread, .waiting⟩ := by
  obtain ⟨first, rest, unread, rfl, rfl, hend⟩ := exists_split_of_prefix_flatten hreceived
  obtain ⟨packets, hpackets, hscan⟩ :=
    scan_frames (fun f hf => h f (List.mem_append_left _ hf)) log unread
  refine ⟨first, rest, packets, unread, rfl, rfl, hend, hpackets, hscan.trans ?_⟩
  rcases hend with ⟨_, rfl⟩ | ⟨f, later, rfl, hpart, hlen⟩
  · rfl
  · obtain ⟨p, hp⟩ := h f (List.mem_append_right _ (List.mem_cons_self ..))
    exact scan_partial _ _ hp hpart hlen

/-! ## A run -/

/-- What a peer has decoded of `chunks`, the bytes that have come from a connection: the packets
of `arrived`, whole, in order and each once. The messages in `rest` are still on their way, and
of the first of them a part may be here. -/
structure Arrival (host : Endian) (beyond : List Packet → Bytes → Beyond) (t : TcpConnection)
    (chunks : List Bytes) (arrived rest : List (Nat × Bytes)) (packets : List Packet)
    (unread : Bytes) : Prop where
  order : SameByTag (arrived ++ rest) t.accepted
  whole : arrived.map (fun m => framePacket m.2) = packets.map some
  part : rest = [] ∧ unread = [] ∨
    ∃ next later, rest = next :: later ∧ unread <+: next.2 ∧ unread.length < next.2.length
  decoded : (feedChunks host (decoding beyond) [] Buffer.empty chunks).map (fun b => b.content) =
    ⟨packets, unread, .waiting⟩
  complete : chunks.flatten = t.written → t.outputBuffer.content = [] → t.queued = [] → rest = []

/-- The order in which the loop took the messages is an order of delivery. -/
theorem arrival_of_streamExact {t : TcpConnection} (h : t.StreamExact)
    (hframes : ∀ m ∈ t.accepted, ∃ p, FrameOf host m.2 p) {chunks : List Bytes}
    (hchunks : chunks.flatten <+: t.written) :
    ∃ arrived rest packets unread, Arrival host beyond t chunks arrived rest packets unread := by
  obtain ⟨order, hperm, htags, hstream⟩ := h
  have hframes' : ∀ f ∈ order.map Prod.snd, ∃ p, FrameOf host f p := by
    intro f hf
    obtain ⟨m, hm, rfl⟩ := List.mem_map.mp hf
    exact hframes m (hperm.mem_iff.mp hm)
  have hprefix : chunks.flatten <+: (order.map Prod.snd).flatten := by
    rw [← hstream, List.append_assoc]
    exact hchunks.trans (List.prefix_append _ _)
  obtain ⟨first, behind, packets, unread, hsplit, hreceived, hend, hwhole, hscan⟩ :=
    scan_prefix_flatten beyond hframes' hprefix []
  obtain ⟨arrived, rest, rfl, rfl, rfl⟩ := List.map_eq_append_iff.mp hsplit
  have hempty : Buffer.empty.content = [] := Buffer.content_empty
  refine ⟨arrived, rest, packets, unread, htags, ?_, ?_, ?_, ?_⟩
  · rw [← hwhole, List.map_map]
    rfl
  · rcases hend with ⟨hnil, hunread⟩ | ⟨f, later, hcons, hpart, hlen⟩
    · exact Or.inl ⟨List.map_eq_nil_iff.mp hnil, hunread⟩
    · obtain ⟨next, later', rfl, rfl, rfl⟩ := List.map_eq_cons_iff.mp hcons
      exact Or.inr ⟨next, later', rfl, hpart, hlen⟩
  · rw [feedChunks_content host _ chunks [] Buffer.empty (by rw [hempty]; rfl)
      (by rw [hempty, List.nil_append, hscan]), hempty, List.nil_append, hscan, List.nil_append]
  · intro hall hbuffer hqueued
    rcases hend with ⟨hnil, _⟩ | ⟨f, later, hcons, _, hlen⟩
    · exact List.map_eq_nil_iff.mp hnil
    · -- All bytes are here, so the part that is left over is at least a frame.
      rw [hbuffer, hqueued, List.append_nil, List.flatten_nil, List.append_nil, ← hall, hreceived,
        hsplit, List.flatten_append, List.append_cancel_left_eq, hcons,
        List.flatten_cons] at hstream
      have hlength := congrArg List.length hstream
      rw [List.length_append] at hlength
      omega

open TcpConnection in
/-- Frames that any threads send on a connection arrive whole, in order and each once, however
the socket takes them and however what it took is cut up. Nothing is decoded that was not sent,
and once nothing is left behind every message has arrived. -/
theorem packets_arrive_in_order (host : Endian) (beyond : List Packet → Bytes → Beyond)
    (threadId : Nat) (poller : EPollPoller) (channel : Nat)
    (writeCompleteCallback highWaterMarkCallback : Bool) (inputs : List ConnectionInput)
    (hflow : (inputs.foldl connectionStep (new threadId poller channel writeCompleteCallback
      highWaterMarkCallback)).Flowing)
    (hframes : ∀ m ∈ (inputs.foldl connectionStep (new threadId poller channel
      writeCompleteCallback highWaterMarkCallback)).accepted, ∃ p, FrameOf host m.2 p)
    (chunks : List Bytes) (hchunks : chunks.flatten <+: (inputs.foldl connectionStep
      (new threadId poller channel writeCompleteCallback highWaterMarkCallback)).written) :
    ∃ arrived rest packets unread, Arrival host beyond
      (inputs.foldl connectionStep (new threadId poller channel writeCompleteCallback
        highWaterMarkCallback)) chunks arrived rest packets unread := by
  obtain ⟨sent, waiting, hsplit⟩ := foldl_invariant
    (new_accounted threadId poller channel writeCompleteCallback highWaterMarkCallback)
    (fun _ i h => h.step i) inputs hflow
  exact arrival_of_streamExact hsplit.streamExact hframes hchunks

/-- A chat message that another thread has queued follows a heartbeat of the loop. Six of its
bytes are taken with the heartbeat, and a peer has them in two pieces. -/
theorem packets_arrive_after_heartbeat :
    let heartbeat : Bytes := [15, 0, 0, 0, 0, 0, 0, 15, 0, 0, 0, 0, 3, 232, 0, 0, 0, 0, 0]
    let chat : Bytes := [17, 0, 0, 0, 0, 0, 0, 17, 0, 0, 0, 0, 4, 76, 0, 0, 0, 5, 2, 123, 125]
    let inputs : List ConnectionInput :=
      [.establish 0, .call 1 (.send chat (.room 0)), .call 0 (.send heartbeat (.room 10)),
        .swapFunctors, .runNext (.room 5) [],
        .handleEvent xpollOut ⟨.ok [], 0, [], .room 15⟩]
    let t := inputs.foldl connectionStep
      (TcpConnection.new 0 (.new fun _ => Channel.new 3) 7 false false)
    let chunks := [heartbeat.take 3, heartbeat.drop 3 ++ chat.take 6]
    t.written = chunks.flatten ∧ ∃ arrived rest packets unread,
      Arrival .little (fun _ _ => ⟨fun _ => 0, 0⟩) t chunks arrived rest packets unread := by
  intro heartbeat chat inputs t chunks
  have hwritten : t.written = chunks.flatten := by decide +kernel
  have haccepted : t.accepted = [(1, chat), (0, heartbeat)] := by decide +kernel
  have hchat : FrameOf .little chat ⟨1100, 5, [123, 125]⟩ :=
    ⟨⟨fun _ => 0, by decide +kernel⟩, by decide +kernel⟩
  have hheartbeat : FrameOf .little heartbeat ⟨1000, 0, []⟩ :=
    ⟨⟨fun _ => 0, by decide +kernel⟩, by decide +kernel⟩
  refine ⟨hwritten, packets_arrive_in_order .little _ 0 (.new fun _ => Channel.new 3) 7 false false
    inputs ⟨by decide +kernel, by decide +kernel⟩ ?_ chunks (hwritten ▸ List.prefix_rfl)⟩
  intro m hm
  rw [haccepted] at hm
  rcases List.mem_cons.mp hm with rfl | hm
  · exact ⟨_, hchat⟩
  · rcases List.mem_singleton.mp hm with rfl
    exact ⟨_, hheartbeat⟩

end ChatRoom.Chat
