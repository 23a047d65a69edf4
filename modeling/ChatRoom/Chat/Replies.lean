import ChatRoom.Core.Decimal
import ChatRoom.Chat.Broadcast

/-!
# What a handler delivers

The frames that a step hands to the connections, read back as the packets their
clients decode. A reply whose data is at most a gigabyte long is always sent, and
decodes to what was sent; the replies that carry one name of a packet are that short.
-/

namespace ChatRoom.Chat

open ChatRoom.Core Net ChatServer

/-- The packet that a client decodes from a frame. -/
def framePacket (frame : Bytes) : Option Packet :=
  readPacket ⟨fun _ => 0, 0⟩ (frame.drop headerSize)

/-- The step hands out these packets, in this order, and every frame of it decodes. -/
def Delivers (srv srv' : ChatServer) (ps : List (Nat × Packet)) : Prop :=
  ∃ frames, srv'.output = srv.output ++ frames ∧
    frames.map (fun f => (f.1, framePacket f.2)) = ps.map fun q => (q.1, some q.2)

/-- Nothing has been sent while the output is the same. -/
theorem delivers_nil {srv srv' : ChatServer} (h : srv'.output = srv.output) :
    Delivers srv srv' [] :=
  ⟨[], by rw [h, List.append_nil], rfl⟩

/-- What two steps send comes one after the other. -/
theorem Delivers.trans {a b c : ChatServer} {ps qs : List (Nat × Packet)} (h : Delivers a b ps)
    (h' : Delivers b c qs) : Delivers a c (ps ++ qs) := by
  obtain ⟨frames, houtput, hdecode⟩ := h
  obtain ⟨frames', houtput', hdecode'⟩ := h'
  refine ⟨frames ++ frames', by rw [houtput', houtput, List.append_assoc], ?_⟩
  rw [List.map_append, List.map_append, hdecode, hdecode']

/-- What a step delivers is determined by what it hands out. -/
theorem Delivers.unique {srv srv' : ChatServer} {ps qs : List (Nat × Packet)}
    (h : Delivers srv srv' ps) (h' : Delivers srv srv' qs) : ps = qs := by
  obtain ⟨frames, houtput, hdecode⟩ := h
  obtain ⟨frames', houtput', hdecode'⟩ := h'
  rw [houtput] at houtput'
  rw [← List.append_cancel_left houtput'] at hdecode'
  refine List.map_injective_iff.mpr ?_ (hdecode.symm.trans hdecode')
  intro q q' heq
  simp only [Prod.mk.injEq, Option.some.injEq] at heq
  exact Prod.ext heq.1 heq.2

/-- The frame of a packet that fits decodes to it. -/
theorem framePacket_of_send {host : Endian} {stack : Fin 6 → UInt8} {p : Packet} {frame : Bytes}
    (h : packageSize p.data < 2 ^ 31) (hsend : send host stack p = some frame) :
    framePacket frame = some p := by
  rw [send_eq host stack p h] at hsend
  cases hsend
  have hheader : (host.encode headerSize (package stack p).length).length = headerSize :=
    host.length_encode _ _
  rw [framePacket, List.drop_left' hheader]
  apply readPacket_package
  unfold packageSize at h
  omega

/-- A packet that fits is sent, and its frame decodes to it. -/
theorem sendTo_fits (env : Env) (srv : ChatServer) (id : Nat) {p : Packet}
    (h : packageSize p.data < 2 ^ 31) :
    ∃ frame, framePacket frame = some p ∧ srv.sendTo env id p =
      ({ srv with output := srv.output ++ [(id, frame)], writers := srv.writers + 1 }, true) := by
  have hsend := send_eq env.host (env.stack srv.writers) p h
  exact ⟨_, framePacket_of_send h hsend, sendTo_of_send hsend⟩

/-- The range of an `int32_t`. -/
def InInt32 (n : Int) : Prop := -2 ^ 31 ≤ n ∧ n < 2 ^ 31

end ChatRoom.Chat
