import ChatRoom.Net.StreamCodec
import ChatRoom.Chat.Framing

/-!
# Encode and decode of the whole protocol

`TcpSession::send` packs a command, a sequence number and a byte string, and puts
the frame header in front; `ChatSession::process` unpacks the same three values
from the body that `onRead` cuts out. A stream of sent frames, delivered in any
pieces, is decoded to the list that was sent.
-/

namespace ChatRoom.Chat

open ChatRoom.Core Net

/-- The three values a packet carries. -/
structure Packet where
  cmd : BitVec 32
  seq : BitVec 32
  data : Bytes
  deriving DecidableEq, Repr

/-- The string built by a `BinaryStreamWriter` from the three values; `len` is
the length given to `WriteCString`. -/
def writePackage (stack : Fin 6 → UInt8) (cmd seq : BitVec 32) (data : Bytes) (len : BitVec 64) :
    Option Bytes :=
  ((((BinaryStreamWriter.new stack).writeInt32 cmd).writeInt32 seq).writeCString data len).map
    fun w => w.flush.data

/-- `TcpSession::sendPackage`: the bytes handed to the connection. The length is
an `int32_t`; a negative one makes the constructor of `srcbuf` throw. -/
def sendPackage (host : Endian) (p : Bytes) : Option Bytes :=
  let length := BitVec.ofNat 32 p.length
  if stringMaxSize < bodySize length then none
  else some (host.encode headerSize length.toNat ++ p.take (bodySize length))

/-- `TcpSession::send(cmd, seq, data)`; the data length passes through `int32_t`. -/
def send (host : Endian) (stack : Fin 6 → UInt8) (m : Packet) : Option Bytes :=
  (writePackage stack m.cmd m.seq m.data ((BitVec.ofNat 32 m.data.length).signExtend 64)).bind
    (sendPackage host)

/-- The reads at the top of `ChatSession::process`. -/
def readPacket (beyond : Beyond) (body : Bytes) : Option Packet :=
  match (BinaryStreamReader.new body beyond).readInt32 with
  | (_, none) => none
  | (r, some cmd) =>
    match r.readInt32 with
    | (_, none) => none
    | (r, some seq) =>
      match r.readString 0 with
      | (_, none) => none
      | (_, some data) => some ⟨cmd, seq, data⟩

/-- Each chunk is appended to the input buffer and followed by `onRead`, until one ends the session. -/
def feedChunks {σ : Type} (host : Endian) (process : σ → Bytes → σ × Option Bool) :
    σ → Buffer → List Bytes → ReadResult σ Buffer
  | st, b, [] => ⟨st, b, .waiting⟩
  | st, b, chunk :: rest =>
    let r := onRead host process st (b.append chunk)
    if r.status = .waiting then feedChunks host process r.session r.unread rest else r

/-- A `process` that records what it decodes and returns true. -/
def decoding (beyond : List Packet → Bytes → Beyond) (log : List Packet) (body : Bytes) :
    List Packet × Option Bool :=
  match readPacket (beyond log body) body with
  | some p => (log ++ [p], some true)
  | none => (log, some false)

/-- The bytes of the inner header, the two integers, the length and the data. -/
def packageSize (data : Bytes) : Nat :=
  6 + 4 + 4 + (write7BitEncoded (BitVec.ofNat 64 data.length)).length + data.length

/-- The bytes that successive calls of `send` hand to the connection. -/
def sendAll (host : Endian) : List (Packet × (Fin 6 → UInt8)) → Option Bytes
  | [] => some []
  | (m, stack) :: rest =>
    match send host stack m, sendAll host rest with
    | some frame, some frames => some (frame ++ frames)
    | _, _ => none

/-! ## One message -/

/-- The package of a message: the length in network order, two bytes of stack, the values. -/
def package (stack : Fin 6 → UInt8) (m : Packet) : Bytes :=
  beBytes 4 (packageSize m.data) ++ [stack 4, stack 5] ++
    (beBytes 4 m.cmd.toNat ++ (beBytes 4 m.seq.toNat ++
      (Varint.encode m.data.length ++ (m.data ++ []))))

/-- A length is written as the library writes a number. -/
theorem write7BitEncoded_length {n : Nat} (h : n < 2 ^ 64) :
    write7BitEncoded (BitVec.ofNat 64 n) = Varint.encode n := by
  rw [write7BitEncoded_eq (by decide), BitVec.toNat_ofNat, Nat.mod_eq_of_lt h]

/-- The header of a body below 2^31 bytes is read as its length. -/
theorem bodySize_ofNat {n : Nat} (h : n < 2 ^ 31) : bodySize (BitVec.ofNat 32 n) = n := by
  have hn : (BitVec.ofNat 32 n).toInt = n := by
    rw [BitVec.toInt_eq_toNat_cond, BitVec.toNat_ofNat, Nat.mod_eq_of_lt (by omega)]
    omega
  rcases frameSize_cases (BitVec.ofNat 32 n) with ⟨_, hbody, _⟩ | ⟨hneg, _⟩ <;> omega

/-- A package has the size that `packageSize` computes. -/
theorem length_package (stack : Fin 6 → UInt8) (m : Packet) (h : m.data.length < 2 ^ 64) :
    (package stack m).length = packageSize m.data := by
  simp only [package, packageSize, write7BitEncoded_length h, List.length_append, length_beBytes,
    List.length_cons, List.length_nil]
  omega

/-- Data of up to a gigabyte fits the `int32_t` lengths of a frame. -/
theorem packageSize_lt {data : Bytes} (h : data.length ≤ 2 ^ 30) : packageSize data < 2 ^ 31 := by
  have hvarint : (write7BitEncoded (BitVec.ofNat 64 data.length)).length ≤ 5 := by
    rw [write7BitEncoded_length (by omega)]
    exact Varint.length_encode_le (by decide) (by omega)
  unfold packageSize
  omega

/-- A text below 2^31 bytes is written whole, with its length as a `size_t`. -/
theorem writePackage_eq (stack : Fin 6 → UInt8) (m : Packet) (h : m.data.length < 2 ^ 31) :
    writePackage stack m.cmd m.seq m.data ((BitVec.ofNat 32 m.data.length).signExtend 64) =
      some (package stack m) := by
  have hlen : ((BitVec.ofNat 32 m.data.length).signExtend 64).toNat = m.data.length :=
    bodySize_ofNat h
  have hsize := length_package stack m (by omega)
  let tail := [stack 4, stack 5] ++ (beBytes 4 m.cmd.toNat ++ (beBytes 4 m.seq.toNat ++
    (Varint.encode m.data.length ++ (m.data ++ []))))
  have hwritten : List.ofFn stack ++ beBytes 4 m.cmd.toNat ++ beBytes 4 m.seq.toNat ++
      Varint.encode m.data.length ++ m.data =
        [stack 0, stack 1, stack 2, stack 3] ++ tail := by
    rw [show List.ofFn stack = [stack 0, stack 1, stack 2, stack 3] ++ [stack 4, stack 5] from rfl]
    simp only [tail, List.append_assoc, List.append_nil]
  have htotal : ([stack 0, stack 1, stack 2, stack 3] ++ tail).length = packageSize m.data := by
    rw [← hsize]
    simp only [package, tail, List.length_append, length_beBytes, List.length_cons,
      List.length_nil]
    omega
  simp only [writePackage, BinaryStreamWriter.writeCString, BinaryStreamWriter.writeInt32,
    BinaryStreamWriter.new, BinaryStreamWriter.flush, hlen, List.take_length]
  rw [if_neg (by unfold stringMaxSize; omega), Option.map_some, write7BitEncoded_eq (by decide),
    hlen, hwritten, htotal, overwrite_front (length_beBytes 4 _)]
  simp only [package, tail, List.append_assoc]

/-- The body of a package decodes to its message, whatever the inner header holds. -/
theorem readPacket_package (beyond : Beyond) (stack : Fin 6 → UInt8) (m : Packet)
    (h : m.data.length < 2 ^ 32) : readPacket beyond (package stack m) = some m := by
  have hrest : (BinaryStreamReader.new (package stack m) beyond).rest =
      beBytes 4 m.cmd.toNat ++ (beBytes 4 m.seq.toNat ++
        (Varint.encode m.data.length ++ (m.data ++ []))) := by
    apply List.drop_left'
    simp only [List.length_append, length_beBytes, List.length_cons, List.length_nil,
      BinaryStreamReader.new, binaryPacklenLen2, checksumLen]
  obtain ⟨hcmd, hrest⟩ := BinaryStreamReader.readInt32_beBytes hrest
  obtain ⟨hseq, hrest⟩ := BinaryStreamReader.readInt32_beBytes hrest
  have hdata := BinaryStreamReader.readString_encode hrest h
  simp only [readPacket, hcmd, hseq, hdata]

/-- A frame is the length of the package and the package. -/
theorem sendPackage_eq (host : Endian) {p : Bytes} (h : p.length < 2 ^ 31) :
    sendPackage host p = some (host.encode headerSize p.length ++ p) := by
  have hbody := bodySize_ofNat h
  rw [sendPackage]
  simp only [hbody, BitVec.toNat_ofNat, Nat.mod_eq_of_lt (show p.length < 2 ^ 32 by omega),
    List.take_length]
  rw [if_neg (by unfold stringMaxSize; omega)]

/-- A package within the limit is far from the ends of the types. -/
theorem data_lt_of_packageSize {data : Bytes} (h : (packageSize data : Int) ≤ maxPackageSize) :
    data.length < 2 ^ 31 ∧ packageSize data < 2 ^ 31 := by
  unfold packageSize maxPackageSize at *
  omega

/-- A message whose package length fits `int32_t` is sent as one frame. -/
theorem send_eq (host : Endian) (stack : Fin 6 → UInt8) (m : Packet)
    (h : packageSize m.data < 2 ^ 31) :
    send host stack m =
      some (host.encode headerSize (package stack m).length ++ package stack m) := by
  have hdata : m.data.length < 2 ^ 31 := by unfold packageSize at h; omega
  rw [send, writePackage_eq stack m hdata, Option.bind_some]
  exact sendPackage_eq host (by rw [length_package stack m (by omega)]; exact h)

/-! ## Many messages, in pieces -/

/-- A frame at the front of the input is cut off and handed to `process`. -/
theorem scan_front_frame {σ : Type} (host : Endian) (process : σ → Bytes → σ × Option Bool) (st : σ)
    (p rest : Bytes) (hmax : (p.length : Int) ≤ maxPackageSize) :
    scan host process st (host.encode headerSize p.length ++ p ++ rest) =
      match process st p with
      | (st', some true) => scan host process st' rest
      | (st', some false) => ⟨st', rest, .closed⟩
      | (st', none) => ⟨st', rest, .raised⟩ := by
  have hsmall : p.length < 2 ^ 31 := by unfold maxPackageSize at hmax; omega
  have hhead : (host.encode headerSize p.length).length = headerSize := host.length_encode _ _
  have htake : (host.encode headerSize p.length ++ p ++ rest).take headerSize =
      host.encode headerSize p.length := by
    rw [List.append_assoc, List.take_left' hhead]
  have hdrop : (host.encode headerSize p.length ++ p ++ rest).drop headerSize = p ++ rest := by
    rw [List.append_assoc, List.drop_left' hhead]
  have hsize : (originsize host (host.encode headerSize p.length)).toInt = p.length := by
    rw [originsize, Endian.decode_encode, headerSize, Nat.mod_eq_of_lt (by omega),
      BitVec.toInt_eq_toNat_cond, BitVec.toNat_ofNat, Nat.mod_eq_of_lt (by omega)]
    omega
  have hscan := scan_packet host process st (by rw [htake]; exact hsize) hmax
    (by simp only [List.length_append, hhead]; omega)
  rw [hdrop, List.take_left, List.drop_left] at hscan
  apply hscan.trans
  rcases process st p with ⟨st', _ | _ | _⟩ <;> rfl

/-- A whole frame whose packet is accepted is taken, and the scan goes on behind it. -/
theorem scan_frame {σ : Type} (host : Endian) (process : σ → Bytes → σ × Option Bool) (st st' : σ)
    (p rest : Bytes) (hmax : (p.length : Int) ≤ maxPackageSize)
    (hok : process st p = (st', some true)) :
    scan host process st (host.encode headerSize p.length ++ p ++ rest) =
      scan host process st' rest := by
  rw [scan_front_frame host process st p rest hmax, hok]

/-- Frames sent one after another are decoded one after another. -/
theorem scan_sendAll (host : Endian) (beyond : List Packet → Bytes → Beyond)
    (sent : List (Packet × (Fin 6 → UInt8)))
    (hsize : ∀ m ∈ sent, (packageSize m.1.data : Int) ≤ maxPackageSize) (log : List Packet) :
    ∃ stream, sendAll host sent = some stream ∧
      scan host (decoding beyond) log stream = ⟨log ++ sent.map Prod.fst, [], .waiting⟩ := by
  induction sent generalizing log with
  | nil => exact ⟨[], rfl, by rw [List.map_nil, List.append_nil]; rfl⟩
  | cons head tail ih =>
    obtain ⟨m, stack⟩ := head
    have hm : (packageSize m.data : Int) ≤ maxPackageSize :=
      hsize (m, stack) (List.mem_cons_self ..)
    obtain ⟨hdata, hfits⟩ := data_lt_of_packageSize hm
    obtain ⟨stream, hstream, hscan⟩ :=
      ih (fun x hx => hsize x (List.mem_cons_of_mem _ hx)) (log ++ [m])
    refine ⟨_, by rw [sendAll, send_eq host stack m hfits, hstream], ?_⟩
    have hok : decoding beyond log (package stack m) = (log ++ [m], some true) := by
      rw [decoding, readPacket_package _ stack m (by omega)]
    rw [scan_frame host _ _ _ _ _ (by rw [length_package stack m (by omega)]; exact hm) hok, hscan,
      List.map_cons, List.append_assoc, List.singleton_append]

/-- Delivering input in chunks ends as the loop on the whole ends, and leaves the same
input unread if the loop is still waiting. -/
theorem feedChunks_scan {σ : Type} (host : Endian) (process : σ → Bytes → σ × Option Bool)
    (chunks : List Bytes) (st : σ) (b : Buffer)
    (hstable : scan host process st b.content = ⟨st, b.content, .waiting⟩) :
    (feedChunks host process st b chunks).session =
        (scan host process st (b.content ++ chunks.flatten)).session ∧
      (feedChunks host process st b chunks).status =
        (scan host process st (b.content ++ chunks.flatten)).status ∧
      ((scan host process st (b.content ++ chunks.flatten)).status = .waiting →
        (feedChunks host process st b chunks).unread.content =
          (scan host process st (b.content ++ chunks.flatten)).unread) := by
  induction chunks generalizing st b with
  | nil =>
    rw [List.flatten_nil, List.append_nil, hstable]
    exact ⟨rfl, rfl, fun _ => rfl⟩
  | cons chunk rest ih =>
    have hcontent : (b.append chunk).content = b.content ++ chunk := Buffer.content_append b chunk
    have hunread := onRead_unread host process st (b.append chunk)
    have hsession := onRead_session host process st (b.append chunk)
    have hstatus := onRead_status host process st (b.append chunk)
    have hresume := scan_append host process st (b.content ++ chunk) rest.flatten
    have hidle := scan_append host process st (b.content ++ chunk) []
    rw [hcontent] at hunread hsession hstatus
    rw [List.flatten_cons, ← List.append_assoc, feedChunks]
    simp only [List.append_nil] at hresume hidle
    rw [hresume]
    simp only [hstatus]
    by_cases hw : (scan host process st (b.content ++ chunk)).status = .waiting
    · simp only [if_pos hw] at hidle ⊢
      rw [← hsession, ← hunread] at hidle ⊢
      refine ih _ _ ?_
      rw [← hidle]
      have hall := onRead_content host process st (b.append chunk)
      rw [hcontent] at hall
      rw [← hall, ReadResult.map, hstatus, hw]
    · simp only [if_neg hw]
      exact ⟨hsession, hstatus, fun h => absurd h hw⟩

/-- As long as the loop is left waiting, the chunks give what it makes of the whole. -/
theorem feedChunks_content {σ : Type} (host : Endian) (process : σ → Bytes → σ × Option Bool)
    (chunks : List Bytes) (st : σ) (b : Buffer)
    (hstable : scan host process st b.content = ⟨st, b.content, .waiting⟩)
    (hwhole : (scan host process st (b.content ++ chunks.flatten)).status = .waiting) :
    (feedChunks host process st b chunks).map (fun b => b.content) =
      scan host process st (b.content ++ chunks.flatten) := by
  obtain ⟨hsession, hstatus, hunread⟩ := feedChunks_scan host process chunks st b hstable
  rw [ReadResult.map, hsession, hstatus, hunread hwhole]

/-- The whole protocol round trip: what `send` hands to the connection for a
list of messages, fed to a session in any pieces, is decoded to that list, in
order and each once, and leaves nothing unread. -/
theorem wire_round_trip (host : Endian) (beyond : List Packet → Bytes → Beyond)
    (sent : List (Packet × (Fin 6 → UInt8)))
    (hsize : ∀ m ∈ sent, (packageSize m.1.data : Int) ≤ maxPackageSize) :
    ∃ stream, sendAll host sent = some stream ∧
      ∀ chunks : List Bytes, (∀ c ∈ chunks, c ≠ []) → chunks.flatten = stream →
        (feedChunks host (decoding beyond) [] Buffer.empty chunks).map (fun b => b.content) =
          ⟨sent.map Prod.fst, [], .waiting⟩ := by
  obtain ⟨stream, hstream, hscan⟩ := scan_sendAll host beyond sent hsize []
  rw [List.nil_append] at hscan
  refine ⟨stream, hstream, ?_⟩
  intro chunks _ hflat
  have hempty : Buffer.empty.content = [] := Buffer.content_empty
  rw [feedChunks_content host _ chunks [] Buffer.empty (by rw [hempty]; rfl)
    (by rw [hempty, List.nil_append, hflat, hscan]), hempty, List.nil_append, hflat, hscan]

/-- A login and a chat message, each written over other stack contents. -/
theorem wire_round_trip_two_messages :
    ∃ stream, sendAll .little
        [(⟨1002, 1, [123, 125]⟩, fun _ => 0), (⟨1100, -1, [34, 0, 34]⟩, fun i => i.val.toUInt8)] =
          some stream ∧
      ∀ chunks : List Bytes, (∀ c ∈ chunks, c ≠ []) → chunks.flatten = stream →
        (feedChunks .little (decoding fun _ _ => ⟨fun _ => 0, 0⟩) [] Buffer.empty chunks).map
            (fun b => b.content) =
          ⟨[⟨1002, 1, [123, 125]⟩, ⟨1100, -1, [34, 0, 34]⟩], [], .waiting⟩ :=
  wire_round_trip .little (fun _ _ => ⟨fun _ => 0, 0⟩)
    [(⟨1002, 1, [123, 125]⟩, fun _ => 0), (⟨1100, -1, [34, 0, 34]⟩, fun i => i.val.toUInt8)]
    (by
      intro m hm
      rcases List.mem_cons.mp hm with rfl | hm
      · decide
      · rcases List.mem_singleton.mp hm with rfl
        decide)

end ChatRoom.Chat
