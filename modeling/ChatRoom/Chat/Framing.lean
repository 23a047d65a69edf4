import ChatRoom.Net.ByteBufferSpec
import ChatRoom.Net.ProtocolStream

/-!
# ChatSession::onRead

The loop that cuts the input buffer into packets. Each packet is preceded by
`chat_msg_header`, a signed 32-bit body size in host byte order. `process` is an
argument: it acts on a session state and answers with a boolean, or raises.
`scan` is the same loop on the readable bytes alone, and the two are proved to
agree, so that all later statements are about byte strings.
-/

namespace ChatRoom.Chat

open ChatRoom.Core Net

/-- `sizeof(chat_msg_header)`. -/
def headerSize : Nat := 4

/-- The largest body size a header may announce, `MAX_PACKAGE_SIZE`. -/
def maxPackageSize : Int := 10 * 1024 * 1024

/-- How a call of `onRead` ends: it returns with the connection left open, it
returns after `forceClose`, an exception leaves it, or it is out of fuel. -/
inductive ReadStatus where
  | waiting
  | closed
  | raised
  | spinning
  deriving DecidableEq, Repr

/-- The session state, the unread input and how the call ended. -/
structure ReadResult (σ β : Type) where
  session : σ
  unread : β
  status : ReadStatus
  deriving DecidableEq, Repr

variable {σ β γ : Type}

/-- The same result with what is left unread changed. -/
def ReadResult.map (f : β → γ) (r : ReadResult σ β) : ReadResult σ γ :=
  ⟨r.session, f r.unread, r.status⟩

/-- `header.originsize`, from the four bytes copied over it. -/
def originsize (host : Endian) (header : Bytes) : BitVec 32 :=
  BitVec.ofNat 32 (host.decode header)

/-- `(size_t)originsize`. -/
def bodySize (o : BitVec 32) : Nat := (o.signExtend 64).toNat

/-- `(size_t)originsize + sizeof(chat_msg_header)`, in 64 bits. -/
def frameSize (o : BitVec 32) : Nat := (o.signExtend 64 + 4#64).toNat

/-- The loop of `onRead`, for at most `fuel` packets. -/
def onReadLoop (host : Endian) (process : σ → Bytes → σ × Option Bool) :
    Nat → σ → Buffer → ReadResult σ Buffer
  | 0, st, b => ⟨st, b, .spinning⟩
  | fuel + 1, st, b =>
    if b.readableBytes < headerSize then ⟨st, b, .waiting⟩
    else
      let o := originsize host (b.peek headerSize)
      if maxPackageSize < o.toInt then ⟨st, b, .closed⟩
      else if b.readableBytes < frameSize o then ⟨st, b, .waiting⟩
      else
        let body := b.retrieve headerSize
        if stringMaxSize < bodySize o then ⟨st, body, .raised⟩
        else
          let inbuf := body.peek (bodySize o)
          let rest := body.retrieve (bodySize o)
          match process st inbuf with
          | (st', some true) => onReadLoop host process fuel st' rest
          | (st', some false) => ⟨st', rest, .closed⟩
          | (st', none) => ⟨st', rest, .raised⟩

/-- `ChatSession::onRead`: every packet takes at least its header off the buffer. -/
def onRead (host : Endian) (process : σ → Bytes → σ × Option Bool) (st : σ) (b : Buffer) :
    ReadResult σ Buffer :=
  onReadLoop host process (b.readableBytes + 1) st b

/-- The same loop on a byte string. -/
def scanLoop (host : Endian) (process : σ → Bytes → σ × Option Bool) :
    Nat → σ → Bytes → ReadResult σ Bytes
  | 0, st, bs => ⟨st, bs, .spinning⟩
  | fuel + 1, st, bs =>
    if bs.length < headerSize then ⟨st, bs, .waiting⟩
    else
      let o := originsize host (bs.take headerSize)
      if maxPackageSize < o.toInt then ⟨st, bs, .closed⟩
      else if bs.length < frameSize o then ⟨st, bs, .waiting⟩
      else
        let body := bs.drop headerSize
        if stringMaxSize < bodySize o then ⟨st, body, .raised⟩
        else
          match process st (body.take (bodySize o)) with
          | (st', some true) => scanLoop host process fuel st' (body.drop (bodySize o))
          | (st', some false) => ⟨st', body.drop (bodySize o), .closed⟩
          | (st', none) => ⟨st', body.drop (bodySize o), .raised⟩

/-- The packets of a byte string, cut off its front. -/
def scan (host : Endian) (process : σ → Bytes → σ × Option Bool) (st : σ) (bs : Bytes) :
    ReadResult σ Bytes :=
  scanLoop host process (bs.length + 1) st bs

/-! ## The sizes of a frame -/

/-- A header is either a size that survives both casts, or negative and huge. -/
theorem frameSize_cases (o : BitVec 32) :
    (0 ≤ o.toInt ∧ (bodySize o : Int) = o.toInt ∧ frameSize o = headerSize + bodySize o ∧
      ¬ stringMaxSize < bodySize o) ∨
    (o.toInt < 0 ∧ stringMaxSize < bodySize o) := by
  have hext : (o.signExtend 64).toInt = o.toInt := BitVec.toInt_signExtend_of_le (by decide)
  have hlow := BitVec.le_toInt o
  have hhigh := BitVec.toInt_lt (x := o)
  have hwide := (o.signExtend 64).isLt
  rw [BitVec.toInt_eq_toNat_cond] at hext
  unfold frameSize bodySize stringMaxSize headerSize
  rw [BitVec.toNat_add, BitVec.toNat_ofNat]
  split at hext <;> omega

private theorem frameSize_of_le {o : BitVec 32} (h : ¬ stringMaxSize < bodySize o) :
    frameSize o = headerSize + bodySize o := by
  rcases frameSize_cases o with ⟨_, _, hsize, _⟩ | ⟨_, hbig⟩
  · exact hsize
  · exact absurd hbig h

/-! ## The loop on the buffer is the loop on its readable bytes -/

private theorem onReadLoop_content (host : Endian) (process : σ → Bytes → σ × Option Bool)
    (fuel : Nat)
    (st : σ) (b : Buffer) :
    (onReadLoop host process fuel st b).map (fun b => b.content) =
      scanLoop host process fuel st b.content := by
  induction fuel generalizing st b with
  | zero => rfl
  | succ fuel ih =>
    simp only [onReadLoop, scanLoop, Buffer.length_content]
    by_cases hshort : b.readableBytes < headerSize
    · simp only [if_pos hshort, ReadResult.map]
    · have hhead : headerSize ≤ b.readableBytes := Nat.le_of_not_lt hshort
      have hbody : (b.retrieve headerSize).content = b.content.drop headerSize :=
        Buffer.content_retrieve hhead
      simp only [if_neg hshort, Buffer.peek_eq hhead]
      generalize originsize host (b.content.take headerSize) = o
      by_cases hmax : maxPackageSize < o.toInt
      · simp only [if_pos hmax, ReadResult.map]
      · by_cases hpart : b.readableBytes < frameSize o
        · simp only [if_neg hmax, if_pos hpart, ReadResult.map]
        · by_cases hbig : stringMaxSize < bodySize o
          · simp only [if_neg hmax, if_neg hpart, if_pos hbig, ReadResult.map, hbody]
          · have hfit : bodySize o ≤ (b.retrieve headerSize).readableBytes := by
              rw [← Buffer.length_content, hbody, List.length_drop, Buffer.length_content]
              rw [frameSize_of_le hbig] at hpart
              omega
            simp only [if_neg hmax, if_neg hpart, if_neg hbig, Buffer.peek_eq hfit, hbody]
            have hrest : ((b.retrieve headerSize).retrieve (bodySize o)).content =
                (b.content.drop headerSize).drop (bodySize o) := by
              rw [Buffer.content_retrieve hfit, hbody]
            rcases process st ((b.content.drop headerSize).take (bodySize o)) with
              ⟨st', _ | _ | _⟩
            · simp only [ReadResult.map, hrest]
            · simp only [ReadResult.map, hrest]
            · simp only [ih, hrest]

/-- `onRead` is `scan` of what the buffer holds. -/
theorem onRead_content (host : Endian) (process : σ → Bytes → σ × Option Bool) (st : σ)
    (b : Buffer) :
    (onRead host process st b).map (fun b => b.content) = scan host process st b.content := by
  rw [onRead, onReadLoop_content, scan, Buffer.length_content]

/-- The loop of `onRead` hands out the same packages as the scan of the content. -/
theorem onRead_session (host : Endian) (process : σ → Bytes → σ × Option Bool) (st : σ)
    (b : Buffer) : (onRead host process st b).session = (scan host process st b.content).session :=
  congrArg ReadResult.session (onRead_content host process st b)

/-- The loop of `onRead` leaves the same bytes as the scan of the content. -/
theorem onRead_unread (host : Endian) (process : σ → Bytes → σ × Option Bool) (st : σ)
    (b : Buffer) :
    (onRead host process st b).unread.content = (scan host process st b.content).unread :=
  congrArg ReadResult.unread (onRead_content host process st b)

/-- The loop of `onRead` ends as the scan of the content does. -/
theorem onRead_status (host : Endian) (process : σ → Bytes → σ × Option Bool) (st : σ)
    (b : Buffer) : (onRead host process st b).status = (scan host process st b.content).status :=
  congrArg ReadResult.status (onRead_content host process st b)

/-! ## One packet at a time -/

/-- Fuel beyond the length of the input makes no difference: every turn consumes a header. -/
theorem scanLoop_fuel (host : Endian) (process : σ → Bytes → σ × Option Bool) (fuel : Nat)
    (st : σ) (bs : Bytes) (h : bs.length < fuel) :
    scanLoop host process fuel st bs = scan host process st bs := by
  suffices hgen : ∀ n m st (bs : Bytes), bs.length < n → bs.length < m →
      scanLoop host process n st bs = scanLoop host process m st bs from
    hgen _ _ st bs h (Nat.lt_succ_self _)
  intro n
  induction n with
  | zero => intro m st bs hn; omega
  | succ n ih =>
    intro m st bs hn hm
    obtain ⟨m, rfl⟩ := Nat.exists_eq_succ_of_ne_zero (show m ≠ 0 by omega)
    simp only [scanLoop]
    by_cases hshort : bs.length < headerSize
    · simp only [if_pos hshort]
    · have hlen : ∀ k, ((bs.drop headerSize).drop k).length < bs.length := by
        intro k
        simp only [List.length_drop, headerSize] at hshort ⊢
        omega
      have hnext := fun st' k => ih m st' ((bs.drop headerSize).drop k)
        (by have := hlen k; omega) (by have := hlen k; omega)
      simp only [hnext]

/-- What the front of the input is, and what `scan` does with it. -/
inductive FrontCase (host : Endian) (process : σ → Bytes → σ × Option Bool) (st : σ) (bs : Bytes) :
    ReadResult σ Bytes → Prop where
  /-- Not even a header. -/
  | short (h : bs.length < headerSize) : FrontCase host process st bs ⟨st, bs, .waiting⟩
  /-- A header beyond the limit. -/
  | illegal (h : headerSize ≤ bs.length)
      (hmax : maxPackageSize < (originsize host (bs.take headerSize)).toInt) :
      FrontCase host process st bs ⟨st, bs, .closed⟩
  /-- A negative header that still passes the length test: `append` throws. -/
  | negativeRaised (h : headerSize ≤ bs.length)
      (hneg : (originsize host (bs.take headerSize)).toInt < 0)
      (hlen : frameSize (originsize host (bs.take headerSize)) ≤ bs.length) :
      FrontCase host process st bs ⟨st, bs.drop headerSize, .raised⟩
  /-- A negative header taken for a size no input reaches. -/
  | negativeWaiting (h : headerSize ≤ bs.length)
      (hneg : (originsize host (bs.take headerSize)).toInt < 0)
      (hlen : bs.length < frameSize (originsize host (bs.take headerSize))) :
      FrontCase host process st bs ⟨st, bs, .waiting⟩
  /-- A legal header whose body is not complete. -/
  | partialBody (h : headerSize ≤ bs.length)
      (hnn : 0 ≤ (originsize host (bs.take headerSize)).toInt)
      (hmax : (originsize host (bs.take headerSize)).toInt ≤ maxPackageSize)
      (hlen : (bs.length : Int) < headerSize + (originsize host (bs.take headerSize)).toInt) :
      FrontCase host process st bs ⟨st, bs, .waiting⟩
  /-- A complete packet, handed to `process`. -/
  | packet (n : Nat) (h : headerSize ≤ bs.length)
      (hsize : (originsize host (bs.take headerSize)).toInt = n)
      (hmax : (n : Int) ≤ maxPackageSize) (hlen : headerSize + n ≤ bs.length) :
      FrontCase host process st bs
        (match process st ((bs.drop headerSize).take n) with
        | (st', some true) => scan host process st' ((bs.drop headerSize).drop n)
        | (st', some false) => ⟨st', (bs.drop headerSize).drop n, .closed⟩
        | (st', none) => ⟨st', (bs.drop headerSize).drop n, .raised⟩)

/-- Every input falls under one of the cases. -/
theorem scan_front (host : Endian) (process : σ → Bytes → σ × Option Bool) (st : σ) (bs : Bytes) :
    FrontCase host process st bs (scan host process st bs) := by
  rw [scan, scanLoop]
  by_cases hshort : bs.length < headerSize
  · rw [if_pos hshort]
    exact .short hshort
  have hhead : headerSize ≤ bs.length := Nat.le_of_not_lt hshort
  rw [if_neg hshort]
  by_cases hmax : maxPackageSize < (originsize host (bs.take headerSize)).toInt
  · simp only [if_pos hmax]
    exact .illegal hhead hmax
  have hcases := frameSize_cases (originsize host (bs.take headerSize))
  by_cases hpart : bs.length < frameSize (originsize host (bs.take headerSize))
  · simp only [if_neg hmax, if_pos hpart]
    rcases hcases with ⟨hnn, hbody, hframe, _⟩ | ⟨hneg, _⟩
    · exact .partialBody hhead hnn (by omega) (by omega)
    · exact .negativeWaiting hhead hneg hpart
  · by_cases hbig : stringMaxSize < bodySize (originsize host (bs.take headerSize))
    · simp only [if_neg hmax, if_neg hpart, if_pos hbig]
      rcases hcases with ⟨_, _, _, hfit⟩ | ⟨hneg, _⟩
      · exact absurd hbig hfit
      · exact .negativeRaised hhead hneg (Nat.le_of_not_lt hpart)
    · simp only [if_neg hmax, if_neg hpart, if_neg hbig]
      rcases hcases with ⟨_, hbody, hframe, _⟩ | ⟨_, hbig'⟩
      · have hfuel : ∀ st' k, scanLoop host process bs.length st' ((bs.drop headerSize).drop k) =
            scan host process st' ((bs.drop headerSize).drop k) := by
          intro st' k
          apply scanLoop_fuel
          simp only [List.length_drop, headerSize] at hhead ⊢
          omega
        simp only [hfuel]
        exact .packet _ hhead hbody.symm (by omega) (by omega)
      · exact absurd hbig' hbig

/-- A complete legal packet at the front is handed to `process`. -/
theorem scan_packet (host : Endian) (process : σ → Bytes → σ × Option Bool) (st : σ) {bs : Bytes}
    {n : Nat} (hsize : (originsize host (bs.take headerSize)).toInt = n)
    (hmax : (n : Int) ≤ maxPackageSize) (hlen : headerSize + n ≤ bs.length) :
    scan host process st bs =
      match process st ((bs.drop headerSize).take n) with
      | (st', some true) => scan host process st' ((bs.drop headerSize).drop n)
      | (st', some false) => ⟨st', (bs.drop headerSize).drop n, .closed⟩
      | (st', none) => ⟨st', (bs.drop headerSize).drop n, .raised⟩ := by
  have hfront := scan_front host process st bs
  generalize scan host process st bs = r at hfront ⊢
  cases hfront with
  | short h => omega
  | illegal _ h => omega
  | negativeRaised _ h _ => omega
  | negativeWaiting _ h _ => omega
  | partialBody _ _ _ h => omega
  | packet n' _ hsize' _ _ =>
    obtain rfl : n' = n := by omega
    rfl

private theorem scan_illegal (host : Endian) (process : σ → Bytes → σ × Option Bool) (st : σ)
    {bs : Bytes}
    (h : headerSize ≤ bs.length)
    (hmax : maxPackageSize < (originsize host (bs.take headerSize)).toInt) :
    scan host process st bs = ⟨st, bs, .closed⟩ := by
  rw [scan, scanLoop, if_neg (Nat.not_lt.mpr h)]
  simp only [if_pos hmax]

private theorem scan_negativeRaised (host : Endian) (process : σ → Bytes → σ × Option Bool) (st : σ)
    {bs : Bytes} (h : headerSize ≤ bs.length)
    (hneg : (originsize host (bs.take headerSize)).toInt < 0)
    (hlen : frameSize (originsize host (bs.take headerSize)) ≤ bs.length) :
    scan host process st bs = ⟨st, bs.drop headerSize, .raised⟩ := by
  have hmax : ¬ maxPackageSize < (originsize host (bs.take headerSize)).toInt := by
    unfold maxPackageSize
    omega
  have hbig : stringMaxSize < bodySize (originsize host (bs.take headerSize)) := by
    rcases frameSize_cases (originsize host (bs.take headerSize)) with ⟨hnn, _⟩ | ⟨_, hbig⟩
    · omega
    · exact hbig
  rw [scan, scanLoop, if_neg (Nat.not_lt.mpr h)]
  simp only [if_neg hmax, if_neg (Nat.not_lt.mpr hlen), if_pos hbig]

/-! ## Input that arrives in pieces -/

private theorem take_header_append {a : Bytes} (b : Bytes) (h : headerSize ≤ a.length) :
    (a ++ b).take headerSize = a.take headerSize := List.take_append_of_le_length h

private theorem packet_append {a : Bytes} {n : Nat} (b : Bytes) (h : headerSize + n ≤ a.length) :
    ((a ++ b).drop headerSize).take n = (a.drop headerSize).take n ∧
      ((a ++ b).drop headerSize).drop n = (a.drop headerSize).drop n ++ b := by
  have hdrop : (a ++ b).drop headerSize = a.drop headerSize ++ b :=
    List.drop_append_of_le_length (by omega)
  have hn : n ≤ (a.drop headerSize).length := by rw [List.length_drop]; omega
  rw [hdrop]
  exact ⟨List.take_append_of_le_length hn, List.drop_append_of_le_length hn⟩

/-- A loop that is still waiting resumes where it stopped; one that ended stays ended. -/
theorem scan_append (host : Endian) (process : σ → Bytes → σ × Option Bool) (st : σ)
    (a b : Bytes) :
    let r := scan host process st a
    scan host process st (a ++ b) =
      if r.status = .waiting then scan host process r.session (r.unread ++ b)
      else ⟨r.session, r.unread ++ b, r.status⟩ := by
  induction hk : a.length using Nat.strongRecOn generalizing st a with
  | ind k ih =>
  subst hk
  have hlen : a.length ≤ (a ++ b).length := by rw [List.length_append]; omega
  have hfront := scan_front host process st a
  generalize scan host process st a = r at hfront
  intro r'
  cases hfront with
  | short h => rfl
  | negativeWaiting h hneg hl => rfl
  | partialBody h hnn hmax hl => rfl
  | illegal h hmax =>
    rw [scan_illegal host process st (by omega) (by rw [take_header_append b h]; exact hmax)]
    rfl
  | negativeRaised h hneg hl =>
    have htake := take_header_append b h
    rw [scan_negativeRaised host process st (by omega) (by rw [htake]; exact hneg)
      (by rw [htake]; omega), List.drop_append_of_le_length h]
    rfl
  | packet n h hsize hmax hl =>
    obtain ⟨hbody, hrest⟩ := packet_append b hl
    rw [scan_packet host process st (by rw [take_header_append b h]; exact hsize) hmax (by omega),
      hbody, hrest]
    simp only [r']
    rcases process st ((a.drop headerSize).take n) with ⟨st', _ | _ | _⟩
    · rfl
    · rfl
    · refine ih _ ?_ st' _ rfl
      simp only [List.length_drop, headerSize] at h ⊢
      omega

/-! ## Illegal headers -/

/-- Unread input that `onRead` may leave on an open connection: part of a
header, or a legal header with fewer body bytes than it announces. -/
def FramePrefix (host : Endian) (bs : Bytes) : Prop :=
  bs.length < headerSize ∨
    (0 ≤ (originsize host (bs.take headerSize)).toInt ∧
      (originsize host (bs.take headerSize)).toInt ≤ maxPackageSize ∧
      (bs.length : Int) < headerSize + (originsize host (bs.take headerSize)).toInt)

/-- The call returned, and either closed the connection or left a bounded prefix of a frame. -/
def ReturnsBounded (host : Endian) (r : ReadResult σ Bytes) : Prop :=
  r.status ≠ .raised ∧ r.status ≠ .spinning ∧
    (r.status = .closed ∨
      (FramePrefix host r.unread ∧ (r.unread.length : Int) < headerSize + maxPackageSize))

/-- A `process` that returns a boolean. -/
def returning (process : σ → Bytes → σ × Bool) (st : σ) (body : Bytes) : σ × Option Bool :=
  ((process st body).1, some (process st body).2)

/-- Cutting packets off the input, the loop comes to a header that is negative. -/
inductive MeetsNegativeHeader (host : Endian) (process : σ → Bytes → σ × Bool) :
    σ → Bytes → Prop where
  | here {st : σ} {bs : Bytes} (h : headerSize ≤ bs.length)
      (hneg : (originsize host (bs.take headerSize)).toInt < 0) :
      MeetsNegativeHeader host process st bs
  | later {st : σ} {bs : Bytes} (n : Nat)
      (hsize : (originsize host (bs.take headerSize)).toInt = n)
      (hmax : (n : Int) ≤ maxPackageSize) (hlen : headerSize + n ≤ bs.length)
      (hok : (process st ((bs.drop headerSize).take n)).2 = true)
      (hrest : MeetsNegativeHeader host process (process st ((bs.drop headerSize).take n)).1
        ((bs.drop headerSize).drop n)) :
      MeetsNegativeHeader host process st bs

/-- What waits for more bytes is shorter than a header with the largest package. -/
theorem FramePrefix.bounded {host : Endian} {bs : Bytes} (h : FramePrefix host bs) :
    (bs.length : Int) < headerSize + maxPackageSize := by
  unfold FramePrefix maxPackageSize headerSize at *
  omega

private theorem returnsBounded_closed (host : Endian) (st : σ) (bs : Bytes) :
    ReturnsBounded host ⟨st, bs, .closed⟩ :=
  ⟨nofun, nofun, Or.inl rfl⟩

private theorem returnsBounded_waiting_iff (host : Endian) (st : σ) (bs : Bytes) :
    ReturnsBounded host ⟨st, bs, .waiting⟩ ↔ FramePrefix host bs := by
  constructor
  · rintro ⟨_, _, hclosed | ⟨hstrict, _⟩⟩
    · cases hclosed
    · exact hstrict
  · intro h
    exact ⟨nofun, nofun, Or.inr ⟨h, h.bounded⟩⟩

/-- The bytes cut off by `scan` are accounted for exactly when no negative header is met. -/
theorem scan_returnsBounded_iff (host : Endian) (process : σ → Bytes → σ × Bool) (st : σ)
    (bs : Bytes) :
    ReturnsBounded host (scan host (returning process) st bs) ↔
      ¬ MeetsNegativeHeader host process st bs := by
  induction hn : bs.length using Nat.strongRecOn generalizing st bs with
  | ind k ih =>
  subst hn
  have hfront := scan_front host (returning process) st bs
  generalize scan host (returning process) st bs = r at hfront
  cases hfront with
  | short h =>
    refine iff_of_true ((returnsBounded_waiting_iff host st bs).mpr (Or.inl h)) ?_
    intro hm
    cases hm <;> omega
  | illegal h hmax =>
    refine iff_of_true (returnsBounded_closed host st bs) ?_
    intro hm
    cases hm <;> unfold maxPackageSize at * <;> omega
  | negativeRaised h hlt _ =>
    exact iff_of_false (fun hret => hret.1 rfl) (not_not_intro (.here h hlt))
  | negativeWaiting h hlt _ =>
    refine iff_of_false ?_ (not_not_intro (.here h hlt))
    rw [returnsBounded_waiting_iff, FramePrefix]
    omega
  | partialBody h hnn hmax hlen =>
    refine iff_of_true ((returnsBounded_waiting_iff host st bs).mpr (Or.inr ⟨hnn, hmax, hlen⟩)) ?_
    intro hm
    cases hm <;> omega
  | packet n h hsize hmax hlen =>
    have hmeets : MeetsNegativeHeader host process st bs ↔
        (process st ((bs.drop headerSize).take n)).2 = true ∧
        MeetsNegativeHeader host process (process st ((bs.drop headerSize).take n)).1
          ((bs.drop headerSize).drop n) := by
      constructor
      · intro hm
        cases hm with
        | here _ hlt => omega
        | later n' hsize' _ _ hok hrest =>
          obtain rfl : n' = n := by omega
          exact ⟨hok, hrest⟩
      · rintro ⟨hok, hrest⟩
        exact .later n hsize hmax hlen hok hrest
    rw [hmeets]
    simp only [returning]
    cases hok : (process st ((bs.drop headerSize).take n)).2 with
    | false =>
      refine iff_of_true (returnsBounded_closed host _ _) ?_
      rintro ⟨hfalse, _⟩
      cases hfalse
    | true =>
      simp only [true_and]
      refine ih _ ?_ _ _ rfl
      simp only [List.length_drop, headerSize] at h ⊢
      omega

/-- For every input buffer and every `process` that returns a boolean: `onRead`
returns, and has closed the connection or leaves a strict prefix of one legal
frame, exactly when it meets no negative header. -/
theorem onRead_returns_bounded_iff (host : Endian) (process : σ → Bytes → σ × Bool) (st : σ)
    (b : Buffer) :
    ReturnsBounded host ((onRead host (returning process) st b).map (fun b => b.content)) ↔
      ¬ MeetsNegativeHeader host process st b.content := by
  rw [onRead_content]
  exact scan_returnsBounded_iff host process st b.content

/-- The header `-1` passes the signed limit, wraps the length test to three bytes
and makes `std::string::append` throw. -/
theorem onRead_raises_on_minus_one :
    ¬ ReturnsBounded .little ((onRead .little (returning fun (st : Unit) _ => (st, true)) ()
      (Buffer.empty.append [0xFF, 0xFF, 0xFF, 0xFF])).map (fun b => b.content)) := by
  rw [onRead_content, Buffer.content_append, Buffer.content_empty, List.nil_append]
  intro h
  exact h.1 (by decide)

end ChatRoom.Chat
