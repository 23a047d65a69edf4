import ChatRoom.Chat.Wire

/-!
# Framing does not see how the stream is cut

`feedChunks` ends as one loop over the whole stream ends, so two deliveries of the
same bytes agree. The bodies handed to `process` are part of the session state of a
`process` that records them, and need no argument of their own.
-/

namespace ChatRoom.Chat

open ChatRoom.Core Net

variable {σ : Type}

/-- The same `process`, which also writes down the bodies it is given. -/
def recording (process : σ → Bytes → σ × Option Bool) (st : σ × List Bytes) (body : Bytes) :
    (σ × List Bytes) × Option Bool :=
  (((process st.1 body).1, st.2 ++ [body]), (process st.1 body).2)

/-- What a delivery in chunks leaves behind: the session state, the bodies handed to
`process`, how it ended, and the unread input of a session that is still open. -/
structure Delivery (σ : Type) where
  session : σ
  bodies : List Bytes
  status : ReadStatus
  unread : Option Bytes

/-- Deliver chunks to a fresh input buffer. -/
def deliver (host : Endian) (process : σ → Bytes → σ × Option Bool) (st : σ)
    (chunks : List Bytes) : Delivery σ :=
  let r := feedChunks host (recording process) (st, []) Buffer.empty chunks
  ⟨r.session.1, r.session.2, r.status,
    if r.status = .waiting then some r.unread.content else none⟩

/-- The loop never runs out of fuel: each turn takes a header off the input. -/
theorem scan_not_spinning (host : Endian) (process : σ → Bytes → σ × Option Bool) (st : σ)
    (bs : Bytes) : (scan host process st bs).status ≠ .spinning := by
  induction hk : bs.length using Nat.strongRecOn generalizing st bs with
  | ind k ih =>
  subst hk
  have hfront := scan_front host process st bs
  generalize scan host process st bs = r at hfront
  cases hfront with
  | short h => nofun
  | illegal h hmax => nofun
  | negativeRaised h hneg hl => nofun
  | negativeWaiting h hneg hl => nofun
  | partialBody h hnn hmax hl => nofun
  | packet n h hsize hmax hl =>
    rcases process st ((bs.drop headerSize).take n) with ⟨st', _ | _ | _⟩
    · nofun
    · nofun
    · refine ih _ ?_ st' _ rfl
      simp only [List.length_drop, headerSize] at h ⊢
      omega

/-- A delivery is determined by the bytes delivered. -/
theorem deliver_eq_scan (host : Endian) (process : σ → Bytes → σ × Option Bool) (st : σ)
    (chunks : List Bytes) :
    let w := scan host (recording process) (st, []) chunks.flatten
    deliver host process st chunks =
      ⟨w.session.1, w.session.2, w.status, if w.status = .waiting then some w.unread else none⟩ := by
  have hempty : Buffer.empty.content = [] := Buffer.content_empty
  obtain ⟨hsession, hstatus, hunread⟩ := feedChunks_scan host (recording process) chunks (st, [])
    Buffer.empty (by rw [hempty]; rfl)
  rw [hempty, List.nil_append] at hsession hstatus hunread
  simp only [deliver, hsession, hstatus]
  by_cases hw : (scan host (recording process) (st, []) chunks.flatten).status = .waiting
  · rw [if_pos hw, if_pos hw, hunread hw]
  · rw [if_neg hw, if_neg hw]

/-- Two ways of cutting one stream make the same packets, end the same way and leave the
same input unread; and `onRead` returns or raises on every content of the buffer. -/
theorem framing_ignores_splitting (host : Endian) (process : σ → Bytes → σ × Option Bool) :
    (∀ (st : σ) (chunks chunks' : List Bytes), chunks.flatten = chunks'.flatten →
      deliver host process st chunks = deliver host process st chunks') ∧
    ∀ (st : σ) (b : Buffer), (onRead host process st b).status ≠ .spinning := by
  constructor
  · intro st chunks chunks' hsame
    rw [deliver_eq_scan, deliver_eq_scan, hsame]
  · intro st b
    rw [onRead_status]
    exact scan_not_spinning host process st b.content

/-- A packet of two bytes and half a header, cut inside the first header or not at all. -/
theorem framing_ignores_a_cut_header :
    deliver .little (fun (st : Unit) _ => (st, some true)) () [[2, 0], [0, 0, 7], [8, 1, 0]] =
      deliver .little (fun (st : Unit) _ => (st, some true)) () [[2, 0, 0, 0, 7, 8, 1, 0]] :=
  (framing_ignores_splitting .little fun (st : Unit) _ => (st, some true)).1 ()
    [[2, 0], [0, 0, 7], [8, 1, 0]] [[2, 0, 0, 0, 7, 8, 1, 0]] rfl

end ChatRoom.Chat
