import ChatRoom.Chat.Kick

/-!
# Who receives a chat message

The comment above the loop of `onChatResponse` says that the message goes to all
current connections, and it does: to every session of the list once, whether it has
logged in or not. That nobody is served twice rests on the numbers of the sessions,
which the server gives out once each and no handler changes.
-/

namespace ChatRoom.Chat

open ChatRoom.Core Net ChatServer

/-- The session has logged in, and nobody has made it invalid since. -/
def Authenticated (log : List SessionEvent) (session : Nat) : Prop :=
  ∃ before after, log = before ++ .loggedIn session :: after ∧
    ∀ by_, SessionEvent.invalidated session by_ ∉ after

/-- What a step has handed to the connections, after what was there before. -/
def sentBy (srv srv' : ChatServer) : List (Nat × Bytes) := srv'.output.drop srv.output.length

/-- Everything a step hands out goes to sessions that are authenticated. -/
def OnlyAuthenticated (srv srv' : ChatServer) : Prop :=
  ∀ e ∈ sentBy srv srv', Authenticated srv.log e.1

/-! ## One chat message -/

private theorem readInt32_data (r : BinaryStreamReader) : r.readInt32.1.data = r.data := by
  unfold BinaryStreamReader.readInt32
  split <;> rfl

private theorem length_readString_le {r : BinaryStreamReader} {data : Bytes}
    (h : (r.readString 0).2 = some data) : data.length ≤ r.data.length := by
  unfold BinaryStreamReader.readString at h
  cases hlen : r.readLengthWithoutOffset with
  | none =>
    rw [hlen] at h
    cases h
  | some lengths =>
    obtain ⟨headlen, fieldlen⟩ := lengths
    simp only [hlen] at h
    rw [if_neg fun hmax => hmax.1 rfl] at h
    split at h
    · cases h
    · cases h
      rw [slice, List.length_drop, List.length_take]
      omega

/-- The payload of a packet is part of its body. -/
theorem length_data_le {beyond : Beyond} {body : Bytes} {p : Packet}
    (h : readPacket beyond body = some p) : p.data.length ≤ body.length := by
  have hcmdData := readInt32_data (BinaryStreamReader.new body beyond)
  unfold readPacket at h
  rcases hcmd : (BinaryStreamReader.new body beyond).readInt32 with ⟨r, _ | cmd⟩
  · simp only [hcmd, reduceCtorEq] at h
  · have hseqData := readInt32_data r
    rcases hseq : r.readInt32 with ⟨r', _ | seq⟩
    · simp only [hcmd, hseq, reduceCtorEq] at h
    · rcases hdata : r'.readString 0 with ⟨r'', _ | data⟩
      · simp only [hcmd, hseq, hdata, reduceCtorEq] at h
      · simp only [hcmd, hseq, hdata, Option.some.injEq] at h hcmdData hseqData
        have hpayload : (r'.readString 0).2 = some data := by rw [hdata]
        have hle := length_readString_le hpayload
        rw [hseqData, hcmdData] at hle
        rw [← h]
        exact hle

/-- The payload of a packet is no longer than the largest package. -/
theorem length_data_of_handles {srv : ChatServer} {session : Nat} {beyond : Beyond} {body : Bytes}
    {self : ChatSession} {p : Packet} (h : Handles srv (.packet session beyond body) self p)
    (hbody : (body.length : Int) ≤ maxPackageSize) : (p.data.length : Int) ≤ maxPackageSize := by
  obtain ⟨_, _, _, _, heq, _, hread⟩ := h
  cases heq
  have hle := length_data_le hread
  omega

/-- A reply to a payload that came in one package fits the lengths of a frame. -/
theorem packageSize_chatReply {data : Bytes} (h : (data.length : Int) ≤ maxPackageSize) :
    packageSize (chatReply data) < 2 ^ 31 := by
  have htext : (text "\x7b\"code\": 0, \"msg\": \"ok\", \"msg\": ").length +
      (text "\x7d").length ≤ 64 := by
    simp only [text_eq rfl]
    decide
  apply packageSize_lt
  simp only [chatReply, List.length_append]
  unfold maxPackageSize at h
  omega

/-- The chat handler hands the frame of its reply to every session of the list. -/
theorem onChatResponse_output (env : Env) (srv : ChatServer) (self : ChatSession) {data : Bytes}
    (h : (data.length : Int) ≤ maxPackageSize) :
    ∃ frame, send env.host (env.stack srv.writers) ⟨msgTypeChat, self.seq, chatReply data⟩ =
        some frame ∧
      (srv.onChatResponse env self data).1.output =
        srv.output ++ srv.sessions.map fun s => (s.id, frame) := by
  have hsize := packageSize_chatReply h
  have hlength : (chatReply data).length < 2 ^ 31 := by unfold packageSize at hsize; omega
  let m : Packet := ⟨msgTypeChat, self.seq, chatReply data⟩
  have hlen : BitVec.ofNat 64 (chatReply data).length =
      (BitVec.ofNat 32 (chatReply data).length).signExtend 64 := by
    apply BitVec.eq_of_toNat_eq
    rw [BitVec.toNat_ofNat, Nat.mod_eq_of_lt (by omega)]
    exact (bodySize_ofNat hlength).symm
  have hpackage := writePackage_eq (env.stack srv.writers) m hlength
  have hfits : (package (env.stack srv.writers) m).length < 2 ^ 31 := by
    rw [length_package _ _ (Nat.lt_trans hlength (by decide))]
    exact hsize
  refine ⟨_, send_eq env.host (env.stack srv.writers) m hsize, ?_⟩
  unfold onChatResponse
  dsimp only
  rw [hlen, hpackage]
  dsimp only
  rw [broadcast, sendPackage_eq env.host hfits]
  rfl

/-- A chat packet that reaches its handler is handed to every session, in the order of the list. -/
theorem serverStep_chat_output (env : Env) {srv : ChatServer} {session : Nat} {beyond : Beyond}
    {body : Bytes} {self : ChatSession} {p : Packet}
    (hhandles : Handles srv (.packet session beyond body) self p) (hcmd : p.cmd = msgTypeChat)
    (hset : self.isLogin = true) (hbody : (body.length : Int) ≤ maxPackageSize) :
    ∃ frame, send env.host (env.stack srv.writers) ⟨msgTypeChat, p.seq, chatReply p.data⟩ =
        some frame ∧
      (serverStep env srv (.packet session beyond body)).output =
        srv.output ++ srv.sessions.map fun s => (s.id, frame) := by
  have hdata := length_data_of_handles hhandles hbody
  have hflag : { self with seq := p.seq }.isLogin = true := hset
  obtain ⟨frame, hframe, houtput⟩ := onChatResponse_output env
    ((srv.modify self.id fun s => { s with seq := p.seq }).note (.reached self.id p))
    { self with seq := p.seq } hdata
  refine ⟨frame, hframe, ?_⟩
  have hreturned : ∀ r : ChatServer × Bool, (conclude (returned self.id r)).output = r.1.output := by
    intro r
    unfold returned
    split <;> rfl
  have hids := (srv.modify_sameIds self.id (f := fun s => { s with seq := p.seq }) fun _ => rfl).1
  have hpairs : ∀ sessions : List ChatSession, (sessions.map fun s => (s.id, frame)) =
      (sessions.map (·.id)).map fun id => (id, frame) := fun sessions => by rw [List.map_map]; rfl
  rw [serverStep_of_handles hhandles, dispatch_chat hcmd hflag, hreturned, houtput, hpairs, hpairs]
  exact congrArg (fun ids => srv.output ++ List.map (fun id => (id, frame)) ids) hids

/-- After every run, a chat packet that reaches its handler is sent exactly once to every
session of the list, logged in or not, and to nobody else. -/
theorem chat_reaches_every_session (env : Env) (users : List User) (history : List Bytes)
    (inputs : List ServerInput) (session : Nat) (beyond : Beyond) (body : Bytes)
    (self : ChatSession) (p : Packet)
    (hhandles : Handles (inputs.foldl (serverStep env) (start users history))
      (.packet session beyond body) self p)
    (hcmd : p.cmd = msgTypeChat) (hset : self.isLogin = true)
    (hbody : (body.length : Int) ≤ maxPackageSize) :
    let srv := inputs.foldl (serverStep env) (start users history)
    let srv' := serverStep env srv (.packet session beyond body)
    ∃ frame, send env.host (env.stack srv.writers) ⟨msgTypeChat, p.seq, chatReply p.data⟩ =
        some frame ∧ srv'.output = srv.output ++ srv.sessions.map (fun s => (s.id, frame)) ∧
      (∀ s ∈ srv.sessions, (sentBy srv srv').count (s.id, frame) = 1) ∧
      ∀ e ∈ sentBy srv srv', ∃ s ∈ srv.sessions, e = (s.id, frame) := by
  intro srv srv'
  obtain ⟨frame, hframe, houtput⟩ := serverStep_chat_output env hhandles hcmd hset hbody
  have hsent : sentBy srv srv' = srv.sessions.map fun s => (s.id, frame) := by
    rw [sentBy, houtput, List.drop_left]
  have hnodup : (srv.sessions.map fun s => (s.id, frame)).Nodup := by
    have hids := (numbered_run env users history inputs).nodup
    apply List.Nodup.of_map Prod.fst
    rwa [List.map_map]
  refine ⟨frame, hframe, houtput, fun s hs => ?_, fun e he => ?_⟩
  · rw [hsent]
    exact List.count_eq_one_of_mem hnodup (List.mem_map.mpr ⟨s, hs, rfl⟩)
  · rw [hsent] at he
    obtain ⟨s, hs, rfl⟩ := List.mem_map.mp he
    exact ⟨s, hs, rfl⟩

/-- Two clients connect, and the first logs in. -/
def oneOfTwoLoggedIn : List ServerInput :=
  [.connect, .connect, packetOf 1 msgTypeLogin (credentials "amy" "a1").1]

/-- The state they are in. -/
def oneOfTwoServer : ChatServer :=
  oneOfTwoLoggedIn.foldl (serverStep (sampleEnv [credentials "amy" "a1"]))
    (start [⟨1, text "amy", text "a1"⟩] [])

private theorem oneOfTwo_handles :
    Handles oneOfTwoServer (packetOf 1 msgTypeChat (text "1")) ⟨1, 1, text "amy", 1, true⟩
      ⟨msgTypeChat, 0, text "1"⟩ :=
  ⟨by decide +kernel, 1, _, _, rfl, by decide +kernel, readPacket_package _ _ _ (by decide +kernel)⟩

/-- The message of the first client is sent once to each of the two. -/
theorem chat_reaches_both_sessions :
    let srv' := serverStep (sampleEnv [credentials "amy" "a1"]) oneOfTwoServer
      (packetOf 1 msgTypeChat (text "1"))
    ∃ frame, ∀ s ∈ oneOfTwoServer.sessions, (sentBy oneOfTwoServer srv').count (s.id, frame) = 1 := by
  intro srv'
  obtain ⟨frame, _, _, hcount, _⟩ := chat_reaches_every_session
    (sampleEnv [credentials "amy" "a1"]) [⟨1, text "amy", text "a1"⟩] [] oneOfTwoLoggedIn 1 _ _ _ _
    oneOfTwo_handles rfl rfl (by decide +kernel)
  exact ⟨frame, hcount⟩

/-- The second client has never logged in, and receives the message. -/
theorem chat_reaches_unauthenticated :
    ¬ OnlyAuthenticated oneOfTwoServer (serverStep (sampleEnv [credentials "amy" "a1"])
      oneOfTwoServer (packetOf 1 msgTypeChat (text "1"))) := by
  intro honly
  obtain ⟨frame, _, houtput⟩ := serverStep_chat_output
    (sampleEnv [credentials "amy" "a1"]) oneOfTwo_handles rfl rfl (by decide +kernel)
  have hids : oneOfTwoServer.sessions.map (·.id) = [1, 2] := by decide +kernel
  obtain ⟨s, hs, hid⟩ := List.mem_map.mp (show 2 ∈ oneOfTwoServer.sessions.map (·.id) by
    rw [hids]; decide)
  have hsent : (2, frame) ∈ sentBy oneOfTwoServer (serverStep (sampleEnv [credentials "amy" "a1"])
      oneOfTwoServer (packetOf 1 msgTypeChat (text "1"))) := by
    rw [sentBy, packetOf, houtput, List.drop_left]
    exact List.mem_map.mpr ⟨s, hs, by rw [hid]⟩
  obtain ⟨before, after, hlog, _⟩ := honly _ hsent
  have hlogged : SessionEvent.loggedIn 2 ∈ oneOfTwoServer.log := by
    rw [hlog]
    exact List.mem_append_right _ (List.mem_cons_self ..)
  exact absurd hlogged (by decide +kernel)

end ChatRoom.Chat
