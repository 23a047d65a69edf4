import ChatRoom.Chat.LoginFlag

/-!
# Reading the chat history back

`onChatResponse` pushes the payload of every chat message as it is, and
`onGetMsgsResponse` parses every stored element. So the history is the startup
history followed by the accepted payloads, and a request for it is answered as
long as all of them are JSON texts, there is at least one, and the reply fits the
`int32_t` lengths of `TcpSession::send`.
-/

namespace ChatRoom.Chat

open ChatRoom.Core Net ChatServer

/-- The payload of a chat message that has reached its handler. -/
def SessionEvent.chat? : SessionEvent → Option Bytes
  | .reached _ p => if p.cmd = msgTypeChat then some p.data else none
  | _ => none

/-- The payloads of the chat messages accepted so far, in order. -/
def accepted (log : List SessionEvent) : List Bytes := log.filterMap SessionEvent.chat?

/-! ## What the history holds -/

namespace ChatServer

private theorem Replied.history_eq {srv srv' : ChatServer} (h : srv.Replied srv') :
    srv'.history = srv.history := by
  obtain ⟨_, _, _, rfl⟩ := h
  rfl

private theorem onLoginResponse_history (env : Env) (srv : ChatServer) (self : ChatSession)
    (data : Bytes) : (srv.onLoginResponse env self data).1.history = srv.history :=
  onLoginResponse_keeps (R := fun srv srv' => srv'.history = srv.history) (fun _ => rfl)
    (fun h h' => h'.trans h) (fun srv id p => (srv.sendTo_replied env id p).history_eq)
    (fun _ _ => rfl) (fun _ _ _ => rfl) (fun _ => rfl) srv data

/-- A chat handler that returns has pushed its payload. -/
theorem onChatResponse_history {env : Env} {srv : ChatServer} {self : ChatSession} {data : Bytes}
    (hredis : ∀ k, env.redis k = true) (h : (srv.onChatResponse env self data).2 = true) :
    (srv.onChatResponse env self data).1.history = srv.history ++ [data] := by
  unfold onChatResponse at h ⊢
  dsimp only at h ⊢
  split at h
  · cases h
  · rw [(broadcast_replied env _ _).history_eq]
    simp only [addChatMsgToRedis, hredis, if_true]

private theorem returned_history (id : Nat) (r : ChatServer × Bool) :
    (returned id r).1.history = r.1.history := by
  unfold returned
  split <;> rfl

private theorem conclude_history (r : ChatServer × Option Bool) :
    (conclude r).history = r.1.history := by
  unfold conclude
  split <;> rfl

/-- Only a chat message of a session whose flag is set touches the history. -/
theorem dispatch_history {env : Env} {srv : ChatServer} {self : ChatSession} {p : Packet}
    (h : ¬ (p.cmd = msgTypeChat ∧ self.isLogin = true)) :
    (srv.dispatch env self p).1.history = srv.history := by
  unfold dispatch
  split
  · rw [returned_history, onLoginResponse_history]
  · split
    · next hset =>
      split
      · exact (returned_history _ _).trans (onGetUserListResponse_replied env _ self).history_eq
      · split
        · exact (returned_history _ _).trans (onGetMsgsResponse_replied env _ self).history_eq
        · rw [if_neg fun hcmd => h ⟨hcmd, hset⟩]
    · exact (returned_history _ _).trans (srv.sendTo_replied env _ _).history_eq

/-- A chat message whose handler returns is pushed. -/
theorem dispatch_history_of_chat {env : Env} {srv : ChatServer} {self : ChatSession} {p : Packet}
    (hredis : ∀ k, env.redis k = true) (hcmd : p.cmd = msgTypeChat) (hset : self.isLogin = true)
    (h : (srv.dispatch env self p).2 ≠ none) :
    (srv.dispatch env self p).1.history = srv.history ++ [p.data] := by
  rw [dispatch_chat hcmd hset] at h ⊢
  rw [returned_history]
  refine onChatResponse_history hredis ?_
  cases hret : ((srv.note (.reached self.id p)).onChatResponse env self p.data).2 with
  | true => rfl
  | false =>
    rw [returned, hret, if_neg Bool.false_ne_true] at h
    exact absurd rfl h

end ChatServer

private theorem accepted_append (log ext : List SessionEvent) :
    accepted (log ++ ext) = accepted log ++ accepted ext :=
  List.filterMap_append

private theorem ChatServer.Quiet.accepted_eq {srv srv' : ChatServer} (h : Quiet srv srv') :
    accepted srv'.log = accepted srv.log := by
  obtain ⟨ext, hlog, hext⟩ := h
  have hnone : accepted ext = [] := by
    refine List.filterMap_eq_nil_iff.mpr fun e he => ?_
    cases e with
    | reached session p => exact absurd he (hext session p)
    | invalidated | loggedIn => rfl
  rw [hlog, accepted_append, hnone, List.append_nil]

/-- As long as the server runs, a step pushes exactly the payloads it accepts. -/
theorem serverStep_history {env : Env} {srv : ChatServer} {i : ServerInput}
    (hredis : ∀ k, env.redis k = true) (hlive : (serverStep env srv i).terminated = false) :
    ∃ pushed, (serverStep env srv i).history = srv.history ++ pushed ∧
      accepted (serverStep env srv i).log = accepted srv.log ++ pushed := by
  by_cases hchat : ∃ self p, Handles srv i self p ∧ p.cmd = msgTypeChat ∧ self.isLogin = true
  · obtain ⟨self, p, hhandles, hcmd, hset⟩ := hchat
    have hlog := (@serverStep_reached env _ _ _ _ hhandles (Or.inr (Or.inr hcmd)) hset).1
    refine ⟨[p.data], ?_, ?_⟩
    · rw [serverStep_of_handles hhandles] at hlive ⊢
      have hread : { self with seq := p.seq }.isLogin = true := hset
      have hpushed := dispatch_history_of_chat hredis hcmd hread (not_none_of_conclude hlive)
      rw [conclude_history, hpushed]
      rfl
    · rw [hlog, accepted_append]
      congr 1
      simp only [accepted, SessionEvent.chat?, List.filterMap_cons, List.filterMap_nil, if_pos hcmd]
  · refine ⟨[], ?_, ?_⟩
    · rw [List.append_nil]
      by_cases hhandles : ∃ self p, Handles srv i self p
      · obtain ⟨self, p, hp⟩ := hhandles
        have hread : ¬ (p.cmd = msgTypeChat ∧ { self with seq := p.seq }.isLogin = true) :=
          fun hgate => hchat ⟨self, p, hp, hgate⟩
        rw [serverStep_of_handles hp, conclude_history, dispatch_history hread]
        rfl
      · rcases serverStep_of_not_handles env srv i hhandles with hstep | hstep | ⟨_, hstep⟩ |
          ⟨_, _, hstep⟩ <;> rw [hstep]
        rfl
    · rw [List.append_nil]
      by_cases hreach : ∃ self p, Handles srv i self p ∧ Protected p.cmd ∧ self.isLogin = true
      · obtain ⟨self, p, hhandles, hp, hset⟩ := hreach
        have hcmd : p.cmd ≠ msgTypeChat := fun hcmd => hchat ⟨self, p, hhandles, hcmd, hset⟩
        rw [(serverStep_reached hhandles hp hset).1, accepted_append]
        simp only [accepted, SessionEvent.chat?, List.filterMap_cons, List.filterMap_nil,
          if_neg hcmd, List.append_nil]
      · refine (serverStep_quiet env srv i fun self p hhandles hgate => ?_).1.accepted_eq
        exact hreach ⟨self, p, hhandles, hgate⟩

/-- A server that still runs holds its startup history and then every accepted payload. -/
theorem history_of_live {env : Env} (users : List User) (startup : List Bytes)
    (hredis : ∀ k, env.redis k = true) (inputs : List ServerInput)
    (hlive : (inputs.foldl (serverStep env) (start users startup)).terminated = false) :
    (inputs.foldl (serverStep env) (start users startup)).history =
      startup ++ accepted (inputs.foldl (serverStep env) (start users startup)).log := by
  revert hlive
  refine foldl_invariant (P := fun srv : ChatServer => srv.terminated = false →
    srv.history = startup ++ accepted srv.log) ?_ ?_ inputs
  · intro _
    exact (List.append_nil startup).symm
  · intro srv i ih hlive
    have hbefore : srv.terminated = false := by
      refine Bool.eq_false_iff.mpr fun hended => ?_
      unfold serverStep at hlive
      rw [if_pos hended, hended] at hlive
      cases hlive
    obtain ⟨pushed, hhistory, haccepted⟩ := serverStep_history hredis hlive
    rw [hhistory, haccepted, ih hbefore, List.append_assoc]

/-! ## Reading it back -/

/-- The library prints a value as a text that it parses to the same value. -/
def JsonLib.Prints (json : JsonLib) (j : Json) : Prop :=
  ∃ data, json.dump j = some data ∧ json.parse data = some j

/-- A loop returns what its turns return. -/
theorem mapM_of_map_eq {α β : Type} {f : α → Option β} {l : List α} {vs : List β}
    (h : l.map f = vs.map some) : l.mapM f = some vs := by
  induction l generalizing vs with
  | nil =>
    rw [List.map_nil] at h
    rw [List.map_eq_nil_iff.mp h.symm]
    rfl
  | cons a l ih =>
    cases vs with
    | nil => cases h
    | cons v vs =>
      rw [List.map_cons, List.map_cons, List.cons.injEq] at h
      rw [List.mapM_cons, h.1, ih h.2]
      rfl

/-- The history of a fresh server parses to the rows it was made from. -/
theorem parse_startup {json : JsonLib} {rows : List ChatMsg} {startup : List Bytes}
    (hload : loadMsgFromDbAndStoreInRedis json rows = some startup)
    (hprints : ∀ row ∈ rows, json.Prints row.toJson) :
    startup.map json.parse = (rows.map ChatMsg.toJson).map some := by
  unfold loadMsgFromDbAndStoreInRedis at hload
  induction rows generalizing startup with
  | nil =>
    cases hload
    rfl
  | cons row rows ih =>
    obtain ⟨data, hdump, hparse⟩ := hprints row (List.mem_cons_self ..)
    rw [List.mapM_cons, hdump] at hload
    cases hrest : rows.mapM fun msg => json.dump msg.toJson with
    | none =>
      rw [hrest] at hload
      cases hload
    | some rest =>
      rw [hrest] at hload
      cases hload
      have hlater := ih hrest fun row' hmem => hprints row' (List.mem_cons_of_mem _ hmem)
      rw [List.map_cons, List.map_cons, List.map_cons, hparse, hlater]

/-- The session gets one frame, and its body decodes to a reply with code 0 whose `msgs`
is a text of this array. -/
def ReadBack (env : Env) (srv srv' : ChatServer) (self : ChatSession) (p : Packet)
    (msgs : List Json) : Prop :=
  srv'.terminated = false ∧ ∃ data body, env.json.parse data = some (.array msgs) ∧
    (∀ beyond, readPacket beyond body = some ⟨msgTypeGetMsgs, p.seq, msgsReply data⟩) ∧
      srv'.output = srv.output ++ [(self.id, env.host.encode headerSize body.length ++ body)]

/-- A request for the history is answered with the rows the server has started with and
one element for each accepted chat message, in order. -/
def HistoryAnswered (env : Env) (rows : List ChatMsg) (srv : ChatServer) (i : ServerInput)
    (self : ChatSession) (p : Packet) : Prop :=
  ∃ msgs, (accepted srv.log).map env.json.parse = msgs.map some ∧
    ReadBack env srv (serverStep env srv i) self p (rows.map ChatMsg.toJson ++ msgs)

private theorem onGetMsgsResponse_eq {env : Env} {srv : ChatServer} {self : ChatSession}
    {msgs : List Json}
    {data frame : Bytes} (hredis : env.redis srv.redisCalls = true)
    (hparse : srv.history.mapM env.json.parse = some msgs)
    (hdump : env.json.dump (Json.pushed msgs) = some data)
    (hsend : send env.host (env.stack srv.writers) ⟨msgTypeGetMsgs, self.seq, msgsReply data⟩ =
      some frame) :
    srv.onGetMsgsResponse env self =
      ({ srv with
          redisCalls := srv.redisCalls + 1
          output := srv.output ++ [(self.id, frame)]
          writers := srv.writers + 1 }, true) := by
  simp only [onGetMsgsResponse, loadMsgsFromRedis, hredis, if_true, hparse, hdump]
  exact sendTo_of_send hsend

/-- A history of JSON texts is read back in one reply. -/
theorem serverStep_readBack {env : Env} {srv : ChatServer} {i : ServerInput} {self : ChatSession}
    {p : Packet} {msgs : List Json} (hredis : ∀ k, env.redis k = true)
    (hhandles : Handles srv i self p) (hcmd : p.cmd = msgTypeGetMsgs) (hset : self.isLogin = true)
    (hvalid : srv.history.map env.json.parse = msgs.map some) (hne : msgs ≠ [])
    (hprints : env.json.Prints (.array msgs))
    (hfits : ∀ data, env.json.dump (.array msgs) = some data →
      packageSize (msgsReply data) < 2 ^ 31) :
    ReadBack env srv (serverStep env srv i) self p msgs := by
  obtain ⟨data, hdump, hparse⟩ := hprints
  have hsmall : packageSize (msgsReply data) < 2 ^ 31 := hfits data hdump
  have hdecodes : ∀ beyond, readPacket beyond
      (package (env.stack srv.writers) ⟨msgTypeGetMsgs, p.seq, msgsReply data⟩) =
        some ⟨msgTypeGetMsgs, p.seq, msgsReply data⟩ := fun beyond =>
    readPacket_package beyond _ _ (by unfold packageSize at hsmall; dsimp only; omega)
  have hsend := send_eq env.host (env.stack srv.writers) ⟨msgTypeGetMsgs, p.seq, msgsReply data⟩
    hsmall
  have hread : ((srv.modify self.id fun s => { s with seq := p.seq }).note
      (.reached self.id p)).onGetMsgsResponse env { self with seq := p.seq } = _ :=
    onGetMsgsResponse_eq (hredis _) (mapM_of_map_eq hvalid)
      ((congrArg env.json.dump (pushed_of_ne_nil hne)).trans hdump) hsend
  have hlive : srv.terminated = false := hhandles.1
  have hstep : serverStep env srv i = conclude (returned self.id
      (((srv.modify self.id fun s => { s with seq := p.seq }).note
        (.reached self.id p)).onGetMsgsResponse env { self with seq := p.seq })) := by
    have hflag : { self with seq := p.seq }.isLogin = true := hset
    rw [serverStep_of_handles hhandles, dispatch_getMsgs hcmd hflag]
  rw [hread] at hstep
  rw [hstep]
  exact ⟨hlive, data, _, hparse, hdecodes, rfl⟩

/-- After every run, a request for the history by a session whose flag is set is answered
when every accepted payload is a JSON text, there is something to read, and the reply fits
the `int32_t` lengths of the frame. -/
theorem history_answered_of_valid {env : Env} {users : List User} {rows : List ChatMsg}
    {startup : List Bytes} {inputs : List ServerInput} {i : ServerInput} {self : ChatSession}
    {p : Packet} {msgs : List Json} (hredis : ∀ k, env.redis k = true)
    (hload : loadMsgFromDbAndStoreInRedis env.json rows = some startup)
    (hrows : ∀ row ∈ rows, env.json.Prints row.toJson)
    (hhandles : Handles (inputs.foldl (serverStep env) (start users startup)) i self p)
    (hcmd : p.cmd = msgTypeGetMsgs) (hset : self.isLogin = true)
    (hvalid : (accepted (inputs.foldl (serverStep env) (start users startup)).log).map
      env.json.parse = msgs.map some)
    (hne : rows.map ChatMsg.toJson ++ msgs ≠ [])
    (hprints : env.json.Prints (.array (rows.map ChatMsg.toJson ++ msgs)))
    (hfits : ∀ data, env.json.dump (.array (rows.map ChatMsg.toJson ++ msgs)) = some data →
      packageSize (msgsReply data) < 2 ^ 31) :
    HistoryAnswered env rows (inputs.foldl (serverStep env) (start users startup)) i self p := by
  refine ⟨msgs, hvalid, serverStep_readBack hredis hhandles hcmd hset ?_ hne hprints hfits⟩
  rw [history_of_live users startup hredis inputs hhandles.1, List.map_append, List.map_append,
    parse_startup hload hrows, hvalid]

/-- A row of the message table, its text, and the text of an array of it and a number. -/
def sampleRow : ChatMsg := ⟨7, 1, text "amy", text "hi", text "now"⟩

/-- The text that is stored for a row. -/
def sampleRowText : Bytes :=
  text "\x7b\"msgcontent\":\"hi\",\"msgid\":7,\"senderid\":1," ++
    text "\"senderusername\":\"amy\",\"sendtime_str\":\"now\"\x7d"

/-- The row and one chat message in one array. -/
def sampleArrayText : Bytes := text "[" ++ sampleRowText ++ text ",1]"

/-- An environment whose JSON library knows a login, the row, the number and the array. -/
def historyEnv : Env :=
  { sampleEnv [(text "1", .numberInteger 1), (sampleRowText, sampleRow.toJson),
      (sampleArrayText, .array [sampleRow.toJson, .numberInteger 1]), credentials "amy" "a1"] with
    json.dump := fun
      | .object _ => some sampleRowText
      | .array _ => some sampleArrayText
      | _ => none }

private theorem historyEnv_parse :
    historyEnv.json.parse (text "1") = some (.numberInteger 1) ∧
      historyEnv.json.parse sampleRowText = some sampleRow.toJson ∧
      historyEnv.json.parse sampleArrayText =
        some (.array [sampleRow.toJson, .numberInteger 1]) := by
  have hrow : (sampleRowText == text "1") = false := by decide +kernel
  have harray : (sampleArrayText == text "1") = false := by decide +kernel
  have hother : (sampleArrayText == sampleRowText) = false := by decide +kernel
  simp only [historyEnv, sampleEnv, List.lookup_cons, hrow, harray, hother, beq_self_eq_true,
    and_self]

/-- A login and one chat message, on a server that has started with the row. -/
def chatOnce (data : Bytes) : ChatServer :=
  [.connect, packetOf 1 msgTypeLogin (credentials "amy" "a1").1,
    packetOf 1 msgTypeChat data].foldl (serverStep historyEnv)
      (start [⟨1, text "amy", text "a1"⟩] [sampleRowText])

/-- The row and the chat message `1` are read back. -/
theorem history_answered_after_chat :
    HistoryAnswered historyEnv [sampleRow] (chatOnce (text "1")) (packetOf 1 msgTypeGetMsgs [])
      ⟨1, 1, text "amy", 1, true⟩ ⟨msgTypeGetMsgs, 0, []⟩ := by
  obtain ⟨hnumber, hrow, harray⟩ := historyEnv_parse
  have hhandles : Handles (chatOnce (text "1")) (packetOf 1 msgTypeGetMsgs [])
      ⟨1, 1, text "amy", 1, true⟩ ⟨msgTypeGetMsgs, 0, []⟩ :=
    ⟨by decide +kernel, 1, _, _, rfl, by decide +kernel, readPacket_package _ _ _ (by decide)⟩
  have haccepted : accepted (chatOnce (text "1")).log = [text "1"] := by decide +kernel
  have hvalid : (accepted (chatOnce (text "1")).log).map historyEnv.json.parse =
      [Json.numberInteger 1].map some := by
    rw [haccepted, List.map_singleton, hnumber, List.map_singleton]
  refine history_answered_of_valid (fun _ => rfl) rfl ?_ hhandles rfl rfl hvalid
    (List.cons_ne_nil _ _) ⟨sampleArrayText, rfl, harray⟩ ?_
  · intro row hmem
    rw [List.mem_singleton.mp hmem]
    exact ⟨sampleRowText, rfl, hrow⟩
  · intro data hdump
    cases hdump
    decide +kernel

/-- One chat message that is no JSON text, and the next request for the history ends the server. -/
theorem history_poisoned_by_chat :
    Handles (chatOnce (text "x")) (packetOf 1 msgTypeGetMsgs [])
        ⟨1, 1, text "amy", 1, true⟩ ⟨msgTypeGetMsgs, 0, []⟩ ∧
      (serverStep historyEnv (chatOnce (text "x")) (packetOf 1 msgTypeGetMsgs [])).terminated =
        true ∧
      ¬ HistoryAnswered historyEnv [sampleRow] (chatOnce (text "x")) (packetOf 1 msgTypeGetMsgs [])
        ⟨1, 1, text "amy", 1, true⟩ ⟨msgTypeGetMsgs, 0, []⟩ := by
  have hended : (serverStep historyEnv (chatOnce (text "x"))
      (packetOf 1 msgTypeGetMsgs [])).terminated = true := by
    decide +kernel
  refine ⟨⟨by decide +kernel, 1, _, _, rfl, by decide +kernel,
    readPacket_package _ _ _ (by decide)⟩, hended, ?_⟩
  rintro ⟨msgs, _, hlive, _⟩
  rw [hended] at hlive
  cases hlive

end ChatRoom.Chat
