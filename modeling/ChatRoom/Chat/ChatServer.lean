import ChatRoom.Core.Decimal
import ChatRoom.Chat.Wire

/-!
# ChatServer and ChatSession

The sessions of the server, the users and history they share, and the handlers of
`ChatSession::process`. A handler acts on the whole server, since a login reaches
into other sessions and a chat message into all of them. The JSON library, the
uninitialised stack of each packet writer and the answers of Redis are given by
the environment. An exception that leaves a handler leaves the event loop as well
and ends the process.
-/

namespace ChatRoom.Chat

open ChatRoom.Core Net

/-- The bytes of a literal, from its characters. -/
theorem text_eq {s : String} {cs : List Char} (h : s = String.ofList cs) :
    text s = cs.flatMap String.utf8EncodeChar := by
  rw [h]
  exact Decimal.utf8_ofList cs

/-- JSON values, up to the equality of `nlohmann::json`: signed and unsigned integers are one kind. -/
inductive Json where
  | null
  | boolean (b : Bool)
  | numberInteger (n : Int)
  | numberFloat (bits : BitVec 64)
  | string (s : Bytes)
  | array (elements : List Json)
  | object (members : List (Bytes × Json))

/-- `json::parse` and `dump`; both may throw. -/
structure JsonLib where
  parse : Bytes → Option Json
  dump : Json → Option Bytes

/-- A default-constructed value after `push_back` of each element: still null without any. -/
def Json.pushed : List Json → Json
  | [] => .null
  | elements => .array elements

/-- `push_back` makes an array of anything but no values. -/
theorem pushed_of_ne_nil {msgs : List Json} (h : msgs ≠ []) : Json.pushed msgs = .array msgs := by
  cases msgs with
  | nil => exact absurd rfl h
  | cons => rfl

/-- `string s = j[key]`: throws unless `j` is an object that holds a string there. -/
def Json.stringAt (key : Bytes) : Json → Option Bytes
  | .object members =>
    match members.lookup key with
    | some (.string s) => some s
    | _ => none
  | _ => none

/-- `msg_type_login`. -/
def msgTypeLogin : BitVec 32 := 1002
/-- `msg_type_getuserlist`. -/
def msgTypeGetuserlist : BitVec 32 := 1003
/-- `msg_type_getMsgs`. -/
def msgTypeGetMsgs : BitVec 32 := 1004
/-- `msg_type_chat`. -/
def msgTypeChat : BitVec 32 := 1100
/-- `msg_type_kickuser`. -/
def msgTypeKickuser : BitVec 32 := 1102

/-- The columns of a user that the handlers read. -/
structure User where
  userid : Int
  username : Bytes
  password : Bytes
  deriving DecidableEq, Repr

/-- A row of the message table. -/
structure ChatMsg where
  msgid : Int
  senderid : Int
  senderusername : Bytes
  msgcontent : Bytes
  sendtimeStr : Bytes
  deriving DecidableEq, Repr

/-- The object that is stored for a row; `std::map` sorts its keys. -/
def ChatMsg.toJson (msg : ChatMsg) : Json :=
  .object [(text "msgcontent", .string msg.msgcontent), (text "msgid", .numberInteger msg.msgid),
    (text "senderid", .numberInteger msg.senderid),
    (text "senderusername", .string msg.senderusername),
    (text "sendtime_str", .string msg.sendtimeStr)]

/-- `MsgCacheManager::loadMsgFromDbAndStoreInRedis`: the history a server starts with. -/
def loadMsgFromDbAndStoreInRedis (json : JsonLib) (rows : List ChatMsg) : Option (List Bytes) :=
  rows.mapM fun msg => json.dump msg.toJson

/-- The fields of a session that its handlers use. -/
structure ChatSession where
  id : Nat
  userid : Int
  username : Bytes
  seq : BitVec 32
  isLogin : Bool
  deriving DecidableEq, Repr

/-- A session as its constructor leaves it. -/
def ChatSession.new (id : Nat) : ChatSession := ⟨id, 0, [], 0, false⟩

/-- What happens to a session: a packet reaches the handler of its command, another
session or itself makes it invalid, or it logs in. -/
inductive SessionEvent where
  | reached (session : Nat) (p : Packet)
  | invalidated (session by_ : Nat)
  | loggedIn (session : Nat)
  deriving DecidableEq, Repr

/-- The state that all sessions share, and a record of what the handlers have done. -/
structure ChatServer where
  users : List User
  history : List Bytes
  sessions : List ChatSession
  sessionId : Nat
  /-- The frames handed to the connection of each session. -/
  output : List (Nat × Bytes)
  /-- How many packet writers have been built, and how often Redis has been called. -/
  writers : Nat
  redisCalls : Nat
  log : List SessionEvent
  /-- An exception has left the event loop. -/
  terminated : Bool
  deriving DecidableEq, Repr

/-- The byte order, the JSON library, the stack under each packet writer, and which
calls Redis answers. -/
structure Env where
  host : Endian
  json : JsonLib
  stack : Nat → Fin 6 → UInt8
  redis : Nat → Bool

/-- `UserManager::getUserInfoByUsername` on a user whose id is zero and whose strings are empty. -/
def getUserInfoByUsername (users : List User) (username : Bytes) : User :=
  (users.find? fun u => u.username = username).getD ⟨0, [], []⟩

/-- `getSessionByUserId`: the first session with the number. -/
def getSessionByUserId (sessions : List ChatSession) (userid : Int) : Option ChatSession :=
  sessions.find? fun s => s.userid = userid

/-- The user name and the password of a login request. -/
def loginRequest (json : JsonLib) (data : Bytes) : Option (Bytes × Bytes) :=
  match json.parse data with
  | none => none
  | some j =>
    match j.stringAt (text "username"), j.stringAt (text "password") with
    | some username, some password => some (username, password)
    | _, _ => none

/-- The answer to a request of a session that is not logged in. -/
def notLogin : Bytes := text "\x7b\"code\": 2, \"msg\": \"not login, please login first!\"\x7d"

/-- The answer to a wrong password. -/
def incorrectPassword : Bytes := text "\x7b\"code\": 1, \"msg\": \"incorrect password\"\x7d"

/-- The answer to an accepted login; the name is put in as it is. -/
def loginOk (userid : Int) (username : Bytes) : Bytes :=
  text "\x7b\"code\": 0, \"msg\": \"ok\", \"userid\": " ++ text (toString userid) ++
    text ",\"username\":\"" ++ username ++ text "\"\x7d"

/-- The answer with the list of users. -/
def userListReply (userlist : Bytes) : Bytes :=
  text "\x7b\"code\": 0, \"msg\": \"ok\", \"userlistinfo\":" ++ userlist ++ text "\x7d"

/-- The answer with the list of messages. -/
def msgsReply (data : Bytes) : Bytes :=
  text "\x7b\"code\": 0, \"msg\": \"ok\", \"msgs\":" ++ data ++ text "\x7d"

/-- What every session gets of a chat message. -/
def chatReply (data : Bytes) : Bytes :=
  text "\x7b\"code\": 0, \"msg\": \"ok\", \"msg\": " ++ data ++ text "\x7d"

namespace ChatServer

/-- A server that has loaded its users and its history. -/
def start (users : List User) (history : List Bytes) : ChatServer :=
  ⟨users, history, [], 0, [], 0, 0, [], false⟩

/-- The session with the number. -/
def find (srv : ChatServer) (id : Nat) : Option ChatSession :=
  srv.sessions.find? fun s => s.id = id

/-- A session is found by its own number. -/
theorem find_id {srv : ChatServer} {session : Nat} {self : ChatSession}
    (h : srv.find session = some self) : self.id = session := by
  have hid := List.find?_some h
  exact of_decide_eq_true hid

/-- Change one session. -/
def modify (srv : ChatServer) (id : Nat) (f : ChatSession → ChatSession) : ChatServer :=
  { srv with sessions := srv.sessions.map fun s => if s.id = id then f s else s }

/-- An event is put down in the record. -/
def note (srv : ChatServer) (e : SessionEvent) : ChatServer := { srv with log := srv.log ++ [e] }

/-- Go on unless an exception has been thrown. -/
def andThen (r : ChatServer × Bool) (next : ChatServer → ChatServer × Bool) : ChatServer × Bool :=
  if r.2 then next r.1 else r

/-- `TcpSession::send(cmd, seq, data)` of a session; false when it throws. -/
def sendTo (env : Env) (srv : ChatServer) (id : Nat) (p : Packet) : ChatServer × Bool :=
  match send env.host (env.stack srv.writers) p with
  | none => (srv, false)
  | some frame =>
    ({ srv with output := srv.output ++ [(id, frame)], writers := srv.writers + 1 }, true)

/-- `makeSessionInvalid` of one session, called by another. -/
def makeSessionInvalid (srv : ChatServer) (id by_ : Nat) : ChatServer :=
  (srv.modify id fun s => { s with userid := 0 }).note (.invalidated id by_)

/-- The session that holds the account is told so and made invalid. -/
def kickPrevious (env : Env) (srv : ChatServer) (self : ChatSession) (userid : Int) :
    ChatServer × Bool :=
  match getSessionByUserId srv.sessions userid with
  | none => (srv, true)
  | some target =>
    andThen (srv.sendTo env target.id ⟨msgTypeKickuser, self.seq, []⟩) fun srv =>
      (srv.makeSessionInvalid target.id self.id, true)

/-- The account is written into the session that logs in. -/
def recordUser (srv : ChatServer) (id : Nat) (userid : Int) (username : Bytes) : ChatServer :=
  (srv.modify id fun s => { s with userid := userid, username := username }).note (.loggedIn id)

/-- The common end of `onLoginResponse`: the reply, then the login flag, on every outcome. -/
def replyLogin (env : Env) (srv : ChatServer) (self : ChatSession) (data : Bytes) :
    ChatServer × Bool :=
  andThen (srv.sendTo env self.id ⟨msgTypeLogin, self.seq, data⟩) fun srv =>
    (srv.modify self.id fun s => { s with isLogin := true }, true)

/-- `onLoginResponse`; false is an exception. -/
def onLoginResponse (env : Env) (srv : ChatServer) (self : ChatSession) (data : Bytes) :
    ChatServer × Bool :=
  match loginRequest env.json data with
  | none => (srv, false)
  | some (username, password) =>
    let cachedUser := getUserInfoByUsername srv.users username
    if cachedUser.password ≠ password then srv.replyLogin env self incorrectPassword
    else
      andThen (srv.kickPrevious env self cachedUser.userid) fun srv =>
        (srv.recordUser self.id cachedUser.userid username).replyLogin env self
          (loginOk cachedUser.userid cachedUser.username)

/-- `makeUpUserListInfo`: the cached users as JSON text. -/
def makeUpUserListInfo (env : Env) (srv : ChatServer) : Option Bytes :=
  env.json.dump (Json.pushed (srv.users.map fun u =>
    .object [(text "userid", .numberInteger u.userid), (text "username", .string u.username)]))

/-- `onGetUserListResponse`. -/
def onGetUserListResponse (env : Env) (srv : ChatServer) (self : ChatSession) :
    ChatServer × Bool :=
  match srv.makeUpUserListInfo env with
  | none => (srv, false)
  | some userlist => srv.sendTo env self.id ⟨msgTypeGetuserlist, self.seq, userListReply userlist⟩

/-- `MsgCacheManager::loadMsgsFromRedis`: nothing when Redis fails. -/
def loadMsgsFromRedis (env : Env) (srv : ChatServer) : ChatServer × List Bytes :=
  ({ srv with redisCalls := srv.redisCalls + 1 },
    if env.redis srv.redisCalls then srv.history else [])

/-- `MsgCacheManager::addChatMsgToRedis`: a failure is only logged by the caller. -/
def addChatMsgToRedis (env : Env) (srv : ChatServer) (data : Bytes) : ChatServer :=
  { srv with
    redisCalls := srv.redisCalls + 1
    history := if env.redis srv.redisCalls then srv.history ++ [data] else srv.history }

/-- `onGetMsgsResponse`: every stored text is parsed, and the values are printed as one array. -/
def onGetMsgsResponse (env : Env) (srv : ChatServer) (self : ChatSession) : ChatServer × Bool :=
  let loaded := srv.loadMsgsFromRedis env
  match loaded.2.mapM env.json.parse with
  | none => (loaded.1, false)
  | some msgs =>
    match env.json.dump (Json.pushed msgs) with
    | none => (loaded.1, false)
    | some data => loaded.1.sendTo env self.id ⟨msgTypeGetMsgs, self.seq, msgsReply data⟩

/-- The same package is sent to every session, in the order of the list. -/
def broadcast (env : Env) (srv : ChatServer) (outbuf : Bytes) : ChatServer × Bool :=
  match sendPackage env.host outbuf with
  | none => (srv, srv.sessions.isEmpty)
  | some frame =>
    ({ srv with output := srv.output ++ srv.sessions.map fun s => (s.id, frame) }, true)

/-- `onChatResponse`: the message is stored, and then goes to all sessions. -/
def onChatResponse (env : Env) (srv : ChatServer) (self : ChatSession) (data : Bytes) :
    ChatServer × Bool :=
  let os := chatReply data
  match writePackage (env.stack srv.writers) msgTypeChat self.seq os (BitVec.ofNat 64 os.length) with
  | none => (srv, false)
  | some outbuf =>
    let srv := { srv with writers := srv.writers + 1 }
    (srv.addChatMsgToRedis env data).broadcast env outbuf

/-- A handler that returns lets `process` count the packet and return true. -/
def returned (id : Nat) (r : ChatServer × Bool) : ChatServer × Option Bool :=
  if r.2 then (r.1.modify id fun s => { s with seq := s.seq + 1 }, some true) else (r.1, none)

/-- The switch of `process`; `none` is an exception. -/
def dispatch (env : Env) (srv : ChatServer) (self : ChatSession) (p : Packet) :
    ChatServer × Option Bool :=
  if p.cmd = msgTypeLogin then returned self.id (srv.onLoginResponse env self p.data)
  else if self.isLogin then
    if p.cmd = msgTypeGetuserlist then
      returned self.id ((srv.note (.reached self.id p)).onGetUserListResponse env self)
    else if p.cmd = msgTypeGetMsgs then
      returned self.id ((srv.note (.reached self.id p)).onGetMsgsResponse env self)
    else if p.cmd = msgTypeChat then
      returned self.id ((srv.note (.reached self.id p)).onChatResponse env self p.data)
    else (srv, some false)
  else returned self.id (srv.sendTo env self.id ⟨p.cmd, self.seq, notLogin⟩)

/-- `ChatSession::process`. The sequence number of the packet is read into the session. -/
def process (env : Env) (srv : ChatServer) (self : ChatSession) (beyond : Beyond) (body : Bytes) :
    ChatServer × Option Bool :=
  match (BinaryStreamReader.new body beyond).readInt32 with
  | (_, none) => (srv, some false)
  | (r, some cmd) =>
    match r.readInt32 with
    | (_, none) => (srv, some false)
    | (r, some seq) =>
      let srv := srv.modify self.id fun s => { s with seq := seq }
      match r.readString 0 with
      | (_, none) => (srv, some false)
      | (_, some data) => srv.dispatch env { self with seq := seq } ⟨cmd, seq, data⟩

end ChatServer

/-- A client connects or disconnects, or a packet of it is handled. -/
inductive ServerInput where
  | connect
  | disconnect (session : Nat)
  | packet (session : Nat) (beyond : Beyond) (body : Bytes)

/-- An exception that leaves `process` ends the server. -/
def conclude (r : ChatServer × Option Bool) : ChatServer :=
  match r.2 with
  | some _ => r.1
  | none => { r.1 with terminated := true }

/-- One step of the server. A process that has ended takes none, and a packet belongs
to a session of the list. -/
def serverStep (env : Env) (srv : ChatServer) (i : ServerInput) : ChatServer :=
  if srv.terminated then srv
  else
    match i with
    | .connect =>
      { srv with
        sessionId := srv.sessionId + 1
        sessions := srv.sessions ++ [.new (srv.sessionId + 1)] }
    | .disconnect session =>
      { srv with sessions := srv.sessions.filter fun s => s.id ≠ session }
    | .packet session beyond body =>
      match srv.find session with
      | none => srv
      | some self => conclude (srv.process env self beyond body)

end ChatRoom.Chat
