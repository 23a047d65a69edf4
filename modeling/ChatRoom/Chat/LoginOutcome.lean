import ChatRoom.Chat.Replies

/-!
# The outcome of a login

`onLoginResponse` ignores whether the lookup of the user name has found anyone. A
name that is not in the table is answered through the defaults of an empty user,
whose password is empty and whose id is that of every session without a login. The
first part describes what a login request with credentials does; the exact outcome
and the handling of bad payloads are read off it.
-/

namespace ChatRoom.Chat

open ChatRoom.Core Net ChatServer

/-! ## What a login does -/

/-- The user that the table holds under a name, the first one. -/
def findUser (users : List User) (username : Bytes) : Option User :=
  users.find? fun u => u.username = username

/-- Of a name that is not in the table an empty user is returned. -/
theorem getUserInfoByUsername_eq (users : List User) (username : Bytes) :
    getUserInfoByUsername users username = (findUser users username).getD ⟨0, [], []⟩ := rfl

/-- A user is found under its own name. -/
theorem username_of_findUser {users : List User} {username : Bytes} {u : User}
    (h : findUser users username = some u) : u.username = username := by
  have hname := List.find?_some h
  exact of_decide_eq_true hname

/-- The reply to a login with a name of one packet fits a frame. -/
theorem packageSize_loginOk {userid : Int} {username : Bytes} (hid : InInt32 userid)
    (hname : (username.length : Int) ≤ maxPackageSize) :
    packageSize (loginOk userid username) < 2 ^ 31 := by
  have htext : (text "\x7b\"code\": 0, \"msg\": \"ok\", \"userid\": ").length +
      (text ",\"username\":\"").length + (text "\"\x7d").length ≤ 64 := by
    simp only [text_eq rfl]
    decide
  have hnumber : (text (toString userid)).length ≤ 11 := by
    rw [text, Decimal.utf8_toString]
    exact Decimal.length_encode_le hid.1 hid.2
  apply packageSize_lt
  simp only [loginOk, List.length_append]
  unfold maxPackageSize at hname
  omega

/-- The sessions after a reply to a login: its own has the flag. -/
def flagged (sessions : List ChatSession) (id : Nat) : List ChatSession :=
  sessions.map fun s => if s.id = id then { s with isLogin := true } else s

/-- An answer that fits a frame is delivered, and the flag of the session is set. -/
theorem replyLogin_fits (env : Env) (srv : ChatServer) (self : ChatSession) {data : Bytes}
    (h : packageSize data < 2 ^ 31) :
    (srv.replyLogin env self data).2 = true ∧
      Delivers srv (srv.replyLogin env self data).1 [(self.id, ⟨msgTypeLogin, self.seq, data⟩)] ∧
      (srv.replyLogin env self data).1.sessions = flagged srv.sessions self.id ∧
      (srv.replyLogin env self data).1.log = srv.log := by
  obtain ⟨frame, hdecode, hsend⟩ := sendTo_fits env srv self.id (p := ⟨msgTypeLogin, self.seq, data⟩) h
  rw [replyLogin, andThen, hsend]
  refine ⟨rfl, ⟨[(self.id, frame)], rfl, ?_⟩, rfl, rfl⟩
  rw [List.map_singleton, List.map_singleton, hdecode]

/-- The session that a login of this account kicks: told so, and made invalid. -/
theorem kickPrevious_fits (env : Env) (srv : ChatServer) (self : ChatSession) (userid : Int) :
    (srv.kickPrevious env self userid).2 = true ∧
      Delivers srv (srv.kickPrevious env self userid).1
        ((getSessionByUserId srv.sessions userid).toList.map fun t =>
          (t.id, ⟨msgTypeKickuser, self.seq, []⟩)) ∧
      (srv.kickPrevious env self userid).1.sessions =
        ((getSessionByUserId srv.sessions userid).elim srv.sessions fun t =>
          srv.sessions.map fun s => if s.id = t.id then { s with userid := 0 } else s) ∧
      (srv.kickPrevious env self userid).1.log =
        srv.log ++ (getSessionByUserId srv.sessions userid).toList.map fun t =>
          .invalidated t.id self.id := by
  cases htarget : getSessionByUserId srv.sessions userid with
  | none =>
    have hsame : srv.kickPrevious env self userid = (srv, true) := by
      simp only [kickPrevious, htarget]
    rw [hsame]
    exact ⟨rfl, delivers_nil rfl, rfl, (List.append_nil _).symm⟩
  | some t =>
    obtain ⟨frame, hdecode, hsend⟩ := sendTo_fits env srv t.id
      (p := ⟨msgTypeKickuser, self.seq, []⟩) (packageSize_lt (Nat.zero_le _))
    simp only [kickPrevious, htarget, andThen, hsend, if_true]
    refine ⟨trivial, ⟨[(t.id, frame)], rfl, ?_⟩, rfl, rfl⟩
    rw [List.map_singleton, hdecode]
    rfl

/-- Wrong credentials: one reply with code 1. -/
theorem onLoginResponse_wrong {env : Env} {srv : ChatServer} {self : ChatSession}
    {data username password : Bytes} (hreq : loginRequest env.json data = some (username, password))
    (hwrong : (getUserInfoByUsername srv.users username).password ≠ password) :
    srv.onLoginResponse env self data = srv.replyLogin env self incorrectPassword := by
  simp only [onLoginResponse, hreq, if_pos hwrong]

/-- The answer fits a frame. -/
theorem packageSize_incorrectPassword : packageSize incorrectPassword < 2 ^ 31 := by
  apply packageSize_lt
  simp only [incorrectPassword, text_eq rfl]
  decide

/-- The sessions after a login that is accepted. -/
def loggedIn (sessions : List ChatSession) (id : Nat) (userid : Int) (username : Bytes) :
    List ChatSession :=
  flagged ((((getSessionByUserId sessions userid).elim sessions fun t =>
      sessions.map fun s => if s.id = t.id then { s with userid := 0 } else s)).map fun s =>
    if s.id = id then { s with userid := userid, username := username } else s) id

/-- A kick is no login reply. -/
theorem filter_login (target : Option ChatSession) (id : Nat) (seq : BitVec 32) (data : Bytes) :
    List.filter (fun q : Nat × Packet => q.2.cmd = msgTypeLogin)
        ((target.toList.map fun t : ChatSession => (t.id, ⟨msgTypeKickuser, seq, []⟩)) ++
          [(id, ⟨msgTypeLogin, seq, data⟩)]) =
      [(id, ⟨msgTypeLogin, seq, data⟩)] := by
  cases target <;> rfl

/-- Accepted credentials: at most one kick, then one reply with code 0. -/
theorem onLoginResponse_right {env : Env} {srv : ChatServer} (self : ChatSession)
    {data username password : Bytes} (hreq : loginRequest env.json data = some (username, password))
    (hright : (getUserInfoByUsername srv.users username).password = password)
    (hfits : packageSize (loginOk (getUserInfoByUsername srv.users username).userid
      (getUserInfoByUsername srv.users username).username) < 2 ^ 31) :
    (srv.onLoginResponse env self data).2 = true ∧
      Delivers srv (srv.onLoginResponse env self data).1
        (((getSessionByUserId srv.sessions
            (getUserInfoByUsername srv.users username).userid).toList.map fun t =>
              (t.id, ⟨msgTypeKickuser, self.seq, []⟩)) ++
          [(self.id, ⟨msgTypeLogin, self.seq,
            loginOk (getUserInfoByUsername srv.users username).userid
              (getUserInfoByUsername srv.users username).username⟩)]) ∧
      (srv.onLoginResponse env self data).1.sessions =
        loggedIn srv.sessions self.id (getUserInfoByUsername srv.users username).userid username ∧
      (srv.onLoginResponse env self data).1.log =
        srv.log ++ ((getSessionByUserId srv.sessions
          (getUserInfoByUsername srv.users username).userid).toList.map fun t =>
            .invalidated t.id self.id) ++ [.loggedIn self.id] := by
  generalize hu : getUserInfoByUsername srv.users username = u at hright hfits ⊢
  obtain ⟨hkick, hdelivers, hsessions, hlog⟩ := kickPrevious_fits env srv self u.userid
  have hlogin : srv.onLoginResponse env self data =
      ((srv.kickPrevious env self u.userid).1.recordUser self.id u.userid username).replyLogin env
        self (loginOk u.userid u.username) := by
    simp only [onLoginResponse, hreq, hu, ne_eq, hright, not_true_eq_false, if_false, andThen,
      hkick, if_true]
  obtain ⟨hok, hreply, hflag, hlater⟩ := replyLogin_fits env
    ((srv.kickPrevious env self u.userid).1.recordUser self.id u.userid username) self hfits
  have hrecord : Delivers (srv.kickPrevious env self u.userid).1
      ((srv.kickPrevious env self u.userid).1.recordUser self.id u.userid username) [] :=
    delivers_nil rfl
  rw [hlogin]
  refine ⟨hok, hdelivers.trans (hrecord.trans hreply), ?_, ?_⟩
  · rw [hflag]
    simp only [recordUser, ChatServer.note, ChatServer.modify, hsessions, loggedIn]
  · rw [hlater]
    simp only [recordUser, ChatServer.note, ChatServer.modify, hlog]

/-! ## The exact outcome -/

/-- The table holds the name, and its first user of that name has the password. -/
def Matched (users : List User) (username password : Bytes) : Prop :=
  ∃ u, findUser users username = some u ∧ u.password = password

/-- The session is logged in as the user that the table holds under the name; a user id of 0
marks a session without a login. -/
def LoggedInAs (users : List User) (username : Bytes) (s : ChatSession) : Prop :=
  ∃ u, findUser users username = some u ∧ s.userid = u.userid ∧ s.userid ≠ 0

/-- The data of a reply with code 0. -/
def CodeZero (data : Bytes) : Prop := text "\x7b\"code\": 0" <+: data

/-- What a step has recorded. -/
def newEvents (srv srv' : ChatServer) : List SessionEvent := srv'.log.drop srv.log.length

/-- The outcome of a login request of session `own` with this name and password. -/
structure LoginExact (srv : ChatServer) (own : ChatSession) (username password : Bytes)
    (srv' : ChatServer) : Prop where
  /-- One reply, with code 0 exactly when the credentials match. -/
  answered : ∃ ps data, Delivers srv srv' ps ∧
    ps.filter (fun q => q.2.cmd = msgTypeLogin) = [(own.id, ⟨msgTypeLogin, own.seq, data⟩)] ∧
    (CodeZero data ↔ Matched srv.users username password)
  /-- Then the session has the user id and the name of that user. -/
  recorded : ∀ u, findUser srv.users username = some u → u.password = password →
    ∀ s' ∈ srv'.sessions, s'.id = own.id → s'.userid = u.userid ∧ s'.username = u.username
  /-- Otherwise no session has another user id or name than before. -/
  kept : ¬ Matched srv.users username password → ∀ s' ∈ srv'.sessions,
    ∃ s ∈ srv.sessions, s'.id = s.id ∧ s'.userid = s.userid ∧ s'.username = s.username
  /-- Only a session that is logged in as the same user is told to leave. -/
  kicked : ∀ ps, Delivers srv srv' ps → ∀ q ∈ ps, q.2.cmd = msgTypeKickuser → q.1 ≠ own.id →
    ∃ s ∈ srv.sessions, s.id = q.1 ∧ LoggedInAs srv.users username s
  /-- Only such a session is made invalid, and every other one is as it was. -/
  invalidated : ∀ id by_, .invalidated id by_ ∈ newEvents srv srv' → id ≠ own.id →
    ∃ s ∈ srv.sessions, s.id = id ∧ LoggedInAs srv.users username s
  others : ∀ s' ∈ srv'.sessions, s'.id ≠ own.id →
    s' ∈ srv.sessions ∨ ∃ by_, .invalidated s'.id by_ ∈ newEvents srv srv'

/-- A name that is not in the table comes with a password; and a matching login of a user with
id 0 finds no other session without a login before its own. -/
def LoginSound (users : List User) (sessions : List ChatSession) (self : ChatSession)
    (username password : Bytes) : Prop :=
  match findUser users username with
  | none => password ≠ []
  | some u => u.password = password → u.userid = 0 →
    ∀ t, getSessionByUserId sessions 0 = some t → t.id = self.id

private theorem codeZero_loginOk (userid : Int) (username : Bytes) :
    CodeZero (loginOk userid username) := by
  have hfirst : text "\x7b\"code\": 0" <+: text "\x7b\"code\": 0, \"msg\": \"ok\", \"userid\": " := by
    simp only [text_eq rfl]
    decide
  simp only [CodeZero, loginOk, List.append_assoc]
  exact hfirst.trans (List.prefix_append _ _)

private theorem not_codeZero_incorrectPassword : ¬ CodeZero incorrectPassword := by
  rw [CodeZero, incorrectPassword]
  simp only [text_eq rfl]
  decide

private theorem newEvents_eq {srv srv' : ChatServer} {more : List SessionEvent}
    (h : srv'.log = srv.log ++ more) : newEvents srv srv' = more := by
  rw [newEvents, h, List.drop_left]

private theorem mem_flagged {sessions : List ChatSession} {id : Nat} {s' : ChatSession}
    (h : s' ∈ flagged sessions id) :
    ∃ s ∈ sessions, s'.id = s.id ∧ s'.userid = s.userid ∧ s'.username = s.username ∧
      (s'.id ≠ id → s' = s) := by
  obtain ⟨s, hs, rfl⟩ := List.mem_map.mp h
  refine ⟨s, hs, ?_⟩
  by_cases hid : s.id = id
  · rw [if_pos hid]
    exact ⟨rfl, rfl, rfl, fun hne => absurd hid hne⟩
  · rw [if_neg hid]
    exact ⟨rfl, rfl, rfl, fun _ => rfl⟩

/-- The sessions of an accepted login: its own has the account, the kicked one has lost it. -/
theorem mem_loggedIn {sessions : List ChatSession} {id : Nat} {userid : Int} {username : Bytes}
    {s' : ChatSession} (h : s' ∈ loggedIn sessions id userid username) :
    (s'.id = id → s'.userid = userid ∧ s'.username = username) ∧
      (s'.id ≠ id → s' ∈ sessions ∨
        ∃ t, getSessionByUserId sessions userid = some t ∧ s'.id = t.id) := by
  obtain ⟨s, hs, hid, huser, hname, hsame⟩ := mem_flagged h
  obtain ⟨s₁, hs₁, hs⟩ := List.mem_map.mp hs
  constructor
  · intro hown
    have hs₁id : s₁.id = id := by
      rw [← hown, hid, ← hs]
      split <;> rfl
    rw [if_pos hs₁id] at hs
    rw [huser, hname, ← hs]
    exact ⟨rfl, rfl⟩
  · intro hother
    have hs₁id : s₁.id ≠ id := by
      intro heq
      rw [if_pos heq] at hs
      exact hother (hid.trans (hs ▸ heq))
    rw [if_neg hs₁id] at hs
    rw [hsame hother, ← hs]
    cases htarget : getSessionByUserId sessions userid with
    | none =>
      rw [htarget] at hs₁
      exact Or.inl hs₁
    | some t =>
      rw [htarget] at hs₁
      obtain ⟨s₀, hs₀, rfl⟩ := List.mem_map.mp hs₁
      by_cases ht : s₀.id = t.id
      · rw [if_pos ht]
        exact Or.inr ⟨t, rfl, ht⟩
      · rw [if_neg ht]
        exact Or.inl hs₀

private theorem userid_of_getSessionByUserId {sessions : List ChatSession} {userid : Int}
    {t : ChatSession}
    (h : getSessionByUserId sessions userid = some t) : t ∈ sessions ∧ t.userid = userid := by
  have huser := List.find?_some h
  exact ⟨List.mem_of_find?_eq_some h, of_decide_eq_true huser⟩

/-- A login that is refused has the exact outcome when its credentials do not match. -/
theorem loginExact_of_wrong (env : Env) {srv : ChatServer} {self : ChatSession}
    {username password : Bytes} (h : ¬ Matched srv.users username password) :
    LoginExact srv self username password (srv.replyLogin env self incorrectPassword).1 := by
  obtain ⟨-, hdelivers, hsessions, hlog⟩ :=
    replyLogin_fits env srv self packageSize_incorrectPassword
  have hnew : newEvents srv (srv.replyLogin env self incorrectPassword).1 = [] :=
    newEvents_eq (hlog.trans (List.append_nil _).symm)
  refine ⟨⟨_, incorrectPassword, hdelivers, rfl, ?_⟩, ?_, ?_, ?_, ?_, ?_⟩
  · exact iff_of_false not_codeZero_incorrectPassword h
  · intro u hu hpassword
    exact absurd ⟨u, hu, hpassword⟩ h
  · intro _ s' hs'
    rw [hsessions] at hs'
    obtain ⟨s, hs, hid, huser, hname, _⟩ := mem_flagged hs'
    exact ⟨s, hs, hid, huser, hname⟩
  · intro ps hps q hq hkick
    rw [← hdelivers.unique hps, List.mem_singleton] at hq
    rw [hq] at hkick
    cases hkick
  · intro id by_ hmem
    rw [hnew] at hmem
    cases hmem
  · intro s' hs' hother
    rw [hsessions] at hs'
    obtain ⟨s, hs, _, _, _, hsame⟩ := mem_flagged hs'
    rw [hsame hother]
    exact Or.inl hs

section Accepted

variable {env : Env} {srv : ChatServer} {self : ChatSession} {data username password : Bytes}

/-- An accepted login of a user in the table has the exact outcome when the session it kicks
is its own or one that is logged in. -/
theorem loginExact_of_right {u : User}
    (hreq : loginRequest env.json data = some (username, password))
    (hu : findUser srv.users username = some u) (hpassword : u.password = password)
    (hfits : packageSize (loginOk u.userid u.username) < 2 ^ 31)
    (htarget : ∀ t, getSessionByUserId srv.sessions u.userid = some t → t.id ≠ self.id →
      u.userid ≠ 0) :
    LoginExact srv self username password (srv.onLoginResponse env self data).1 := by
  have hcached : getUserInfoByUsername srv.users username = u := by
    rw [getUserInfoByUsername_eq, hu, Option.getD_some]
  obtain ⟨-, hdelivers, hsessions, hlog⟩ :=
    onLoginResponse_right self hreq (hcached ▸ hpassword) (hcached ▸ hfits)
  rw [hcached] at hdelivers hsessions hlog
  have hnew := newEvents_eq (hlog.trans (List.append_assoc _ _ _))
  have hmatched : Matched srv.users username password := ⟨u, hu, hpassword⟩
  have hkicked : ∀ t, getSessionByUserId srv.sessions u.userid = some t → t.id ≠ self.id →
      ∃ s ∈ srv.sessions, s.id = t.id ∧ LoggedInAs srv.users username s := by
    intro t ht hother
    obtain ⟨hmem, huser⟩ := userid_of_getSessionByUserId ht
    exact ⟨t, hmem, rfl, u, hu, huser, huser ▸ htarget t ht hother⟩
  refine ⟨⟨_, loginOk u.userid u.username, hdelivers, filter_login _ _ _ _, ?_⟩, ?_, ?_, ?_, ?_, ?_⟩
  · exact iff_of_true (codeZero_loginOk _ _) hmatched
  · intro u' hu' _ s' hs' hid
    cases hu.symm.trans hu'
    rw [hsessions] at hs'
    rw [username_of_findUser hu]
    exact (mem_loggedIn hs').1 hid
  · intro hnot
    exact absurd hmatched hnot
  · intro ps hps q hq hkick hother
    rw [← hdelivers.unique hps] at hq
    rcases List.mem_append.mp hq with hq | hq
    · obtain ⟨t, ht, rfl⟩ := List.mem_map.mp hq
      exact hkicked t (Option.mem_toList.mp ht) hother
    · rw [List.mem_singleton.mp hq] at hkick
      cases hkick
  · intro id by_ hmem hother
    rw [hnew] at hmem
    rcases List.mem_append.mp hmem with hmem | hmem
    · obtain ⟨t, ht, heq⟩ := List.mem_map.mp hmem
      cases heq
      exact hkicked t (Option.mem_toList.mp ht) hother
    · cases List.mem_singleton.mp hmem
  · intro s' hs' hother
    rw [hsessions] at hs'
    refine ((mem_loggedIn hs').2 hother).imp_right ?_
    rintro ⟨t, ht, hid⟩
    refine ⟨self.id, ?_⟩
    rw [hnew, hid]
    exact List.mem_append_left _ (List.mem_map.mpr ⟨t, Option.mem_toList.mpr ht, rfl⟩)

/-- An unknown name with an empty password is answered with code 0. -/
theorem not_loginExact_of_unknown (hreq : loginRequest env.json data = some (username, []))
    (hu : findUser srv.users username = none) :
    ¬ LoginExact srv self username [] (srv.onLoginResponse env self data).1 := by
  have hcached : getUserInfoByUsername srv.users username = ⟨0, [], []⟩ := by
    rw [getUserInfoByUsername_eq, hu, Option.getD_none]
  have hfits : packageSize (loginOk 0 []) < 2 ^ 31 :=
    packageSize_loginOk (by constructor <;> decide) (by decide)
  obtain ⟨-, hdelivers, -, -⟩ := onLoginResponse_right self hreq
    (by rw [hcached]) (by rw [hcached]; exact hfits)
  intro h
  obtain ⟨ps, reply, hps, honly, hcode⟩ := h.answered
  rw [← hdelivers.unique hps, hcached, filter_login] at honly
  cases honly
  obtain ⟨u, hu', _⟩ := hcode.mp (codeZero_loginOk 0 [])
  rw [hu] at hu'
  cases hu'

/-- Over every table and every list of sessions, the outcome of a login request is exact
exactly when an unknown name comes with a password, and a matching login of a user with id 0
finds no other session without a login. -/
theorem login_outcome_exact_iff
    (hreq : loginRequest env.json data = some (username, password))
    (hname : (username.length : Int) ≤ maxPackageSize)
    (hids : ∀ u ∈ srv.users, InInt32 u.userid) :
    LoginExact srv self username password (srv.onLoginResponse env self data).1 ↔
      LoginSound srv.users srv.sessions self username password := by
  cases hu : findUser srv.users username with
  | none =>
    have hcached : getUserInfoByUsername srv.users username = ⟨0, [], []⟩ := by
      rw [getUserInfoByUsername_eq, hu, Option.getD_none]
    have hnot : ¬ Matched srv.users username password := by
      rintro ⟨u, hu', _⟩
      rw [hu] at hu'
      cases hu'
    simp only [LoginSound, hu]
    by_cases hempty : password = []
    · rw [hempty] at hreq ⊢
      exact iff_of_false (not_loginExact_of_unknown hreq hu) fun hne => hne rfl
    · rw [onLoginResponse_wrong hreq (by rw [hcached]; exact Ne.symm hempty)]
      exact iff_of_true (loginExact_of_wrong env hnot) hempty
  | some u =>
    have hcached : getUserInfoByUsername srv.users username = u := by
      rw [getUserInfoByUsername_eq, hu, Option.getD_some]
    simp only [LoginSound, hu]
    by_cases hpassword : u.password = password
    · have hfits : packageSize (loginOk u.userid u.username) < 2 ^ 31 :=
        packageSize_loginOk (hids u (List.mem_of_find?_eq_some hu))
          (username_of_findUser hu ▸ hname)
      constructor
      · intro h _ hzero t ht
        by_contra hother
        obtain ⟨-, hdelivers, -, -⟩ := onLoginResponse_right self hreq
          (hcached ▸ hpassword) (hcached ▸ hfits)
        rw [hcached, hzero, ht] at hdelivers
        obtain ⟨s, _, _, u', hu', huser, hne⟩ := h.kicked _ hdelivers
          (t.id, ⟨msgTypeKickuser, self.seq, []⟩) (by simp) rfl hother
        cases hu.symm.trans hu'
        exact hne (huser.trans hzero)
      · intro h
        apply loginExact_of_right hreq hu hpassword hfits
        intro t ht hother hzero
        exact hother (h hpassword hzero t (hzero ▸ ht))
    · rw [onLoginResponse_wrong hreq (by rw [hcached]; exact hpassword)]
      refine iff_of_true (loginExact_of_wrong env ?_) fun heq => absurd heq hpassword
      rintro ⟨u', hu', hpassword'⟩
      cases hu.symm.trans hu'
      exact hpassword hpassword'

end Accepted

/-- A server with one user and two sessions, the first of them without a login. -/
def twoSessions : ChatServer :=
  { start [⟨1, text "amy", text "a1"⟩] [] with sessions := [.new 1, .new 2] }

/-- The right password of a cached user is answered with code 0, and nobody is kicked. -/
theorem login_exact_for_cached_user :
    LoginExact twoSessions (.new 2) (text "amy") (text "a1")
      (twoSessions.onLoginResponse (sampleEnv [credentials "amy" "a1"]) (.new 2)
        (credentials "amy" "a1").1).1 := by
  refine (login_outcome_exact_iff (by decide +kernel) (by decide +kernel) ?_).mpr ?_
  · intro u hu
    rw [List.mem_singleton.mp hu]
    constructor <;> decide
  · have hu : findUser twoSessions.users (text "amy") = some ⟨1, text "amy", text "a1"⟩ := by
      decide +kernel
    simp only [LoginSound, hu]
    intro _ hzero
    exact absurd hzero (by decide)

/-- A name that is not in the table, with an empty password: it is answered with code 0, and
the other session, which has no login, is kicked. -/
theorem unknown_name_logs_in :
    ((.invalidated 1 2 : SessionEvent) ∈ newEvents twoSessions (twoSessions.onLoginResponse
        (sampleEnv [credentials "bob" ""]) (.new 2) (credentials "bob" "").1).1) ∧
      ¬ LoginExact twoSessions (.new 2) (text "bob") []
        (twoSessions.onLoginResponse (sampleEnv [credentials "bob" ""]) (.new 2)
          (credentials "bob" "").1).1 := by
  have hreq : loginRequest (sampleEnv [credentials "bob" ""]).json (credentials "bob" "").1 =
      some (text "bob", []) := by
    decide +kernel
  have hu : findUser twoSessions.users (text "bob") = none := by decide +kernel
  exact ⟨by decide +kernel, not_loginExact_of_unknown hreq hu⟩

end ChatRoom.Chat
