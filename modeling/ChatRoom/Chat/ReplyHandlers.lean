import ChatRoom.Chat.LoginPayload
import ChatRoom.Chat.ReplyForms

/-!
# The replies of each handler

A request without a login and a wrong password are answered with a fixed text. The two
lists go through the JSON library, which prints a list without elements as `null`, and a
failure of Redis looks like an empty list. A login copies the name of the account as it
is, and a chat message gives the key of its message a second time.
-/

namespace ChatRoom.Chat

open ChatRoom.Core ChatRoom.Core.JsonText Net ChatServer

section Lemmas

variable {float : Bytes → Option (BitVec 64)} {env : Env} {srv srv₀ srv' : ChatServer}
  {self : ChatSession} {p : Packet} {id : Nat}

/-! ## Requests without a login -/

private theorem nodup_coded (code : Int) (msg : Bytes) :
    ((codedMembers code msg).map Prod.fst).Nodup := by
  have hkeys : [text "code", text "msg"].Nodup := by
    simp only [text_eq rfl]
    decide
  exact hkeys

private theorem refused_wellFormed {i : ServerInput} (h : Handles srv i self p)
    (hcmd : p.cmd ∈ replyTypes)
    (hlogin : p.cmd ≠ msgTypeLogin) (hset : self.isLogin = false) :
    RepliesWellFormed float env srv self p (serverStep env srv i) := by
  have hdispatch : (srv.modify self.id fun s => { s with seq := p.seq }).dispatch env
      { self with seq := p.seq } p = returned self.id
        ((srv.modify self.id fun s => { s with seq := p.seq }).sendTo env self.id
          ⟨p.cmd, p.seq, notLogin⟩) := by
    rw [dispatch, if_neg hlogin, if_neg (ne_true_of_eq_false hset)]
  rw [wellFormed_fits_iff (output_serverStep h hdispatch) (output_modify srv _ _) hcmd
    packageSize_notLogin]
  have hmsg : Verbatim (text "not login, please login first!") := verbatim_text rfl rfl
  refine ⟨_, by rw [notLogin_eq]; exact parse_coded 2 hmsg, nodup_coded _ _, ?_⟩
  rw [FieldsRight, if_neg hlogin, if_neg (ne_true_of_eq_false hset)]
  trivial

/-! ## Lists -/

private theorem verbatim_userlistinfo : Verbatim (text "userlistinfo") := verbatim_text rfl rfl

private theorem verbatim_msgs : Verbatim (text "msgs") := verbatim_text rfl rfl

private theorem parse_null : JsonText.parse (text "null") = some .null := by
  have hbytes : text "null" = [110, 117, 108, 108] := text_eq rfl
  rw [hbytes]
  rfl

/-- A reply with a list, under the key of the list. -/
def listReply (key t : Bytes) : Bytes :=
  coded 0 (text "ok") ++ 44 :: 32 :: 34 :: (key ++ 34 :: 58 :: (t ++ [125]))

private theorem listReply_brace (key t : Bytes) :
    listReply key t = coded 0 (text "ok") ++ 44 :: 32 :: 34 :: (key ++ 34 :: 58 :: t) ++ [125] := by
  simp only [listReply, List.append_assoc, List.cons_append]

/-- An answer with `null` in the place of the list fits a frame. -/
theorem packageSize_null {key : Bytes} (h : key.length ≤ 64) :
    packageSize (listReply key (text "null")) < 2 ^ 31 := by
  have htext : (coded 0 (text "ok")).length + (text "null").length ≤ 64 := by
    simp only [coded, encode_zero, text_eq rfl]
    decide
  apply packageSize_lt
  simp only [listReply, List.length_append, List.length_cons, List.length_nil]
  omega

/-- A handler that replies with what the library prints for a list of values. -/
theorem list_wellFormed_iff {key : Bytes} {values : List Json} {cmd seq : BitVec 32}
    (hjson : env.json.Faithful float)
    (hthrows : env.json.dump (Json.pushed values) = none → srv'.output = srv.output)
    (hreplies : ∀ t, env.json.dump (Json.pushed values) = some t →
      srv'.output = (srv₀.sendTo env id ⟨cmd, seq, listReply key t⟩).1.output)
    (hsame : srv₀.output = srv.output) (hcmd : cmd ∈ replyTypes) (hkey : Verbatim key)
    (hshort : key.length ≤ 64) (hnodup : [text "code", text "msg", key].Nodup)
    (hfinite : ∀ j ∈ values, j.Finite)
    (hneeds : ∀ members, FieldsRight float env srv self p members →
      ∃ elements, (key, .array elements) ∈ members)
    (hright : values ≠ [] → ∀ members elements, (key, .array elements) ∈ members →
      List.Forall₂ (Spells float) elements values → FieldsRight float env srv self p members) :
    RepliesWellFormed float env srv self p srv' ↔
      values ≠ [] ∧ ∀ t, env.json.dump (.array values) = some t → Whole (listReply key t) := by
  by_cases hempty : values = []
  · -- The list is printed as `null`, and the reply is sent.
    rw [hempty] at hreplies
    have houtput := hreplies (text "null") hjson.null
    rw [wellFormed_fits_iff houtput hsame hcmd (packageSize_null hshort)]
    refine iff_of_false ?_ fun h => h.1 hempty
    rintro ⟨members, hparse, _, hfields⟩
    obtain ⟨elements, hmem⟩ := hneeds members hfields
    rw [listReply, parse_coded_member 0 verbatim_ok hkey parse_null] at hparse
    cases hparse
    simp [codedMembers] at hmem
  · rw [pushed_of_ne_nil hempty] at hthrows hreplies
    cases hdump : env.json.dump (.array values) with
    | none =>
      refine iff_of_true (wellFormed_silent (hthrows hdump)) ⟨hempty, fun t ht => ?_⟩
      cases ht
    | some t =>
      obtain ⟨tree, ht, hspells⟩ := hjson.dump _ t (.array hfinite) hdump
      have hwell : WellFormed float env srv self p (listReply key t) := by
        cases hspells with
        | array h =>
          refine ⟨_, parse_coded_member 0 verbatim_ok hkey ht, hnodup, ?_⟩
          exact hright hempty _ _ (by simp) h
      rw [wellFormed_whole_iff (hreplies t hdump) hsame hcmd (listReply_brace key t) hwell]
      constructor
      · intro hwhole
        refine ⟨hempty, fun t' ht' => ?_⟩
        cases ht'
        exact hwhole
      · rintro ⟨_, hwhole⟩
        exact hwhole t rfl

private theorem finite_userJson {users : List User} : ∀ j ∈ users.map userJson, j.Finite := by
  intro j hj
  obtain ⟨u, _, rfl⟩ := List.mem_map.mp hj
  apply Json.Finite.object
  intro m hm
  rcases List.mem_cons.mp hm with rfl | hm
  · exact .numberInteger _
  · rw [List.mem_singleton.mp hm]
    exact .string _

private theorem fieldsRight_getuserlist (hcmd : p.cmd = msgTypeGetuserlist)
    (hset : self.isLogin = true)
    (members : List (Bytes × Tree)) :
    FieldsRight float env srv self p members ↔
      ∃ elements, (text "userlistinfo", .array elements) ∈ members ∧
        List.Forall₂ (Spells float) elements (srv.users.map userJson) := by
  have hlogin : p.cmd ≠ msgTypeLogin := by
    rw [hcmd]
    decide
  have hmsgs : p.cmd ≠ msgTypeGetMsgs := by
    rw [hcmd]
    decide
  rw [FieldsRight, if_neg hlogin, if_pos hset]
  exact ⟨fun hboth => hboth.1 hcmd, fun hone => ⟨fun _ => hone, fun hother => absurd hother hmsgs⟩⟩

private theorem fieldsRight_getMsgs (hcmd : p.cmd = msgTypeGetMsgs) (hset : self.isLogin = true)
    (members : List (Bytes × Tree)) :
    FieldsRight float env srv self p members ↔
      ∃ elements, (text "msgs", .array elements) ∈ members ∧
        List.Forall₂ (fun e m => ∃ j, env.json.parse m = some j ∧ Spells float e j) elements
          srv.history := by
  have hlogin : p.cmd ≠ msgTypeLogin := by
    rw [hcmd]
    decide
  have huserlist : p.cmd ≠ msgTypeGetuserlist := by
    rw [hcmd]
    decide
  rw [FieldsRight, if_neg hlogin, if_pos hset]
  exact ⟨fun hboth => hboth.2 hcmd,
    fun hone => ⟨fun hother => absurd hother huserlist, fun _ => hone⟩⟩

private theorem userlist_wellFormed_iff {i : ServerInput} (hjson : env.json.Faithful float)
    (h : Handles srv i self p) (hcmd : p.cmd = msgTypeGetuserlist) (hset : self.isLogin = true) :
    RepliesWellFormed float env srv self p (serverStep env srv i) ↔
      srv.users ≠ [] ∧ ∀ t, env.json.dump (.array (srv.users.map userJson)) = some t →
        Whole (userListReply t) := by
  have houtput : (serverStep env srv i).output =
      ((((srv.modify self.id fun s => { s with seq := p.seq }).note
        (.reached self.id p)).onGetUserListResponse env { self with seq := p.seq })).1.output :=
    output_serverStep h (dispatch_getuserlist hcmd hset)
  have hlist : ((srv.modify self.id fun s => { s with seq := p.seq }).note
      (.reached self.id p)).makeUpUserListInfo env =
        env.json.dump (Json.pushed (srv.users.map userJson)) := rfl
  rw [onGetUserListResponse, hlist] at houtput
  have hthrows : env.json.dump (Json.pushed (srv.users.map userJson)) = none →
      (serverStep env srv i).output = srv.output := by
    intro hdump
    rw [houtput, hdump]
    rfl
  have hreplies : ∀ t, env.json.dump (Json.pushed (srv.users.map userJson)) = some t →
      (serverStep env srv i).output = (((srv.modify self.id fun s =>
        { s with seq := p.seq }).note (.reached self.id p)).sendTo env self.id
          ⟨msgTypeGetuserlist, p.seq, listReply (text "userlistinfo") t⟩).1.output := by
    intro t hdump
    rw [houtput, hdump]
    simp only [userListReply_eq, listReply]
  have hiff := list_wellFormed_iff hjson hthrows hreplies rfl (by decide) verbatim_userlistinfo
    (by rw [text_eq rfl]; decide) (by simp only [text_eq rfl]; decide) finite_userJson
    (fun members hmembers =>
      ((fieldsRight_getuserlist hcmd hset members).mp hmembers).imp fun _ he => he.1)
    (fun _ members elements hmem hspells =>
      (fieldsRight_getuserlist hcmd hset members).mpr ⟨elements, hmem, hspells⟩)
  rw [hiff, ne_eq, List.map_eq_nil_iff]
  simp only [userListReply_eq, listReply, ne_eq]

/-- What the library parses, it parses one by one. -/
theorem forall₂_of_mapM {f : Bytes → Option Json} {l : List Bytes} {values : List Json}
    (h : l.mapM f = some values) : List.Forall₂ (fun m j => f m = some j) l values := by
  induction l generalizing values with
  | nil =>
    cases h
    exact .nil
  | cons m l ih =>
    rw [List.mapM_cons] at h
    obtain ⟨j, hj, h⟩ := Option.bind_eq_some_iff.mp h
    obtain ⟨js, hjs, h⟩ := Option.bind_eq_some_iff.mp h
    cases h
    exact .cons hj (ih hjs)

/-- Each element of the second list has its partner in the first. -/
theorem exists_of_forall₂ {α β : Type} {R : α → β → Prop} {l : List α} {l' : List β}
    (h : List.Forall₂ R l l') {b : β} (hb : b ∈ l') : ∃ a ∈ l, R a b := by
  induction h with
  | nil => cases hb
  | cons hr _ ih =>
    rcases List.mem_cons.mp hb with rfl | hb
    · exact ⟨_, List.mem_cons_self .., hr⟩
    · obtain ⟨a, ha, hab⟩ := ih hb
      exact ⟨a, List.mem_cons_of_mem _ ha, hab⟩

/-- Each message and the element that spells its value. -/
theorem forall₂_spells {elements : List Tree} {messages : List Bytes} {values : List Json}
    (hparse : List.Forall₂ (fun m j => env.json.parse m = some j) messages values)
    (hspells : List.Forall₂ (Spells float) elements values) :
    List.Forall₂ (fun e m => ∃ j, env.json.parse m = some j ∧ Spells float e j) elements
      messages := by
  induction hparse generalizing elements with
  | nil =>
    cases hspells
    exact .nil
  | cons hj _ ih =>
    cases hspells with
    | cons he hrest => exact .cons ⟨_, hj, he⟩ (ih hrest)

variable (env) in
/-- A request for the messages is handled on the same history, before anything is handed out. -/
theorem output_getMsgs {i : ServerInput} (h : Handles srv i self p) (hcmd : p.cmd = msgTypeGetMsgs)
    (hset : self.isLogin = true) :
    ∃ (srv₁ : ChatServer) (self₁ : ChatSession), srv₁.output = srv.output ∧
      srv₁.history = srv.history ∧ srv₁.redisCalls = srv.redisCalls ∧
      (serverStep env srv i).output = (srv₁.onGetMsgsResponse env self₁).1.output :=
  ⟨(srv.modify self.id fun s => { s with seq := p.seq }).note (.reached self.id p),
    { self with seq := p.seq }, rfl, rfl, rfl, output_serverStep h (dispatch_getMsgs hcmd hset)⟩

/-- The reply with the messages that Redis has returned. -/
theorem loaded_wellFormed_iff {i : ServerInput} (hjson : env.json.Faithful float)
    (h : Handles srv i self p) (hcmd : p.cmd = msgTypeGetMsgs) (hset : self.isLogin = true)
    {values : List Json}
    (hvalues : (if env.redis srv.redisCalls then srv.history else []).mapM env.json.parse =
      some values) :
    RepliesWellFormed float env srv self p (serverStep env srv i) ↔
      values ≠ [] ∧ ∀ t, env.json.dump (.array values) = some t → Whole (msgsReply t) := by
  have hparsed := forall₂_of_mapM hvalues
  have hfinite : ∀ j ∈ values, j.Finite := by
    intro j hj
    obtain ⟨m, _, hm⟩ := exists_of_forall₂ hparsed hj
    exact hjson.finite m j hm
  have hstored : values ≠ [] →
      List.Forall₂ (fun m j => env.json.parse m = some j) srv.history values := by
    intro hne
    split at hparsed
    · exact hparsed
    · cases hparsed
      exact absurd rfl hne
  obtain ⟨srv₁, self₁, hsame, hhistory, hcalls, houtput⟩ := output_getMsgs env h hcmd hset
  simp only [onGetMsgsResponse, loadMsgsFromRedis, hhistory, hcalls, hvalues] at houtput
  have hthrows : env.json.dump (Json.pushed values) = none →
      (serverStep env srv i).output = srv.output := by
    intro hdump
    rw [houtput, hdump]
    exact hsame
  have hreplies : ∀ t, env.json.dump (Json.pushed values) = some t →
      (serverStep env srv i).output =
        (({ srv₁ with history := srv.history, redisCalls := srv.redisCalls + 1 } :
          ChatServer).sendTo env self₁.id
            ⟨msgTypeGetMsgs, self₁.seq, listReply (text "msgs") t⟩).1.output := by
    intro t hdump
    rw [houtput, hdump]
    simp only [msgsReply_eq, listReply]
  have hiff := list_wellFormed_iff hjson hthrows hreplies hsame (by decide) verbatim_msgs
    (by rw [text_eq rfl]; decide) (by simp only [text_eq rfl]; decide) hfinite
    (fun members hmembers =>
      ((fieldsRight_getMsgs hcmd hset members).mp hmembers).imp fun _ he => he.1)
    (fun hne members elements hmem hspells => (fieldsRight_getMsgs hcmd hset members).mpr
      ⟨elements, hmem, forall₂_spells (hstored hne) hspells⟩)
  rw [hiff]
  simp only [msgsReply_eq, listReply]

private theorem msgs_wellFormed_iff {i : ServerInput} (hjson : env.json.Faithful float)
    (h : Handles srv i self p) (hcmd : p.cmd = msgTypeGetMsgs) (hset : self.isLogin = true) :
    RepliesWellFormed float env srv self p (serverStep env srv i) ↔
      srv.history ≠ [] ∧ env.redis srv.redisCalls = true ∧
        ∀ values t, srv.history.mapM env.json.parse = some values →
          env.json.dump (.array values) = some t → Whole (msgsReply t) := by
  cases hredis : env.redis srv.redisCalls with
  | false =>
    have hvalues : (if env.redis srv.redisCalls then srv.history else []).mapM env.json.parse =
        some [] := by
      rw [hredis]
      rfl
    rw [loaded_wellFormed_iff hjson h hcmd hset hvalues]
    simp
  | true =>
    cases hvalues : srv.history.mapM env.json.parse with
    | none =>
      obtain ⟨srv₁, self₁, hsame, hhistory, hcalls, houtput⟩ := output_getMsgs env h hcmd hset
      simp only [onGetMsgsResponse, loadMsgsFromRedis, hhistory, hcalls, hredis, if_true,
        hvalues] at houtput
      refine iff_of_true (wellFormed_silent (houtput.trans hsame)) ⟨?_, rfl, ?_⟩
      · intro hempty
        rw [hempty] at hvalues
        cases hvalues
      · intro values t hsome
        cases hsome
    | some values =>
      have hloaded : (if env.redis srv.redisCalls then srv.history else []).mapM env.json.parse =
          some values := by
        rw [hredis, if_pos rfl, hvalues]
      have hparsed := forall₂_of_mapM hvalues
      have hempty : values = [] ↔ srv.history = [] := by
        rw [← List.length_eq_zero_iff, ← hparsed.length_eq, List.length_eq_zero_iff]
      rw [loaded_wellFormed_iff hjson h hcmd hset hloaded, ne_eq, hempty]
      constructor
      · rintro ⟨hne, hwhole⟩
        refine ⟨hne, rfl, fun values' t hvalues' ht => ?_⟩
        cases hvalues'
        exact hwhole t ht
      · rintro ⟨hne, _, hwhole⟩
        exact ⟨hne, fun t ht => hwhole values t rfl ht⟩

/-! ## Chat messages -/

/-- A chat message that is accepted is answered, and the answer repeats a key. -/
theorem chat_not_wellFormed {session : Nat} {beyond : Beyond} {body : Bytes}
    (h : Handles srv (.packet session beyond body) self p) (hcmd : p.cmd = msgTypeChat)
    (hset : self.isLogin = true) (hbody : (body.length : Int) ≤ maxPackageSize) :
    ¬ RepliesWellFormed float env srv self p (serverStep env srv (.packet session beyond body)) := by
  obtain ⟨frame, hframe, houtput⟩ := serverStep_chat_output env h hcmd hset hbody
  generalize serverStep env srv (.packet session beyond body) = srv' at houtput ⊢
  have hdata := length_data_of_handles h hbody
  obtain ⟨_, _, _, _, _, hfind, _⟩ := h
  have hdecode := framePacket_of_send (p := ⟨msgTypeChat, p.seq, chatReply p.data⟩)
    (packageSize_chatReply hdata) hframe
  have hdelivers : Delivers srv srv'
      (srv.sessions.map fun s => (s.id, ⟨msgTypeChat, p.seq, chatReply p.data⟩)) := by
    refine ⟨_, houtput, ?_⟩
    simp only [List.map_map, Function.comp_def, hdecode]
  rintro ⟨ps, hps, hwell⟩
  rw [hps.unique hdelivers] at hwell
  have hself : (self.id, (⟨msgTypeChat, p.seq, chatReply p.data⟩ : Packet)) ∈
      srv.sessions.map fun s => (s.id, ⟨msgTypeChat, p.seq, chatReply p.data⟩) :=
    List.mem_map_of_mem (List.mem_of_find?_eq_some hfind)
  have hchat : msgTypeChat ∈ replyTypes := by decide
  obtain ⟨members, hparse, hnodup, _⟩ := hwell _ hself hchat
  exact not_nodup_chatReply hparse hnodup

/-! ## Logins -/

variable (env) in
/-- A login request is handled on the same table, before anything is handed out. -/
theorem output_login {i : ServerInput} (h : Handles srv i self p) (hcmd : p.cmd = msgTypeLogin) :
    ∃ (srv₁ : ChatServer) (self₁ : ChatSession), srv₁.users = srv.users ∧ srv₁.output = srv.output ∧
      (serverStep env srv i).output = (srv₁.onLoginResponse env self₁ p.data).1.output := by
  refine ⟨srv.modify self.id fun s => { s with seq := p.seq }, { self with seq := p.seq }, rfl, rfl,
    output_serverStep h ?_⟩
  rw [dispatch, if_pos hcmd]

private theorem username_not_coded (code : Int) (msg : Bytes) (v : Tree) :
    (text "username", v) ∉ codedMembers code msg := by
  have hkeys : text "username" ∉ [text "code", text "msg"] := by
    simp only [text_eq rfl]
    decide
  intro hv
  have hkey : text "username" ∈ (codedMembers code msg).map Prod.fst := List.mem_map_of_mem hv
  exact hkeys hkey

private theorem fieldsRight_login (hcmd : p.cmd = msgTypeLogin) {username password : Bytes}
    (hreq : loginRequest env.json p.data = some (username, password))
    (members : List (Bytes × Tree)) :
    FieldsRight float env srv self p members ↔ ∀ v, (text "username", v) ∈ members →
      v = .string (getUserInfoByUsername srv.users username).username := by
  rw [FieldsRight, if_pos hcmd]
  constructor
  · intro h
    exact h username password hreq
  · intro h username' password' hreq'
    cases hreq.symm.trans hreq'
    exact h

/-- A login with the wrong password. -/
theorem wrong_wellFormed {i : ServerInput} (h : Handles srv i self p)
    (hcmd : p.cmd = msgTypeLogin) {username password : Bytes}
    (hreq : loginRequest env.json p.data = some (username, password))
    (hwrong : (getUserInfoByUsername srv.users username).password ≠ password) :
    RepliesWellFormed float env srv self p (serverStep env srv i) := by
  obtain ⟨srv₁, self₁, husers, hsame, houtput⟩ := output_login env h hcmd
  rw [← husers] at hwrong
  rw [onLoginResponse_wrong hreq hwrong] at houtput
  obtain ⟨_, ⟨frames, hframes, hdecode⟩, _, _⟩ :=
    replyLogin_fits env srv₁ self₁ packageSize_incorrectPassword
  refine ⟨_, ⟨frames, by rw [houtput, hframes, hsame], hdecode⟩, ?_⟩
  intro q hq _
  rw [List.mem_singleton.mp hq, incorrectPassword_eq]
  have hmsg : Verbatim (text "incorrect password") := verbatim_text rfl rfl
  refine ⟨_, parse_coded 1 hmsg, nodup_coded _ _, ?_⟩
  rw [fieldsRight_login hcmd hreq]
  intro v hv
  exact absurd hv (username_not_coded _ _ v)

/-- A login that is accepted: its reply has the name as it is. -/
theorem right_wellFormed_iff {i : ServerInput} (h : Handles srv i self p)
    (hcmd : p.cmd = msgTypeLogin) {username password : Bytes}
    (hreq : loginRequest env.json p.data = some (username, password))
    (hright : (getUserInfoByUsername srv.users username).password = password)
    (hfits : packageSize (loginOk (getUserInfoByUsername srv.users username).userid
      (getUserInfoByUsername srv.users username).username) < 2 ^ 31) :
    RepliesWellFormed float env srv self p (serverStep env srv i) ↔
      Verbatim (getUserInfoByUsername srv.users username).username := by
  obtain ⟨srv₁, self₁, husers, hsame, houtput⟩ := output_login env h hcmd
  have hkicktype : msgTypeKickuser ∉ replyTypes := by decide
  have hlogintype : msgTypeLogin ∈ replyTypes := by decide
  rw [← husers] at hright hfits
  obtain ⟨_, ⟨frames, hframes, hdecode⟩, _, _⟩ := onLoginResponse_right self₁ hreq hright hfits
  have hdelivers : Delivers srv (serverStep env srv i) _ :=
    ⟨frames, by rw [houtput, hframes, hsame], hdecode⟩
  rw [husers] at hdelivers
  generalize hu : getUserInfoByUsername srv.users username = u at hdelivers ⊢
  constructor
  · rintro ⟨ps, hps, hwell⟩
    rw [hps.unique hdelivers] at hwell
    obtain ⟨members, hparse, _, hfields⟩ :=
      hwell _ (List.mem_append_right _ (List.mem_singleton.mpr rfl)) hlogintype
    rw [fieldsRight_login hcmd hreq, hu] at hfields
    exact verbatim_of_loginOk hparse hfields
  · intro hname
    refine ⟨_, hdelivers, fun q hq htype => ?_⟩
    rcases List.mem_append.mp hq with hkick | hreply
    · obtain ⟨_, _, rfl⟩ := List.mem_map.mp hkick
      exact absurd htype hkicktype
    · rw [List.mem_singleton.mp hreply]
      refine ⟨_, parse_loginOk u.userid hname, ?_, ?_⟩
      · have hkeys : [text "code", text "msg", text "userid", text "username"].Nodup := by
          simp only [text_eq rfl]
          decide
        exact hkeys
      · rw [fieldsRight_login hcmd hreq, hu]
        intro v hv
        rcases List.mem_append.mp hv with hfirst | hlast
        · exact absurd hfirst (username_not_coded _ _ v)
        · rcases List.mem_cons.mp hlast with huserid | hlast
          · have hkey : text "username" ≠ text "userid" := by
              simp only [text_eq rfl]
              decide
            exact absurd (congrArg Prod.fst huserid) hkey
          · exact congrArg Prod.snd (List.mem_singleton.mp hlast)

/-- A stored name is no longer than the request that asks for it. -/
theorem packageSize_login {username password : Bytes} (hjson : env.json.Faithful float)
    (hids : ∀ u ∈ srv.users, InInt32 u.userid) (hdata : (p.data.length : Int) ≤ maxPackageSize)
    (hreq : loginRequest env.json p.data = some (username, password)) :
    packageSize (loginOk (getUserInfoByUsername srv.users username).userid
      (getUserInfoByUsername srv.users username).username) < 2 ^ 31 := by
  rw [getUserInfoByUsername_eq]
  cases hu : findUser srv.users username with
  | none => exact packageSize_loginOk (by constructor <;> decide) (by decide)
  | some u =>
    apply packageSize_loginOk (hids u (List.mem_of_find?_eq_some hu))
    rw [Option.getD_some, username_of_findUser hu]
    have hle := length_username_le hjson.bounded hreq
    omega

private theorem login_wellFormed_iff {i : ServerInput} (hjson : env.json.Faithful float)
    (hids : ∀ u ∈ srv.users, InInt32 u.userid) (hdata : (p.data.length : Int) ≤ maxPackageSize)
    (h : Handles srv i self p) (hcmd : p.cmd = msgTypeLogin) :
    RepliesWellFormed float env srv self p (serverStep env srv i) ↔
      ∀ username password, loginRequest env.json p.data = some (username, password) →
        (getUserInfoByUsername srv.users username).password = password →
          Verbatim (getUserInfoByUsername srv.users username).username := by
  cases hreq : loginRequest env.json p.data with
  | none =>
    obtain ⟨srv₁, self₁, _, hsame, houtput⟩ := output_login env h hcmd
    have hnothing : srv₁.onLoginResponse env self₁ p.data = (srv₁, false) := by
      simp only [onLoginResponse, hreq]
    rw [hnothing, hsame] at houtput
    refine iff_of_true (wellFormed_silent houtput) fun username password hsome => ?_
    cases hsome
  | some credentials =>
    obtain ⟨username, password⟩ := credentials
    by_cases hright : (getUserInfoByUsername srv.users username).password = password
    · rw [right_wellFormed_iff h hcmd hreq hright (packageSize_login hjson hids hdata hreq)]
      constructor
      · intro hname username' password' hsame _
        cases hsame
        exact hname
      · intro hall
        exact hall username password rfl hright
    · refine iff_of_true (wrong_wellFormed h hcmd hreq hright) ?_
      intro username' password' hsame hright'
      cases hsame
      exact absurd hright' hright

/-- The replies to a login, getuserlist, getMsgs or chat request are well formed exactly when
an accepted name needs no escape, a list has elements and its text is not cut, and the request
is not a chat message that is accepted. -/
theorem replies_well_formed_iff {session : Nat} {beyond : Beyond} {body : Bytes}
    (hjson : env.json.Faithful float) (hids : ∀ u ∈ srv.users, InInt32 u.userid)
    (hhandles : Handles srv (.packet session beyond body) self p)
    (hbody : (body.length : Int) ≤ maxPackageSize) (hcmd : p.cmd ∈ replyTypes) :
    RepliesWellFormed float env srv self p (serverStep env srv (.packet session beyond body)) ↔
      RepliesCondition env srv self p := by
  by_cases hlogin : p.cmd = msgTypeLogin
  · have hdata := length_data_of_handles hhandles hbody
    rw [RepliesCondition, if_pos hlogin]
    exact login_wellFormed_iff hjson hids hdata hhandles hlogin
  · rw [RepliesCondition, if_neg hlogin]
    cases hset : self.isLogin with
    | false =>
      rw [if_neg Bool.false_ne_true]
      exact iff_of_true (refused_wellFormed hhandles hcmd hlogin hset) trivial
    | true =>
      rw [if_pos rfl]
      have hother : p.cmd = msgTypeGetuserlist ∨ p.cmd = msgTypeGetMsgs ∨ p.cmd = msgTypeChat := by
        simp only [replyTypes, List.mem_cons, List.not_mem_nil, or_false] at hcmd
        exact hcmd.resolve_left hlogin
      rcases hother with hlist | hmsgs | hchat
      · have hno : p.cmd ≠ msgTypeGetMsgs := by
          rw [hlist]
          decide
        rw [userlist_wellFormed_iff hjson hhandles hlist hset]
        exact ⟨fun h => Or.inl ⟨hlist, h⟩, fun h => (h.resolve_right fun h => hno h.1).2⟩
      · have hno : p.cmd ≠ msgTypeGetuserlist := by
          rw [hmsgs]
          decide
        rw [msgs_wellFormed_iff hjson hhandles hmsgs hset]
        exact ⟨fun h => Or.inr ⟨hmsgs, h⟩, fun h => (h.resolve_left fun h => hno h.1).2⟩
      · refine iff_of_false (chat_not_wellFormed hhandles hchat hset hbody) ?_
        rw [hchat]
        rintro (⟨htype, _⟩ | ⟨htype, _⟩)
        · exact absurd htype (by decide)
        · exact absurd htype (by decide)

end Lemmas

/-- A library that prints the null value only. -/
def dumpNull : Json → Option Bytes
  | .null => some (text "null")
  | _ => none

/-- The texts of a login and a chat message, and their values. -/
def replyTexts : List (Bytes × Json) := [credentials "amy" "a1", (text "1", .numberInteger 1)]

/-- An environment whose library meets these texts only. -/
def replyEnv : Env :=
  { sampleEnv replyTexts with json := ⟨fun data => replyTexts.lookup data, dumpNull⟩ }

private theorem replyEnv_parse {data : Bytes} {j : Json} (h : replyEnv.json.parse data = some j) :
    (data, j) = credentials "amy" "a1" ∨ (data, j) = (text "1", .numberInteger 1) := by
  obtain ⟨before, after, hlist, _⟩ := List.lookup_eq_some_iff.mp h
  have hmem : (data, j) ∈ replyTexts := by
    rw [hlist]
    exact List.mem_append_right _ (List.mem_cons_self ..)
  rcases List.mem_cons.mp hmem with hlogin | hchat
  · exact Or.inl hlogin
  · exact Or.inr (List.mem_singleton.mp hchat)

private theorem length_credentials {key s : Bytes}
    (h : (credentials "amy" "a1").2.stringAt key = some s) : s.length ≤ 3 := by
  simp only [credentials, Json.stringAt] at h
  split at h
  · next hlookup =>
    cases h
    obtain ⟨before, after, hlist, _⟩ := List.lookup_eq_some_iff.mp hlookup
    have hmem : (key, Json.string s) ∈ [(text "password", Json.string (text "a1")),
        (text "username", Json.string (text "amy"))] := by
      rw [hlist]
      exact List.mem_append_right _ (List.mem_cons_self ..)
    rcases List.mem_cons.mp hmem with hpassword | hname
    · rw [Json.string.inj (congrArg Prod.snd hpassword)]
      decide +kernel
    · rw [Json.string.inj (congrArg Prod.snd (List.mem_singleton.mp hname))]
      decide +kernel
  · cases h

private theorem replyEnv_faithful : replyEnv.json.Faithful fun _ => none := by
  constructor
  · intro j t _ hdump
    cases j with
    | null =>
      cases hdump
      exact ⟨.null, parse_null, .null⟩
    | _ => cases hdump
  · intro data j hparse
    rcases replyEnv_parse hparse with hlogin | hchat
    · rw [show j = (credentials "amy" "a1").2 from congrArg Prod.snd hlogin, credentials]
      apply Json.Finite.object
      intro m hm
      rcases List.mem_cons.mp hm with rfl | hm
      · exact .string _
      · rw [List.mem_singleton.mp hm]
        exact .string _
    · rw [show j = .numberInteger 1 from congrArg Prod.snd hchat]
      exact .numberInteger 1
  · intro data j key s hparse hs
    rcases replyEnv_parse hparse with hlogin | hchat
    · rw [show j = (credentials "amy" "a1").2 from congrArg Prod.snd hlogin] at hs
      rw [show data = (credentials "amy" "a1").1 from congrArg Prod.fst hlogin]
      have hlong : 3 ≤ (credentials "amy" "a1").1.length := by decide +kernel
      exact (length_credentials hs).trans hlong
    · rw [show j = .numberInteger 1 from congrArg Prod.snd hchat] at hs
      cases hs
  · rfl

/-- A client has connected. -/
def connectedServer : ChatServer :=
  serverStep replyEnv (start [⟨1, text "amy", text "a1"⟩] []) .connect

/-- It logs in, under a name that needs no escape. -/
theorem login_reply_wellFormed :
    RepliesWellFormed (fun _ => none) replyEnv connectedServer (.new 1)
      ⟨msgTypeLogin, 0, (credentials "amy" "a1").1⟩
      (serverStep replyEnv connectedServer
        (packetOf 1 msgTypeLogin (credentials "amy" "a1").1)) := by
  have hhandles : Handles connectedServer (packetOf 1 msgTypeLogin (credentials "amy" "a1").1)
      (.new 1) ⟨msgTypeLogin, 0, (credentials "amy" "a1").1⟩ :=
    ⟨by decide +kernel, 1, _, _, rfl, by decide +kernel,
      readPacket_package _ _ _ (by decide +kernel)⟩
  apply (replies_well_formed_iff replyEnv_faithful ?_ hhandles (by decide +kernel) (by decide)).mpr
  · rw [RepliesCondition, if_pos rfl]
    intro username password hreq _
    have hknown : loginRequest replyEnv.json (credentials "amy" "a1").1 =
        some (text "amy", text "a1") := by
      decide +kernel
    cases hknown.symm.trans hreq
    have hname : (getUserInfoByUsername connectedServer.users (text "amy")).username =
        text "amy" := by
      decide +kernel
    rw [hname]
    exact verbatim_text rfl rfl
  · intro u hu
    rw [List.mem_singleton.mp hu]
    constructor <;> decide

/-- The state after its login. -/
def loggedInServer : ChatServer :=
  serverStep replyEnv connectedServer (packetOf 1 msgTypeLogin (credentials "amy" "a1").1)

/-- It sends the message `1`, and the reply has the key `msg` twice. -/
theorem chat_reply_repeats_key :
    replyEnv.json.Faithful (fun _ => none) ∧
      replyEnv.json.parse (text "1") = some (.numberInteger 1) ∧
      ¬ RepliesWellFormed (fun _ => none) replyEnv loggedInServer ⟨1, 1, text "amy", 1, true⟩
        ⟨msgTypeChat, 0, text "1"⟩
        (serverStep replyEnv loggedInServer (packetOf 1 msgTypeChat (text "1"))) := by
  have hhandles : Handles loggedInServer (packetOf 1 msgTypeChat (text "1"))
      ⟨1, 1, text "amy", 1, true⟩ ⟨msgTypeChat, 0, text "1"⟩ :=
    ⟨by decide +kernel, 1, _, _, rfl, by decide +kernel,
      readPacket_package _ _ _ (by decide +kernel)⟩
  have hvalid : replyEnv.json.parse (text "1") = some (.numberInteger 1) := by
    apply List.lookup_eq_some_iff.mpr
    refine ⟨[credentials "amy" "a1"], [], rfl, fun q hq => ?_⟩
    rw [List.mem_singleton.mp hq]
    decide +kernel
  exact ⟨replyEnv_faithful, hvalid, chat_not_wellFormed hhandles rfl rfl (by decide +kernel)⟩

end ChatRoom.Chat
