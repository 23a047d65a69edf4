import ChatRoom.Core.JsonParts
import ChatRoom.Chat.LoginOutcome

/-!
# The texts of the replies

Every reply starts with a code and a message that the handler writes by hand. What
follows is written by hand as well (the account of a login, the key of a list), printed
by the JSON library (the lists), or copied from the request (a chat message). Here each
text is read back as a tree.
-/

namespace ChatRoom.Chat

open ChatRoom.Core ChatRoom.Core.JsonText

/-- A literal is valid UTF-8. -/
theorem verbatim_text {s : String} {cs : List Char} (h : s = String.ofList cs)
    (hplain : (cs.flatMap String.utf8EncodeChar).all (fun c => 32 ≤ c ∧ c ≠ 34 ∧ c ≠ 92)) :
    Verbatim (text s) := by
  rw [text_eq h]
  refine ⟨fun c hc => ?_, cs, rfl⟩
  exact of_decide_eq_true (List.all_eq_true.mp hplain c hc)

/-- The code and the message that every reply starts with. -/
def coded (code : Int) (msg : Bytes) : Bytes :=
  123 :: 34 :: (text "code" ++ 34 :: 58 :: 32 :: (Decimal.encode code ++ 44 :: 32 :: 34 ::
    (text "msg" ++ 34 :: 58 :: 32 :: 34 :: (msg ++ [34]))))

/-- The members of these two. -/
def codedMembers (code : Int) (msg : Bytes) : List (Bytes × Tree) :=
  [(text "code", .number (Decimal.encode code)), (text "msg", .string msg)]

private theorem verbatim_code : Verbatim (text "code") := verbatim_text rfl rfl

private theorem verbatim_msg : Verbatim (text "msg") := verbatim_text rfl rfl

/-- `ok` needs no escape. -/
theorem verbatim_ok : Verbatim (text "ok") := verbatim_text rfl rfl

private theorem stops_cons {c : UInt8} (h : isNumberByte c = false) (rest : Bytes) :
    Stops (c :: rest) := by
  intro d hd
  cases hd
  exact h

private theorem member_code (code : Int) (rest : Bytes) (n : Nat) :
    member (value (n + 1)) (34 :: (text "code" ++ 34 :: 58 :: 32 ::
      (Decimal.encode code ++ 44 :: rest))) =
        some ((text "code", .number (Decimal.encode code)), 44 :: rest) := by
  rw [member_verbatim verbatim_code, value_space, value_encode code (stops_cons rfl rest),
    Option.map_some]

private theorem value_quote (n : Nat) (bs : Bytes) :
    value (n + 1) (34 :: bs) = (string bs).map fun r => (.string r.1, r.2) := rfl

private theorem member_msg {msg : Bytes} (h : Verbatim msg) (rest : Bytes) (n : Nat) :
    member (value (n + 1)) (32 :: 34 :: (text "msg" ++ 34 :: 58 :: 32 :: 34 ::
      (msg ++ 34 :: rest))) = some ((text "msg", .string msg), rest) := by
  rw [member_space, member_verbatim verbatim_msg, value_space, value_quote, string_verbatim h,
    Option.map_some, Option.map_some]

private theorem coded_append (code : Int) (msg rest : Bytes) :
    coded code msg ++ rest = 123 :: 34 :: (text "code" ++ 34 :: 58 :: 32 ::
      (Decimal.encode code ++ 44 :: 32 :: 34 ::
        (text "msg" ++ 34 :: 58 :: 32 :: 34 :: (msg ++ 34 :: rest)))) := by
  simp only [coded, List.append_assoc, List.cons_append, List.nil_append]

private theorem value_members (n : Nat) (rest : Bytes) :
    value (n + 1) (123 :: 34 :: rest) =
      (sequence (member (value n)) 125 n (34 :: rest)).map fun r => (.object r.1, r.2) := rfl

/-- The members of a reply after the first two. -/
theorem value_coded_more (code : Int) {msg : Bytes} (h : Verbatim msg) (rest : Bytes) (n : Nat) :
    value (n + 3) (coded code msg ++ 44 :: rest) =
      (sequence (member (value (n + 2))) 125 n rest).map fun r =>
        (.object (codedMembers code msg ++ r.1), r.2) := by
  rw [coded_append, value_members, sequence_comma (member_code code _ (n + 1)) (by decide),
    sequence_comma (member_msg h (44 :: rest) (n + 1)) (by decide), Option.map_map,
    Option.map_map]
  rfl

/-- A reply of a code and a message. -/
theorem parse_coded (code : Int) {msg : Bytes} (h : Verbatim msg) :
    parse (coded code msg ++ [125]) = some (.object (codedMembers code msg)) := by
  have hlast : member (value 3) (32 :: 34 :: (text "msg" ++ 34 :: 58 :: 32 :: 34 ::
      (msg ++ 34 :: [125]))) = some ((text "msg", .string msg), [] ++ 125 :: []) :=
    member_msg h [125] 2
  rw [parse_eq_some_iff]
  refine ⟨4, [], ?_, rfl⟩
  rw [coded_append, value_members, sequence_comma (member_code code _ 2) (by decide),
    sequence_close hlast rfl rfl, Option.map_some, Option.map_some]
  rfl

/-- A reply with one more member, under a key that is written as it is. -/
theorem parse_coded_member (code : Int) {msg key t : Bytes} {tree : Tree} (h : Verbatim msg)
    (hkey : Verbatim key) (ht : parse t = some tree) :
    parse (coded code msg ++ 44 :: 32 :: 34 :: (key ++ 34 :: 58 :: (t ++ [125]))) =
      some (.object (codedMembers code msg ++ [(key, tree)])) := by
  obtain ⟨space, hspace, hvalue⟩ :=
    value_append_of_parse ht (stops_cons (c := 125) rfl []) (Nat.le_add_right t.length 3)
  have hmember : member (value (t.length + 3)) (32 :: 34 :: (key ++ 34 :: 58 :: (t ++ [125]))) =
      some ((key, tree), space ++ [125]) := by
    rw [member_space, member_verbatim hkey, hvalue, Option.map_some]
  rw [parse_eq_some_iff]
  refine ⟨t.length + 4, [], ?_, rfl⟩
  rw [value_coded_more code h, sequence_close hmember hspace rfl, Option.map_some]

/-- Whatever follows its key, the third member of a reply has that key. -/
theorem third_of_parse {code : Int} {msg key rest : Bytes} {members : List (Bytes × Tree)}
    (h : Verbatim msg) (hkey : Verbatim key)
    (hparse : parse (coded code msg ++ 44 :: 32 :: 34 :: (key ++ 34 :: 58 :: rest)) =
      some (.object members)) :
    ∃ v more, members = codedMembers code msg ++ (key, v) :: more := by
  obtain ⟨after, hvalue, _⟩ := value_of_parse hparse (Nat.le_add_right _ 3)
  rw [value_coded_more code h] at hvalue
  obtain ⟨r, hr, heq⟩ := Option.map_eq_some_iff.mp hvalue
  obtain ⟨first, more, hfirst, hlist⟩ := head_of_sequence hr
  rw [member_space, member_verbatim hkey] at hfirst
  obtain ⟨v, _, hmember⟩ := Option.map_eq_some_iff.mp hfirst
  cases (Prod.mk.inj heq).1
  rw [hlist, ← hmember]
  exact ⟨v.1, more, rfl⟩

/-! ## The replies of the handlers -/

/-- The code of an answer that went well. -/
theorem encode_zero : Decimal.encode 0 = [48] := Decimal.encode_digit (d := 0) (by decide)

/-- The answer as members with a code and a text. -/
theorem notLogin_eq :
    notLogin = coded 2 (text "not login, please login first!") ++ [125] := by
  have hcode : Decimal.encode 2 = [50] := Decimal.encode_digit (d := 2) (by decide)
  simp only [notLogin, coded, hcode, text_eq rfl]
  rfl

/-- The answer as members with a code and a text. -/
theorem incorrectPassword_eq :
    incorrectPassword = coded 1 (text "incorrect password") ++ [125] := by
  have hcode : Decimal.encode 1 = [49] := Decimal.encode_digit (d := 1) (by decide)
  simp only [incorrectPassword, coded, hcode, text_eq rfl]
  rfl

/-- The answer as members with a code, a text and the list. -/
theorem userListReply_eq (userlist : Bytes) :
    userListReply userlist = coded 0 (text "ok") ++ 44 :: 32 :: 34 ::
      (text "userlistinfo" ++ 34 :: 58 :: (userlist ++ [125])) := by
  have hfirst : text "\x7b\"code\": 0, \"msg\": \"ok\", \"userlistinfo\":" =
      coded 0 (text "ok") ++ 44 :: 32 :: 34 :: (text "userlistinfo" ++ [34, 58]) := by
    simp only [coded, encode_zero, text_eq rfl]
    rfl
  have hlast : text "\x7d" = [125] := text_eq rfl
  rw [userListReply, hfirst, hlast]
  simp only [List.append_assoc, List.cons_append, List.nil_append]

/-- The answer as members with a code, a text and the list. -/
theorem msgsReply_eq (data : Bytes) :
    msgsReply data = coded 0 (text "ok") ++ 44 :: 32 :: 34 ::
      (text "msgs" ++ 34 :: 58 :: (data ++ [125])) := by
  have hfirst : text "\x7b\"code\": 0, \"msg\": \"ok\", \"msgs\":" =
      coded 0 (text "ok") ++ 44 :: 32 :: 34 :: (text "msgs" ++ [34, 58]) := by
    simp only [coded, encode_zero, text_eq rfl]
    rfl
  have hlast : text "\x7d" = [125] := text_eq rfl
  rw [msgsReply, hfirst, hlast]
  simp only [List.append_assoc, List.cons_append, List.nil_append]

private theorem chatReply_eq (data : Bytes) :
    chatReply data = coded 0 (text "ok") ++ 44 :: 32 :: 34 ::
      (text "msg" ++ 34 :: 58 :: (32 :: (data ++ [125]))) := by
  have hfirst : text "\x7b\"code\": 0, \"msg\": \"ok\", \"msg\": " =
      coded 0 (text "ok") ++ 44 :: 32 :: 34 :: (text "msg" ++ [34, 58, 32]) := by
    simp only [coded, encode_zero, text_eq rfl]
    rfl
  have hlast : text "\x7d" = [125] := text_eq rfl
  rw [chatReply, hfirst, hlast]
  simp only [List.append_assoc, List.cons_append, List.nil_append]

private theorem loginOk_eq (userid : Int) (username : Bytes) :
    loginOk userid username = coded 0 (text "ok") ++ 44 :: 32 :: 34 ::
      (text "userid" ++ 34 :: 58 :: (32 :: (Decimal.encode userid ++ 44 :: 34 ::
        (text "username" ++ 34 :: 58 :: 34 :: (username ++ [34, 125]))))) := by
  have hfirst : text "\x7b\"code\": 0, \"msg\": \"ok\", \"userid\": " =
      coded 0 (text "ok") ++ 44 :: 32 :: 34 :: (text "userid" ++ [34, 58, 32]) := by
    simp only [coded, encode_zero, text_eq rfl]
    rfl
  have hname : text ",\"username\":\"" = 44 :: 34 :: (text "username" ++ [34, 58, 34]) := by
    simp only [text_eq rfl]
    rfl
  have hlast : text "\"\x7d" = [34, 125] := text_eq rfl
  have hnumber : text (toString userid) = Decimal.encode userid := Decimal.utf8_toString userid
  rw [loginOk, hfirst, hname, hlast, hnumber]
  simp only [List.append_assoc, List.cons_append, List.nil_append]

/-- A reply to a chat message has the key of its message twice. -/
theorem not_nodup_chatReply {data : Bytes} {members : List (Bytes × Tree)}
    (h : parse (chatReply data) = some (.object members)) :
    ¬ (members.map Prod.fst).Nodup := by
  rw [chatReply_eq] at h
  obtain ⟨v, more, rfl⟩ := third_of_parse verbatim_ok verbatim_msg h
  intro hnodup
  have htail := (List.nodup_cons.mp hnodup).2
  exact (List.nodup_cons.mp htail).1 (List.mem_cons_self ..)

/-- `userid` needs no escape. -/
theorem verbatim_userid : Verbatim (text "userid") := verbatim_text rfl rfl

/-- `username` needs no escape. -/
theorem verbatim_username : Verbatim (text "username") := verbatim_text rfl rfl

/-- The members of a login reply, up to the name. -/
theorem value_loginOk (userid : Int) (username : Bytes) (n : Nat) :
    value (n + 4) (loginOk userid username) =
      (sequence (member (value (n + 3))) 125 n
        (34 :: (text "username" ++ 34 :: 58 :: 34 :: (username ++ [34, 125])))).map fun r =>
          (.object (codedMembers 0 (text "ok") ++
            (text "userid", .number (Decimal.encode userid)) :: r.1), r.2) := by
  have hmember : member (value (n + 3)) (32 :: 34 :: (text "userid" ++ 34 :: 58 :: (32 ::
      (Decimal.encode userid ++ 44 :: 34 ::
        (text "username" ++ 34 :: 58 :: 34 :: (username ++ [34, 125])))))) =
      some ((text "userid", .number (Decimal.encode userid)), 44 :: 34 ::
        (text "username" ++ 34 :: 58 :: 34 :: (username ++ [34, 125]))) := by
    rw [member_space, member_verbatim verbatim_userid, value_space,
      value_encode userid (stops_cons rfl _), Option.map_some]
  rw [loginOk_eq, value_coded_more 0 verbatim_ok, sequence_comma hmember (by decide),
    Option.map_map]
  rfl

private theorem member_username (n : Nat) (username : Bytes) :
    member (value (n + 1)) (34 :: (text "username" ++ 34 :: 58 :: 34 :: (username ++ [34, 125]))) =
      (string (username ++ [34, 125])).map fun r => ((text "username", .string r.1), r.2) := by
  rw [member_verbatim verbatim_username, value_quote, Option.map_map]
  rfl

/-- A name that needs no escape stands in the reply as it is. -/
theorem parse_loginOk (userid : Int) {username : Bytes} (h : Verbatim username) :
    parse (loginOk userid username) = some (.object (codedMembers 0 (text "ok") ++
      [(text "userid", .number (Decimal.encode userid)), (text "username", .string username)])) := by
  have hlast : member (value 4)
      (34 :: (text "username" ++ 34 :: 58 :: 34 :: (username ++ [34, 125]))) =
        some ((text "username", .string username), [] ++ 125 :: []) := by
    rw [member_username, string_verbatim h, Option.map_some]
    rfl
  rw [parse_eq_some_iff]
  refine ⟨5, [], ?_, rfl⟩
  rw [value_loginOk, sequence_close hlast rfl rfl, Option.map_some]

/-- A name that the reply gives back unchanged needs no escape. -/
theorem verbatim_of_loginOk {userid : Int} {username : Bytes} {members : List (Bytes × Tree)}
    (h : parse (loginOk userid username) = some (.object members))
    (hname : ∀ v, (text "username", v) ∈ members → v = .string username) : Verbatim username := by
  obtain ⟨after, hvalue, _⟩ := value_of_parse h (Nat.le_add_right _ 4)
  rw [value_loginOk] at hvalue
  obtain ⟨r, hr, heq⟩ := Option.map_eq_some_iff.mp hvalue
  obtain ⟨first, more, hfirst, hlist⟩ := head_of_sequence hr
  rw [member_username] at hfirst
  obtain ⟨s, hs, hmember⟩ := Option.map_eq_some_iff.mp hfirst
  cases (Prod.mk.inj heq).1
  rw [hlist, ← hmember] at hname
  have hsame : Tree.string s.1 = .string username := by
    apply hname
    simp
  cases hsame
  exact verbatim_of_string (by decide) hs

end ChatRoom.Chat
