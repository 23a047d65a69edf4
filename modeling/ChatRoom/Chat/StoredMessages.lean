import ChatRoom.Chat.Exceptions
import ChatRoom.Chat.StartupLoad

/-!
# The messages in the library of the server

Each row of the message table is printed by the JSON library and stored; each chat message is
stored as it came; and all of them are parsed and printed again for a client. With the library
that the server is built with, the rows come back as they were, and so does every chat message
that is a JSON text.
-/

namespace ChatRoom.Chat

open ChatRoom.Core Net ChatServer Nlohmann

section Rows

variable {toChars : BitVec 64 → Bytes} {strtod : Bytes → BitVec 64} {row : ChatMsg}

/-- The numbers of a row are those of an `int`. -/
def ChatMsg.InRange (row : ChatMsg) : Prop := InInt32 row.msgid ∧ InInt32 row.senderid

/-- The texts of a row are UTF-8. -/
def ChatMsg.Utf8 (row : ChatMsg) : Prop :=
  row.msgcontent.toByteArray.IsValidUTF8 ∧ row.senderusername.toByteArray.IsValidUTF8 ∧
    row.sendtimeStr.toByteArray.IsValidUTF8

private theorem every_toJson_iff {P : Json → Prop} (hnumber : ∀ n, InInt32 n → P (.numberInteger n))
    (hrow : row.InRange) (hself : P row.toJson) :
    Json.Every P row.toJson ↔ P (.string row.msgcontent) ∧ P (.string row.senderusername) ∧
      P (.string row.sendtimeStr) := by
  rw [ChatMsg.toJson, Json.every_object_iff]
  refine (and_iff_right hself).trans ?_
  simp only [List.forall_mem_cons, Json.every_string_iff, Json.every_numberInteger_iff,
    hnumber _ hrow.1, hnumber _ hrow.2, true_and]
  exact and_congr_right fun _ => and_congr_right fun _ => and_iff_left (List.forall_mem_nil _)

private theorem held_toJson (hrow : row.InRange) : row.toJson.Held := by
  have hnumber : ∀ n, InInt32 n → Json.HeldHere (.numberInteger n) := by
    intro n hn
    have hlow := hn.1
    have hhigh := hn.2
    constructor <;> omega
  have hkeys : [text "msgcontent", text "msgid", text "senderid", text "senderusername",
      text "sendtime_str"].Pairwise (· < ·) := by
    simp only [text_eq rfl]
    decide
  have hself : Json.HeldHere row.toJson := List.pairwise_map.mp hkeys
  exact (every_toJson_iff hnumber hrow hself).mpr ⟨trivial, trivial, trivial⟩

private theorem utf8_toJson_iff (hrow : row.InRange) : row.toJson.Utf8 ↔ row.Utf8 := by
  have hself : Json.Utf8Here row.toJson := by
    have hkey : ∀ k ∈ [text "msgcontent", text "msgid", text "senderid", text "senderusername",
        text "sendtime_str"], k.toByteArray.IsValidUTF8 := by
      simp only [List.forall_mem_cons]
      exact ⟨(verbatim_text rfl rfl).valid, (verbatim_text rfl rfl).valid,
        (verbatim_text rfl rfl).valid, (verbatim_text rfl rfl).valid,
        (verbatim_text rfl rfl).valid, nofun⟩
    exact fun m hm => hkey m.1 (List.mem_map_of_mem hm)
  exact every_toJson_iff (fun _ _ => trivial) hrow hself

private theorem floatsPrinted_toJson (hrow : row.InRange) :
    FloatsPrinted toChars strtod row.toJson :=
  (every_toJson_iff (fun _ _ _ => nofun) hrow nofun).mpr ⟨nofun, nofun, nofun⟩

private theorem finite_toJson (row : ChatMsg) : row.toJson.Finite := by
  apply Json.Finite.object
  intro m hm
  simp only [List.mem_cons, List.not_mem_nil, or_false] at hm
  rcases hm with rfl | rfl | rfl | rfl | rfl
  · exact .string _
  · exact .numberInteger _
  · exact .numberInteger _
  · exact .string _
  · exact .string _

/-- A row whose texts are UTF-8 is printed and read back. -/
theorem prints_toJson (hrow : row.InRange) (h : row.Utf8) :
    (nlohmann toChars strtod).Prints row.toJson :=
  exists_dump_parse (floatsPrinted_toJson hrow) (held_toJson hrow) (finite_toJson row)
    ((utf8_toJson_iff hrow).mpr h)

end Rows

section Load

variable {toChars : BitVec 64 → Bytes} {strtod : Bytes → BitVec 64}

private theorem mapM_isSome_iff {α β : Type} {f : α → Option β} {l : List α} :
    (∃ bs, l.mapM f = some bs) ↔ ∀ a ∈ l, (f a).isSome = true := by
  rw [← Option.ne_none_iff_exists', ne_eq, mapM_eq_none_iff]
  push Not
  exact forall₂_congr fun a _ => Option.ne_none_iff_isSome

/-- What is read of a column is the number of an `int`, as what the variable holds before is. -/
theorem inInt32_convertFromString {value : Int} (h : InInt32 value) (str : Bytes) :
    InInt32 (MsgCacheManager.convertFromString value str) := by
  have hclamp : ∀ n, InInt32 (MsgCacheManager.clampInt n) := by
    intro n
    unfold MsgCacheManager.clampInt
    constructor <;> omega
  have hdigits : ∀ (digits : Option Int) (sign : Int → Int),
      InInt32 ((digits.map fun n => MsgCacheManager.clampInt (sign n)).getD 0) := by
    intro digits sign
    cases digits with
    | none =>
      rw [Option.map_none, Option.getD_none]
      constructor <;> decide
    | some n => exact hclamp (sign n)
  unfold MsgCacheManager.convertFromString
  split
  · exact h
  · split
    · exact hdigits _ fun n => -n
    · split
      · exact hdigits _ fun n => n
      · exact hdigits _ fun n => n

/-- The columns that the load prints are UTF-8. -/
def MsgCacheManager.Row.Utf8 (row : MsgCacheManager.Row) : Prop :=
  row.msgcontent.toByteArray.IsValidUTF8 ∧ row.username.toByteArray.IsValidUTF8 ∧
    row.createTime.toByteArray.IsValidUTF8

/-- The load does not throw exactly when these columns of all rows are UTF-8, and what it stores
then reads back as the rows. -/
theorem load_reads_back_iff {rows : List MsgCacheManager.Row}
    (hstack : ∀ row ∈ rows, InInt32 row.stack.1 ∧ InInt32 row.stack.2) :
    ((rows.mapM (MsgCacheManager.Row.dumped (nlohmann toChars strtod))).isSome = true ↔
        ∀ row ∈ rows, row.Utf8) ∧
      ∀ startup, rows.mapM (MsgCacheManager.Row.dumped (nlohmann toChars strtod)) = some startup →
        startup.map (parse strtod) = rows.map fun row => some row.toChatMsg.toJson := by
  have hrange : ∀ row ∈ rows, row.toChatMsg.InRange := fun row hrow =>
    ⟨inInt32_convertFromString (hstack row hrow).1 _,
      inInt32_convertFromString (hstack row hrow).2 _⟩
  have hprinted : ∀ row ∈ rows,
      (row.dumped (nlohmann toChars strtod)).isSome = true ↔ row.Utf8 := fun row hrow =>
    (dump_isSome_iff toChars _).trans (utf8_toJson_iff (hrange row hrow))
  refine ⟨?_, fun startup hload => ?_⟩
  · rw [Option.isSome_iff_exists, mapM_isSome_iff]
    exact forall₂_congr hprinted
  · have hutf8 : ∀ row ∈ rows, row.Utf8 := fun row hrow =>
      (hprinted row hrow).mp (mapM_isSome_iff.mp ⟨startup, hload⟩ row hrow)
    have hload' : loadMsgFromDbAndStoreInRedis (nlohmann toChars strtod)
        (rows.map MsgCacheManager.Row.toChatMsg) = some startup := by
      rw [loadMsgFromDbAndStoreInRedis, List.mapM_map]
      exact hload
    have hback := parse_startup hload' (List.forall_mem_map.mpr fun row hrow =>
      prints_toJson (hrange row hrow) (hutf8 row hrow))
    rwa [List.map_map, List.map_map] at hback

end Load

/-! ## Reading the messages back -/

section History

variable {toChars : BitVec 64 → Bytes} {strtod : Bytes → BitVec 64} {env : Env} {users : List User}
  {rows : List ChatMsg} {startup : List Bytes} {inputs : List ServerInput} {i : ServerInput}
  {self : ChatSession} {p : Packet} {msgs : List Json}

/-- The rows and what has been parsed are printed as one array that is read back. -/
theorem prints_history (hrows : ∀ row ∈ rows, row.InRange) (hutf8 : ∀ row ∈ rows, row.Utf8)
    {texts : List Bytes} (hmsgs : texts.map (parse strtod) = msgs.map some)
    (hfloats : ∀ m ∈ msgs, FloatsPrinted toChars strtod m) :
    (nlohmann toChars strtod).Prints (.array (rows.map ChatMsg.toJson ++ msgs)) := by
  have hsound : ∀ m ∈ msgs, ∃ k, Sound k m := by
    intro m hm
    have hparsed : some m ∈ texts.map (parse strtod) := hmsgs ▸ List.mem_map_of_mem hm
    obtain ⟨t, _, ht⟩ := List.mem_map.mp hparsed
    exact ⟨t.length, sound_parse ht⟩
  have hevery : ∀ P : Json → Prop, P (.array (rows.map ChatMsg.toJson ++ msgs)) →
      (∀ row ∈ rows, Json.Every P row.toJson) → (∀ m ∈ msgs, Json.Every P m) →
      Json.Every P (.array (rows.map ChatMsg.toJson ++ msgs)) := by
    intro P hself hfirst hlast
    exact .array hself (List.forall_mem_append.mpr ⟨List.forall_mem_map.mpr hfirst, hlast⟩)
  refine exists_dump_parse ?_ ?_ ?_ ?_
  · exact hevery _ nofun (fun row hrow => floatsPrinted_toJson (hrows row hrow)) hfloats
  · refine hevery _ trivial (fun row hrow => held_toJson (hrows row hrow)) fun m hm => ?_
    obtain ⟨k, hk⟩ := hsound m hm
    exact hk.held
  · refine .array (List.forall_mem_append.mpr
      ⟨List.forall_mem_map.mpr fun row _ => finite_toJson row, fun m hm => ?_⟩)
    obtain ⟨k, hk⟩ := hsound m hm
    exact hk.finite
  · refine hevery _ trivial (fun row hrow => (utf8_toJson_iff (hrows row hrow)).mpr
      (hutf8 row hrow)) fun m hm => ?_
    obtain ⟨k, hk⟩ := hsound m hm
    exact hk.utf8

/-- After every run that the server has survived, a request for the messages is answered with the
rows that the server has started with and the value of every accepted chat message, in order,
when each of these is a JSON text. -/
theorem messages_read_back (hjson : env.json = nlohmann toChars strtod)
    (hredis : ∀ k, env.redis k = true) (hrows : ∀ row ∈ rows, row.InRange)
    (hload : loadMsgFromDbAndStoreInRedis env.json rows = some startup)
    (hhandles : Handles (inputs.foldl (serverStep env) (start users startup)) i self p)
    (hcmd : p.cmd = msgTypeGetMsgs) (hset : self.isLogin = true)
    (hmsgs : (accepted (inputs.foldl (serverStep env) (start users startup)).log).map
      (parse strtod) = msgs.map some)
    (hfloats : ∀ m ∈ msgs, FloatsPrinted toChars strtod m)
    (hne : rows.map ChatMsg.toJson ++ msgs ≠ [])
    (hfits : ∀ data, dump toChars (.array (rows.map ChatMsg.toJson ++ msgs)) = some data →
      packageSize (msgsReply data) < 2 ^ 31) :
    ReadBack env (inputs.foldl (serverStep env) (start users startup))
      (serverStep env (inputs.foldl (serverStep env) (start users startup)) i) self p
      (rows.map ChatMsg.toJson ++ msgs) := by
  have hparse : env.json.parse = parse strtod := congrArg JsonLib.parse hjson
  have hdump : env.json.dump = dump toChars := congrArg JsonLib.dump hjson
  have hutf8 : ∀ row ∈ rows, row.Utf8 := by
    intro row hrow
    have hprinted := mapM_isSome_iff.mp ⟨startup, hload⟩ row hrow
    rw [hdump, dump_isSome_iff] at hprinted
    exact (utf8_toJson_iff (hrows row hrow)).mp hprinted
  have hstored : startup.map env.json.parse = (rows.map ChatMsg.toJson).map some := by
    refine parse_startup hload fun row hrow => ?_
    rw [hjson]
    exact prints_toJson (hrows row hrow) (hutf8 row hrow)
  refine serverStep_readBack hredis hhandles hcmd hset ?_ hne ?_ ?_
  · rw [history_of_live users startup hredis inputs hhandles.1, List.map_append, List.map_append,
      hstored, hparse, hmsgs]
  · rw [hjson]
    exact prints_history hrows hutf8 hmsgs hfloats
  · rw [hdump]
    exact hfits

end History

/-- A row of texts. -/
def sampleColumns : MsgCacheManager.Row :=
  ⟨text "7", text " 1", text "amy", text "hi", text "now", (0, 0)⟩

/-- The load of the row reads back. -/
theorem load_reads_back_sampleColumns :
    (([sampleColumns].mapM
        (MsgCacheManager.Row.dumped (nlohmann sampleToChars sampleStrtod))).isSome = true ↔
        ∀ row ∈ [sampleColumns], row.Utf8) ∧
      ∀ startup, [sampleColumns].mapM
          (MsgCacheManager.Row.dumped (nlohmann sampleToChars sampleStrtod)) = some startup →
        startup.map (parse sampleStrtod) =
          [sampleColumns].map fun row => some row.toChatMsg.toJson := by
  apply load_reads_back_iff
  intro row hrow
  rw [List.mem_singleton.mp hrow]
  constructor <;> constructor <;> decide

/-- A login and one chat message, on a server that has started with a row. -/
def libraryServer : ChatServer :=
  [.connect, packetOf 1 msgTypeLogin (credentials "amy" "a1").1,
    packetOf 1 msgTypeChat (text "[1.5]")].foldl (serverStep libraryEnv)
      (start [⟨1, text "amy", text "a1"⟩] [sampleRowText])

/-- The row and the chat message `[1.5]` are read back. -/
theorem messages_read_back_after_chat :
    ReadBack libraryEnv libraryServer (serverStep libraryEnv libraryServer
        (packetOf 1 msgTypeGetMsgs [])) ⟨1, 1, text "amy", 1, true⟩ ⟨msgTypeGetMsgs, 0, []⟩
      [sampleRow.toJson, .array [.numberFloat 0x3FF8000000000000]] := by
  have hrow : ∀ row ∈ [sampleRow], row.InRange := by
    intro row hrow
    rw [List.mem_singleton.mp hrow]
    constructor <;> constructor <;> decide
  have hhandles : Handles libraryServer (packetOf 1 msgTypeGetMsgs [])
      ⟨1, 1, text "amy", 1, true⟩ ⟨msgTypeGetMsgs, 0, []⟩ :=
    ⟨by decide +kernel, 1, _, _, rfl, by decide +kernel, readPacket_package _ _ _ (by decide)⟩
  have haccepted : accepted libraryServer.log = [text "[1.5]"] := by decide +kernel
  have hparse : parse sampleStrtod (text "[1.5]") =
      some (.array [.numberFloat 0x3FF8000000000000]) := by
    have htree : JsonText.parse (text "[1.5]") = some (.array [.number [49, 46, 53]]) := by
      rw [text_eq rfl]
      rfl
    rw [parse_text htree]
    rfl
  have hfloat : FloatsPrinted sampleToChars sampleStrtod
      (.array [.numberFloat 0x3FF8000000000000]) := by
    refine .array (by simp) (List.forall_mem_singleton.mpr
      (Json.every_numberFloat_iff.mpr fun x hx _ => ?_))
    cases hx
    exact sample_floatText
  refine @messages_read_back _ _ libraryEnv _ [sampleRow] _ _ _ _ _ _ rfl (fun _ => rfl) hrow
    (by decide +kernel) hhandles rfl rfl ?_ (List.forall_mem_singleton.mpr hfloat)
    (List.cons_ne_nil _ _) ?_
  · exact (congrArg (List.map (parse sampleStrtod)) haccepted).trans
      (congrArg (fun j => [j]) hparse)
  · intro data hdump
    have hdata : dump sampleToChars (.array [sampleRow.toJson,
        .array [.numberFloat 0x3FF8000000000000]]) =
        some (text "[" ++ sampleRowText ++ text ",[1.5]]") := by decide +kernel
    cases hdata.symm.trans hdump
    decide +kernel

end ChatRoom.Chat
