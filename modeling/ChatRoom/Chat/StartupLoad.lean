import ChatRoom.Core.Atoll
import ChatRoom.Chat.History

/-!
# Loading the history at startup

`MsgCacheManager::loadMsgFromDbAndStoreInRedis` turns the rows of the message table
into JSON texts, deletes the Redis list and pushes the texts. Redis may fail at each
command, and the client refuses to push an empty range. The old list is gone before
the new one is pushed, so the load is all or nothing only when it stops before the
deletion or the push goes through.
-/

namespace ChatRoom.Chat

open ChatRoom.Core Net

namespace MsgCacheManager

/-! ## The rows of the query -/

/-- The value of the digits a text starts with; `none` when it starts with none. -/
def leadingDigits (s : Bytes) : Option Nat :=
  match s.takeWhile Decimal.isDigit with
  | [] => none
  | digits => some (Decimal.value digits)

/-- The nearest value of an `int`. -/
def clampInt (n : Int) : Int := max (-2 ^ 31) (min n (2 ^ 31 - 1))

/-- `convertFromString<int>`: `iss >> value` on a text. The stream skips blanks, and leaves
`value` as it was when nothing follows them. -/
def convertFromString (value : Int) (str : Bytes) : Int :=
  match str.dropWhile isSpace with
  | [] => value
  | c :: s =>
    if c = 45 then ((leadingDigits s).map fun n => clampInt (-n)).getD 0
    else if c = 43 then ((leadingDigits s).map fun n => clampInt n).getD 0
    else ((leadingDigits (c :: s)).map fun n => clampInt n).getD 0

/-- The texts of the five selected columns, and what the two uninitialised `int`s hold. -/
structure Row where
  msgId : Bytes
  senderid : Bytes
  username : Bytes
  msgcontent : Bytes
  createTime : Bytes
  stack : Int × Int
  deriving DecidableEq, Repr

/-- The row as `convertFromString` fills it in, with what the stack holds where a number cannot be
read. -/
def Row.toChatMsg (row : Row) : ChatMsg :=
  ⟨convertFromString row.stack.1 row.msgId, convertFromString row.stack.2 row.senderid,
    row.username, row.msgcontent, row.createTime⟩

/-- The text that the loop pushes for a row; `none` when `dump` throws. -/
def Row.dumped (json : JsonLib) (row : Row) : Option Bytes := json.dump row.toChatMsg.toJson

/-! ## The list in Redis -/

/-- What the load asks of Redis, beginning with the client object itself. -/
inductive RedisCommand where
  | client
  | existsKey
  | del
  | rpush
  deriving DecidableEq, Repr

/-- The list `414chatmsgs`, which exists when it is not empty, and what has been asked. -/
structure Redis where
  list : List Bytes
  asked : List RedisCommand
  deriving DecidableEq, Repr

/-- Code that may throw `sw::redis::Error`; what it has done to Redis stays. -/
def RedisCode (α : Type) : Type := Redis → Option α × Redis

namespace RedisCode

/-- The next command is sent if the one before has been answered. -/
def andThen {α β : Type} (m : RedisCode α) (next : α → RedisCode β) : RedisCode β := fun redis =>
  match m redis with
  | (none, redis) => (none, redis)
  | (some a, redis) => next a redis

end RedisCode

section Commands

variable (answers : RedisCommand → Bool)

/-- One command: Redis answers it and acts on the list, or it throws and leaves the list. -/
def ask {α : Type} (c : RedisCommand) (act : List Bytes → α × List Bytes) : RedisCode α :=
  fun redis =>
    let asked := redis.asked ++ [c]
    if answers c then (some (act redis.list).1, ⟨(act redis.list).2, asked⟩)
    else (none, ⟨redis.list, asked⟩)

/-- The client is constructed. -/
def client : RedisCode Unit := ask answers .client fun list => ((), list)

/-- `EXISTS`: the list is there while it has elements. -/
def existsKey : RedisCode Bool := ask answers .existsKey fun list => (!list.isEmpty, list)

/-- `DEL`. -/
def del : RedisCode Unit := ask answers .del fun _ => ((), [])

/-- The client checks the range before it asks Redis. -/
def rpush (msgs : List Bytes) : RedisCode Unit := fun redis =>
  if msgs.isEmpty then (none, redis)
  else ask answers .rpush (fun list => ((), list ++ msgs)) redis

/-- The `try` block of the load. -/
def storeInRedis (msgs : List Bytes) : RedisCode Unit :=
  (client answers).andThen fun _ =>
    (existsKey answers).andThen fun found =>
      if found then (del answers).andThen fun _ => rpush answers msgs else rpush answers msgs

/-- `MsgCacheManager::loadMsgFromDbAndStoreInRedis`, given whether the database connects and
what the query returns. The result is `none` when an exception of the JSON library leaves it. -/
def loadMsgFromDbAndStoreInRedis (json : JsonLib) (initialized : Bool) (result : Option (List Row))
    (redis : Redis) : Option Bool × Redis :=
  if initialized then
    match result with
    | none => (some false, redis)
    | some rows =>
      match rows.mapM (Row.dumped json) with
      | none => (none, redis)
      | some msgs =>
        let r := storeInRedis answers msgs redis
        (some r.1.isSome, r.2)
  else (some false, redis)

end Commands

/-! ## What the load leaves -/

private theorem map_eq_of_mapM {α β : Type} {f : α → Option β} {l : List α} {vs : List β}
    (h : l.mapM f = some vs) : l.map f = vs.map some := by
  induction l generalizing vs with
  | nil =>
    cases h
    rfl
  | cons a l ih =>
    rw [List.mapM_cons] at h
    cases ha : f a with
    | none =>
      rw [ha] at h
      cases h
    | some b =>
      cases hrest : l.mapM f with
      | none =>
        rw [ha, hrest] at h
        cases h
      | some rest =>
        rw [ha, hrest] at h
        cases h
        rw [List.map_cons, List.map_cons, ha, ih hrest]

private theorem exists_mapM_of_ne_none {α β : Type} {f : α → Option β} {l : List α}
    (h : ∀ a ∈ l, f a ≠ none) : ∃ vs, l.mapM f = some vs := by
  induction l with
  | nil => exact ⟨[], rfl⟩
  | cons a l ih =>
    obtain ⟨vs, hvs⟩ := ih fun b hb => h b (List.mem_cons_of_mem a hb)
    obtain ⟨b, hb⟩ := Option.ne_none_iff_exists'.mp (h a (List.mem_cons_self ..))
    refine ⟨b :: vs, ?_⟩
    rw [List.mapM_cons, hb, hvs]
    rfl

private theorem mapM_of_mem_none {α β : Type} {f : α → Option β} {l : List α} {a : α} (hmem : a ∈ l)
    (h : f a = none) : l.mapM f = none := by
  cases hvs : l.mapM f with
  | none => rfl
  | some vs =>
    have hin : none ∈ vs.map some := by
      rw [← map_eq_of_mapM hvs, ← h]
      exact List.mem_map_of_mem hmem
    simp at hin

/-- The load ends before it has deleted anything. -/
def StopsEarly (answers : RedisCommand → Bool) (old : List Bytes) : Prop :=
  answers .client = false ∨ answers .existsKey = false ∨ (old ≠ [] ∧ answers .del = false)

/-- A load that ends early has left the list, and was refused a command. -/
theorem storeInRedis_of_stopsEarly {answers : RedisCommand → Bool} {old : List Bytes}
    (h : StopsEarly answers old) (msgs : List Bytes) :
    ∃ asked c, c ∈ asked ∧ answers c = false ∧
      storeInRedis answers msgs ⟨old, []⟩ = (none, ⟨old, asked⟩) := by
  cases hclient : answers .client with
  | false =>
    refine ⟨[.client], .client, List.mem_singleton_self _, hclient, ?_⟩
    simp [storeInRedis, RedisCode.andThen, client, ask, hclient]
  | true =>
    cases hexists : answers .existsKey with
    | false =>
      refine ⟨[.client, .existsKey], .existsKey, by decide, hexists, ?_⟩
      simp [storeInRedis, RedisCode.andThen, client, existsKey, ask, hclient, hexists]
    | true =>
      obtain ⟨hold, hdel⟩ : old ≠ [] ∧ answers .del = false := by
        simpa [StopsEarly, hclient, hexists] using h
      refine ⟨[.client, .existsKey, .del], .del, by decide, hdel, ?_⟩
      simp [storeInRedis, RedisCode.andThen, client, existsKey, del, ask, hclient, hexists, hdel,
        hold]

/-- Any other load comes to the push with an empty list. -/
theorem storeInRedis_of_not_stopsEarly {answers : RedisCommand → Bool} {old : List Bytes}
    (h : ¬ StopsEarly answers old) (msgs : List Bytes) :
    ∃ asked, (∀ c ∈ asked, answers c = true) ∧
      storeInRedis answers msgs ⟨old, []⟩ = rpush answers msgs ⟨[], asked⟩ := by
  simp only [StopsEarly, not_or, not_and, Bool.not_eq_false] at h
  obtain ⟨hclient, hexists, hdel⟩ := h
  cases old with
  | nil =>
    refine ⟨[.client, .existsKey], by simp [hclient, hexists], ?_⟩
    simp [storeInRedis, RedisCode.andThen, client, existsKey, ask, hclient, hexists]
  | cons m old =>
    have hanswered := hdel (List.cons_ne_nil m old)
    refine ⟨[.client, .existsKey, .del], by simp [hclient, hexists, hanswered], ?_⟩
    simp [storeInRedis, RedisCode.andThen, client, existsKey, del, ask, hclient, hexists, hanswered]

private theorem rpush_nil (answers : RedisCommand → Bool) (redis : Redis) :
    rpush answers [] redis = (none, redis) := rfl

private theorem rpush_of_ne_nil {answers : RedisCommand → Bool} {msgs : List Bytes} (h : msgs ≠ [])
    (asked : List RedisCommand) :
    rpush answers msgs ⟨[], asked⟩ =
      if answers .rpush then (some (), ⟨msgs, asked ++ [.rpush]⟩)
      else (none, ⟨[], asked ++ [.rpush]⟩) := by
  have hsome : msgs.isEmpty = false := by simpa using h
  simp [rpush, ask, hsome]

/-- All or nothing: a load that returns true leaves exactly the texts of the rows, it returns
true when Redis answers all it is asked, and one that returns false leaves the old list. -/
structure AllOrNothing (json : JsonLib) (rows : List Row) (answers : RedisCommand → Bool)
    (old : List Bytes) (r : Option Bool × Redis) : Prop where
  loaded : r.1 = some true → rows.map (Row.dumped json) = r.2.list.map some
  answered : (∀ c ∈ r.2.asked, answers c = true) → r.1 = some true
  kept : r.1 = some false → r.2.list = old

private theorem loadMsgFromDbAndStoreInRedis_of_mapM {json : JsonLib} {rows : List Row}
    {msgs : List Bytes}
    (h : rows.mapM (Row.dumped json) = some msgs) (answers : RedisCommand → Bool) (redis : Redis) :
    loadMsgFromDbAndStoreInRedis answers json true (some rows) redis =
      (some (storeInRedis answers msgs redis).1.isSome, (storeInRedis answers msgs redis).2) := by
  simp only [loadMsgFromDbAndStoreInRedis, if_true, h]

/-- The load is all or nothing exactly when every row can be printed and either it ends before
the deletion, or there is a row and the push is answered or there was nothing to lose. -/
theorem load_all_or_nothing_iff (json : JsonLib) (rows : List Row)
    (answers : RedisCommand → Bool) (old : List Bytes) :
    AllOrNothing json rows answers old
        (loadMsgFromDbAndStoreInRedis answers json true (some rows) ⟨old, []⟩) ↔
      (∀ row ∈ rows, row.dumped json ≠ none) ∧
        (StopsEarly answers old ∨ (rows ≠ [] ∧ (answers .rpush = true ∨ old = []))) := by
  by_cases hprints : ∀ row ∈ rows, row.dumped json ≠ none
  · obtain ⟨msgs, hmsgs⟩ := exists_mapM_of_ne_none hprints
    have htexts := map_eq_of_mapM hmsgs
    rw [loadMsgFromDbAndStoreInRedis_of_mapM hmsgs, and_iff_right hprints]
    by_cases hearly : StopsEarly answers old
    · obtain ⟨asked, c, hmem, hrefused, hstore⟩ := storeInRedis_of_stopsEarly hearly msgs
      rw [hstore]
      refine iff_of_true ⟨by simp, fun hall => ?_, fun _ => rfl⟩ (Or.inl hearly)
      rw [hall c hmem] at hrefused
      cases hrefused
    · obtain ⟨asked, hasked, hstore⟩ := storeInRedis_of_not_stopsEarly hearly msgs
      rw [hstore, or_iff_right hearly]
      by_cases hrows : rows = []
      · have hnil : msgs = [] := by simpa [hrows] using htexts.symm
        rw [hnil, rpush_nil]
        refine iff_of_false (fun h => ?_) fun h => h.1 hrows
        simpa using h.answered hasked
      · have hne : msgs ≠ [] := by
          rintro rfl
          exact hrows (List.map_eq_nil_iff.mp htexts)
        rw [rpush_of_ne_nil hne, and_iff_right hrows]
        cases hpush : answers .rpush with
        | true => exact iff_of_true ⟨fun _ => htexts, fun _ => rfl, by simp⟩ (Or.inl rfl)
        | false =>
          rw [or_iff_right Bool.false_ne_true]
          constructor
          · intro h
            exact (h.kept rfl).symm
          · rintro rfl
            refine ⟨by simp, fun hall => ?_, fun _ => rfl⟩
            rw [hall .rpush (List.mem_append_right _ (List.mem_singleton_self _))] at hpush
            cases hpush
  · refine iff_of_false (fun h => ?_) fun h => hprints h.1
    push Not at hprints
    obtain ⟨row, hmem, hthrows⟩ := hprints
    have hnone := mapM_of_mem_none hmem hthrows
    have hload : loadMsgFromDbAndStoreInRedis answers json true (some rows) ⟨old, []⟩ =
        (none, ⟨old, []⟩) := by
      simp only [loadMsgFromDbAndStoreInRedis, if_true, hnone]
    rw [hload] at h
    simpa using h.answered (by simp)

/-- An empty message table: Redis answers all it is asked, the old message is deleted, and the
load returns false. -/
theorem load_loses_history :
    (loadMsgFromDbAndStoreInRedis (fun _ => true) historyEnv.json true (some [])
        ⟨[sampleRowText], []⟩ = (some false, ⟨[], [.client, .existsKey, .del]⟩)) ∧
      ¬ AllOrNothing historyEnv.json [] (fun _ => true) [sampleRowText]
        (loadMsgFromDbAndStoreInRedis (fun _ => true) historyEnv.json true (some [])
          ⟨[sampleRowText], []⟩) := by
  have hload : loadMsgFromDbAndStoreInRedis (fun _ => true) historyEnv.json true (some [])
      ⟨[sampleRowText], []⟩ = (some false, ⟨[], [.client, .existsKey, .del]⟩) := rfl
  refine ⟨hload, fun h => ?_⟩
  rw [hload] at h
  exact absurd (h.kept rfl) (List.cons_ne_nil _ _).symm

/-- A load that returns true starts the server with the history of its rows. -/
theorem startup_of_load {answers : RedisCommand → Bool} {json : JsonLib} {rows : List Row}
    {old : List Bytes}
    (h : (loadMsgFromDbAndStoreInRedis answers json true (some rows) ⟨old, []⟩).1 = some true) :
    Chat.loadMsgFromDbAndStoreInRedis json (rows.map Row.toChatMsg) =
      some (loadMsgFromDbAndStoreInRedis answers json true (some rows) ⟨old, []⟩).2.list := by
  have hprints : ∀ row ∈ rows, row.dumped json ≠ none := by
    intro row hmem hthrows
    simp only [loadMsgFromDbAndStoreInRedis, if_true, mapM_of_mem_none hmem hthrows] at h
    cases h
  obtain ⟨msgs, hmsgs⟩ := exists_mapM_of_ne_none hprints
  have hshared : Chat.loadMsgFromDbAndStoreInRedis json (rows.map Row.toChatMsg) = some msgs := by
    apply mapM_of_map_eq
    rw [List.map_map, ← map_eq_of_mapM hmsgs]
    rfl
  rw [loadMsgFromDbAndStoreInRedis_of_mapM hmsgs] at h ⊢
  rw [hshared]
  by_cases hearly : StopsEarly answers old
  · obtain ⟨asked, c, _, _, hstore⟩ := storeInRedis_of_stopsEarly hearly msgs
    rw [hstore] at h
    cases h
  · obtain ⟨asked, _, hstore⟩ := storeInRedis_of_not_stopsEarly hearly msgs
    rw [hstore] at h ⊢
    cases msgs with
    | nil => cases h
    | cons m msgs =>
      rw [rpush_of_ne_nil (List.cons_ne_nil m msgs)] at h ⊢
      cases hpush : answers .rpush with
      | true => rfl
      | false =>
        rw [hpush] at h
        cases h

end MsgCacheManager

end ChatRoom.Chat
