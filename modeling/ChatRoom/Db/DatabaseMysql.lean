import ChatRoom.Core.Run
import ChatRoom.Core.Bytes

/-!
# CDatabaseMysql

The connection object of the MySQL wrapper. A handle is named by the number of its
allocation, and every call of the client library that passes one is recorded in
order. `initialize` closes a handle it then passes to `mysql_init`, and a failed
connect overwrites the only pointer to one. So the handles of a run are all closed
once and none is used after it was closed exactly when no call of `initialize`,
direct or automatic, finds a handle or fails to connect.
-/

namespace ChatRoom.Db

open ChatRoom.Core

/-- The functions of the client library that take a handle. -/
inductive MysqlFunction where
  | init
  | realConnect
  | query
  | realQuery
  | errno
  | storeResult
  | fieldCount
  | close
  deriving DecidableEq, Repr

/-- `mysql_init(NULL)` allocates a handle; every other call passes one. -/
inductive MysqlCall where
  | alloc (h : Nat)
  | pass (f : MysqlFunction) (h : Nat)
  deriving DecidableEq, Repr

/-- What a connection is made with. -/
structure DatabaseInfo where
  strHost : Bytes
  strUser : Bytes
  strPwd : Bytes
  strDBName : Bytes
  deriving DecidableEq, Repr

/-- A connection object, with the calls that it has made to the client library. -/
structure CDatabaseMysql where
  mMysql : Option Nat
  mBInit : Bool
  mDBInfo : DatabaseInfo
  /-- How many handles have been allocated, and the calls made so far. -/
  handles : Nat
  calls : List MysqlCall
  deriving DecidableEq, Repr

/-- The answers of the client library during one call of `query` or `execute`. -/
structure Outcomes where
  /-- `mysql_real_connect` when there is no connection. -/
  connect : Bool
  /-- The error number of the first query, if it fails. -/
  error : Option Nat
  /-- `mysql_real_connect` after the server has gone, and the second query. -/
  reconnect : Bool
  retry : Int
  /-- Whether `mysql_store_result` returns a result, and `mysql_field_count`. -/
  stored : Bool
  fieldCount : Nat
  deriving DecidableEq, Repr

/-- `CR_SERVER_GONE_ERROR`. -/
def crServerGoneError : Nat := 2006

namespace CDatabaseMysql

/-- The constructor. -/
def new : CDatabaseMysql := ⟨none, false, ⟨[], [], [], []⟩, 0, []⟩

/-- Pass `m_Mysql` to a function that does not change it; `mysql_close(NULL)` does nothing. -/
def pass (db : CDatabaseMysql) (f : MysqlFunction) : CDatabaseMysql :=
  match db.mMysql with
  | none => db
  | some h => { db with calls := db.calls ++ [.pass f h] }

/-- `m_Mysql = mysql_init(m_Mysql)`. -/
def mysqlInit (db : CDatabaseMysql) : CDatabaseMysql :=
  match db.mMysql with
  | none =>
    { db with
      mMysql := some db.handles
      handles := db.handles + 1
      calls := db.calls ++ [.alloc db.handles] }
  | some _ => db.pass .init

/-- `m_Mysql = mysql_real_connect(m_Mysql, ...)`: its argument, or NULL on a failure. -/
def realConnect (db : CDatabaseMysql) (connected : Bool) : CDatabaseMysql :=
  if connected then db.pass .realConnect else { db.pass .realConnect with mMysql := none }

/-- `CDatabaseMysql::initialize`. -/
def initializeDb (db : CDatabaseMysql) (info : DatabaseInfo) (connected : Bool) :
    CDatabaseMysql × Bool :=
  let db := if db.mBInit then db.pass .close else db
  let db := { db.mysqlInit.realConnect connected with mDBInfo := info }
  if db.mMysql.isSome then ({ db.pass .query with mBInit := true }, true)
  else (db.pass .close, false)

/-- The end of `query`: true when a `QueryResult` is built. -/
def storeResult (db : CDatabaseMysql) (o : Outcomes) : CDatabaseMysql × Bool :=
  let db := db.pass .storeResult
  if o.stored then (db.pass .fieldCount, o.fieldCount != 0) else (db, false)

/-- The guarded block of `query`, which ignores the outcome of the second query. -/
def runQuery (db : CDatabaseMysql) (o : Outcomes) : CDatabaseMysql × Bool :=
  let db := db.pass .realQuery
  match o.error with
  | none => db.storeResult o
  | some e =>
    let db := db.pass .errno
    if e = crServerGoneError then
      let r := db.initializeDb db.mDBInfo o.reconnect
      if r.2 then (r.1.pass .realQuery).storeResult o else (r.1, false)
    else (db, false)

/-- `query`: connects first if there is no handle. -/
def query (db : CDatabaseMysql) (o : Outcomes) : CDatabaseMysql × Bool :=
  let r := if db.mMysql.isSome then (db, true) else db.initializeDb db.mDBInfo o.connect
  if r.2 && r.1.mMysql.isSome then r.1.runQuery o else (r.1, false)

/-- Both overloads of `execute`, which repeat the statement by different functions. The number
is what the second one writes to `nErrno`. -/
def executeBy (repeated : MysqlFunction) (db : CDatabaseMysql) (o : Outcomes) :
    CDatabaseMysql × Bool × Option Int :=
  if db.mMysql.isSome then
    let db := db.pass .query
    match o.error with
    | none => (db, true, none)
    | some e =>
      let db := db.pass .errno
      if e = crServerGoneError then
        let r := db.initializeDb db.mDBInfo o.reconnect
        if r.2 then (r.1.pass repeated, false, some o.retry) else (r.1, false, none)
      else (db, false, none)
  else (db, false, none)

/-- `execute` without the error number. -/
def execute (db : CDatabaseMysql) (o : Outcomes) : CDatabaseMysql × Bool :=
  ((db.executeBy .realQuery o).1, (db.executeBy .realQuery o).2.1)

/-- `execute` with the error number, which is written after a reconnection only. -/
def executeErrno (db : CDatabaseMysql) (o : Outcomes) : CDatabaseMysql × Bool × Option Int :=
  db.executeBy .query o

/-- The destructor. -/
def destroy (db : CDatabaseMysql) : CDatabaseMysql :=
  if db.mMysql.isSome && db.mBInit then db.pass .close else db

end CDatabaseMysql

/-- A call on the object, with the answers of the library. -/
inductive DbOp where
  | initializeDb (info : DatabaseInfo) (connected : Bool)
  | query (o : Outcomes)
  | execute (o : Outcomes)
  | executeErrno (o : Outcomes)
  deriving DecidableEq, Repr

/-- One method of the object. -/
def dbStep (db : CDatabaseMysql) : DbOp → CDatabaseMysql
  | .initializeDb info connected => (db.initializeDb info connected).1
  | .query o => (db.query o).1
  | .execute o => (db.execute o).1
  | .executeErrno o => (db.executeErrno o).1

/-- The object after its constructor and these calls. -/
def afterCalls (ops : List DbOp) : CDatabaseMysql := ops.foldl dbStep .new

/-- The calls of the library over the whole life of the object. -/
def lifeCalls (ops : List DbOp) : List MysqlCall := (afterCalls ops).destroy.calls

/-- No handle is passed to a function after it was closed. -/
def NoUseAfterClose (calls : List MysqlCall) : Prop :=
  Along (fun before c => ∀ f h, c = .pass f h → .pass .close h ∉ before) calls

/-- Every allocated handle has been closed once. -/
def EachClosedOnce (calls : List MysqlCall) : Prop :=
  ∀ h, .alloc h ∈ calls → calls.count (.pass .close h) = 1

/-! ## One call -/

namespace CDatabaseMysql

/-- A call keeps the handle. -/
@[simp] theorem pass_mMysql (db : CDatabaseMysql) (f : MysqlFunction) :
    (db.pass f).mMysql = db.mMysql := by
  simp only [pass]
  split <;> rfl

private theorem pass_of_some {db : CDatabaseMysql} {h : Nat} (hm : db.mMysql = some h)
    (f : MysqlFunction) : db.pass f = { db with calls := db.calls ++ [.pass f h] } := by
  simp only [pass, hm]

private theorem pass_of_none {db : CDatabaseMysql} (hm : db.mMysql = none) (f : MysqlFunction) :
    db.pass f = db := by
  simp only [pass, hm]

/-- What holds of the object between two calls. -/
structure Valid (db : CDatabaseMysql) : Prop where
  init_of_some : ∀ h, db.mMysql = some h → db.mBInit = true
  alloc_of_some : ∀ h, db.mMysql = some h → .alloc h ∈ db.calls
  alloc_lt : ∀ h, .alloc h ∈ db.calls → h < db.handles
  /-- A handle that was closed has been used since. -/
  used_of_closed : ∀ h, .pass .close h ∈ db.calls → ¬ NoUseAfterClose db.calls

/-- Nothing has been closed, and the only handle ever allocated is still held. -/
structure Clean (db : CDatabaseMysql) : Prop where
  not_closed : ∀ h, .pass .close h ∉ db.calls
  held : ∀ h, .alloc h ∈ db.calls → db.mMysql = some h

/-- A new object is valid. -/
theorem valid_new : Valid new :=
  ⟨by simp [new], by simp [new], by simp [new], by simp [new]⟩

/-- A new object has closed nothing. -/
theorem clean_new : Clean new := ⟨by simp [new], by simp [new]⟩

private theorem not_noUseAfterClose_append {calls more : List MysqlCall}
    (h : ¬ NoUseAfterClose calls) :
    ¬ NoUseAfterClose (calls ++ more) := by
  intro hall
  refine h fun before c after heq => hall before c (after ++ more) ?_
  rw [heq, List.append_assoc, List.cons_append]

/-- Calls that close nothing keep what is known of the closed handles. -/
theorem Valid.used_append {db : CDatabaseMysql} (hv : db.Valid) {more : List MysqlCall}
    (hmore : ∀ k, .pass .close k ∉ more) (k : Nat) (hk : .pass .close k ∈ db.calls ++ more) :
    ¬ NoUseAfterClose (db.calls ++ more) := by
  rcases List.mem_append.mp hk with hk | hk
  · exact not_noUseAfterClose_append (hv.used_of_closed k hk)
  · exact absurd hk (hmore k)

/-- A new handle gets the next number. -/
theorem Valid.lt_append {db : CDatabaseMysql} (hv : db.Valid) {more : List MysqlCall}
    (hmore : ∀ k, .alloc k ∈ more → k = db.handles) (k : Nat)
    (hk : .alloc k ∈ db.calls ++ more) : k < db.handles + 1 := by
  rcases List.mem_append.mp hk with hk | hk
  · exact Nat.lt_succ_of_lt (hv.alloc_lt k hk)
  · rw [hmore k hk]
    exact Nat.lt_succ_self _

/-- A call that closes nothing keeps the object valid. -/
theorem Valid.pass {db : CDatabaseMysql} (hv : db.Valid) {f : MysqlFunction} (hf : f ≠ .close) :
    (db.pass f).Valid := by
  cases hm : db.mMysql with
  | none =>
    rw [pass_of_none hm]
    exact hv
  | some h =>
    rw [pass_of_some hm]
    have hmem : ∀ c : MysqlCall, c ∈ db.calls ++ [.pass f h] ↔ c ∈ db.calls ∨ c = .pass f h := by
      simp
    refine ⟨hv.init_of_some, ?_, ?_, ?_⟩
    · intro k hk
      exact (hmem _).mpr (Or.inl (hv.alloc_of_some k hk))
    · intro k hk
      rcases (hmem _).mp hk with hk | hk
      · exact hv.alloc_lt k hk
      · cases hk
    · apply hv.used_append
      intro k hk
      cases List.mem_singleton.mp hk
      exact hf rfl

private theorem clean_pass {db : CDatabaseMysql} {f : MysqlFunction} (hf : f ≠ .close) :
    (db.pass f).Clean ↔ db.Clean := by
  cases hm : db.mMysql with
  | none => rw [pass_of_none hm]
  | some h =>
    rw [pass_of_some hm]
    constructor
    · intro hc
      exact ⟨fun k hk => hc.not_closed k (List.mem_append_left _ hk),
        fun k hk => hc.held k (List.mem_append_left _ hk)⟩
    · intro hc
      refine ⟨fun k hk => ?_, fun k hk => ?_⟩
      · rcases List.mem_append.mp hk with hk | hk
        · exact hc.not_closed k hk
        · cases List.mem_singleton.mp hk
          exact hf rfl
      · rcases List.mem_append.mp hk with hk | hk
        · exact hc.held k hk
        · cases List.mem_singleton.mp hk

/-! ## initialize -/

private theorem initializeDb_of_none {db : CDatabaseMysql} (hm : db.mMysql = none)
    (info : DatabaseInfo) :
    db.initializeDb info true =
        ({ mMysql := some db.handles, mBInit := true, mDBInfo := info, handles := db.handles + 1,
           calls := db.calls ++ [.alloc db.handles, .pass .realConnect db.handles,
            .pass .query db.handles] }, true) ∧
      db.initializeDb info false =
        ({ db with
            mDBInfo := info
            handles := db.handles + 1
            calls := db.calls ++ [.alloc db.handles, .pass .realConnect db.handles] }, false) := by
  simp [initializeDb, mysqlInit, realConnect, CDatabaseMysql.pass, hm]

private theorem initializeDb_of_some {db : CDatabaseMysql} {h : Nat} (hm : db.mMysql = some h)
    (hinit : db.mBInit = true) (info : DatabaseInfo) :
    db.initializeDb info true =
        ({ db with
            mDBInfo := info
            calls := db.calls ++ [.pass .close h, .pass .init h, .pass .realConnect h,
              .pass .query h] }, true) ∧
      db.initializeDb info false =
        ({ db with
            mMysql := none
            mDBInfo := info
            calls := db.calls ++ [.pass .close h, .pass .init h, .pass .realConnect h] },
          false) := by
  simp [initializeDb, mysqlInit, realConnect, CDatabaseMysql.pass, hm, hinit]

/-- A closed handle that is passed to `mysql_init` is used after it was closed. -/
theorem not_noUseAfterClose_of_init {calls more : List MysqlCall} {h : Nat} :
    ¬ NoUseAfterClose (calls ++ .pass .close h :: .pass .init h :: more) := by
  intro hall
  apply hall (calls ++ [.pass .close h]) (.pass .init h) more (by simp) .init h rfl
  exact List.mem_append_right _ (List.mem_singleton_self _)

/-- `initialize` keeps the object valid. -/
theorem Valid.initializeDb {db : CDatabaseMysql} (hv : db.Valid) (info : DatabaseInfo)
    (connected : Bool) : (db.initializeDb info connected).1.Valid := by
  cases hm : db.mMysql with
  | none =>
    cases connected with
    | true =>
      rw [(initializeDb_of_none hm info).1]
      refine ⟨fun _ _ => rfl, by simp, ?_, ?_⟩
      · exact hv.lt_append (by simp)
      · exact hv.used_append (by simp)
    | false =>
      rw [(initializeDb_of_none hm info).2]
      refine ⟨fun k hk => ?_, fun k hk => ?_, ?_, ?_⟩
      · rw [hm] at hk
        cases hk
      · rw [hm] at hk
        cases hk
      · exact hv.lt_append (by simp)
      · exact hv.used_append (by simp)
  | some h =>
    have hinit := hv.init_of_some h hm
    cases connected with
    | true =>
      rw [(initializeDb_of_some hm hinit info).1]
      refine ⟨hv.init_of_some, fun k hk => ?_, fun k hk => ?_, fun _ _ => ?_⟩
      · exact List.mem_append_left _ (hv.alloc_of_some k hk)
      · apply hv.alloc_lt k
        simpa using hk
      · exact not_noUseAfterClose_of_init
    | false =>
      rw [(initializeDb_of_some hm hinit info).2]
      refine ⟨by simp, by simp, fun k hk => ?_, fun _ _ => ?_⟩
      · apply hv.alloc_lt k
        simpa using hk
      · exact not_noUseAfterClose_of_init

/-- `initialize` leaves the handles clean exactly when it finds none and connects. -/
theorem clean_initializeDb {db : CDatabaseMysql} (hv : db.Valid) (info : DatabaseInfo)
    (connected : Bool) :
    (db.initializeDb info connected).1.Clean ↔
      db.Clean ∧ db.mMysql = none ∧ connected = true := by
  cases hm : db.mMysql with
  | none =>
    cases connected with
    | true =>
      rw [(initializeDb_of_none hm info).1]
      constructor
      · intro hc
        refine ⟨⟨fun k hk => hc.not_closed k (List.mem_append_left _ hk), fun k hk => ?_⟩, rfl, rfl⟩
        -- an older handle would have to be the new one
        have hnew := Option.some.inj (hc.held k (List.mem_append_left _ hk))
        exact absurd (hv.alloc_lt k hk) (hnew ▸ Nat.lt_irrefl _)
      · rintro ⟨hc, -, -⟩
        refine ⟨fun k hk => ?_, fun k hk => ?_⟩
        · apply hc.not_closed k
          simpa using hk
        · rcases List.mem_append.mp hk with hk | hk
          · rw [hc.held k hk] at hm
            cases hm
          · simp at hk
            rw [hk]
    | false =>
      rw [(initializeDb_of_none hm info).2]
      refine iff_of_false (fun hc => ?_) (by simp)
      have hheld := hc.held db.handles (by simp)
      rw [hm] at hheld
      cases hheld
  | some h =>
    have hinit := hv.init_of_some h hm
    refine iff_of_false (fun hc => ?_) (by simp)
    cases connected with
    | true =>
      rw [(initializeDb_of_some hm hinit info).1] at hc
      exact hc.not_closed h (by simp)
    | false =>
      rw [(initializeDb_of_some hm hinit info).2] at hc
      exact hc.not_closed h (by simp)

private theorem not_clean_initializeDb {db : CDatabaseMysql} (hv : db.Valid) {h : Nat}
    (hm : db.mMysql = some h) (info : DatabaseInfo) (connected : Bool) :
    ¬ (db.initializeDb info connected).1.Clean := by
  rw [clean_initializeDb hv, hm]
  simp

/-! ## query and execute -/

/-- Storing a result keeps the object valid. -/
theorem Valid.storeResult {db : CDatabaseMysql} (hv : db.Valid) (o : Outcomes) :
    (db.storeResult o).1.Valid := by
  have hstored := hv.pass (f := .storeResult) (by decide)
  simp only [CDatabaseMysql.storeResult]
  split
  · exact hstored.pass (by decide)
  · exact hstored

private theorem clean_storeResult {db : CDatabaseMysql} (o : Outcomes) :
    (db.storeResult o).1.Clean ↔ db.Clean := by
  have hstored : (db.pass .storeResult).Clean ↔ db.Clean := clean_pass (by decide)
  simp only [CDatabaseMysql.storeResult]
  split
  · exact (clean_pass (by decide)).trans hstored
  · exact hstored

/-- A query keeps the object valid. -/
theorem Valid.runQuery {db : CDatabaseMysql} (hv : db.Valid) (o : Outcomes) :
    (db.runQuery o).1.Valid := by
  have hquery := hv.pass (f := .realQuery) (by decide)
  have herrno := hquery.pass (f := .errno) (by decide)
  have hagain := herrno.initializeDb ((db.pass .realQuery).pass .errno).mDBInfo o.reconnect
  simp only [CDatabaseMysql.runQuery]
  cases o.error with
  | none => exact hquery.storeResult o
  | some e =>
    dsimp only
    split
    · split
      · exact (hagain.pass (by decide)).storeResult o
      · exact hagain
    · exact herrno

/-- A query on a connection leaves the handles clean unless the server has gone. -/
theorem clean_runQuery {db : CDatabaseMysql} (hv : db.Valid) {h : Nat} (hm : db.mMysql = some h)
    (o : Outcomes) :
    (db.runQuery o).1.Clean ↔ db.Clean ∧ o.error ≠ some crServerGoneError := by
  have hquery : (db.pass .realQuery).Clean ↔ db.Clean := clean_pass (by decide)
  have herrno : ((db.pass .realQuery).pass .errno).Clean ↔ db.Clean :=
    (clean_pass (by decide)).trans hquery
  have hvalid : ((db.pass .realQuery).pass .errno).Valid :=
    (hv.pass (by decide)).pass (by decide)
  have hagain := not_clean_initializeDb hvalid (h := h) (by simp only [pass_mMysql, hm])
    ((db.pass .realQuery).pass .errno).mDBInfo o.reconnect
  simp only [CDatabaseMysql.runQuery]
  cases o.error with
  | none => simp only [clean_storeResult, hquery, ne_eq, reduceCtorEq, not_false_eq_true, and_true]
  | some e =>
    dsimp only
    split
    · next he =>
      rw [he]
      refine iff_of_false ?_ fun hboth => hboth.2 rfl
      split
      · rw [clean_storeResult, clean_pass (by decide)]
        exact hagain
      · exact hagain
    · next he =>
      rw [herrno]
      exact (and_iff_left fun heq => he (Option.some.inj heq)).symm

/-- `query` keeps the object valid. -/
theorem Valid.query {db : CDatabaseMysql} (hv : db.Valid) (o : Outcomes) :
    (db.query o).1.Valid := by
  have hconnect := hv.initializeDb db.mDBInfo o.connect
  simp only [CDatabaseMysql.query]
  cases hm : db.mMysql.isSome with
  | true =>
    simp only [if_true, Bool.true_and, hm]
    exact hv.runQuery o
  | false =>
    simp only [Bool.false_eq_true, if_false]
    split
    · exact hconnect.runQuery o
    · exact hconnect

private theorem clean_query {db : CDatabaseMysql} (hv : db.Valid) (o : Outcomes) :
    (db.query o).1.Clean ↔
      db.Clean ∧ (db.mMysql = none → o.connect = true) ∧ o.error ≠ some crServerGoneError := by
  cases hm : db.mMysql with
  | some h =>
    simp only [CDatabaseMysql.query, hm, Option.isSome_some, if_true, Bool.and_self,
      clean_runQuery hv hm, reduceCtorEq, false_implies, true_and]
  | none =>
    have hclean := clean_initializeDb hv db.mDBInfo o.connect
    have hvalid := hv.initializeDb db.mDBInfo o.connect
    simp only [CDatabaseMysql.query, hm, Option.isSome_none, Bool.false_eq_true, if_false,
      forall_const]
    cases hc : o.connect with
    | true =>
      rw [hc] at hclean hvalid
      have hnew : (db.initializeDb db.mDBInfo true).1.mMysql = some db.handles := by
        rw [(initializeDb_of_none hm _).1]
      have hreturns : (db.initializeDb db.mDBInfo true).2 = true := by
        rw [(initializeDb_of_none hm _).1]
      simp only [hreturns, hnew, Option.isSome_some, Bool.and_self, if_true,
        clean_runQuery hvalid hnew, hclean, hm, and_true, true_and]
    | false =>
      rw [hc] at hclean
      have hreturns : (db.initializeDb db.mDBInfo false).2 = false := by
        rw [(initializeDb_of_none hm _).2]
      simp only [hreturns, Bool.false_and, Bool.false_eq_true, if_false, hclean, and_false,
        false_and]

/-- `execute` keeps the object valid. -/
theorem Valid.executeBy {db : CDatabaseMysql} (hv : db.Valid) {repeated : MysqlFunction}
    (hr : repeated ≠ .close) (o : Outcomes) : (db.executeBy repeated o).1.Valid := by
  have hquery := hv.pass (f := .query) (by decide)
  have herrno := hquery.pass (f := .errno) (by decide)
  have hagain := herrno.initializeDb ((db.pass .query).pass .errno).mDBInfo o.reconnect
  simp only [CDatabaseMysql.executeBy]
  split
  · cases o.error with
    | none => exact hquery
    | some e =>
      dsimp only
      split
      · split
        · exact hagain.pass hr
        · exact hagain
      · exact herrno
  · exact hv

private theorem clean_executeBy {db : CDatabaseMysql} (hv : db.Valid) {repeated : MysqlFunction}
    (hr : repeated ≠ .close) (o : Outcomes) :
    (db.executeBy repeated o).1.Clean ↔
      db.Clean ∧ (db.mMysql ≠ none → o.error ≠ some crServerGoneError) := by
  have hquery : (db.pass .query).Clean ↔ db.Clean := clean_pass (by decide)
  have herrno : ((db.pass .query).pass .errno).Clean ↔ db.Clean :=
    (clean_pass (by decide)).trans hquery
  have hvalid : ((db.pass .query).pass .errno).Valid := (hv.pass (by decide)).pass (by decide)
  simp only [CDatabaseMysql.executeBy]
  cases hm : db.mMysql with
  | none =>
    simp only [Option.isSome_none, Bool.false_eq_true, if_false, ne_eq, not_true_eq_false,
      false_implies, and_true]
  | some h =>
    have hagain := not_clean_initializeDb hvalid (h := h) (by simp only [pass_mMysql, hm])
      ((db.pass .query).pass .errno).mDBInfo o.reconnect
    simp only [Option.isSome_some, if_true, ne_eq, reduceCtorEq, not_false_eq_true, true_implies]
    cases o.error with
    | none => simp only [hquery, reduceCtorEq, not_false_eq_true, and_true]
    | some e =>
      dsimp only
      split
      · next he =>
        rw [he]
        refine iff_of_false ?_ fun hboth => hboth.2 rfl
        split
        · rw [clean_pass hr]
          exact hagain
        · exact hagain
      · next he =>
        rw [herrno]
        exact (and_iff_left fun heq => he (Option.some.inj heq)).symm

/-! ## The life of the object -/

/-- The destructor leaves the handles disciplined exactly when they were clean before it. -/
theorem disciplined_destroy {db : CDatabaseMysql} (hv : db.Valid) :
    NoUseAfterClose db.destroy.calls ∧ EachClosedOnce db.destroy.calls ↔ db.Clean := by
  have hnone : ∀ h, .pass .close h ∉ db.calls → db.calls.count (.pass .close h) = 0 :=
    fun h => List.count_eq_zero_of_not_mem
  have hfresh : (∀ h, .pass .close h ∉ db.calls) → NoUseAfterClose db.calls := by
    intro hclosed before c after heq f h _ hmem
    refine hclosed h ?_
    rw [heq]
    exact List.mem_append_left _ hmem
  cases hm : db.mMysql with
  | none =>
    have hsame : db.destroy = db := by simp [destroy, hm]
    rw [hsame]
    constructor
    · rintro ⟨huse, honce⟩
      refine ⟨fun h hmem => hv.used_of_closed h hmem huse, fun h hmem => ?_⟩
      have hclosed : .pass .close h ∈ db.calls := by
        apply List.count_pos_iff.mp
        rw [honce h hmem]
        exact Nat.one_pos
      exact absurd huse (hv.used_of_closed h hclosed)
    · intro hc
      refine ⟨hfresh hc.not_closed, fun h hmem => ?_⟩
      have hheld := hc.held h hmem
      rw [hm] at hheld
      cases hheld
  | some h =>
    have hclose : db.destroy.calls = db.calls ++ [.pass .close h] := by
      simp [destroy, hm, hv.init_of_some h hm, CDatabaseMysql.pass]
    rw [hclose, NoUseAfterClose, along_concat, ← NoUseAfterClose]
    constructor
    · rintro ⟨⟨huse, -⟩, honce⟩
      have hclosed : ∀ k, .pass .close k ∉ db.calls :=
        fun k hmem => hv.used_of_closed k hmem huse
      refine ⟨hclosed, fun k hmem => ?_⟩
      have hcount := honce k (List.mem_append_left _ hmem)
      rw [List.count_append, hnone k (hclosed k), Nat.zero_add] at hcount
      have hin : MysqlCall.pass .close k ∈ [MysqlCall.pass .close h] := by
        apply List.count_pos_iff.mp
        rw [hcount]
        exact Nat.one_pos
      cases List.mem_singleton.mp hin
      exact hm
    · intro hc
      refine ⟨⟨hfresh hc.not_closed, fun f k _ => hc.not_closed k⟩, fun k hmem => ?_⟩
      rw [List.count_append, hnone k (hc.not_closed k), Nat.zero_add]
      rcases List.mem_append.mp hmem with hmem | hmem
      · have hheld := hc.held k hmem
        rw [hm] at hheld
        cases hheld
        simp
      · cases List.mem_singleton.mp hmem

end CDatabaseMysql

/-- The call starts no `initialize` that finds a handle or fails to connect. -/
def KeepsHandle (db : CDatabaseMysql) : DbOp → Prop
  | .initializeDb _ connected => db.mMysql = none ∧ connected = true
  | .query o => (db.mMysql = none → o.connect = true) ∧ o.error ≠ some crServerGoneError
  | .execute o => db.mMysql ≠ none → o.error ≠ some crServerGoneError
  | .executeErrno o => db.mMysql ≠ none → o.error ≠ some crServerGoneError

open CDatabaseMysql

/-- Every method keeps the object valid. -/
theorem valid_dbStep (db : CDatabaseMysql) (op : DbOp) (hv : db.Valid) : (dbStep db op).Valid := by
  cases op with
  | initializeDb info connected => exact hv.initializeDb info connected
  | query o => exact hv.query o
  | execute o => exact hv.executeBy (by decide) o
  | executeErrno o => exact hv.executeBy (by decide) o

/-- The first handle is still the only one after a method exactly when the method keeps it. -/
theorem clean_dbStep (db : CDatabaseMysql) (op : DbOp) (hv : db.Valid) :
    (dbStep db op).Clean ↔ db.Clean ∧ KeepsHandle db op := by
  cases op with
  | initializeDb info connected => exact clean_initializeDb hv info connected
  | query o => exact clean_query hv o
  | execute o => exact clean_executeBy hv (by decide) o
  | executeErrno o => exact clean_executeBy hv (by decide) o

/-- Over every life of the object, no handle is used after it was closed and each one is
closed once exactly when no call starts an `initialize` that finds a handle or fails. -/
theorem handles_disciplined_iff (ops : List DbOp) :
    NoUseAfterClose (lifeCalls ops) ∧ EachClosedOnce (lifeCalls ops) ↔
      ∀ db op, Visits dbStep .new ops db op → KeepsHandle db op := by
  have hvalid : (afterCalls ops).Valid := foldl_invariant valid_new valid_dbStep ops
  rw [lifeCalls, disciplined_destroy hvalid]
  exact foldl_iff_of_visits clean_new valid_new valid_dbStep clean_dbStep ops

/-- The answers of a server that has gone and comes back. -/
def goneOnce : Outcomes := ⟨true, some crServerGoneError, true, 0, true, 1⟩

/-- A server goes away once: the reconnect passes the closed handle to `mysql_init`, and it
is closed again by the destructor. -/
theorem handle_closed_twice :
    lifeCalls [.initializeDb ⟨[], [], [], []⟩ true, .execute goneOnce] =
        [.alloc 0, .pass .realConnect 0, .pass .query 0, .pass .query 0, .pass .errno 0,
          .pass .close 0, .pass .init 0, .pass .realConnect 0, .pass .query 0, .pass .realQuery 0,
          .pass .close 0] ∧
      ¬ (NoUseAfterClose (lifeCalls [.initializeDb ⟨[], [], [], []⟩ true, .execute goneOnce]) ∧
        EachClosedOnce (lifeCalls [.initializeDb ⟨[], [], [], []⟩ true, .execute goneOnce])) := by
  refine ⟨by decide, fun h => ?_⟩
  have hcount := h.2 0 (by decide)
  revert hcount
  decide

end ChatRoom.Db
