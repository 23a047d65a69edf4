import ChatRoom.Db.MysqlManager

/-!
# CMysqlManager::init

`init` connects to the server without a database, looks for the database among those that the
server lists, creates it if it is not there, and runs the script on a second connection. It
returns true in one way only, and over all calls of a manager a handle is lost or used after
it was closed only by a refused connection or by a server that has gone.
-/

namespace ChatRoom.Db

open ChatRoom.Core

/-- The answers of the client library along one call of `init`, and the content of the script.
The rows are those of the result that a query returns, if it returns one. -/
structure InitAnswers where
  connected : Bool
  listed : Outcomes
  rows : List (List Bytes)
  create : Outcomes
  listedAgain : Outcomes
  rowsAgain : List (List Bytes)
  reconnected : Bool
  script : Option Bytes
  executed : Nat → Outcomes

/-- The manager. A connection object is kept as the calls that have been made on it. -/
structure CMysqlManager where
  strHost : Bytes
  strUser : Bytes
  strPassword : Bytes
  strDataBase : Bytes
  poConn : Option (List DbOp)
  /-- The connection objects that have been destroyed. -/
  ended : List (List DbOp)
  /-- What was passed to `query` and `execute`, with the database of the connection. -/
  sent : List (Bytes × Bytes)

namespace CMysqlManager

/-- The constructor. -/
def new : CMysqlManager := ⟨[], [], [], [], none, [], []⟩

/-- `m_poConn.reset(...)` destroys the object that was there. -/
def reset (m : CMysqlManager) (conn : Option (List DbOp)) : CMysqlManager :=
  { m with poConn := conn, ended := m.ended ++ m.poConn.toList }

/-- Calls on the object that `m_poConn` holds, with the statements they pass. -/
def call (m : CMysqlManager) (ops : List DbOp) (sent : List (Bytes × Bytes)) : CMysqlManager :=
  { m with poConn := m.poConn.map (· ++ ops), sent := m.sent ++ sent }

/-- A new object, and its `initialize` with the parameters of the manager. -/
def connect (m : CMysqlManager) (strDBName : Bytes) (connected : Bool) : CMysqlManager × Bool :=
  let info : DatabaseInfo := ⟨m.strHost, m.strUser, m.strPassword, strDBName⟩
  ((m.reset (some [])).call [.initializeDb info connected] [],
    (CDatabaseMysql.new.initializeDb info connected).2)

/-- `isDBExist`: the name is one of those that the server lists. -/
def isDBExist (m : CMysqlManager) (o : Outcomes) (rows : List (List Bytes)) :
    CMysqlManager × Bool :=
  match m.poConn with
  | none => (m, false)
  | some ops =>
    let db := afterCalls ops
    (m.call [.query o] [(db.mDBInfo.strDBName, text "SHOW DATABASES;")],
      (db.query o).2 && rows.any fun row => row.any fun str => m.strDataBase = str)

/-- `createDB`: the statement is cut at a NUL of the name, and the databases are listed again. -/
def createDB (m : CMysqlManager) (a : InitAnswers) : CMysqlManager × Bool :=
  match m.poConn with
  | none => (m, false)
  | some ops =>
    let db := afterCalls ops
    let statement := cstr (text "CREATE DATABASE " ++ m.strDataBase ++ text ";")
    let m := m.call [.executeErrno a.create] [(db.mDBInfo.strDBName, statement)]
    if (db.executeErrno a.create).2.1 then m.isDBExist a.listedAgain a.rowsAgain else (m, false)

/-- `initData`, which executes each of its statements once. -/
def runScript (m : CMysqlManager) (a : InitAnswers) : CMysqlManager × Bool :=
  match m.poConn with
  | none => (m, false)
  | some ops =>
    let db := afterCalls ops
    let run := (initData db a.executed a.script).value
    (m.call ((List.range run.statements.length).map fun i => .execute (a.executed i))
      (run.statements.map fun statement => (db.mDBInfo.strDBName, statement)), run.result)

/-- The parameters of `init`; the password may be a null pointer. -/
def remember (m : CMysqlManager) (host user : Bytes) (pwd : Option Bytes) (dbname : Bytes) :
    CMysqlManager :=
  { m with
    strHost := host
    strUser := user
    strPassword := pwd.getD m.strPassword
    strDataBase := dbname }

/-- The first part of `init`: the database is there, or is created. -/
def ensureDB (m : CMysqlManager) (a : InitAnswers) : CMysqlManager × Bool :=
  let exist := m.isDBExist a.listed a.rows
  if !exist.2 then exist.1.createDB a else exist

/-- `init`: two connections, the first one to no database. -/
def init (m : CMysqlManager) (host user : Bytes) (pwd : Option Bytes) (dbname : Bytes)
    (a : InitAnswers) : CMysqlManager × Bool :=
  let opened := (m.remember host user pwd dbname).connect [] a.connected
  if !opened.2 then opened
  else
    let ready := opened.1.ensureDB a
    if !ready.2 then ready
    else
      let reopened := ready.1.connect ready.1.strDataBase a.reconnected
      if !reopened.2 then reopened
      else
        let loaded := reopened.1.runScript a
        if !loaded.2 then loaded else (loaded.1.reset none, true)

end CMysqlManager

/-! ## The connection object -/

/-- A query on an open connection returns a result. -/
def Outcomes.Returns (o : Outcomes) : Prop :=
  (o.error = none ∨ o.error = some crServerGoneError ∧ o.reconnect = true) ∧
    o.stored = true ∧ o.fieldCount ≠ 0

/-- The server has gone and does not come back. -/
def Outcomes.Lost (o : Outcomes) : Prop :=
  o.error = some crServerGoneError ∧ o.reconnect = false

/-- The call passes a statement. -/
def DbOp.Statement : DbOp → Prop
  | .initializeDb _ _ => False
  | .query _ | .execute _ | .executeErrno _ => True

/-- A connection is refused, or a statement meets a server that has gone. -/
def DbOp.Disturbed : DbOp → Prop
  | .initializeDb _ connected => connected = false
  | .query o | .execute o | .executeErrno o => o.error = some crServerGoneError

namespace CDatabaseMysql

variable {db : CDatabaseMysql}

private theorem initializeDb_spec (db : CDatabaseMysql) (info : DatabaseInfo) (connected : Bool) :
    (db.initializeDb info connected).2 = connected ∧
      (db.initializeDb info connected).1.mMysql.isSome = connected ∧
      (db.initializeDb info connected).1.mDBInfo = info := by
  cases hm : db.mMysql <;> cases hb : db.mBInit <;> cases connected <;>
    simp [initializeDb, mysqlInit, realConnect, CDatabaseMysql.pass, hm, hb]

/-- A call keeps what the connection is made with. -/
@[simp] theorem pass_mDBInfo (db : CDatabaseMysql) (f : MysqlFunction) :
    (db.pass f).mDBInfo = db.mDBInfo := by
  simp only [CDatabaseMysql.pass]
  split <;> rfl

private theorem storeResult_spec (db : CDatabaseMysql) (o : Outcomes) :
    ((db.storeResult o).2 = true ↔ o.stored = true ∧ o.fieldCount ≠ 0) ∧
      (db.storeResult o).1.mMysql = db.mMysql ∧ (db.storeResult o).1.mDBInfo = db.mDBInfo := by
  simp only [CDatabaseMysql.storeResult]
  cases o.stored <;> simp

private theorem query_of_isSome (h : db.mMysql.isSome = true) (o : Outcomes) :
    db.query o = db.runQuery o := by
  simp only [CDatabaseMysql.query, h, if_true, Bool.and_self]

/-- When a query on an open connection returns a result, and when it leaves the connection open. -/
theorem query_spec (h : db.mMysql.isSome = true) (o : Outcomes) :
    ((db.query o).2 = true ↔ o.Returns) ∧
      ((db.query o).1.mMysql.isSome = true ↔ ¬ o.Lost) ∧
      (db.query o).1.mDBInfo = db.mDBInfo := by
  rw [query_of_isSome h, Outcomes.Returns, Outcomes.Lost, CDatabaseMysql.runQuery]
  cases herror : o.error with
  | none =>
    obtain ⟨hresult, hhandle, hinfo⟩ := (db.pass .realQuery).storeResult_spec o
    simp [hresult, hhandle, hinfo, h]
  | some e =>
    by_cases he : e = crServerGoneError
    · have hagain := ((db.pass .realQuery).pass .errno).initializeDb_spec
        ((db.pass .realQuery).pass .errno).mDBInfo o.reconnect
      dsimp only
      generalize ((db.pass .realQuery).pass .errno).initializeDb
        ((db.pass .realQuery).pass .errno).mDBInfo o.reconnect = r at hagain ⊢
      obtain ⟨hback, hhandle, hinfo⟩ := hagain
      obtain ⟨hresult, hhandle', hinfo'⟩ := (r.1.pass .realQuery).storeResult_spec o
      rw [if_pos he, hback]
      cases hreconnect : o.reconnect with
      | true =>
        rw [hreconnect] at hhandle
        simp [he, hresult, hhandle', hinfo', hhandle, hinfo]
      | false =>
        rw [hreconnect] at hhandle
        simp [he, hhandle, hinfo]
    · simp [he, h]

/-- An execute returns true on an open connection that meets no error, and the handle is only
touched when the server has gone. -/
theorem executeBy_spec (repeated : MysqlFunction) (db : CDatabaseMysql) (o : Outcomes) :
    ((db.executeBy repeated o).2.1 = true ↔ db.mMysql.isSome = true ∧ o.error = none) ∧
      (o.error ≠ some crServerGoneError → (db.executeBy repeated o).1.mMysql = db.mMysql) ∧
      (db.executeBy repeated o).1.mDBInfo = db.mDBInfo := by
  rw [CDatabaseMysql.executeBy]
  cases hm : db.mMysql.isSome with
  | false => simp
  | true =>
    cases herror : o.error with
    | none => simp
    | some e =>
      by_cases he : e = crServerGoneError
      · have hagain := ((db.pass .query).pass .errno).initializeDb_spec
          ((db.pass .query).pass .errno).mDBInfo o.reconnect
        dsimp only
        generalize ((db.pass .query).pass .errno).initializeDb
          ((db.pass .query).pass .errno).mDBInfo o.reconnect = r at hagain ⊢
        obtain ⟨_, _, hinfo⟩ := hagain
        rw [if_pos rfl, if_pos he]
        split <;> simp [he, hinfo]
      · simp [he]

private theorem isSome_executeBy (repeated : MysqlFunction) (hopen : db.mMysql.isSome = true)
    {o : Outcomes} (h : o.error ≠ some crServerGoneError) :
    (db.executeBy repeated o).1.mMysql.isSome = true := by
  rw [(executeBy_spec repeated db o).2.1 h]
  exact hopen

/-- A query on a connection that is not open opens it to the same database first. -/
theorem mDBInfo_query (db : CDatabaseMysql) (o : Outcomes) :
    (db.query o).1.mDBInfo = db.mDBInfo := by
  cases hm : db.mMysql.isSome with
  | true => exact (query_spec hm o).2.2
  | false =>
    have hagain := db.initializeDb_spec db.mDBInfo o.connect
    simp only [CDatabaseMysql.query, hm, Bool.false_eq_true, if_false]
    generalize db.initializeDb db.mDBInfo o.connect = r at hagain ⊢
    obtain ⟨hback, hhandle, hinfo⟩ := hagain
    split
    · next hopen =>
      rw [Bool.and_eq_true] at hopen
      rw [← query_of_isSome hopen.2, (query_spec hopen.2 o).2.2]
      exact hinfo
    · exact hinfo

end CDatabaseMysql

open CDatabaseMysql

variable {ops rest : List DbOp} {op : DbOp} {db : CDatabaseMysql}

private theorem mDBInfo_dbStep (h : op.Statement) : (dbStep db op).mDBInfo = db.mDBInfo := by
  cases op with
  | initializeDb info connected => cases h
  | query o => exact db.mDBInfo_query o
  | execute o => exact (executeBy_spec .realQuery db o).2.2
  | executeErrno o => exact (executeBy_spec .query db o).2.2

/-- On an open connection a statement only disturbs the handle when the server has gone. -/
theorem keepsHandle_iff (h : op.Statement) (hopen : db.mMysql.isSome = true) :
    KeepsHandle db op ↔ ¬ op.Disturbed := by
  have hne : db.mMysql ≠ none := Option.isSome_iff_ne_none.mp hopen
  cases op with
  | initializeDb info connected => cases h
  | query o => simp [KeepsHandle, DbOp.Disturbed, hne]
  | execute o => simp [KeepsHandle, DbOp.Disturbed, hne]
  | executeErrno o => simp [KeepsHandle, DbOp.Disturbed, hne]

private theorem isSome_dbStep (h : op.Statement) (hopen : db.mMysql.isSome = true)
    (hkeeps : ¬ op.Disturbed) : (dbStep db op).mMysql.isSome = true := by
  cases op with
  | initializeDb info connected => cases h
  | query o => exact (query_spec hopen o).2.1.mpr fun hlost => hkeeps hlost.1
  | execute o => exact isSome_executeBy .realQuery hopen hkeeps
  | executeErrno o => exact isSome_executeBy .query hopen hkeeps

private theorem afterCalls_concat (ops : List DbOp) (op : DbOp) :
    afterCalls (ops ++ [op]) = dbStep (afterCalls ops) op := by
  rw [afterCalls, List.foldl_append, List.foldl_cons, List.foldl_nil, afterCalls]

/-- Statements are passed to the database that the connection was opened to. -/
theorem mDBInfo_append (h : ∀ op ∈ rest, op.Statement) :
    (afterCalls (ops ++ rest)).mDBInfo = (afterCalls ops).mDBInfo := by
  induction rest using List.reverseRecOn with
  | nil => rw [List.append_nil]
  | append_singleton rest op ih =>
    rw [← List.append_assoc, afterCalls_concat, mDBInfo_dbStep (h op (by simp))]
    exact ih fun op' hop' => h op' (List.mem_append_left _ hop')

/-! ## The life of a connection object -/

/-- The calls on a connection object of the manager: one `initialize`, and statements if the
connection was not refused. -/
inductive Opened : List DbOp → Prop where
  | refused (info : DatabaseInfo) : Opened [.initializeDb info false]
  | accepted (info : DatabaseInfo) (rest : List DbOp) (h : ∀ op ∈ rest, op.Statement) :
      Opened (.initializeDb info true :: rest)

/-- The handles of an accepted connection are clean until a statement meets a server that has
gone, and up to there the connection is open. -/
theorem clean_accepted (info : DatabaseInfo) (h : ∀ op ∈ rest, op.Statement) :
    ((afterCalls (.initializeDb info true :: rest)).Clean ↔ ∀ op ∈ rest, ¬ op.Disturbed) ∧
      ((afterCalls (.initializeDb info true :: rest)).Clean →
        (afterCalls (.initializeDb info true :: rest)).mMysql.isSome = true) := by
  induction rest using List.reverseRecOn with
  | nil =>
    have hclean : (afterCalls [.initializeDb info true]).Clean :=
      (clean_initializeDb valid_new info true).mpr ⟨clean_new, rfl, rfl⟩
    exact ⟨iff_of_true hclean (by simp), fun _ => (new.initializeDb_spec info true).2.1⟩
  | append_singleton rest op ih =>
    obtain ⟨hiff, hopen⟩ := ih fun op' hop' => h op' (List.mem_append_left _ hop')
    have hop : op.Statement := h op (by simp)
    have hvalid : (afterCalls (.initializeDb info true :: rest)).Valid :=
      foldl_invariant valid_new valid_dbStep _
    rw [← List.cons_append, afterCalls_concat, clean_dbStep _ op hvalid]
    have hstep : (afterCalls (.initializeDb info true :: rest)).Clean ∧
        KeepsHandle (afterCalls (.initializeDb info true :: rest)) op ↔
          (afterCalls (.initializeDb info true :: rest)).Clean ∧ ¬ op.Disturbed :=
      and_congr_right fun hclean => keepsHandle_iff hop (hopen hclean)
    rw [hstep, hiff]
    constructor
    · simp only [List.mem_append, List.mem_singleton, or_imp, forall_and, forall_eq]
    · rintro ⟨hearlier, hlast⟩
      exact isSome_dbStep hop (hopen (hiff.mpr hearlier)) hlast

/-- The handles of a connection object are closed once and not used afterwards exactly when
nothing has disturbed them. -/
theorem Opened.disciplined_iff (h : Opened ops) :
    NoUseAfterClose (lifeCalls ops) ∧ EachClosedOnce (lifeCalls ops) ↔
      ∀ op ∈ ops, ¬ op.Disturbed := by
  have hvalid : (afterCalls ops).Valid := foldl_invariant valid_new valid_dbStep ops
  rw [lifeCalls, disciplined_destroy hvalid]
  cases h with
  | refused info =>
    have hrefused : ¬ (afterCalls [.initializeDb info false]).Clean := fun hclean =>
      Bool.false_ne_true ((clean_initializeDb valid_new info false).mp hclean).2.2
    exact iff_of_false hrefused (by simp [DbOp.Disturbed])
  | accepted info rest h =>
    rw [(clean_accepted info h).1]
    simp [DbOp.Disturbed]

/-! ## The steps of init -/

namespace CMysqlManager

variable {m m' m'' : CMysqlManager} {a : InitAnswers} {name : Bytes}

/-- The connection of the manager is open to a database, and only statements have been passed. -/
def Connected (m : CMysqlManager) (name : Bytes) : Prop :=
  ∃ info rest, m.poConn = some (.initializeDb info true :: rest) ∧ info.strDBName = name ∧
    ∀ op ∈ rest, op.Statement

/-- Statements are passed to the database `name` on the connection that the manager has. -/
def Asks (name : Bytes) (m m' : CMysqlManager) : Prop :=
  ∃ ops sent, m' = m.call ops sent ∧ (∀ op ∈ ops, op.Statement) ∧ ∀ x ∈ sent, x.1 = name

private theorem call_call (m : CMysqlManager) (ops ops' : List DbOp)
    (sent sent' : List (Bytes × Bytes)) :
    (m.call ops sent).call ops' sent' = m.call (ops ++ ops') (sent ++ sent') := by
  simp only [call, Option.map_map, List.append_assoc]
  congr 2
  funext conn
  exact List.append_assoc conn ops ops'

private theorem Asks.trans (h : Asks name m m') (h' : Asks name m' m'') : Asks name m m'' := by
  obtain ⟨ops, sent, rfl, hops, hsent⟩ := h
  obtain ⟨ops', sent', rfl, hops', hsent'⟩ := h'
  refine ⟨ops ++ ops', sent ++ sent', m.call_call ops ops' sent sent', ?_, ?_⟩
  · intro op hop
    exact (List.mem_append.mp hop).elim (hops op) (hops' op)
  · intro x hx
    exact (List.mem_append.mp hx).elim (hsent x) (hsent' x)

private theorem Connected.asks (h : m.Connected name) (hasks : Asks name m m') :
    m'.Connected name := by
  obtain ⟨info, rest, hconn, hname, hrest⟩ := h
  obtain ⟨ops, sent, rfl, hops, _⟩ := hasks
  have hcall : (m.call ops sent).poConn = some (.initializeDb info true :: (rest ++ ops)) := by
    simp only [call, hconn, Option.map_some, List.cons_append]
  refine ⟨info, rest ++ ops, hcall, hname, ?_⟩
  intro op hop
  exact (List.mem_append.mp hop).elim (hrest op) (hops op)

/-- The object of an open connection says which database it was opened to. -/
theorem Connected.poConn (h : m.Connected name) :
    ∃ conn, m.poConn = some conn ∧ (afterCalls conn).mDBInfo.strDBName = name := by
  obtain ⟨info, rest, hconn, hname, hrest⟩ := h
  refine ⟨_, hconn, ?_⟩
  rw [← List.singleton_append, mDBInfo_append hrest, ← hname]
  exact congrArg DatabaseInfo.strDBName (CDatabaseMysql.new.initializeDb_spec info true).2.2

private theorem Connected.isDBExist (h : m.Connected name) (o : Outcomes)
    (rows : List (List Bytes)) :
    Asks name m (m.isDBExist o rows).1 := by
  obtain ⟨conn, hconn, hname⟩ := h.poConn
  rw [CMysqlManager.isDBExist, hconn]
  refine ⟨_, _, rfl, by simp [DbOp.Statement], ?_⟩
  intro x hx
  rw [List.mem_singleton.mp hx]
  exact hname

private theorem Connected.createDB (h : m.Connected name) (a : InitAnswers) :
    Asks name m (m.createDB a).1 := by
  obtain ⟨conn, hconn, hname⟩ := h.poConn
  rw [CMysqlManager.createDB, hconn]
  dsimp only
  have hcreate : ∀ statement, Asks name m (m.call [.executeErrno a.create]
      [((afterCalls conn).mDBInfo.strDBName, statement)]) := by
    intro statement
    refine ⟨_, _, rfl, by simp [DbOp.Statement], ?_⟩
    intro x hx
    rw [List.mem_singleton.mp hx]
    exact hname
  split
  · exact (hcreate _).trans ((h.asks (hcreate _)).isDBExist _ _)
  · exact hcreate _

private theorem Connected.runScript (h : m.Connected name) (a : InitAnswers) :
    Asks name m (m.runScript a).1 := by
  obtain ⟨conn, hconn, hname⟩ := h.poConn
  rw [CMysqlManager.runScript, hconn]
  refine ⟨_, _, rfl, ?_, ?_⟩
  · intro op hop
    obtain ⟨i, _, rfl⟩ := List.mem_map.mp hop
    trivial
  · intro x hx
    obtain ⟨statement, _, rfl⟩ := List.mem_map.mp hx
    exact hname

private theorem connect_snd (m : CMysqlManager) (name : Bytes) (connected : Bool) :
    (m.connect name connected).2 = connected := (CDatabaseMysql.new.initializeDb_spec _ _).1

private theorem strDataBase_asks (h : Asks name m m') : m'.strDataBase = m.strDataBase := by
  obtain ⟨ops, sent, rfl, _⟩ := h
  rfl

/-- A connection that was accepted is open, and nothing has been sent on it. -/
theorem connect_accepted (m : CMysqlManager) (name : Bytes) :
    ∃ conn, (m.connect name true).1.poConn = some conn ∧
      (afterCalls conn).mMysql.isSome = true ∧ (afterCalls conn).mDBInfo.strDBName = name ∧
      (m.connect name true).1.sent = m.sent := by
  obtain ⟨_, hopen, hinfo⟩ :=
    CDatabaseMysql.new.initializeDb_spec ⟨m.strHost, m.strUser, m.strPassword, name⟩ true
  exact ⟨_, rfl, hopen, congrArg DatabaseInfo.strDBName hinfo, List.append_nil _⟩

private theorem connected_connect (m : CMysqlManager) (name : Bytes) :
    (m.connect name true).1.Connected name :=
  ⟨_, [], rfl, rfl, by simp⟩

private theorem Connected.ensureDB (h : m.Connected name) (a : InitAnswers) :
    Asks name m (m.ensureDB a).1 := by
  have hexist := h.isDBExist a.listed a.rows
  rw [CMysqlManager.ensureDB]
  split
  · exact hexist.trans ((h.asks hexist).createDB a)
  · exact hexist

/-! ## The script -/

section Script

variable {db : CDatabaseMysql} {answers answers' : Nat → Outcomes} {line : Bytes}
  {ls rest : List Bytes}

private theorem length_cutGroups_closed (hline : line.getLast? = some 59) (rest : List Bytes) :
    (cutGroups (line :: rest)).1.length = (cutGroups rest).1.length + 1 := by
  rw [cutGroups, if_pos hline, List.length_cons]

private theorem length_cutGroups_open (hline : line.getLast? ≠ some 59) (rest : List Bytes) :
    (cutGroups (line :: rest)).1.length = (cutGroups rest).1.length := by
  rw [cutGroups, if_neg hline]
  cases (cutGroups rest).1 <;> rfl

/-- A line that ends with a semicolon has its statement executed, and ends the script if that
fails. -/
theorem value_initLines_closed (hline : line.getLast? = some 59) (rest : List Bytes)
    (query : Bytes) :
    (initLines db answers (line :: rest) query).value =
      if (db.execute (answers 0)).2 then
        let run :=
          (initLines (db.execute (answers 0)).1 (fun i => answers (i + 1)) rest []).value
        { run with statements := cstr (query ++ line) :: run.statements }
      else ⟨false, [cstr (query ++ line)], query ++ line⟩ := by
  have hback : (back line).value = 59 := by rw [back, hline, Option.getD_some]
  rw [initLines, Traced.bind_value, hback]
  dsimp only
  rw [if_pos rfl]
  split <;> rfl

private theorem value_initLines_open (hline : line.getLast? ≠ some 59) (rest : List Bytes)
    (query : Bytes) :
    (initLines db answers (line :: rest) query).value =
      (initLines db answers rest (query ++ line)).value := by
  rw [initLines_open hline, Traced.bind_value]

/-- The script is run to its end exactly when none of its statements meets an error. -/
theorem result_initLines_iff (hconn : db.mMysql.isSome = true) (ls : List Bytes) (query : Bytes) :
    (initLines db answers ls query).value.result = true ↔
      ∀ i < (cutGroups ls).1.length, (answers i).error = none := by
  induction ls generalizing db answers query with
  | nil => exact iff_of_true rfl (by simp [cutGroups])
  | cons line rest ih =>
    by_cases hline : line.getLast? = some 59
    · have hexec : (db.execute (answers 0)).2 = true ↔ (answers 0).error = none :=
        ((executeBy_spec .realQuery db (answers 0)).1).trans (and_iff_right hconn)
      rw [length_cutGroups_closed hline, value_initLines_closed hline, Nat.forall_lt_succ_left,
        ← hexec]
      split
      · next h =>
        rw [and_iff_right h]
        exact ih (execute_succeeds hconn (hexec.mp h)).2 []
      · next h => exact iff_of_false Bool.false_ne_true fun hboth => h hboth.1
    · rw [length_cutGroups_open hline, value_initLines_open hline]
      exact ih hconn (query ++ line)

/-- What the script does depends on the answers to its own statements only. -/
theorem value_initLines_congr (h : ∀ i < (cutGroups ls).1.length, answers i = answers' i)
    (query : Bytes) :
    (initLines db answers ls query).value = (initLines db answers' ls query).value := by
  induction ls generalizing db answers answers' query with
  | nil => rfl
  | cons line rest ih =>
    by_cases hline : line.getLast? = some 59
    · rw [length_cutGroups_closed hline, Nat.forall_lt_succ_left] at h
      rw [value_initLines_closed hline, value_initLines_closed hline, h.1, ih h.2]
    · rw [length_cutGroups_open hline] at h
      rw [value_initLines_open hline, value_initLines_open hline]
      exact ih h _

/-- A script that is run to its end has its statements executed, and no others. -/
theorem statements_initData (hconn : db.mMysql.isSome = true) {content : Bytes}
    (h : (initData db answers (some content)).value.result = true) :
    (initData db answers (some content)).value.statements =
      (cutGroups (lines content)).1.map fun g => cstr g.flatten := by
  have herror := (result_initLines_iff hconn (lines content) []).mp h
  obtain ⟨answers', hsame, hok⟩ : ∃ answers' : Nat → Outcomes,
      (∀ i < (cutGroups (lines content)).1.length, answers i = answers' i) ∧
        ∀ i, (answers' i).error = none := by
    refine ⟨fun i => if i < (cutGroups (lines content)).1.length then answers i else succeeding i,
      fun i hi => (if_pos hi).symm, fun i => ?_⟩
    dsimp only
    split
    · next hi => exact herror i hi
    · rfl
  have hall := value_initData hconn hok content
  rw [initData] at hall ⊢
  rw [value_initLines_congr hsame [], hall]

end Script

/-! ## When init returns true -/

/-- The statement lists the databases, and this one is among them. -/
def Lists (o : Outcomes) (rows : List (List Bytes)) (dbname : Bytes) : Prop :=
  o.Returns ∧ ∃ row ∈ rows, dbname ∈ row

section Spec

variable {conn : List DbOp}

private theorem isDBExist_fst (hconn : m.poConn = some conn) (o : Outcomes)
    (rows : List (List Bytes)) :
    ∃ sent, (m.isDBExist o rows).1 = m.call [.query o] sent := by
  rw [CMysqlManager.isDBExist, hconn]
  exact ⟨_, rfl⟩

private theorem isDBExist_spec (hconn : m.poConn = some conn)
    (hopen : (afterCalls conn).mMysql.isSome = true) (o : Outcomes) (rows : List (List Bytes)) :
    (m.isDBExist o rows).2 = true ↔ Lists o rows m.strDataBase := by
  simp only [CMysqlManager.isDBExist, hconn, Bool.and_eq_true, (query_spec hopen o).1, Lists,
    List.any_eq_true, decide_eq_true_eq, exists_eq_right']

private theorem createDB_spec (hconn : m.poConn = some conn) (a : InitAnswers) :
    (m.createDB a).2 = true ↔ (afterCalls conn).mMysql.isSome = true ∧ a.create.error = none ∧
      Lists a.listedAgain a.rowsAgain m.strDataBase := by
  have hexec := (executeBy_spec .query (afterCalls conn) a.create).1
  rw [CMysqlManager.createDB, hconn]
  dsimp only
  rw [← and_assoc, ← hexec]
  split
  · next h =>
    obtain ⟨hopen, herror⟩ := hexec.mp h
    have hopen' : (afterCalls (conn ++ [.executeErrno a.create])).mMysql.isSome = true := by
      rw [afterCalls_concat]
      exact isSome_dbStep trivial hopen (by simp [DbOp.Disturbed, herror])
    rw [isDBExist_spec (by simp only [call, hconn, Option.map_some]) hopen']
    exact (and_iff_right h).symm
  · next h => exact iff_of_false Bool.false_ne_true fun hboth => h hboth.1

private theorem ensureDB_spec (hconn : m.poConn = some conn)
    (hopen : (afterCalls conn).mMysql.isSome = true) (a : InitAnswers) :
    (m.ensureDB a).2 = true ↔ Lists a.listed a.rows m.strDataBase ∨
      ¬ a.listed.Lost ∧ a.create.error = none ∧
        Lists a.listedAgain a.rowsAgain m.strDataBase := by
  have hexist := isDBExist_spec hconn hopen a.listed a.rows
  obtain ⟨sent, hfst⟩ := isDBExist_fst hconn a.listed a.rows
  rw [CMysqlManager.ensureDB]
  by_cases h : (m.isDBExist a.listed a.rows).2 = true
  · rw [h, Bool.not_true, if_neg Bool.false_ne_true, h]
    exact iff_of_true rfl (Or.inl (hexist.mp h))
  · have hcall : (m.call [.query a.listed] sent).poConn = some (conn ++ [.query a.listed]) := by
      simp only [call, hconn, Option.map_some]
    have hlost : (dbStep (afterCalls conn) (.query a.listed)).mMysql.isSome = true ↔
        ¬ a.listed.Lost := (query_spec hopen a.listed).2.1
    rw [Bool.not_eq_true _ |>.mp h, Bool.not_false, if_pos rfl, hfst, createDB_spec hcall,
      afterCalls_concat, or_iff_right (fun hlists => h (hexist.mpr hlists))]
    exact and_congr_left fun _ => hlost

private theorem runScript_spec (hconn : m.poConn = some conn)
    (hopen : (afterCalls conn).mMysql.isSome = true) (a : InitAnswers) :
    ((m.runScript a).2 = true ↔ ∃ content, a.script = some content ∧
        ∀ i < (cutGroups (lines content)).1.length, (a.executed i).error = none) ∧
      ∀ content, a.script = some content → (m.runScript a).2 = true →
        (m.runScript a).1.sent = m.sent ++ (cutGroups (lines content)).1.map fun g =>
          ((afterCalls conn).mDBInfo.strDBName, cstr g.flatten) := by
  rw [CMysqlManager.runScript, hconn]
  constructor
  · cases hscript : a.script with
    | none => exact iff_of_false Bool.false_ne_true (by simp)
    | some content =>
      simp only [Option.some_inj, exists_eq_left']
      exact result_initLines_iff hopen (lines content) []
  · rintro content hscript hresult
    rw [hscript] at hresult ⊢
    simp only [call, statements_initData hopen hresult, List.map_map]
    rfl

end Spec

/-- What the library has to answer for `init` to get as far as the script. -/
def Ready (a : InitAnswers) (dbname : Bytes) : Prop :=
  a.connected = true ∧
    (Lists a.listed a.rows dbname ∨
      ¬ a.listed.Lost ∧ a.create.error = none ∧ Lists a.listedAgain a.rowsAgain dbname) ∧
    a.reconnected = true

/-- `init` returns true when each of its steps does, and then ends the second connection. -/
theorem init_steps (m : CMysqlManager) (host user : Bytes) (pwd : Option Bytes) (dbname : Bytes)
    (a : InitAnswers) :
    let ready := ((m.remember host user pwd dbname).connect [] a.connected).1.ensureDB a
    let loaded := (ready.1.connect ready.1.strDataBase a.reconnected).1.runScript a
    ((m.init host user pwd dbname a).2 = true ↔
        a.connected = true ∧ ready.2 = true ∧ a.reconnected = true ∧ loaded.2 = true) ∧
      ((m.init host user pwd dbname a).2 = true →
        (m.init host user pwd dbname a).1 = loaded.1.reset none) := by
  intro ready loaded
  have hopened := (m.remember host user pwd dbname).connect_snd [] a.connected
  have hreopened := ready.1.connect_snd ready.1.strDataBase a.reconnected
  let opened := (m.remember host user pwd dbname).connect [] a.connected
  let reopened := ready.1.connect ready.1.strDataBase a.reconnected
  have hinit : m.init host user pwd dbname a =
      if !opened.2 then opened
      else if !ready.2 then ready
      else if !reopened.2 then reopened
      else if !loaded.2 then loaded else (loaded.1.reset none, true) := rfl
  rw [hinit, ← hopened, ← hreopened]
  cases h₁ : opened.2 with
  | false => simp [h₁]
  | true =>
    cases h₂ : ready.2 with
    | false => simp [h₂]
    | true =>
      cases h₃ : reopened.2 with
      | false => simp [h₃]
      | true => cases h₄ : loaded.2 <;> simp [h₄]

/-- The first connection finds the database or creates it, and says nothing to another one. -/
theorem ensureDB_opened (m : CMysqlManager) (host user : Bytes) (pwd : Option Bytes)
    (dbname : Bytes) (hconnected : a.connected = true) :
    let ready := ((m.remember host user pwd dbname).connect [] a.connected).1.ensureDB a
    (ready.2 = true ↔ Lists a.listed a.rows dbname ∨ ¬ a.listed.Lost ∧ a.create.error = none ∧
        Lists a.listedAgain a.rowsAgain dbname) ∧
      ready.1.strDataBase = dbname ∧
      ∃ asked, (∀ x ∈ asked, x.1 = []) ∧ ready.1.sent = m.sent ++ asked := by
  intro ready
  obtain ⟨conn, hconn, hopen, _, hsent⟩ := (m.remember host user pwd dbname).connect_accepted []
  have hasks := ((m.remember host user pwd dbname).connected_connect []).ensureDB a
  rw [← hconnected] at hconn hsent hasks
  refine ⟨ensureDB_spec hconn hopen a, strDataBase_asks hasks, ?_⟩
  obtain ⟨ops, asked, hready, _, hasked⟩ := hasks
  exact ⟨asked, hasked, (congrArg sent hready).trans (congrArg (· ++ asked) hsent)⟩

/-- The second connection runs the script. -/
theorem runScript_reopened (m : CMysqlManager) (name : Bytes)
    (hreconnected : a.reconnected = true) :
    let loaded := (m.connect name a.reconnected).1.runScript a
    (loaded.2 = true ↔ ∃ content, a.script = some content ∧
        ∀ i < (cutGroups (lines content)).1.length, (a.executed i).error = none) ∧
      ∀ content, a.script = some content → loaded.2 = true →
        loaded.1.sent = m.sent ++ (cutGroups (lines content)).1.map fun g =>
          (name, cstr g.flatten) := by
  intro loaded
  obtain ⟨conn, hconn, hopen, hname, hsent⟩ := m.connect_accepted name
  rw [← hreconnected] at hconn hsent
  have hspec := runScript_spec hconn hopen a
  rw [hsent, hname] at hspec
  exact hspec

/-- `init` returns true exactly when the first connection is accepted, the database is listed or
is created without an error and then listed, the second connection is accepted, and the script
can be opened and meets no error. The connection is gone then, and the last statements sent are
those of the script, each once and in order, to the database; all others went to none. -/
theorem init_true_iff (m : CMysqlManager) (host user : Bytes) (pwd : Option Bytes)
    (dbname : Bytes) (a : InitAnswers) :
    ((m.init host user pwd dbname a).2 = true ↔ Ready a dbname ∧ ∃ content,
        a.script = some content ∧
          ∀ i < (cutGroups (lines content)).1.length, (a.executed i).error = none) ∧
      ((m.init host user pwd dbname a).2 = true →
        (m.init host user pwd dbname a).1.poConn = none ∧
          ∃ asked content, a.script = some content ∧ (∀ x ∈ asked, x.1 = []) ∧
            (m.init host user pwd dbname a).1.sent = m.sent ++ asked ++
              (cutGroups (lines content)).1.map fun g => (dbname, cstr g.flatten)) := by
  obtain ⟨hresult, hend⟩ := m.init_steps host user pwd dbname a
  constructor
  · rw [hresult]
    constructor
    · rintro ⟨hconnected, hready, hreconnected, hloaded⟩
      exact ⟨⟨hconnected, (m.ensureDB_opened host user pwd dbname hconnected).1.mp hready,
        hreconnected⟩, (runScript_reopened _ _ hreconnected).1.mp hloaded⟩
    · rintro ⟨⟨hconnected, hready, hreconnected⟩, hloaded⟩
      exact ⟨hconnected, (m.ensureDB_opened host user pwd dbname hconnected).1.mpr hready,
        hreconnected, (runScript_reopened _ _ hreconnected).1.mpr hloaded⟩
  · intro htrue
    obtain ⟨hconnected, _, hreconnected, hloaded⟩ := hresult.mp htrue
    obtain ⟨_, hname, asked, hasked, hsent⟩ :=
      m.ensureDB_opened host user pwd dbname hconnected
    obtain ⟨hscript, hsent'⟩ := runScript_reopened
      (((m.remember host user pwd dbname).connect [] a.connected).1.ensureDB a).1
      (((m.remember host user pwd dbname).connect [] a.connected).1.ensureDB a).1.strDataBase
      hreconnected
    obtain ⟨content, hcontent, _⟩ := hscript.mp hloaded
    rw [hend htrue]
    refine ⟨rfl, asked, content, hcontent, hasked, ?_⟩
    apply (hsent' content hcontent hloaded).trans
    rw [hsent, hname]

/-! ## All calls of a manager -/

/-- The connection objects that there have been when the manager is destroyed. -/
def objects (m : CMysqlManager) : List (List DbOp) := (m.reset none).ended

/-- Every object has been opened once, and has had statements only if it was accepted. -/
structure Kept (m : CMysqlManager) : Prop where
  ended : ∀ ops ∈ m.ended, Opened ops
  current : ∀ ops, m.poConn = some ops → Opened ops

private theorem Connected.opened (h : m.Connected name) {ops : List DbOp}
    (hops : m.poConn = some ops) :
    Opened ops := by
  obtain ⟨info, rest, hconn, _, hrest⟩ := h
  obtain rfl := Option.some.inj (hops.symm.trans hconn)
  exact .accepted info rest hrest

private theorem Kept.objects (h : m.Kept) : ∀ ops ∈ m.objects, Opened ops := by
  intro ops hops
  rcases List.mem_append.mp hops with hops | hops
  · exact h.ended ops hops
  · exact h.current ops (Option.mem_toList.mp hops)

private theorem Kept.reset (h : m.Kept) :
    (m.reset none).Kept := ⟨h.objects, by simp [CMysqlManager.reset]⟩

private theorem Kept.connect (h : m.Kept) (name : Bytes) (connected : Bool) :
    (m.connect name connected).1.Kept := by
  refine ⟨h.objects, fun ops hops => ?_⟩
  obtain rfl := Option.some.inj hops
  cases connected with
  | true => exact .accepted _ [] (by simp)
  | false => exact .refused _

private theorem Kept.asks (h : m.Kept) (hconn : m.Connected name) (hasks : Asks name m m') :
    m'.Kept := by
  refine ⟨?_, fun ops hops => (hconn.asks hasks).opened hops⟩
  obtain ⟨ops, sent, rfl, _⟩ := hasks
  exact h.ended

private theorem connected_of_connect {connected : Bool}
    (h : ¬ (!(m.connect name connected).2) = true) :
    (m.connect name connected).1.Connected name := by
  rw [connect_snd] at h
  cases connected with
  | true => exact m.connected_connect name
  | false => exact absurd rfl h

private theorem Kept.init (h : m.Kept) (host user : Bytes) (pwd : Option Bytes) (dbname : Bytes)
    (a : InitAnswers) : (m.init host user pwd dbname a).1.Kept := by
  have hopened : ((m.remember host user pwd dbname).connect [] a.connected).1.Kept :=
    Kept.connect (m := m.remember host user pwd dbname) ⟨h.ended, h.current⟩ [] a.connected
  rw [CMysqlManager.init]
  dsimp only
  split
  · exact hopened
  · next hconnected =>
    have hconn := connected_of_connect hconnected
    have hready := hopened.asks hconn (hconn.ensureDB a)
    split
    · exact hready
    · have hreopened := hready.connect
        (((m.remember host user pwd dbname).connect [] a.connected).1.ensureDB a).1.strDataBase
        a.reconnected
      split
      · exact hreopened
      · next hreconnected =>
        have hconn' := connected_of_connect hreconnected
        have hloaded := hreopened.asks hconn' (hconn'.runScript a)
        split
        · exact hloaded
        · exact hloaded.reset

end CMysqlManager

/-- A call of `init`. -/
structure InitCall where
  host : Bytes
  user : Bytes
  pwd : Option Bytes
  dbname : Bytes
  answers : InitAnswers

/-- One call of `init`, whatever it returns. -/
def managerStep (m : CMysqlManager) (c : InitCall) : CMysqlManager :=
  (m.init c.host c.user c.pwd c.dbname c.answers).1

/-- Over all calls of `init` on a manager, and whatever the server answers: the handles of a
connection are each closed once and not used after that exactly when the connection was accepted
and none of its statements met a server that had gone. -/
theorem init_handles_iff (calls : List InitCall) :
    ∀ ops ∈ (calls.foldl managerStep .new).objects,
      NoUseAfterClose (lifeCalls ops) ∧ EachClosedOnce (lifeCalls ops) ↔
        ∀ op ∈ ops, ¬ op.Disturbed := by
  have hkept : (calls.foldl managerStep .new).Kept :=
    foldl_invariant (P := CMysqlManager.Kept)
      ⟨by simp [CMysqlManager.new], by simp [CMysqlManager.new]⟩
      (fun _ c h => h.init c.host c.user c.pwd c.dbname c.answers) calls
  intro ops hops
  exact (hkept.objects ops hops).disciplined_iff

/-- The server goes while it is asked for its databases, and comes back and lists the one that
is looked for. -/
theorem init_handles_gone :
    let calls : List InitCall := [⟨[], [], none, [100],
      ⟨true, goneOnce, [[[100]]], goneOnce, goneOnce, [], true, none, succeeding⟩⟩]
    let ops : List DbOp := [.initializeDb ⟨[], [], [], []⟩ true, .query goneOnce]
    ops ∈ (calls.foldl managerStep .new).objects ∧
      (NoUseAfterClose (lifeCalls ops) ∧ EachClosedOnce (lifeCalls ops) ↔
        ∀ op ∈ ops, ¬ op.Disturbed) := by
  intro calls ops
  have hmem : ops ∈ (calls.foldl managerStep .new).objects := by decide
  exact ⟨hmem, init_handles_iff calls ops hmem⟩

end ChatRoom.Db
