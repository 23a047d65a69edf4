import ChatRoom.Core.Run
import ChatRoom.Core.Decimal

/-!
# The server's table of connections

`TcpServer` keeps a `shared_ptr` to each connection under the connection's name. The
acceptor, `stop` and the close callbacks change the table, and each of them leaves
functors with a `shared_ptr` of their own to be run by some loop. A connection is
destroyed by `connectDestroyed`, or as an object when the last pointer to it goes.
`stop` empties the pointers of the table and keeps their names.
-/

namespace ChatRoom.Net

open ChatRoom.Core

/-- What the functors of a connection call. -/
inductive ConnectionTask where
  | connectEstablished
  | removeConnectionInLoop
  | connectDestroyed
  deriving DecidableEq, Repr

/-- An entry of `m_connections`: a name, and a pointer that may be null. -/
abbrev Entry := Bytes × Option Nat

/-- A server, with the functors it has queued and the connections that are gone. -/
structure TcpServer where
  hostport : Bytes
  name : Bytes
  started : Bool
  /-- `m_eventLoopThreadPool` has been set. -/
  pool : Bool
  nextConnId : BitVec 32
  connections : List Entry
  /-- The name of each connection made so far; a connection is its index here. -/
  names : List Bytes
  /-- Functors bound to a connection that some loop has still to run. -/
  functors : List (ConnectionTask × Nat)
  /-- Connections that were torn down or freed. -/
  destroyed : List Nat
  /-- A null pointer was dereferenced. -/
  crashed : Bool
  deriving DecidableEq, Repr

/-- What is done with a server, by its owner, its acceptor and the loops. -/
inductive ServerInput where
  | start
  | stop
  | newConnection
  /-- The close callback of a connection that is alive. -/
  | removeConnection (conn : Nat)
  /-- A loop runs one of the functors. -/
  | runFunctor (k : Nat)
  /-- A functor goes with its loop and is never run. -/
  | dropFunctor (k : Nat)
  deriving DecidableEq, Repr

namespace TcpServer

/-- A server as its constructor leaves it. -/
def init (hostport name : Bytes) : TcpServer where
  hostport := hostport
  name := name
  started := false
  pool := false
  nextConnId := 1
  connections := []
  names := []
  functors := []
  destroyed := []
  crashed := false

/-- The name of the next connection; `snprintf` cuts its second part to 31 bytes. -/
def connName (s : TcpServer) : Bytes :=
  s.name ++ ([58] ++ s.hostport ++ [35] ++ Decimal.encode s.nextConnId.toInt).take 31

/-- The name of a connection. -/
def nameOf (s : TcpServer) (conn : Nat) : Bytes := s.names.getD conn []

/-- `start` makes a new pool, unless the server is running. -/
def start (s : TcpServer) : TcpServer :=
  if s.started then s else { s with pool := true, started := true }

/-- The loop of `stop`: each pointer is moved out of its entry and goes into a functor. A null
pointer ends the program where it is met. -/
def resetEntries : List Entry → List Entry × List (ConnectionTask × Nat) × Bool
  | [] => ([], [], false)
  | (name, some conn) :: rest =>
    let later := resetEntries rest
    ((name, none) :: later.1, (.connectDestroyed, conn) :: later.2.1, later.2.2)
  | (name, none) :: rest => ((name, none) :: rest, [], true)

/-- `stop`; the null pointer that it may meet ends the program before `m_started` is cleared. -/
def stop (s : TcpServer) : TcpServer :=
  if s.started then
    let loop := resetEntries s.connections
    { s with
      connections := loop.1
      functors := s.functors ++ loop.2.1
      crashed := loop.2.2
      started := loop.2.2 }
  else s

/-- The acceptor listens from the first `start` on, `stop` does not end that. The loop that a
stopped pool hands out until the next `start` is gone, and using it is undefined in the source:
of such a call only what it does to the table is modelled. -/
def newConnection (s : TcpServer) : TcpServer :=
  if s.pool then
    { s with
      nextConnId := s.nextConnId + 1
      connections := (s.connName, some s.names.length) ::
        s.connections.filter fun e => e.1 ≠ s.connName
      names := s.names ++ [s.connName]
      functors := s.functors ++ [(.connectEstablished, s.names.length)] }
  else s

/-- Some entry or functor has a pointer to the connection. -/
def Held (s : TcpServer) (conn : Nat) : Prop :=
  (∃ e ∈ s.connections, e.2 = some conn) ∨ ∃ f ∈ s.functors, f.2 = conn

instance (s : TcpServer) (conn : Nat) : Decidable (s.Held conn) :=
  inferInstanceAs (Decidable (_ ∨ _))

/-- `removeConnection` leaves the rest to the server's own loop. -/
def removeConnection (s : TcpServer) (conn : Nat) : TcpServer :=
  if s.Held conn then
    { s with functors := s.functors ++ [(.removeConnectionInLoop, conn)] }
  else s

/-- The entry goes by its name, whichever connection it points to. -/
def removeConnectionInLoop (s : TcpServer) (conn : Nat) : TcpServer :=
  if ∃ e ∈ s.connections, e.1 = s.nameOf conn then
    { s with
      connections := s.connections.filter fun e => e.1 ≠ s.nameOf conn
      functors := s.functors ++ [(.connectDestroyed, conn)] }
  else s

/-- What a functor does to the server. -/
def perform (s : TcpServer) (conn : Nat) : ConnectionTask → TcpServer
  | .connectEstablished => s
  | .removeConnectionInLoop => s.removeConnectionInLoop conn
  | .connectDestroyed => { s with destroyed := s.destroyed ++ [conn] }

/-- A functor is taken from its queue. -/
def dropFunctor (s : TcpServer) (k : Nat) : TcpServer :=
  { s with functors := s.functors.eraseIdx k }

/-- A functor is taken from its queue and run. -/
def runFunctor (s : TcpServer) (k : Nat) : TcpServer :=
  match s.functors[k]? with
  | some (task, conn) => (s.dropFunctor k).perform conn task
  | none => s

/-- One input, before the connections without a pointer are freed. -/
def call (s : TcpServer) : ServerInput → TcpServer
  | .start => s.start
  | .stop => s.stop
  | .newConnection => s.newConnection
  | .removeConnection conn => s.removeConnection conn
  | .runFunctor k => s.runFunctor k
  | .dropFunctor k => s.dropFunctor k

/-- Connections without a pointer to them are freed. -/
def release (s : TcpServer) : TcpServer :=
  { s with
    destroyed := s.destroyed ++ (List.range s.names.length).filter fun conn => ¬ s.Held conn }

/-- Nothing happens after a crash. -/
def step (s : TcpServer) (i : ServerInput) : TcpServer :=
  if s.crashed then s else (s.call i).release

/-- Every entry points to a connection that has not been destroyed, and no null pointer has
been dereferenced. -/
structure Sound (s : TcpServer) : Prop where
  entries : ∀ e ∈ s.connections, ∃ conn, e.2 = some conn ∧ conn ∉ s.destroyed
  running : s.crashed = false

/-- What holds as long as `stop` has met no entry. -/
structure Intact (s : TcpServer) : Prop extends s.Sound where
  named : ∀ e ∈ s.connections, ∀ conn, e.2 = some conn → e.1 = s.nameOf conn
  made : ∀ conn, s.Held conn ∨ conn ∈ s.destroyed → conn < s.names.length
  /-- What is about to be torn down has left the table. -/
  left : ∀ conn, (.connectDestroyed, conn) ∈ s.functors → ∀ e ∈ s.connections, e.2 ≠ some conn

variable {s : TcpServer}

private theorem intact_init (hostport name : Bytes) : (init hostport name).Intact where
  entries := by
    intro e he
    cases he
  running := rfl
  named := by
    intro e he
    cases he
  made := by
    rintro conn ((⟨e, he, _⟩ | ⟨f, hf, _⟩) | hgone)
    · cases he
    · cases hf
    · cases hgone
  left := by
    intro conn hf
    cases hf

/-- `start` keeps the table intact. -/
theorem Intact.start (h : s.Intact) : s.start.Intact := by
  rw [TcpServer.start]
  split
  · exact h
  · exact ⟨⟨h.entries, h.running⟩, h.named, h.made, h.left⟩

/-- `stop` keeps every name in the table. -/
theorem map_fst_resetEntries (entries : List Entry) :
    (resetEntries entries).1.map Prod.fst = entries.map Prod.fst := by
  fun_induction resetEntries entries with
  | case1 => rfl
  | case2 name conn rest later ih => rw [List.map_cons, List.map_cons, ih]
  | case3 name rest => rfl

private theorem map_fst_stop (s : TcpServer) :
    s.stop.connections.map Prod.fst = s.connections.map Prod.fst := by
  rw [stop]
  split
  · exact map_fst_resetEntries s.connections
  · rfl

/-- A `stop` that meets no entry only marks the server as stopped. -/
theorem Intact.stop (h : s.Intact) (hempty : s.connections = []) : s.stop.Intact := by
  rw [TcpServer.stop, hempty]
  split
  · refine ⟨⟨?_, rfl⟩, ?_, ?_, ?_⟩
    · intro e he
      cases he
    · intro e he
      cases he
    · simp only [resetEntries, List.append_nil, Held, List.not_mem_nil, false_and, exists_false,
        false_or]
      intro conn hconn
      apply h.made
      rcases hconn with hf | hgone
      · exact Or.inl (Or.inr hf)
      · exact Or.inr hgone
    · intro conn _ e he
      cases he
  · exact h

private theorem Held.of_newConnection {conn : Nat} (hpool : s.pool = true)
    (h : s.newConnection.Held conn) : s.Held conn ∨ conn = s.names.length := by
  rw [newConnection, if_pos hpool] at h
  rcases h with ⟨e, he, hptr⟩ | ⟨f, hf, hptr⟩
  · rcases List.mem_cons.mp he with rfl | he
    · exact Or.inr (Option.some.inj hptr).symm
    · exact Or.inl (Or.inl ⟨e, List.mem_of_mem_filter he, hptr⟩)
  · rcases List.mem_append.mp hf with hf | hf
    · exact Or.inl (Or.inr ⟨f, hf, hptr⟩)
    · rw [List.mem_singleton.mp hf] at hptr
      exact Or.inr hptr.symm

private theorem Intact.lt_of_entry (h : s.Intact) {e : Entry} (he : e ∈ s.connections) {conn : Nat}
    (hptr : e.2 = some conn) : conn < s.names.length :=
  h.made conn (Or.inl (Or.inl ⟨e, he, hptr⟩))

private theorem Intact.newConnection (h : s.Intact) : s.newConnection.Intact := by
  by_cases hpool : s.pool = true
  · have hheld := fun conn (hconn : s.newConnection.Held conn) =>
      Held.of_newConnection hpool hconn
    rw [TcpServer.newConnection, if_pos hpool] at hheld ⊢
    refine ⟨⟨?_, h.running⟩, ?_, ?_, ?_⟩
    · intro e he
      rcases List.mem_cons.mp he with rfl | he
      · refine ⟨s.names.length, rfl, fun hgone => ?_⟩
        exact absurd (h.made _ (Or.inr hgone)) (Nat.lt_irrefl _)
      · exact h.entries e (List.mem_of_mem_filter he)
    · intro e he conn hptr
      rcases List.mem_cons.mp he with rfl | he
      · cases hptr
        rw [nameOf, List.getD_eq_getElem?_getD, List.getElem?_concat_length, Option.getD_some]
      · have hmem := List.mem_of_mem_filter he
        rw [h.named e hmem conn hptr, nameOf, nameOf, List.getD_eq_getElem?_getD,
          List.getD_eq_getElem?_getD, List.getElem?_append_left (h.lt_of_entry hmem hptr)]
    · intro conn hconn
      rw [List.length_append, List.length_singleton]
      rcases hconn with hconn | hgone
      · rcases hheld conn hconn with hconn | rfl
        · exact Nat.lt_succ_of_lt (h.made conn (Or.inl hconn))
        · exact Nat.lt_succ_self _
      · exact Nat.lt_succ_of_lt (h.made conn (Or.inr hgone))
    · intro conn hf e he hptr
      have hold : (.connectDestroyed, conn) ∈ s.functors := by
        rcases List.mem_append.mp hf with hf | hf
        · exact hf
        · cases List.mem_singleton.mp hf
      rcases List.mem_cons.mp he with rfl | he
      · cases hptr
        exact absurd (h.made _ (Or.inl (Or.inr ⟨_, hold, rfl⟩))) (Nat.lt_irrefl _)
      · exact h.left conn hold e (List.mem_of_mem_filter he) hptr
  · rw [TcpServer.newConnection, if_neg hpool]
    exact h

/-- A close callback keeps the table intact. -/
theorem Intact.removeConnection (h : s.Intact) (conn : Nat) : (s.removeConnection conn).Intact := by
  rw [TcpServer.removeConnection]
  split
  · rename_i hheld
    refine ⟨⟨h.entries, h.running⟩, h.named, ?_, ?_⟩
    · rintro other ((hentry | ⟨f, hf, rfl⟩) | hgone)
      · exact h.made other (Or.inl (Or.inl hentry))
      · rcases List.mem_append.mp hf with hf | hf
        · exact h.made _ (Or.inl (Or.inr ⟨f, hf, rfl⟩))
        · rw [List.mem_singleton.mp hf]
          exact h.made conn (Or.inl hheld)
      · exact h.made other (Or.inr hgone)
    · intro other hf
      rcases List.mem_append.mp hf with hf | hf
      · exact h.left other hf
      · cases List.mem_singleton.mp hf
  · exact h

/-- A functor that is lost keeps the table intact. -/
theorem Intact.dropFunctor (h : s.Intact) (k : Nat) : (s.dropFunctor k).Intact := by
  refine ⟨⟨h.entries, h.running⟩, h.named, ?_, ?_⟩
  · rintro conn ((hentry | ⟨f, hf, hptr⟩) | hgone)
    · exact h.made conn (Or.inl (Or.inl hentry))
    · exact h.made conn (Or.inl (Or.inr ⟨f, List.mem_of_mem_eraseIdx hf, hptr⟩))
    · exact h.made conn (Or.inr hgone)
  · intro conn hf
    exact h.left conn (List.mem_of_mem_eraseIdx hf)

private theorem Intact.removeConnectionInLoop (h : s.Intact) {conn : Nat}
    (hconn : conn < s.names.length) :
    (s.removeConnectionInLoop conn).Intact := by
  rw [TcpServer.removeConnectionInLoop]
  split
  · refine ⟨⟨?_, h.running⟩, ?_, ?_, ?_⟩
    · intro e he
      exact h.entries e (List.mem_of_mem_filter he)
    · intro e he
      exact h.named e (List.mem_of_mem_filter he)
    · rintro other ((⟨e, he, hptr⟩ | ⟨f, hf, rfl⟩) | hgone)
      · exact h.lt_of_entry (List.mem_of_mem_filter he) hptr
      · rcases List.mem_append.mp hf with hf | hf
        · exact h.made _ (Or.inl (Or.inr ⟨f, hf, rfl⟩))
        · rw [List.mem_singleton.mp hf]
          exact hconn
      · exact h.made other (Or.inr hgone)
    · intro other hf e he hptr
      have hmem := List.mem_of_mem_filter he
      rcases List.mem_append.mp hf with hf | hf
      · exact h.left other hf e hmem hptr
      · -- The entry that pointed to it was the one of its own name.
        cases List.mem_singleton.mp hf
        have hname := of_decide_eq_true (List.mem_filter.mp he).2
        exact hname (h.named e hmem conn hptr)
  · exact h

private theorem Intact.runFunctor (h : s.Intact) (k : Nat) : (s.runFunctor k).Intact := by
  rw [TcpServer.runFunctor]
  split
  · rename_i task conn hk
    have hmem := List.mem_of_getElem? hk
    have hconn : conn < s.names.length := h.made conn (Or.inl (Or.inr ⟨_, hmem, rfl⟩))
    have hdrop := h.dropFunctor k
    cases task with
    | connectEstablished => exact hdrop
    | removeConnectionInLoop => exact hdrop.removeConnectionInLoop hconn
    | connectDestroyed =>
      refine ⟨⟨?_, hdrop.running⟩, hdrop.named, ?_, hdrop.left⟩
      · intro e he
        obtain ⟨other, hptr, halive⟩ := h.entries e he
        refine ⟨other, hptr, fun hgone => ?_⟩
        rcases List.mem_append.mp hgone with hgone | hgone
        · exact halive hgone
        · rw [List.mem_singleton.mp hgone] at hptr
          exact h.left conn hmem e he hptr
      · rintro other (hheld | hgone)
        · exact hdrop.made other (Or.inl hheld)
        · rcases List.mem_append.mp hgone with hgone | hgone
          · exact h.made other (Or.inr hgone)
          · rw [List.mem_singleton.mp hgone]
            exact hconn
  · exact h

private theorem Intact.release (h : s.Intact) : s.release.Intact := by
  refine ⟨⟨?_, h.running⟩, h.named, ?_, h.left⟩
  · intro e he
    obtain ⟨conn, hptr, halive⟩ := h.entries e he
    refine ⟨conn, hptr, fun hgone => ?_⟩
    rcases List.mem_append.mp hgone with hgone | hgone
    · exact halive hgone
    · exact of_decide_eq_true (List.mem_filter.mp hgone).2 (Or.inl ⟨e, he, hptr⟩)
  · rintro conn (hheld | hgone)
    · exact h.made conn (Or.inl hheld)
    · rcases List.mem_append.mp hgone with hgone | hgone
      · exact h.made conn (Or.inr hgone)
      · exact List.mem_range.mp (List.mem_of_mem_filter hgone)

/-- Every step keeps the table in order, except a `stop` that meets an entry. -/
theorem Intact.step (h : s.Intact) {i : ServerInput} (hi : i = .stop → s.connections = []) :
    (s.step i).Intact := by
  rw [TcpServer.step, if_neg (ne_true_of_eq_false h.running)]
  apply Intact.release
  cases i with
  | start => exact h.start
  | stop => exact h.stop (hi rfl)
  | newConnection => exact h.newConnection
  | removeConnection conn => exact h.removeConnection conn
  | runFunctor k => exact h.runFunctor k
  | dropFunctor k => exact h.dropFunctor k

private theorem map_fst_step_stop (s : TcpServer) :
    (s.step .stop).connections.map Prod.fst = s.connections.map Prod.fst := by
  rw [TcpServer.step]
  split
  · rfl
  · exact map_fst_stop s

/-- `stop` leaves the table empty exactly when it finds it so. -/
theorem connections_step_stop (s : TcpServer) :
    (s.step .stop).connections = [] ↔ s.connections = [] := by
  rw [← List.map_eq_nil_iff (f := Prod.fst), map_fst_step_stop, List.map_eq_nil_iff]

/-- In every state of the run the table is sound, and every `stop` leaves it empty. -/
def SafeRun (hostport name : Bytes) (inputs : List ServerInput) : Prop :=
  (∀ before after, inputs = before ++ after → (before.foldl step (init hostport name)).Sound) ∧
    ∀ t, Visits step (init hostport name) inputs t .stop → (t.step .stop).connections = []

/-- A run is safe exactly when every `stop` of it is called with an empty table. -/
theorem stop_restart_safe_iff (hostport name : Bytes) (inputs : List ServerInput) :
    SafeRun hostport name inputs ↔
      ∀ t, Visits step (init hostport name) inputs t .stop → t.connections = [] := by
  constructor
  · rintro ⟨_, hstop⟩ t ht
    exact (connections_step_stop t).mp (hstop t ht)
  · intro hempty
    constructor
    · rintro before after rfl
      have hintact : (before.foldl step (init hostport name)).Intact := by
        apply foldl_invariant_of_visits (intact_init hostport name) before
        rintro t i ⟨first, rest, rfl, ht⟩ hintact
        apply hintact.step
        rintro rfl
        apply hempty t
        exact ⟨first, rest ++ after, by rw [List.append_assoc, List.cons_append], ht⟩
      exact hintact.toSound
    · intro t ht
      exact (connections_step_stop t).mpr (hempty t ht)

/-- One client, a stop, a restart and a stop. -/
def restartAndStop : List ServerInput := [.start, .newConnection, .stop, .start, .stop]

/-- The second `stop` dereferences the pointer that the first one has emptied, for a server
`s` on `0.0.0.0:80`. -/
theorem restarted_server_crashes :
    ((restartAndStop.foldl step
      (init [48, 46, 48, 46, 48, 46, 48, 58, 56, 48] [115])).crashed = true) ∧
    ¬ SafeRun [48, 46, 48, 46, 48, 46, 48, 58, 56, 48] [115] restartAndStop := by
  have hcrash : (restartAndStop.foldl step
      (init [48, 46, 48, 46, 48, 46, 48, 58, 56, 48] [115])).crashed = true := by
    decide
  refine ⟨hcrash, fun hsafe => ?_⟩
  have hsound := hsafe.1 restartAndStop [] (List.append_nil _).symm
  exact absurd (hcrash.symm.trans hsound.running) Bool.noConfusion

end TcpServer

end ChatRoom.Net
