import Mathlib.Data.List.Nodup
import ChatRoom.Net.CallbackOrder
import ChatRoom.Chat.Broadcast

/-!
# The session registry

Connections come and go on any number of loops; the server keeps a session for each
one that is up. A connection is named by its place in the order of acceptance, which
stands for its address, and each runs its methods in its own order, with any results
and with any use of its poller by others. The server hears of it through the
connection callback only, so its list follows from the traces of the connections.
-/

namespace ChatRoom.Chat

open ChatRoom.Core Net

/-- The connections accepted so far, and `m_sessions` with the connection of each session. -/
structure Registry where
  conns : List TcpConnection
  sessionId : Nat
  sessions : List (Nat × ChatSession)

/-- A connection is accepted, or a method of a connection is run. -/
inductive RegistryInput where
  | accept (threadId : Nat) (poller : EPollPoller) (channel : Nat)
  | method (conn : Nat) (m : Method)

namespace Registry

/-- No connection and no session. -/
def new : Registry := ⟨[], 0, []⟩

/-- `onConnected` of a connection that is connected. -/
def onConnected (r : Registry) (conn : Nat) : Registry :=
  { r with
    sessionId := r.sessionId + 1
    sessions := r.sessions ++ [(conn, .new (r.sessionId + 1))] }

/-- `onDisconnected` erases every session of the connection. -/
def onDisconnected (r : Registry) (conn : Nat) : Registry :=
  { r with sessions := r.sessions.filter fun s => s.1 ≠ conn }

/-- The connection callback of the server. -/
def observe (conn : Nat) (r : Registry) : Event → Registry
  | .up => r.onConnected conn
  | .down => r.onDisconnected conn
  | .message | .closed | .shutdownWrite | .fault => r

/-- A connection runs a method, and the server observes what the method announces. -/
def run (r : Registry) (conn : Nat) (t t' : TcpConnection) : Registry :=
  (t'.trace.drop t.trace.length).foldl (observe conn) { r with conns := r.conns.set conn t' }

/-- What a connection has announced; nothing before it is accepted. -/
def trace (r : Registry) (conn : Nat) : List Event := (r.conns[conn]?.map (·.trace)).getD []

/-- The up callback of the connection has run, and the down callback has not. -/
def Live (r : Registry) (conn : Nat) : Prop :=
  Event.up ∈ r.trace conn ∧ Event.down ∉ r.trace conn

/-- How many sessions the list holds for a connection. -/
def held (r : Registry) (conn : Nat) : Nat := (r.sessions.map Prod.fst).count conn

end Registry

/-- One input; the callbacks of a connection change the list of sessions. -/
def registryStep (r : Registry) : RegistryInput → Registry
  | .accept threadId poller channel =>
    { r with conns := r.conns ++ [.new threadId poller channel false false] }
  | .method conn m =>
    match r.conns[conn]? with
    | none => r
    | some t => r.run conn t (methodStep t m)

/-! ## One trace -/

/-- The server may be told of a connection once, and not after it was told of its end. -/
structure Lawful (trace : List Event) : Prop where
  once : trace.count .up ≤ 1
  order : trace.Pairwise fun a b => a = .down → b ≠ .up

/-- One session for a trace that has come up and not gone down. -/
def expected (trace : List Event) : Nat := if .up ∈ trace ∧ .down ∉ trace then 1 else 0

private theorem lawful_of_inOrder {t : TcpConnection} (h : t.InOrder) : Lawful t.trace :=
  ⟨h.count_le rfl, h.up_before_down⟩

private theorem Lawful.of_append {p ext : List Event} (h : Lawful (p ++ ext)) : Lawful p :=
  ⟨Nat.le_trans ((List.sublist_append_left p ext).count_le _) h.once,
    h.order.sublist (List.sublist_append_left p ext)⟩

/-- A connection that comes up has announced nothing of this kind before. -/
theorem Lawful.fresh {p : List Event} (h : Lawful (p ++ [.up])) : .up ∉ p ∧ .down ∉ p := by
  constructor
  · intro hup
    have honce := h.once
    have hpos := List.count_pos_iff.mpr hup
    rw [List.count_append, List.count_singleton_self] at honce
    omega
  · intro hdown
    obtain ⟨_, _, hcross⟩ := List.pairwise_append.mp h.order
    exact hcross _ hdown _ (List.mem_singleton.mpr rfl) rfl rfl

private theorem expected_concat_up {p : List Event} (h : Lawful (p ++ [.up])) :
    expected (p ++ [.up]) = expected p + 1 := by
  obtain ⟨hup, hdown⟩ := h.fresh
  have hafter : .up ∈ p ++ [Event.up] ∧ .down ∉ p ++ [Event.up] := by simp [hdown]
  rw [expected, expected, if_pos hafter, if_neg fun hin => hup hin.1]

private theorem expected_concat_down (p : List Event) : expected (p ++ [.down]) = 0 :=
  if_neg fun h => h.2 (List.mem_append_right _ (List.mem_singleton.mpr rfl))

private theorem expected_concat_of_ne (p : List Event) {e : Event} (hup : e ≠ .up)
    (hdown : e ≠ .down) :
    expected (p ++ [e]) = expected p := by
  simp only [expected, List.mem_append, List.mem_singleton, hup.symm, hdown.symm, or_false]

namespace Registry

variable {r : Registry} {conn : Nat}

private theorem observe_conns (r : Registry) (conn : Nat) (e : Event) :
    (r.observe conn e).conns = r.conns := by
  cases e <;> rfl

private theorem held_onConnected (r : Registry) (conn : Nat) :
    (r.onConnected conn).held conn = r.held conn + 1 := by
  simp only [held, onConnected, List.map_append, List.map_cons, List.map_nil, List.count_append,
    List.count_singleton_self]

private theorem held_onDisconnected (r : Registry) (conn : Nat) :
    (r.onDisconnected conn).held conn = 0 := by
  refine List.count_eq_zero.mpr fun hmem => ?_
  obtain ⟨s, hs, hconn⟩ := List.mem_map.mp hmem
  exact of_decide_eq_true (List.mem_filter.mp hs).2 hconn

/-- What the server keeps for a connection follows its trace event by event. -/
theorem held_observe {p : List Event} {e : Event} (hlawful : Lawful (p ++ [e]))
    (h : r.held conn = expected p) : (r.observe conn e).held conn = expected (p ++ [e]) := by
  cases e with
  | up => rw [expected_concat_up hlawful, ← h]; exact r.held_onConnected conn
  | down => rw [expected_concat_down]; exact r.held_onDisconnected conn
  | message | closed | shutdownWrite | fault =>
    exact h.trans (expected_concat_of_ne p (by decide) (by decide)).symm

private theorem held_foldl_observe {p : List Event} (ext : List Event) (hlawful : Lawful (p ++ ext))
    (h : r.held conn = expected p) :
    (ext.foldl (observe conn) r).held conn = expected (p ++ ext) := by
  induction ext generalizing r p with
  | nil => rw [List.append_nil]; exact h
  | cons e rest ih =>
    have hsplit : p ++ e :: rest = (p ++ [e]) ++ rest := by
      rw [List.append_assoc, List.singleton_append]
    rw [hsplit] at hlawful ⊢
    exact ih hlawful (held_observe hlawful.of_append h)

/-- The sessions of the other connections, in their order. -/
def others (r : Registry) (conn : Nat) : List (Nat × ChatSession) :=
  r.sessions.filter fun s => s.1 ≠ conn

private theorem others_observe (r : Registry) (conn : Nat) (e : Event) :
    (r.observe conn e).others conn = r.others conn := by
  cases e with
  | up => simp [others, observe, onConnected]
  | down => simp only [others, observe, onDisconnected, List.filter_filter, Bool.and_self]
  | message | closed | shutdownWrite | fault => rfl

private theorem others_foldl_observe (r : Registry) (conn : Nat) (events : List Event) :
    (events.foldl (observe conn) r).others conn = r.others conn :=
  foldl_invariant (P := fun u : Registry => u.others conn = r.others conn) rfl
    (fun u e hu => (u.others_observe conn e).trans hu) events

private theorem held_eq_of_others {r r' : Registry} {k : Nat} (h : r'.others conn = r.others conn)
    (hk : k ≠ conn) : r'.held k = r.held k := by
  have hcount : ∀ u : Registry, u.held k = ((u.others conn).map Prod.fst).count k := by
    intro u
    rw [held, others, List.count_eq_countP, List.count_eq_countP, List.countP_map,
      List.countP_map, List.countP_filter]
    refine List.countP_congr fun s _ => ?_
    simp only [Function.comp_apply, beq_iff_eq, Bool.and_eq_true, decide_eq_true_eq]
    exact ⟨fun hs => ⟨hs, fun heq => hk (hs.symm.trans heq)⟩, fun hs => hs.1⟩
  rw [hcount, hcount, h]

/-! ## All connections -/

/-- The list is what the traces say, and every connection keeps its callbacks in order. -/
structure Tracks (r : Registry) : Prop where
  held : ∀ conn, r.held conn = expected (r.trace conn)
  inOrder : ∀ t ∈ r.conns, t.InOrder

private theorem foldl_observe_conns (r : Registry) (conn : Nat) (events : List Event) :
    (events.foldl (observe conn) r).conns = r.conns :=
  foldl_invariant (P := fun u : Registry => u.conns = r.conns) rfl
    (fun u e hu => (u.observe_conns conn e).trans hu) events

private theorem run_conns (r : Registry) (conn : Nat) (t t' : TcpConnection) :
    (r.run conn t t').conns = r.conns.set conn t' := foldl_observe_conns _ conn _

private theorem others_run (r : Registry) (conn : Nat) (t t' : TcpConnection) :
    (r.run conn t t').others conn = r.others conn := others_foldl_observe _ conn _

private theorem trace_eq {t : TcpConnection} (h : r.conns[conn]? = some t) :
    r.trace conn = t.trace := by
  rw [trace, h]
  rfl

private theorem trace_run_self {t t' : TcpConnection} (h : r.conns[conn]? = some t) :
    (r.run conn t t').trace conn = t'.trace := by
  obtain ⟨hlt, _⟩ := List.getElem?_eq_some_iff.mp h
  exact trace_eq (by rw [run_conns, List.getElem?_set_self hlt])

private theorem trace_run_of_ne {t t' : TcpConnection} {k : Nat} (hk : k ≠ conn) :
    (r.run conn t t').trace k = r.trace k := by
  rw [trace, run_conns, List.getElem?_set_ne hk.symm, trace]

private theorem Tracks.run (h : r.Tracks) {t t' : TcpConnection} (ht : r.conns[conn]? = some t)
    (horder : t'.InOrder) (hgrows : t.trace <+: t'.trace) : (r.run conn t t').Tracks := by
  obtain ⟨ext, hext⟩ := hgrows
  constructor
  · intro k
    by_cases hk : k = conn
    · subst hk
      have hlawful := lawful_of_inOrder horder
      rw [← hext] at hlawful
      rw [trace_run_self ht, ← hext]
      have hnew : t'.trace.drop t.trace.length = ext := by rw [← hext, List.drop_left]
      rw [Registry.run, hnew]
      exact held_foldl_observe ext hlawful ((h.held k).trans (by rw [trace_eq ht]))
    · rw [trace_run_of_ne hk, ← h.held k]
      exact held_eq_of_others (r.others_run conn t t') hk
  · intro u hu
    rw [run_conns] at hu
    rcases List.mem_or_eq_of_mem_set hu with hold | rfl
    · exact h.inOrder u hold
    · exact horder

private theorem Tracks.accept (h : r.Tracks) {t : TcpConnection} (htrace : t.trace = [])
    (horder : t.InOrder) : ({ r with conns := r.conns ++ [t] } : Registry).Tracks := by
  have hsame : ∀ k, ({ r with conns := r.conns ++ [t] } : Registry).trace k = r.trace k := by
    intro k
    rcases Nat.lt_trichotomy k r.conns.length with hlt | rfl | hgt
    · simp only [trace, List.getElem?_append_left hlt]
    · simp only [trace, List.getElem?_concat_length, Option.map_some, Option.getD_some, htrace,
        List.getElem?_eq_none (Nat.le_refl _), Option.map_none, Option.getD_none]
    · have hout : (r.conns ++ [t]).length ≤ k := by
        rw [List.length_append, List.length_singleton]
        exact hgt
      simp only [trace, List.getElem?_eq_none hout, List.getElem?_eq_none (Nat.le_of_lt hgt)]
  constructor
  · intro k
    rw [hsame]
    exact h.held k
  · intro u hu
    rcases List.mem_append.mp hu with hold | hnew
    · exact h.inOrder u hold
    · rw [List.mem_singleton.mp hnew]
      exact horder

private theorem tracks_new : new.Tracks := ⟨fun _ => rfl, nofun⟩

private theorem Tracks.step (h : r.Tracks) (i : RegistryInput) : (registryStep r i).Tracks := by
  cases i with
  | accept threadId poller channel => exact h.accept rfl (TcpConnection.inOrder_new ..)
  | method conn m =>
    simp only [registryStep]
    cases ht : r.conns[conn]? with
    | none => exact h
    | some t =>
      have horder := h.inOrder t (List.mem_of_getElem? ht)
      exact h.run ht (horder.methodStep m) (t.trace_prefix_methodStep m)

/-! ## The server behind the registry -/

variable {srv : ChatServer}

/-- The sessions of a server are those of the registry, each with a number of its own. -/
structure Serves (r : Registry) (srv : ChatServer) : Prop where
  sessions : srv.sessions = r.sessions.map Prod.snd
  sessionId : srv.sessionId = r.sessionId
  running : srv.terminated = false
  numbered : srv.Numbered

private theorem foldl_disconnect (env : Env) (ids : List Nat) (hrunning : srv.terminated = false) :
    (ids.map ServerInput.disconnect).foldl (serverStep env) srv =
      { srv with sessions := srv.sessions.filter fun s => s.id ∉ ids } := by
  induction ids generalizing srv with
  | nil =>
    simp only [List.map_nil, List.foldl_nil, List.not_mem_nil, not_false_eq_true, decide_true]
    rw [List.filter_true]
  | cons id rest ih =>
    have hstep : serverStep env srv (.disconnect id) =
        { srv with sessions := srv.sessions.filter fun s => s.id ≠ id } := by
      rw [serverStep, if_neg (by rw [hrunning]; nofun)]
    rw [List.map_cons, List.foldl_cons, hstep]
    have hrest := @ih { srv with sessions := srv.sessions.filter fun s => s.id ≠ id } hrunning
    apply hrest.trans
    simp only [List.filter_filter, List.mem_cons, not_or, Bool.decide_and, Bool.and_comm, ne_eq]

/-- `onConnected` is a step of the server. -/
theorem Serves.onConnected (h : Serves r srv) (env : Env) (conn : Nat) :
    Serves (r.onConnected conn) (serverStep env srv .connect) := by
  have hstep : serverStep env srv .connect =
      { srv with
        sessionId := srv.sessionId + 1
        sessions := srv.sessions ++ [.new (srv.sessionId + 1)] } := by
    rw [serverStep, if_neg (by rw [h.running]; nofun)]
  have hnumbered := h.numbered.step env .connect
  rw [hstep] at hnumbered ⊢
  refine ⟨?_, congrArg (· + 1) h.sessionId, h.running, hnumbered⟩
  simp only [Registry.onConnected, List.map_append, List.map_cons, List.map_nil, h.sessions,
    h.sessionId]

/-- `onDisconnected` is as many steps as the connection has sessions. -/
theorem Serves.onDisconnected (h : Serves r srv) (env : Env) (conn : Nat) :
    ∃ inputs : List ServerInput,
      Serves (r.onDisconnected conn) (inputs.foldl (serverStep env) srv) := by
  refine ⟨((r.sessions.filter fun s => s.1 = conn).map (·.2.id)).map .disconnect, ?_⟩
  have hnumbered := foldl_invariant (P := ChatServer.Numbered) h.numbered
    (fun _ i hs => hs.step env i)
    (((r.sessions.filter fun s => s.1 = conn).map (·.2.id)).map .disconnect)
  rw [foldl_disconnect env _ h.running] at hnumbered ⊢
  have hnodup : (r.sessions.map fun s => s.2.id).Nodup := by
    have hids := h.numbered.nodup
    rwa [h.sessions, List.map_map] at hids
  have hinj := List.inj_on_of_nodup_map hnodup
  refine ⟨?_, h.sessionId, h.running, hnumbered⟩
  -- Numbers are unique, so a session goes exactly when its connection does.
  simp only [h.sessions, Registry.onDisconnected, List.filter_map]
  refine congrArg _ (List.filter_congr fun s hs => ?_)
  simp only [Function.comp_apply, decide_eq_decide, List.mem_map, List.mem_filter,
    decide_eq_true_eq]
  refine not_congr ⟨?_, fun heq => ⟨s, ⟨hs, heq⟩, rfl⟩⟩
  rintro ⟨s', ⟨hs', hconn⟩, hid⟩
  rw [← hinj hs' hs hid]
  exact hconn

private theorem Serves.observe (h : Serves r srv) (env : Env) (conn : Nat) (e : Event) :
    ∃ inputs : List ServerInput, Serves (r.observe conn e) (inputs.foldl (serverStep env) srv) := by
  cases e with
  | up => exact ⟨[.connect], h.onConnected env conn⟩
  | down => exact h.onDisconnected env conn
  | message | closed | shutdownWrite | fault => exact ⟨[], h⟩

private theorem Serves.foldl_observe (h : Serves r srv) (env : Env) (conn : Nat)
    (events : List Event) :
    ∃ inputs : List ServerInput, Serves (events.foldl (Registry.observe conn) r)
      (inputs.foldl (serverStep env) srv) := by
  induction events generalizing r srv with
  | nil => exact ⟨[], h⟩
  | cons e rest ih =>
    obtain ⟨first, hfirst⟩ := h.observe env conn e
    obtain ⟨more, hmore⟩ := ih hfirst
    exact ⟨first ++ more, by rw [List.foldl_append]; exact hmore⟩

private theorem Serves.step (h : Serves r srv) (env : Env) (i : RegistryInput) :
    ∃ inputs : List ServerInput, Serves (registryStep r i) (inputs.foldl (serverStep env) srv) := by
  cases i with
  | accept => exact ⟨[], h.sessions, h.sessionId, h.running, h.numbered⟩
  | method conn m =>
    simp only [registryStep]
    cases r.conns[conn]? with
    | none => exact ⟨[], h⟩
    | some t =>
      have hset : Serves { r with conns := r.conns.set conn (methodStep t m) } srv :=
        ⟨h.sessions, h.sessionId, h.running, h.numbered⟩
      exact hset.foldl_observe env conn _

/-- Every run of connections is a run of connects and disconnects of the server. -/
theorem serves_run (env : Env) (users : List User) (history : List Bytes)
    (inputs : List RegistryInput) :
    ∃ serverInputs : List ServerInput, Serves (inputs.foldl registryStep .new)
      (serverInputs.foldl (serverStep env) (.start users history)) := by
  induction inputs using List.reverseRecOn with
  | nil => exact ⟨[], rfl, rfl, rfl, ChatServer.numbered_start users history⟩
  | append_singleton inputs i ih =>
    obtain ⟨first, hfirst⟩ := ih
    obtain ⟨more, hmore⟩ := hfirst.step env i
    refine ⟨first ++ more, ?_⟩
    rw [List.foldl_append, List.foldl_append]
    exact hmore

end Registry

/-- In every run of any number of connections the server holds exactly one session for each
connection that is up and none for any other, and whatever happens to one connection leaves
the sessions of the others and their order alone. -/
theorem registry_equals_live_connections (inputs : List RegistryInput) :
    let r := inputs.foldl registryStep .new
    (∀ conn, r.Live conn → r.held conn = 1) ∧ (∀ conn, ¬ r.Live conn → r.held conn = 0) ∧
      ∀ conn m, (registryStep r (.method conn m)).others conn = r.others conn := by
  intro r
  have h : r.Tracks := foldl_invariant Registry.tracks_new (fun _ i hr => hr.step i) inputs
  refine ⟨fun conn hlive => ?_, fun conn hnot => ?_, fun conn m => ?_⟩
  · exact (h.held conn).trans (if_pos hlive)
  · exact (h.held conn).trans (if_neg hnot)
  · simp only [registryStep]
    cases r.conns[conn]? with
    | none => rfl
    | some t => exact r.others_run conn t _

end ChatRoom.Chat
