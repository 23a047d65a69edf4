import Mathlib.Data.List.Nodup
import ChatRoom.Net.ConnectionTable

/-!
# Connections under their names

A connection is named after the listening address and its number, but `snprintf`
cuts that to 31 bytes. As long as the digits of every number fit, names are distinct
and an entry of the table belongs to the connection whose name it bears. The first
number that does not fit has the name of an earlier one.
-/

namespace ChatRoom.Net

open ChatRoom.Core

/-- `sockaddr_in`, the parts in the order they are written. -/
structure InetAddress where
  addr : Fin 4 → UInt8
  port : BitVec 16

namespace InetAddress

/-- `inet_ntop` for `AF_INET`. -/
def inetNtop (a : InetAddress) : Bytes :=
  Decimal.digits (a.addr 0).toNat ++ [46] ++ Decimal.digits (a.addr 1).toNat ++ [46] ++
    Decimal.digits (a.addr 2).toNat ++ [46] ++ Decimal.digits (a.addr 3).toNat

/-- `toIpPort`, in a buffer of 32 bytes. -/
def toIpPort (a : InetAddress) : Bytes :=
  let buf := a.inetNtop
  buf ++ ([58] ++ Decimal.digits a.port.toNat).take (31 - buf.length)

private theorem length_toIpPort_le (a : InetAddress) : a.toIpPort.length ≤ 21 := by
  have hbyte : ∀ i, (Decimal.digits (a.addr i).toNat).length ≤ 3 := by
    intro i
    have hlt := (a.addr i).toNat_lt
    exact Decimal.length_digits_le (by decide) (by omega)
  have h0 := hbyte 0
  have h1 := hbyte 1
  have h2 := hbyte 2
  have h3 := hbyte 3
  have hport : (Decimal.digits a.port.toNat).length ≤ 5 :=
    Decimal.length_digits_le (by decide) (Nat.lt_of_lt_of_le a.port.isLt (by decide))
  simp only [toIpPort, inetNtop, List.length_append, List.length_cons, List.length_nil,
    List.length_take]
  omega

end InetAddress

/-! ## The names -/

/-- The name of the connection with index `i`, whose number is `i + 1`. -/
def numbered (hostport name : Bytes) (i : Nat) : Bytes :=
  name ++ ([58] ++ hostport ++ [35] ++ Decimal.encode (BitVec.ofNat 32 (i + 1)).toInt).take 31

/-- Where the number is a positive `int`, its digits are cut to what the address leaves. -/
theorem numbered_eq {hostport name : Bytes} {i : Nat} (hhost : hostport.length ≤ 29)
    (hi : i + 1 < 2 ^ 31) :
    numbered hostport name i = name ++ ([58] ++ hostport ++ [35] ++
      (Decimal.digits (i + 1)).take (29 - hostport.length)) := by
  have hint : (BitVec.ofNat 32 (i + 1)).toInt = ((i + 1 : Nat) : Int) := by
    rw [BitVec.toInt_eq_toNat_cond, BitVec.toNat_ofNat, Nat.mod_eq_of_lt (by omega)]
    omega
  have hfront : ([58] ++ hostport ++ [35]).length = hostport.length + 2 := by
    simp only [List.length_append, List.length_cons, List.length_nil]
    omega
  rw [numbered, hint, ← Int.ofNat_eq_natCast, Decimal.encode, List.take_append, hfront,
    List.take_of_length_le (by omega)]
  congr 3
  omega

/-- Numbers whose digits fit are told apart, and the first that does not fit is not. -/
theorem numbered_injOn_iff {hostport : Bytes} (name : Bytes) {n : Nat}
    (hhost : hostport.length < 29) (hn : n < 2 ^ 31) :
    (∀ i < n, ∀ j < n, numbered hostport name i = numbered hostport name j → i = j) ↔
      n < 10 ^ (29 - hostport.length) := by
  have hroom : 0 < 29 - hostport.length := by omega
  constructor
  · intro hinj
    by_contra hlarge
    obtain ⟨k, hk⟩ := Nat.exists_eq_add_of_lt hroom
    rw [Nat.zero_add] at hk
    have hpos : 0 < 10 ^ k := Nat.pow_pos (by decide)
    have hpow : 10 ^ (29 - hostport.length) = 10 * 10 ^ k := by
      rw [hk, Nat.pow_succ, Nat.mul_comm]
    rw [hpow] at hlarge
    -- One and `k` zeros, and one and `k + 1` zeros of which the last is cut off.
    have hcut : (Decimal.digits (10 * 10 ^ k)).take (29 - hostport.length) =
        (Decimal.digits (10 ^ k)).take (29 - hostport.length) := by
      rw [Nat.mul_comm, ← Nat.pow_succ, Decimal.digits_ten_pow, Decimal.digits_ten_pow, hk,
        List.take_succ_cons, List.take_succ_cons, List.take_replicate, List.take_replicate,
        Nat.min_self, Nat.min_eq_left (Nat.le_succ k)]
    have heq := hinj (10 * 10 ^ k - 1) (by omega) (10 ^ k - 1) (by omega) (by
      rw [numbered_eq (Nat.le_of_lt hhost) (by omega), numbered_eq (Nat.le_of_lt hhost) (by omega),
        Nat.sub_add_cancel (by omega), Nat.sub_add_cancel hpos, hcut])
    omega
  · intro hsmall i hi j hj heq
    have hfits : ∀ k < n, (Decimal.digits (k + 1)).take (29 - hostport.length) =
        Decimal.digits (k + 1) :=
      fun k hk => List.take_of_length_le (Decimal.length_digits_le hroom (by omega))
    rw [numbered_eq (Nat.le_of_lt hhost) (by omega), numbered_eq (Nat.le_of_lt hhost) (by omega),
      hfits i hi, hfits j hj] at heq
    have hdigits := List.append_cancel_left (List.append_cancel_left heq)
    have := Decimal.digits_injective hdigits
    omega

namespace TcpServer

/-! ## The table -/

/-- The connections are numbered one after another, and an entry that points to a connection
bears its name. -/
structure Numbered (hostport name : Bytes) (s : TcpServer) : Prop where
  hostport_eq : s.hostport = hostport
  name_eq : s.name = name
  next : s.nextConnId = BitVec.ofNat 32 (s.names.length + 1)
  names : s.names = (List.range s.names.length).map (Net.numbered hostport name)
  entries : ∀ e ∈ s.connections, ∃ i < s.names.length,
    e.1 = Net.numbered hostport name i ∧ ∀ conn, e.2 = some conn → conn = i

variable {hostport name : Bytes} {s : TcpServer}

private theorem numbered_init (hostport name : Bytes) :
    (init hostport name).Numbered hostport name where
  hostport_eq := rfl
  name_eq := rfl
  next := rfl
  names := rfl
  entries := by
    intro e he
    cases he

private theorem Numbered.connName_eq (h : s.Numbered hostport name) :
    s.connName = Net.numbered hostport name s.names.length := by
  rw [connName, h.hostport_eq, h.name_eq, h.next, Net.numbered]

private theorem Numbered.nameOf_eq (h : s.Numbered hostport name) {conn : Nat}
    (hconn : conn < s.names.length) : s.nameOf conn = Net.numbered hostport name conn := by
  rw [nameOf, h.names, List.getD_eq_getElem?_getD, List.getElem?_map,
    List.getElem?_range (by simpa only [List.length_map, List.length_range] using hconn),
    Option.map_some, Option.getD_some]

/-- A step that makes no connection keeps the numbers if its entries come from the old ones. -/
theorem Numbered.of_entries {t : TcpServer} (h : s.Numbered hostport name)
    (hhost : t.hostport = s.hostport) (hname : t.name = s.name)
    (hnext : t.nextConnId = s.nextConnId) (hnames : t.names = s.names)
    (hentries : ∀ e ∈ t.connections, ∃ e' ∈ s.connections, e.1 = e'.1 ∧
      ∀ conn, e.2 = some conn → e'.2 = some conn) : t.Numbered hostport name where
  hostport_eq := hhost.trans h.hostport_eq
  name_eq := hname.trans h.name_eq
  next := by rw [hnext, hnames, h.next]
  names := by rw [hnames]; exact h.names
  entries := by
    intro e he
    obtain ⟨e', he', hbears, hptr⟩ := hentries e he
    obtain ⟨i, hi, hfirst, hsecond⟩ := h.entries e' he'
    rw [hnames]
    exact ⟨i, hi, hbears.trans hfirst, fun conn hconn => hsecond conn (hptr conn hconn)⟩

private theorem mem_resetEntries {entries : List Entry} :
    ∀ e ∈ (resetEntries entries).1, ∃ e' ∈ entries, e.1 = e'.1 ∧
      ∀ conn, e.2 = some conn → e'.2 = some conn := by
  fun_induction resetEntries entries with
  | case1 =>
    intro e he
    cases he
  | case2 name conn rest later ih =>
    intro e he
    rcases List.mem_cons.mp he with rfl | he
    · refine ⟨(name, some conn), List.mem_cons_self, rfl, ?_⟩
      intro other hother
      cases hother
    · obtain ⟨e', he', hsame⟩ := ih e he
      exact ⟨e', List.mem_cons_of_mem _ he', hsame⟩
  | case3 name rest =>
    intro e he
    exact ⟨e, he, rfl, fun conn hconn => hconn⟩

private theorem Numbered.newConnection (h : s.Numbered hostport name) :
    s.newConnection.Numbered hostport name := by
  rw [TcpServer.newConnection]
  split
  · refine ⟨h.hostport_eq, h.name_eq, ?_, ?_, ?_⟩
    · change s.nextConnId + 1 = _
      rw [h.next, List.length_append, List.length_singleton]
      exact (BitVec.ofNat_add _ _).symm
    · rw [List.length_append, List.length_singleton, List.range_succ, List.map_append, ← h.names,
        List.map_singleton, h.connName_eq]
    · intro e he
      rw [List.length_append, List.length_singleton]
      rcases List.mem_cons.mp he with rfl | he
      · refine ⟨s.names.length, Nat.lt_succ_self _, h.connName_eq, ?_⟩
        intro conn hconn
        exact (Option.some.inj hconn).symm
      · obtain ⟨i, hi, hentry⟩ := h.entries e (List.mem_of_mem_filter he)
        exact ⟨i, Nat.lt_succ_of_lt hi, hentry⟩
  · exact h

private theorem Numbered.removeConnectionInLoop (h : s.Numbered hostport name) (conn : Nat) :
    (s.removeConnectionInLoop conn).Numbered hostport name := by
  rw [TcpServer.removeConnectionInLoop]
  split
  · exact h.of_entries rfl rfl rfl rfl fun e he =>
      ⟨e, List.mem_of_mem_filter he, rfl, fun _ hptr => hptr⟩
  · exact h

private theorem Numbered.of_same {t : TcpServer} (h : s.Numbered hostport name)
    (hhost : t.hostport = s.hostport) (hname : t.name = s.name)
    (hnext : t.nextConnId = s.nextConnId) (hnames : t.names = s.names)
    (hentries : t.connections = s.connections) : t.Numbered hostport name :=
  h.of_entries hhost hname hnext hnames fun e he => by
    rw [hentries] at he
    exact ⟨e, he, rfl, fun _ hptr => hptr⟩

private theorem Numbered.runFunctor (h : s.Numbered hostport name) (k : Nat) :
    (s.runFunctor k).Numbered hostport name := by
  have hdrop : (s.dropFunctor k).Numbered hostport name := h.of_same rfl rfl rfl rfl rfl
  rw [TcpServer.runFunctor]
  split
  · rename_i task conn hk
    cases task with
    | connectEstablished => exact hdrop
    | removeConnectionInLoop => exact hdrop.removeConnectionInLoop conn
    | connectDestroyed => exact hdrop.of_same rfl rfl rfl rfl rfl
  · exact h

private theorem Numbered.call (h : s.Numbered hostport name) (i : ServerInput) :
    (s.call i).Numbered hostport name := by
  cases i with
  | start =>
    simp only [TcpServer.call, TcpServer.start]
    split
    · exact h
    · exact h.of_same rfl rfl rfl rfl rfl
  | stop =>
    simp only [TcpServer.call, TcpServer.stop]
    split
    · exact h.of_entries rfl rfl rfl rfl mem_resetEntries
    · exact h
  | newConnection => exact h.newConnection
  | removeConnection conn =>
    simp only [TcpServer.call, TcpServer.removeConnection]
    split
    · exact h.of_same rfl rfl rfl rfl rfl
    · exact h
  | runFunctor k => exact h.runFunctor k
  | dropFunctor k => exact h.of_same rfl rfl rfl rfl rfl

private theorem Numbered.step (h : s.Numbered hostport name) (i : ServerInput) :
    (s.step i).Numbered hostport name := by
  rw [TcpServer.step]
  split
  · exact h
  · exact (h.call i).of_same rfl rfl rfl rfl rfl

private theorem Numbered.run (h : s.Numbered hostport name) (inputs : List ServerInput) :
    (inputs.foldl TcpServer.step s).Numbered hostport name :=
  foldl_invariant h (fun _ i ht => ht.step i) inputs

/-! ## Entries of their own -/

/-- Connections have names of their own, so that one of the first `n` connections replaces no
entry, and removing one erases no other's. -/
structure OwnEntries (n : Nat) (s : TcpServer) : Prop where
  distinct : s.names.Nodup
  replaces_none : s.names.length < n → ∀ e ∈ s.connections, e.1 ≠ s.connName
  erases_own : ∀ conn < s.names.length, ∀ e ∈ s.connections, ∀ other, other ≠ conn →
    e.2 = some other → e ∈ (s.removeConnectionInLoop conn).connections

private theorem Numbered.nodup_iff (h : s.Numbered hostport name) :
    s.names.Nodup ↔ ∀ i < s.names.length, ∀ j < s.names.length,
      Net.numbered hostport name i = Net.numbered hostport name j → i = j := by
  have hmap := List.nodup_map_iff_inj_on (f := Net.numbered hostport name)
    (List.nodup_range (n := s.names.length))
  rw [← h.names] at hmap
  simpa only [List.mem_range] using hmap

private theorem Numbered.ownEntries (h : s.Numbered hostport name) {n : Nat}
    (hn : s.names.length ≤ n)
    (hinj : ∀ i < n, ∀ j < n,
      Net.numbered hostport name i = Net.numbered hostport name j → i = j) :
    s.OwnEntries n where
  distinct := h.nodup_iff.mpr fun i hi j hj => hinj i (by omega) j (by omega)
  replaces_none := by
    intro hlt e he heq
    obtain ⟨i, hi, hname, -⟩ := h.entries e he
    rw [hname, h.connName_eq] at heq
    have := hinj i (by omega) _ hlt heq
    omega
  erases_own := by
    intro conn hconn e he other hother hptr
    obtain ⟨i, hi, hname, howner⟩ := h.entries e he
    rw [TcpServer.removeConnectionInLoop]
    split
    · apply List.mem_filter.mpr
      refine ⟨he, decide_eq_true ?_⟩
      intro heq
      rw [hname, h.nameOf_eq hconn] at heq
      exact hother ((howner other hptr).trans (hinj i (by omega) conn (by omega) heq))
    · exact he

/-- Accepting `n` connections one after another. -/
def accepting (n : Nat) : List ServerInput := .start :: List.replicate n .newConnection

private theorem names_step_newConnection (hpool : s.pool = true) (hrun : s.crashed = false) :
    (s.step .newConnection).names = s.names ++ [s.connName] ∧
      (s.step .newConnection).pool = true ∧ (s.step .newConnection).crashed = false := by
  rw [TcpServer.step, if_neg (ne_true_of_eq_false hrun), call, newConnection, if_pos hpool]
  exact ⟨rfl, hpool, hrun⟩

private theorem length_names_replicate (n : Nat) (hpool : s.pool = true)
    (hrun : s.crashed = false) :
    ((List.replicate n ServerInput.newConnection).foldl TcpServer.step s).names.length =
      s.names.length + n := by
  induction n generalizing s with
  | zero => rfl
  | succ n ih =>
    obtain ⟨hnames, hpool', hrun'⟩ := names_step_newConnection hpool hrun
    rw [List.replicate_succ, List.foldl_cons, ih hpool' hrun', hnames, List.length_append,
      List.length_singleton]
    omega

private theorem length_names_accepting (hostport name : Bytes) (n : Nat) :
    ((accepting n).foldl TcpServer.step (init hostport name)).names.length = n := by
  have hlen := length_names_replicate (s := (init hostport name).step .start) n rfl rfl
  rw [accepting, List.foldl_cons, hlen]
  exact Nat.zero_add n

/-- Over all runs that accept up to `n` connections, entries stay their own exactly when the
digits of `n` fit behind the address. -/
theorem ownEntries_iff (a : InetAddress) (name : Bytes) {n : Nat} (hn : n ≤ 2 ^ 31 - 1) :
    (∀ inputs : List ServerInput, (inputs.foldl TcpServer.step (init a.toIpPort name)).names.length ≤ n →
      (inputs.foldl TcpServer.step (init a.toIpPort name)).OwnEntries n) ↔
      n < 10 ^ (29 - a.toIpPort.length) := by
  have hhost := a.length_toIpPort_le
  rw [← numbered_injOn_iff name (by omega) (show n < 2 ^ 31 by omega)]
  constructor
  · intro hown
    have hlen := length_names_accepting a.toIpPort name n
    have hnumbered := (numbered_init a.toIpPort name).run (accepting n)
    have hnodup := (hown (accepting n) (Nat.le_of_eq hlen)).distinct
    rw [hnumbered.nodup_iff, hlen] at hnodup
    exact hnodup
  · intro hinj inputs hle
    exact ((numbered_init a.toIpPort name).run inputs).ownEntries hle hinj

/-- Five connections accepted one after another have entries of their own. -/
theorem ownEntries_five :
    ((accepting 5).foldl TcpServer.step
      (init (InetAddress.toIpPort ⟨fun _ => 127, 8080⟩) [115])).OwnEntries 5 := by
  have hhost := InetAddress.length_toIpPort_le ⟨fun _ => 127, 8080⟩
  have hlen := length_names_accepting (InetAddress.toIpPort ⟨fun _ => 127, 8080⟩) [115] 5
  refine (ownEntries_iff ⟨fun _ => 127, 8080⟩ [115] (by decide)).mpr ?_ _ (Nat.le_of_eq hlen)
  apply Nat.lt_of_lt_of_le (show 5 < 10 ^ 1 by decide)
  exact Nat.pow_le_pow_right (by decide) (by omega)

/-- `192.168.100.100:20000`. -/
def longAddress : InetAddress :=
  ⟨fun i => if i = 0 then 192 else if i = 1 then 168 else 100, 20000⟩

private theorem length_longAddress : longAddress.toIpPort.length = 21 := by
  simp [longAddress, InetAddress.toIpPort, InetAddress.inetNtop, Decimal.digits_of_le,
    Decimal.digits_of_lt]

/-- On an address of 21 characters the connection number 100000000 is named as number 10000000. -/
theorem names_repeat :
    ((accepting (10 ^ 8)).foldl TcpServer.step
        (init longAddress.toIpPort [115])).names.length ≤ 2 ^ 31 - 1 ∧
      ¬ ((accepting (10 ^ 8)).foldl TcpServer.step
        (init longAddress.toIpPort [115])).names.Nodup := by
  have hlen := length_names_accepting longAddress.toIpPort [115] (10 ^ 8)
  have hnumbered := (numbered_init longAddress.toIpPort [115]).run (accepting (10 ^ 8))
  rw [hnumbered.nodup_iff, hlen]
  refine ⟨by omega, fun hnodup => ?_⟩
  have hiff := @numbered_injOn_iff longAddress.toIpPort [115] (10 ^ 8)
    (by rw [length_longAddress]; omega) (by omega)
  rw [length_longAddress] at hiff
  exact absurd (hiff.mp hnodup) (Nat.lt_irrefl _)

end TcpServer

end ChatRoom.Net
