import Mathlib.Data.List.Nodup
import Mathlib.Data.List.Range
import Mathlib.Data.List.Count
import ChatRoom.Core.Run

/-!
# Acceptor

`Acceptor::handleRead` with the descriptors of the process. `accept` fails with `EMFILE` when
the table is full, and then a descriptor that is held in reserve is given up for as long as it
takes to accept a connection and to close it. Other threads open and close descriptors between
any two calls of the system.
-/

namespace ChatRoom.Net

open ChatRoom.Core

/-- Who closes a descriptor: the acceptor, the owner of a connection, or anybody else. -/
inductive Owner where
  | reserve
  | connection (c : Nat)
  | other
  deriving DecidableEq, Repr

/-- The open descriptors of the process, and how many there may be. -/
structure Descriptors where
  limit : Nat
  table : List (Nat × Owner)
  deriving DecidableEq, Repr

namespace Descriptors

/-- No descriptor is left below the limit. -/
def full (d : Descriptors) : Bool := decide (d.limit ≤ d.table.length)

/-- A new descriptor has the lowest number that is free. -/
def lowest (d : Descriptors) : Nat :=
  ((List.range (d.table.length + 1)).find? fun n => n ∉ d.table.map Prod.fst).getD 0

/-- The lowest number that is free goes to the owner. -/
def openFile (d : Descriptors) (owner : Owner) : Option Nat × Descriptors :=
  if d.full then (none, d)
  else (some d.lowest, { d with table := d.table ++ [(d.lowest, owner)] })

/-- The descriptor with this number, if it is open. -/
def numbered (d : Descriptors) : Option Nat → List (Nat × Owner)
  | none => []
  | some fd => d.table.filter fun e => e.1 = fd

/-- `::close`, which fails on -1. -/
def close (d : Descriptors) : Option Nat → Descriptors
  | none => d
  | some fd => { d with table := d.table.filter fun e => e.1 ≠ fd }

end Descriptors

/-- What another thread does to the descriptors; it does not know the one in reserve. -/
inductive OtherCall where
  | openFile
  | close (fd : Nat)
  deriving DecidableEq, Repr

/-- What another thread does to the table; it closes no descriptor of the reserve. -/
def Descriptors.other (d : Descriptors) : OtherCall → Descriptors
  | .openFile => (d.openFile .other).2
  | .close fd => { d with table := d.table.filter fun e => e.1 ≠ fd ∨ e.2 = .reserve }

/-- The listening socket and the descriptors. Connections are numbered as they arrive, and
those that have been taken from the queue are marked if they were handed on. What `handleRead`
has closed is listed with the owner that it had. -/
structure Acceptor where
  descriptors : Descriptors
  idleFd : Option Nat
  pending : List Nat
  taken : List (Nat × Bool)
  arrived : Nat
  closed : List (Nat × Owner)
  deriving DecidableEq, Repr

/-- The errors of `accept` that leave the process running. -/
inductive AcceptError where
  | again
  | mfile
  deriving DecidableEq, Repr

/-- What other threads do between the calls that `handleRead` makes when the table is full. -/
structure Gaps where
  beforeClose : List OtherCall
  beforeAccept : List OtherCall
  beforeSecond : List OtherCall
  beforeOpen : List OtherCall
  deriving DecidableEq, Repr

/-- The calls of other threads in all gaps, in their order. -/
def Gaps.calls (gaps : Gaps) : List OtherCall :=
  gaps.beforeClose ++ gaps.beforeAccept ++ gaps.beforeSecond ++ gaps.beforeOpen

namespace Acceptor

/-- The constructor, in a process with some descriptors open. -/
def new (limit : Nat) (fds : List Nat) : Acceptor :=
  let opened := Descriptors.openFile ⟨limit, fds.map fun fd => (fd, .other)⟩ .reserve
  ⟨opened.2, opened.1, [], [], 0, []⟩

/-- Other threads open and close descriptors. -/
def others (s : Acceptor) (calls : List OtherCall) : Acceptor :=
  { s with descriptors := calls.foldl Descriptors.other s.descriptors }

/-- `::accept`; the connection is then owned by `owner`. -/
def accept (s : Acceptor) (owner : Nat → Owner) (handed : Bool) :
    Except AcceptError Nat × Acceptor :=
  if s.descriptors.full then (.error .mfile, s)
  else
    match s.pending with
    | [] => (.error .again, s)
    | c :: rest =>
      (.ok s.descriptors.lowest, { s with
        descriptors := (s.descriptors.openFile (owner c)).2
        pending := rest
        taken := s.taken ++ [(c, handed)] })

/-- `::close(m_idleFd)`, which leaves the variable as it is. -/
def closeIdle (s : Acceptor) : Acceptor :=
  { s with
    descriptors := s.descriptors.close s.idleFd
    closed := s.closed ++ s.descriptors.numbered s.idleFd }

/-- `m_idleFd = ::accept(...)`. -/
def acceptIdle (s : Acceptor) : Acceptor :=
  let accepted := s.accept (fun _ => .reserve) false
  { accepted.2 with idleFd := accepted.1.toOption }

/-- `m_idleFd = ::open("/dev/null", ...)`. -/
def openIdle (s : Acceptor) : Acceptor :=
  let opened := s.descriptors.openFile .reserve
  { s with descriptors := opened.2, idleFd := opened.1 }

/-- The branch for `EMFILE`. -/
def refuse (s : Acceptor) (gaps : Gaps) : Acceptor :=
  let s := (s.others gaps.beforeClose).closeIdle
  let s := (s.others gaps.beforeAccept).acceptIdle
  let s := (s.others gaps.beforeSecond).closeIdle
  (s.others gaps.beforeOpen).openIdle

/-- `handleRead`, with the callback of `TcpServer` set: an accepted connection is handed on. -/
def handleRead (s : Acceptor) (gaps : Gaps) : Acceptor :=
  let accepted := s.accept .connection true
  match accepted.1 with
  | .ok _ => accepted.2
  | .error .again => s
  | .error .mfile => s.refuse gaps

end Acceptor

/-- A connection arrives, another thread uses its descriptors, or the loop finds the listening
socket readable. -/
inductive AcceptorEvent where
  | arrive
  | other (call : OtherCall)
  | read (gaps : Gaps)
  deriving DecidableEq, Repr

/-- What other threads do in an event. -/
def AcceptorEvent.calls : AcceptorEvent → List OtherCall
  | .arrive => []
  | .other call => [call]
  | .read gaps => gaps.calls

/-- One event: a connection arrives, another thread calls, or the listening socket is readable. -/
def acceptorStep (s : Acceptor) : AcceptorEvent → Acceptor
  | .arrive => { s with pending := s.pending ++ [s.arrived], arrived := s.arrived + 1 }
  | .other call => s.others [call]
  | .read gaps => s.handleRead gaps

/-! ## The table -/

namespace Descriptors

variable {d : Descriptors}

/-- The descriptors that are held in reserve. -/
def reserves (d : Descriptors) : List Nat :=
  (d.table.filter fun e => e.2 = .reserve).map Prod.fst

/-- No number is used twice, and the table is no larger than it may be. -/
structure Sound (d : Descriptors) : Prop where
  nodup : (d.table.map Prod.fst).Nodup
  bound : d.table.length ≤ d.limit

private theorem exists_free (d : Descriptors) :
    ∃ n ∈ List.range (d.table.length + 1), n ∉ d.table.map Prod.fst := by
  by_contra hall
  have hsubset : List.range (d.table.length + 1) ⊆ d.table.map Prod.fst := by
    intro n hn
    by_contra hfree
    exact hall ⟨n, hn, hfree⟩
  have hle := (List.subperm_of_subset List.nodup_range hsubset).length_le
  rw [List.length_range, List.length_map] at hle
  omega

/-- There is always a free number, and the lowest one is free. -/
theorem lowest_not_mem (d : Descriptors) : d.lowest ∉ d.table.map Prod.fst := by
  obtain ⟨n, hn, hfree⟩ := d.exists_free
  rw [lowest]
  cases hfind : (List.range (d.table.length + 1)).find? fun n => n ∉ d.table.map Prod.fst with
  | none =>
    have hnone := List.find?_eq_none.mp hfind n hn
    exact absurd (decide_eq_true hfree) hnone
  | some m =>
    have hsome := List.find?_some hfind
    exact of_decide_eq_true hsome

private theorem Sound.openFile (h : d.Sound) (owner : Owner) : (d.openFile owner).2.Sound := by
  rw [Descriptors.openFile]
  split
  · exact h
  · next hroom =>
    rw [full, decide_eq_true_eq, Nat.not_le] at hroom
    refine ⟨?_, ?_⟩
    · rw [List.map_append]
      refine h.nodup.append (List.nodup_singleton _) fun n hn hnew => ?_
      rw [List.map_singleton, List.mem_singleton] at hnew
      rw [hnew] at hn
      exact d.lowest_not_mem hn
    · rw [List.length_append, List.length_singleton]
      exact hroom

private theorem Sound.filter (h : d.Sound) (p : Nat × Owner → Bool) :
    Sound { d with table := d.table.filter p } where
  nodup := h.nodup.sublist (List.filter_sublist.map Prod.fst)
  bound := (List.length_filter_le _ _).trans h.bound

private theorem Sound.close (h : d.Sound) (fd : Option Nat) : (d.close fd).Sound := by
  cases fd with
  | none => exact h
  | some fd => exact h.filter _

private theorem Sound.other (h : d.Sound) (call : OtherCall) : (d.other call).Sound := by
  cases call with
  | openFile => exact h.openFile .other
  | close fd => exact h.filter _

private theorem reserves_append (d : Descriptors) (e : Nat × Owner) :
    reserves { d with table := d.table ++ [e] } =
      d.reserves ++ if e.2 = .reserve then [e.1] else [] := by
  rw [reserves, reserves, List.filter_append, List.map_append, List.filter_singleton]
  by_cases he : e.2 = .reserve
  · simp only [he, decide_true, if_true, cond_true, List.map_cons, List.map_nil]
  · simp only [he, decide_false, if_false, cond_false, List.map_nil]

/-- Opening for somebody else leaves the reserve alone. -/
theorem reserves_openFile {owner : Owner} (howner : owner ≠ .reserve) :
    (d.openFile owner).2.reserves = d.reserves := by
  rw [openFile]
  split
  · rfl
  · refine (reserves_append d (d.lowest, owner)).trans ?_
    rw [if_neg howner, List.append_nil]

/-- What is opened in reserve is in reserve. -/
theorem reserves_openFile_reserve (d : Descriptors) :
    (d.openFile .reserve).2.reserves = d.reserves ++ (d.openFile .reserve).1.toList := by
  rw [openFile]
  split
  · exact (List.append_nil _).symm
  · refine (reserves_append d (d.lowest, .reserve)).trans ?_
    rw [if_pos rfl]
    rfl

private theorem reserves_other (call : OtherCall) : (d.other call).reserves = d.reserves := by
  cases call with
  | openFile => exact reserves_openFile nofun
  | close fd =>
    rw [other, reserves, reserves, List.filter_filter]
    refine congrArg (List.map Prod.fst) (List.filter_congr fun e _ => ?_)
    by_cases he : e.2 = .reserve
    · simp only [he, decide_true, or_true, Bool.and_true]
    · simp only [he, decide_false, Bool.false_and]

/-- Closing what is in reserve leaves nothing there. -/
theorem reserves_close {fd : Option Nat} (h : d.reserves = fd.toList) :
    (d.close fd).reserves = [] := by
  cases fd with
  | none => exact h
  | some fd =>
    have hnone : ∀ e ∈ d.table, e.2 = .reserve → e.1 = fd := by
      intro e he howner
      have hmem : e.1 ∈ d.reserves :=
        List.mem_map_of_mem (List.mem_filter.mpr ⟨he, decide_eq_true howner⟩)
      rw [h] at hmem
      exact List.mem_singleton.mp hmem
    rw [close, reserves, List.filter_filter, List.map_eq_nil_iff, List.filter_eq_nil_iff]
    intro e he hboth
    rw [Bool.and_eq_true, decide_eq_true_eq, decide_eq_true_eq] at hboth
    exact hboth.2 (hnone e he hboth.1)

/-- Closing what is in reserve closes nothing else. -/
theorem mem_close (hsound : d.Sound) {fd : Option Nat} (h : d.reserves = fd.toList)
    {e : Nat × Owner} (he : e ∈ d.table) (howner : e.2 ≠ .reserve) : e ∈ (d.close fd).table := by
  cases fd with
  | none => exact he
  | some fd =>
    refine List.mem_filter.mpr ⟨he, decide_eq_true fun heq => ?_⟩
    have hmem : fd ∈ d.reserves := by
      rw [h]
      exact List.mem_singleton.mpr rfl
    obtain ⟨r, hr, hrfd⟩ := List.mem_map.mp hmem
    have hsame : e = r :=
      List.inj_on_of_nodup_map hsound.nodup he (List.mem_filter.mp hr).1 (heq.trans hrfd.symm)
    exact howner (hsame ▸ of_decide_eq_true (List.mem_filter.mp hr).2)

/-- A descriptor with the number of what is in reserve is the one in reserve. -/
theorem reserve_of_numbered (hsound : d.Sound) {fd : Option Nat} (h : d.reserves = fd.toList)
    {e : Nat × Owner} (he : e ∈ d.numbered fd) : e.2 = .reserve := by
  cases fd with
  | none => cases he
  | some fd =>
    obtain ⟨hmem, hfd⟩ := List.mem_filter.mp he
    by_contra howner
    have hstays := mem_close hsound h hmem howner
    have hother := (List.mem_filter.mp hstays).2
    exact of_decide_eq_true hother (of_decide_eq_true hfd)

private theorem mem_openFile {owner : Owner} {e : Nat × Owner} (he : e ∈ d.table) :
    e ∈ (d.openFile owner).2.table := by
  rw [openFile]
  split
  · exact he
  · exact List.mem_append_left _ he

/-- Another thread takes away only what it closes. -/
theorem mem_other {call : OtherCall} {e : Nat × Owner} (he : e ∈ d.table)
    (hcall : call ≠ .close e.1) : e ∈ (d.other call).table := by
  cases call with
  | openFile => exact mem_openFile he
  | close fd => exact List.mem_filter.mpr ⟨he, decide_eq_true (.inl fun h => hcall (h ▸ rfl))⟩

end Descriptors

/-! ## Every interleaving -/

namespace Acceptor

variable {s : Acceptor} {held : List Nat}

/-- What is in reserve is `held`, connections are taken in the order they arrive, and only what
was in reserve has been closed. -/
structure Keeps (held : List Nat) (s : Acceptor) : Prop where
  sound : s.descriptors.Sound
  reserve : s.descriptors.reserves = held
  queue : s.taken.map Prod.fst ++ s.pending = List.range s.arrived
  own : ∀ e ∈ s.closed, e.2 = .reserve

private theorem others_cons (s : Acceptor) (call : OtherCall) (calls : List OtherCall) :
    s.others (call :: calls) = (s.others [call]).others calls :=
  rfl

private theorem Keeps.others (h : s.Keeps held) (calls : List OtherCall) :
    (s.others calls).Keeps held := by
  induction calls generalizing s with
  | nil => exact h
  | cons call rest ih =>
    have hstep : (s.others [call]).Keeps held :=
      ⟨h.sound.other call, (Descriptors.reserves_other call).trans h.reserve, h.queue, h.own⟩
    exact ih hstep

private theorem Keeps.closeIdle (h : s.Keeps s.idleFd.toList) : s.closeIdle.Keeps [] where
  sound := h.sound.close s.idleFd
  reserve := Descriptors.reserves_close h.reserve
  queue := h.queue
  own e he := by
    rcases List.mem_append.mp he with hearlier | hnow
    · exact h.own e hearlier
    · exact Descriptors.reserve_of_numbered h.sound h.reserve hnow

private theorem Keeps.openIdle (h : s.Keeps []) : s.openIdle.Keeps s.openIdle.idleFd.toList where
  sound := h.sound.openFile .reserve
  reserve := by
    refine (Descriptors.reserves_openFile_reserve s.descriptors).trans ?_
    rw [h.reserve]
    rfl
  queue := h.queue
  own := h.own

private theorem accept_full (hfull : s.descriptors.full = true) (owner : Nat → Owner)
    (handed : Bool) :
    s.accept owner handed = (.error .mfile, s) := by
  rw [accept, if_pos hfull]

private theorem accept_empty (hroom : s.descriptors.full = false) (hnone : s.pending = [])
    (owner : Nat → Owner) (handed : Bool) : s.accept owner handed = (.error .again, s) := by
  rw [accept, if_neg (Bool.eq_false_iff.mp hroom), hnone]

private theorem accept_cons (hroom : s.descriptors.full = false) {c : Nat} {rest : List Nat}
    (hsome : s.pending = c :: rest) (owner : Nat → Owner) (handed : Bool) :
    s.accept owner handed = (.ok s.descriptors.lowest, { s with
      descriptors := (s.descriptors.openFile (owner c)).2
      pending := rest
      taken := s.taken ++ [(c, handed)] }) := by
  rw [accept, if_neg (Bool.eq_false_iff.mp hroom), hsome]

/-- `accept` fails and changes nothing, or takes the first connection. -/
theorem accept_cases (s : Acceptor) (owner : Nat → Owner) (handed : Bool) :
    (∃ error, s.accept owner handed = (.error error, s)) ∨
      s.descriptors.full = false ∧ ∃ c rest, s.pending = c :: rest := by
  rcases Bool.eq_false_or_eq_true s.descriptors.full with hfull | hroom
  · exact .inl ⟨.mfile, accept_full hfull owner handed⟩
  · rcases List.eq_nil_or_concat s.pending.reverse with hnil | ⟨rest, c, hlast⟩
    · exact .inl ⟨.again, accept_empty hroom (List.reverse_eq_nil_iff.mp hnil) owner handed⟩
    · refine .inr ⟨hroom, c, rest.reverse, ?_⟩
      rw [← List.reverse_reverse s.pending, hlast, List.concat_eq_append, List.reverse_append]
      rfl

private theorem queue_step {c : Nat} {rest : List Nat} (handed : Bool)
    (h : s.taken.map Prod.fst ++ s.pending = List.range s.arrived) (hsome : s.pending = c :: rest) :
    (s.taken ++ [(c, handed)]).map Prod.fst ++ rest = List.range s.arrived := by
  rw [← h, hsome, List.map_append, List.append_assoc]
  rfl

/-- An accepted connection that is handed on does not touch the reserve. -/
theorem Keeps.accept (h : s.Keeps held) : (s.accept .connection true).2.Keeps held := by
  rcases s.accept_cases .connection true with ⟨error, heq⟩ | ⟨hroom, c, rest, hsome⟩
  · rw [heq]
    exact h
  · rw [accept_cons hroom hsome]
    have howner : Owner.connection c ≠ .reserve := nofun
    exact ⟨h.sound.openFile (.connection c),
      (Descriptors.reserves_openFile howner).trans h.reserve, queue_step true h.queue hsome,
      h.own⟩

private theorem Keeps.acceptIdle (h : s.Keeps []) :
    s.acceptIdle.Keeps s.acceptIdle.idleFd.toList := by
  rcases s.accept_cases (fun _ => .reserve) false with ⟨error, heq⟩ | ⟨hroom, c, rest, hsome⟩
  · rw [Acceptor.acceptIdle, heq]
    exact ⟨h.sound, h.reserve, h.queue, h.own⟩
  · rw [Acceptor.acceptIdle, accept_cons hroom hsome]
    refine ⟨h.sound.openFile .reserve, ?_, queue_step false h.queue hsome, h.own⟩
    refine (Descriptors.reserves_openFile_reserve s.descriptors).trans ?_
    rw [h.reserve, Descriptors.openFile, if_neg (Bool.eq_false_iff.mp hroom)]
    rfl

/-- The states between the calls of `refuse`. -/
def firstClosed (s : Acceptor) (gaps : Gaps) : Acceptor :=
  (s.others gaps.beforeClose).closeIdle

/-- `handleRead` after its second `accept`. -/
def secondAccepted (s : Acceptor) (gaps : Gaps) : Acceptor :=
  ((s.firstClosed gaps).others gaps.beforeAccept).acceptIdle

/-- `handleRead` after its second `close` of `m_idleFd`. -/
def secondClosed (s : Acceptor) (gaps : Gaps) : Acceptor :=
  ((s.secondAccepted gaps).others gaps.beforeSecond).closeIdle

private theorem Keeps.firstClosed (h : s.Keeps s.idleFd.toList) (gaps : Gaps) :
    (s.firstClosed gaps).Keeps [] :=
  Keeps.closeIdle (s := s.others gaps.beforeClose) (h.others gaps.beforeClose)

private theorem Keeps.secondAccepted (h : s.Keeps s.idleFd.toList) (gaps : Gaps) :
    (s.secondAccepted gaps).Keeps (s.secondAccepted gaps).idleFd.toList :=
  ((h.firstClosed gaps).others gaps.beforeAccept).acceptIdle

private theorem Keeps.secondClosed (h : s.Keeps s.idleFd.toList) (gaps : Gaps) :
    (s.secondClosed gaps).Keeps [] :=
  Keeps.closeIdle (s := (s.secondAccepted gaps).others gaps.beforeSecond)
    ((h.secondAccepted gaps).others gaps.beforeSecond)

/-- The descriptor given up in `refuse` is the one that is there again at the end of it. -/
theorem Keeps.refuse (h : s.Keeps s.idleFd.toList) (gaps : Gaps) :
    (s.refuse gaps).Keeps (s.refuse gaps).idleFd.toList :=
  ((h.secondClosed gaps).others gaps.beforeOpen).openIdle

private theorem Keeps.handleRead (h : s.Keeps s.idleFd.toList) (gaps : Gaps) :
    (s.handleRead gaps).Keeps (s.handleRead gaps).idleFd.toList := by
  rcases Bool.eq_false_or_eq_true s.descriptors.full with hfull | hroom
  · rw [Acceptor.handleRead, accept_full hfull]
    exact h.refuse gaps
  · rcases hp : s.pending with _ | ⟨c, rest⟩
    · rw [Acceptor.handleRead, accept_empty hroom hp]
      exact h
    · have haccept := h.accept
      rw [accept_cons hroom hp] at haccept
      rw [Acceptor.handleRead, accept_cons hroom hp]
      exact haccept

/-- Every step keeps the reserve in the variable that holds it. -/
theorem Keeps.step (h : s.Keeps s.idleFd.toList) (event : AcceptorEvent) :
    (acceptorStep s event).Keeps (acceptorStep s event).idleFd.toList := by
  cases event with
  | arrive =>
    refine ⟨h.sound, h.reserve, ?_, h.own⟩
    change s.taken.map Prod.fst ++ (s.pending ++ [s.arrived]) = List.range (s.arrived + 1)
    rw [← List.append_assoc, h.queue, List.range_succ]
  | other call => exact h.others [call]
  | read gaps => exact h.handleRead gaps

private theorem new_keeps {limit : Nat} {fds : List Nat} (hnodup : fds.Nodup)
    (hbound : fds.length ≤ limit) :
    (new limit fds).Keeps (new limit fds).idleFd.toList := by
  have hmap : (fds.map fun fd => (fd, Owner.other)).map Prod.fst = fds := by
    rw [List.map_map]
    exact List.map_id fds
  have hsound : Descriptors.Sound ⟨limit, fds.map fun fd => (fd, .other)⟩ := by
    refine ⟨?_, ?_⟩
    · rw [hmap]
      exact hnodup
    · rw [List.length_map]
      exact hbound
  refine ⟨hsound.openFile .reserve, ?_, rfl, fun e he => absurd he List.not_mem_nil⟩
  refine (Descriptors.reserves_openFile_reserve _).trans ?_
  have hnone : Descriptors.reserves ⟨limit, fds.map fun fd => (fd, .other)⟩ = [] := by
    rw [Descriptors.reserves, List.map_eq_nil_iff, List.filter_eq_nil_iff]
    intro e he
    obtain ⟨fd, _, rfl⟩ := List.mem_map.mp he
    exact fun h => Owner.noConfusion (of_decide_eq_true h)
  rw [hnone]
  rfl

/-- Another thread takes away only what it closes, in any number of calls. -/
theorem mem_others {calls : List OtherCall} {e : Nat × Owner} (he : e ∈ s.descriptors.table)
    (hcalls : .close e.1 ∉ calls) : e ∈ (s.others calls).descriptors.table := by
  induction calls generalizing s with
  | nil => exact he
  | cons call rest ih =>
    rw [List.mem_cons, not_or] at hcalls
    obtain ⟨hcall, hrest⟩ := hcalls
    have hstep : e ∈ (s.others [call]).descriptors.table :=
      Descriptors.mem_other he fun h => hcall h.symm
    exact ih hstep hrest

private theorem mem_closeIdle (h : s.Keeps s.idleFd.toList) {e : Nat × Owner}
    (he : e ∈ s.descriptors.table) (howner : e.2 ≠ .reserve) : e ∈ s.closeIdle.descriptors.table :=
  Descriptors.mem_close h.sound h.reserve he howner

private theorem mem_accept {owner : Nat → Owner} {handed : Bool} {e : Nat × Owner}
    (he : e ∈ s.descriptors.table) : e ∈ (s.accept owner handed).2.descriptors.table := by
  rcases s.accept_cases owner handed with ⟨error, heq⟩ | ⟨hroom, c, rest, hsome⟩
  · rw [heq]
    exact he
  · rw [accept_cons hroom hsome]
    exact Descriptors.mem_openFile he

/-- What another owner has open just before the second `close` of `refuse`, wherever in `refuse`
it was opened, is open at the end unless another thread closes it. -/
theorem mem_refuse_of_second (h : s.Keeps s.idleFd.toList) {gaps : Gaps} {e : Nat × Owner}
    (he : e ∈ ((s.secondAccepted gaps).others gaps.beforeSecond).descriptors.table)
    (howner : e.2 ≠ .reserve) (hgaps : .close e.1 ∉ gaps.beforeOpen) :
    e ∈ (s.refuse gaps).descriptors.table := by
  have hsecondClosed : e ∈ (s.secondClosed gaps).descriptors.table :=
    mem_closeIdle (s := (s.secondAccepted gaps).others gaps.beforeSecond)
      ((h.secondAccepted gaps).others _) he howner
  exact Descriptors.mem_openFile (mem_others hsecondClosed hgaps)

/-- The same for what is open just before the first one. -/
theorem mem_refuse_of_first (h : s.Keeps s.idleFd.toList) {gaps : Gaps} {e : Nat × Owner}
    (he : e ∈ (s.others gaps.beforeClose).descriptors.table) (howner : e.2 ≠ .reserve)
    (hgaps : .close e.1 ∉ gaps.beforeAccept ++ gaps.beforeSecond ++ gaps.beforeOpen) :
    e ∈ (s.refuse gaps).descriptors.table := by
  simp only [List.mem_append, not_or] at hgaps
  obtain ⟨⟨haccept, hsecond⟩, hopen⟩ := hgaps
  have hfirst : e ∈ (s.firstClosed gaps).descriptors.table :=
    mem_closeIdle (s := s.others gaps.beforeClose) (h.others _) he howner
  have haccepted : e ∈ (s.secondAccepted gaps).descriptors.table :=
    mem_accept (mem_others hfirst haccept)
  exact mem_refuse_of_second h (mem_others haccepted hsecond) howner hopen

private theorem mem_handleRead (h : s.Keeps s.idleFd.toList) {gaps : Gaps} {e : Nat × Owner}
    (he : e ∈ s.descriptors.table) (howner : e.2 ≠ .reserve)
    (hgaps : .close e.1 ∉ gaps.calls) : e ∈ (s.handleRead gaps).descriptors.table := by
  rcases Bool.eq_false_or_eq_true s.descriptors.full with hfull | hroom
  · rw [Acceptor.handleRead, accept_full hfull]
    simp only [Gaps.calls, List.append_assoc, List.mem_append, not_or] at hgaps
    refine mem_refuse_of_first h (mem_others he hgaps.1) howner ?_
    simp only [List.mem_append, not_or]
    exact ⟨⟨hgaps.2.1, hgaps.2.2.1⟩, hgaps.2.2.2⟩
  · have haccept : e ∈ (s.accept .connection true).2.descriptors.table := mem_accept he
    rcases hp : s.pending with _ | ⟨c, rest⟩
    · rw [Acceptor.handleRead, accept_empty hroom hp]
      exact he
    · rw [accept_cons hroom hp] at haccept
      rw [Acceptor.handleRead, accept_cons hroom hp]
      exact haccept

/-- However other threads open and close descriptors, also in the middle of `handleRead`, at
most one descriptor is in reserve and `m_idleFd` is its number or -1; connections are taken
once each, in the order of their arrival; and `handleRead` has never closed what was not its
own. A descriptor of another owner that is open before it, or just before either of the two
calls that close `m_idleFd`, is open after it unless another thread closes it. -/
theorem idleFd_is_the_reserve {limit : Nat} {fds : List Nat} (hnodup : fds.Nodup)
    (hbound : fds.length ≤ limit) (events : List AcceptorEvent) :
    let s := events.foldl acceptorStep (new limit fds)
    s.descriptors.reserves = s.idleFd.toList ∧
      s.taken.map Prod.fst ++ s.pending = List.range s.arrived ∧
      (∀ e ∈ s.closed, e.2 = .reserve) ∧
      ∀ gaps : Gaps, ∀ e : Nat × Owner, e.2 ≠ .reserve →
        (e ∈ s.descriptors.table → .close e.1 ∉ gaps.calls →
          e ∈ (s.handleRead gaps).descriptors.table) ∧
        (e ∈ (s.others gaps.beforeClose).descriptors.table →
          .close e.1 ∉ gaps.beforeAccept ++ gaps.beforeSecond ++ gaps.beforeOpen →
            e ∈ (s.refuse gaps).descriptors.table) ∧
        (e ∈ ((s.secondAccepted gaps).others gaps.beforeSecond).descriptors.table →
          .close e.1 ∉ gaps.beforeOpen → e ∈ (s.refuse gaps).descriptors.table) := by
  intro s
  have hkeeps : s.Keeps s.idleFd.toList :=
    foldl_invariant (P := fun t : Acceptor => t.Keeps t.idleFd.toList) (new_keeps hnodup hbound)
      (fun t event h => h.step event) events
  exact ⟨hkeeps.reserve, hkeeps.queue, hkeeps.own, fun gaps e howner =>
    ⟨fun he hgaps => mem_handleRead hkeeps he howner hgaps,
      fun he hgaps => mem_refuse_of_first hkeeps he howner hgaps,
      fun he hgaps => mem_refuse_of_second hkeeps he howner hgaps⟩⟩

/-- Room for two descriptors: a thread opens one just after `handleRead` gave up the other. -/
def stolenReserve : Acceptor :=
  [.arrive, .read ⟨[], [.openFile], [], []⟩].foldl acceptorStep (new 2 [0])

/-- The stolen number now belongs to the other thread, and `m_idleFd` no longer names it: the
second `close` has left it alone, and so does a later read. -/
theorem idleFd_is_the_reserve_stolen :
    stolenReserve.descriptors.table = [(0, .other), (1, .other)] ∧
      stolenReserve.descriptors.reserves = stolenReserve.idleFd.toList ∧
      stolenReserve.closed = [(1, .reserve)] ∧ (∀ e ∈ stolenReserve.closed, e.2 = .reserve) ∧
      (1, .other) ∈ (stolenReserve.handleRead ⟨[], [], [], []⟩).descriptors.table := by
  obtain ⟨hreserve, _, hown, hmem⟩ := idleFd_is_the_reserve (List.nodup_singleton 0)
    (show [0].length ≤ 2 by decide) [.arrive, .read ⟨[], [.openFile], [], []⟩]
  exact ⟨rfl, hreserve, rfl, hown,
    (hmem ⟨[], [], [], []⟩ (1, .other) nofun).1 (by decide) (by decide)⟩

/-! ## When the reserve is there, and when it is lost -/

/-- Closing -1 makes no room. -/
theorem closeIdle_none (hidle : s.idleFd = none) : s.closeIdle = s := by
  rw [closeIdle, hidle, Descriptors.close, Descriptors.numbered, List.append_nil, ← hidle]

/-- No other thread opens a descriptor between the one given up and the one that replaces it. -/
def Quiet (gaps : Gaps) : Prop :=
  .openFile ∉ gaps.beforeAccept ∧ .openFile ∉ gaps.beforeSecond ∧ .openFile ∉ gaps.beforeOpen

private theorem others_full (hfull : s.descriptors.full = true) {calls : List OtherCall}
    (hcalls : ∀ fd, .close fd ∉ calls) : s.others calls = s := by
  induction calls with
  | nil => rfl
  | cons call rest ih =>
    have hstep : s.others [call] = s := by
      cases call with
      | openFile =>
        change { s with descriptors := (s.descriptors.openFile .other).2 } = s
        rw [Descriptors.openFile, if_pos hfull]
      | close fd => exact absurd List.mem_cons_self (hcalls fd)
    rw [others_cons, hstep]
    exact ih fun fd h => hcalls fd (List.mem_cons_of_mem _ h)

/-- On a full table, with the reserve lost, `refuse` achieves nothing. -/
theorem refuse_stuck (hidle : s.idleFd = none) (hfull : s.descriptors.full = true) {gaps : Gaps}
    (hgaps : ∀ fd, .close fd ∉ gaps.calls) : s.refuse gaps = s := by
  simp only [Gaps.calls, List.mem_append, not_or] at hgaps
  have haccept : s.acceptIdle = s := by
    rw [acceptIdle, accept_full hfull]
    change { s with idleFd := none } = s
    rw [← hidle]
  have hopen : s.openIdle = s := by
    rw [openIdle, Descriptors.openFile, if_pos hfull, ← hidle]
  rw [refuse, others_full hfull fun fd => (hgaps fd).1.1.1, closeIdle_none hidle,
    others_full hfull fun fd => (hgaps fd).1.1.2, haccept,
    others_full hfull fun fd => (hgaps fd).1.2, closeIdle_none hidle,
    others_full hfull fun fd => (hgaps fd).2, hopen]

private theorem step_stuck (hidle : s.idleFd = none) (hfull : s.descriptors.full = true)
    {event : AcceptorEvent} (hevent : ∀ fd, .close fd ∉ event.calls) :
    (acceptorStep s event).idleFd = none ∧ (acceptorStep s event).descriptors = s.descriptors ∧
      (acceptorStep s event).taken = s.taken := by
  cases event with
  | arrive => exact ⟨hidle, rfl, rfl⟩
  | other call =>
    have heq : s.others [call] = s := others_full hfull hevent
    rw [acceptorStep, heq]
    exact ⟨hidle, rfl, rfl⟩
  | read gaps =>
    rw [acceptorStep, Acceptor.handleRead, accept_full hfull]
    change (s.refuse gaps).idleFd = none ∧ (s.refuse gaps).descriptors = s.descriptors ∧
      (s.refuse gaps).taken = s.taken
    rw [refuse_stuck hidle hfull hevent]
    exact ⟨hidle, rfl, rfl⟩

/-- An acceptor that has lost its reserve and finds the table full takes no connection, and
does not get the reserve back, until somebody closes a descriptor. -/
theorem lost_reserve_keeps_waiting {s : Acceptor} (hidle : s.idleFd = none)
    (hfull : s.descriptors.full = true) {events : List AcceptorEvent}
    (hevents : ∀ event ∈ events, ∀ fd, .close fd ∉ event.calls) :
    let t := events.foldl acceptorStep s
    t.idleFd = none ∧ t.descriptors = s.descriptors ∧ t.taken = s.taken := by
  refine foldl_invariant_of_visits (P := fun t : Acceptor => t.idleFd = none ∧
    t.descriptors = s.descriptors ∧ t.taken = s.taken) ⟨hidle, rfl, rfl⟩ events ?_
  rintro t event ⟨before, after, rfl, _⟩ ⟨htidle, htable, htaken⟩
  have hmem : event ∈ before ++ event :: after := List.mem_append_right _ List.mem_cons_self
  have hstep := step_stuck htidle (htable.symm ▸ hfull) (hevents event hmem)
  exact ⟨hstep.1, hstep.2.1.trans htable, hstep.2.2.trans htaken⟩

/-- No read takes the connection after the reserve was stolen. -/
theorem lost_reserve_keeps_waiting_stolen :
    ((List.replicate 3 (.read ⟨[], [], [], []⟩)).foldl acceptorStep stolenReserve).taken = [] := by
  refine (lost_reserve_keeps_waiting (s := stolenReserve) rfl rfl fun event hevent fd => ?_).2.2
  rw [List.eq_of_mem_replicate hevent]
  exact List.not_mem_nil

end Acceptor

end ChatRoom.Net
