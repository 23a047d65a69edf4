import ChatRoom.Core.Run
import ChatRoom.Net.EpollPoller

/-!
# The poller, its channels and the kernel

Three records say which channel is watched: the mark on the channel, the map from
descriptors to channels, and the interest set of the kernel. An operation touches
one channel and the entries of its descriptor, so it is enough to know that these
entries agree afterwards and that no other channel had them before.
-/

namespace ChatRoom.Net

open ChatRoom.Core

/-- The operations of a channel that reach its poller. -/
inductive ChannelOp where
  | enableReading
  | disableReading
  | enableWriting
  | disableWriting
  | disableAll
  | remove
  deriving DecidableEq, Repr

/-- An operation of a channel, or the end of a descriptor that no channel of the poller holds. -/
inductive PollerInput where
  | channel (c : Nat) (op : ChannelOp)
  | close (fd : Nat)
  deriving DecidableEq, Repr

namespace EPollPoller

/-- An operation of the channel at address `c`. -/
def operate (p : EPollPoller) (c : Nat) : ChannelOp → EPollPoller
  | .enableReading => (p.enableReading c).1
  | .disableReading => (p.disableReading c).1
  | .enableWriting => (p.enableWriting c).1
  | .disableWriting => (p.disableWriting c).1
  | .disableAll => (p.disableAll c).1
  | .remove => p.remove c

/-- The kernel forgets a closed descriptor; one that is in `m_channels` stays open. -/
def close (p : EPollPoller) (fd : Nat) : EPollPoller :=
  if (p.channels fd).isSome then p
  else { p with interest := Function.update p.interest fd none }

/-- `fillActiveChannels` on what `epoll_wait` has returned: addresses and events, up to
the first channel that is not the one in the map. -/
def fillActiveChannels (p : EPollPoller) : List (Nat × BitVec 32) → List (Nat × BitVec 32)
  | [] => []
  | (c, revents) :: rest =>
    if p.channels (p.objects c).fd ≠ some c then []
    else (c, revents) :: p.fillActiveChannels rest

end EPollPoller

/-- A call of a channel, or a descriptor that is closed. -/
def pollerStep (p : EPollPoller) : PollerInput → EPollPoller
  | .channel c op => p.operate c op
  | .close fd => p.close fd

namespace EPollPoller

/-- What the mark on a channel says of the two other records. -/
def Marked (p : EPollPoller) (c : Nat) : Prop :=
  match (p.objects c).index with
  | .kNew => p.channels (p.objects c).fd ≠ some c
  | .kAdded => p.channels (p.objects c).fd = some c ∧
      p.interest (p.objects c).fd = some (c, (p.objects c).events)
  | .kDeleted => p.channels (p.objects c).fd = some c ∧ p.interest (p.objects c).fd = none

/-- Every mark is right, channels stand at their own descriptors, and the kernel reports
to channels of the map only. -/
structure Agrees (p : EPollPoller) : Prop where
  ready : p.full = false
  own : ∀ {fd c}, p.channels fd = some c → (p.objects c).fd = fd
  known : ∀ {fd c events}, p.interest fd = some (c, events) → p.channels fd = some c
  marked : ∀ c, p.Marked c

/-- One channel and the entries of its descriptor, all else as it was. -/
def put (p : EPollPoller) (c : Nat) (ch : Channel) (entry : Option Nat)
    (kernel : Option (Nat × BitVec 32)) : EPollPoller :=
  { p with
    objects := Function.update p.objects c ch
    channels := Function.update p.channels ch.fd entry
    interest := Function.update p.interest ch.fd kernel }

/-- The mark of a channel that holds these entries. -/
def Fits (c : Nat) (ch : Channel) (entry : Option Nat) (kernel : Option (Nat × BitVec 32)) : Prop :=
  match ch.index with
  | .kNew => entry = none ∧ kernel = none
  | .kAdded => entry = some c ∧ kernel = some (c, ch.events)
  | .kDeleted => entry = some c ∧ kernel = none

variable {p : EPollPoller}

/-- Nothing is registered for a descriptor that is not in the map. -/
theorem Agrees.interest_eq_none (h : p.Agrees) {fd : Nat} (hnone : p.channels fd = none) :
    p.interest fd = none := by
  cases hi : p.interest fd with
  | none => rfl
  | some entry =>
    have hknown : p.channels fd = some entry.1 := h.known hi
    rw [hnone] at hknown
    cases hknown

/-! What each mark says. -/

private theorem Agrees.of_kNew (h : p.Agrees) {c : Nat} (hindex : (p.objects c).index = .kNew) :
    p.channels (p.objects c).fd ≠ some c := by
  have hmarked := h.marked c
  simp only [Marked, hindex] at hmarked
  exact hmarked

private theorem Agrees.of_kAdded (h : p.Agrees) {c : Nat} (hindex : (p.objects c).index = .kAdded) :
    p.channels (p.objects c).fd = some c ∧
      p.interest (p.objects c).fd = some (c, (p.objects c).events) := by
  have hmarked := h.marked c
  simp only [Marked, hindex] at hmarked
  exact hmarked

private theorem Agrees.of_kDeleted (h : p.Agrees) {c : Nat}
    (hindex : (p.objects c).index = .kDeleted) :
    p.channels (p.objects c).fd = some c ∧ p.interest (p.objects c).fd = none := by
  have hmarked := h.marked c
  simp only [Marked, hindex] at hmarked
  exact hmarked

/-- A channel whose descriptor is held by another one is new. -/
theorem Agrees.index_of_ne (h : p.Agrees) {c : Nat}
    (hne : p.channels (p.objects c).fd ≠ some c) : (p.objects c).index = .kNew := by
  cases hindex : (p.objects c).index with
  | kNew => rfl
  | kAdded => exact absurd (h.of_kAdded hindex).1 hne
  | kDeleted => exact absurd (h.of_kDeleted hindex).1 hne

private theorem Fits.entry_eq {c c' : Nat} {ch : Channel} {entry : Option Nat}
    {kernel : Option (Nat × BitVec 32)} (h : Fits c ch entry kernel) (he : entry = some c') :
    c' = c := by
  unfold Fits at h
  split at h <;> rw [h.1] at he <;> cases he
  · rfl
  · rfl

private theorem Fits.kernel_eq {c c' : Nat} {events : BitVec 32} {ch : Channel} {entry : Option Nat}
    {kernel : Option (Nat × BitVec 32)} (h : Fits c ch entry kernel)
    (hk : kernel = some (c', events)) : entry = some c' := by
  unfold Fits at h
  split at h <;> rw [h.2] at hk <;> cases hk
  exact h.1

private theorem Agrees.put_own (h : p.Agrees) {c fd c' : Nat} {ch : Channel} {entry : Option Nat}
    {kernel : Option (Nat × BitVec 32)} (hfd : ch.fd = (p.objects c).fd)
    (hfits : Fits c ch entry kernel)
    (he : (p.put c ch entry kernel).channels fd = some c') :
    ((p.put c ch entry kernel).objects c').fd = fd := by
  simp only [put] at he ⊢
  by_cases hsame : fd = ch.fd
  · subst hsame
    rw [Function.update_self] at he
    rw [hfits.entry_eq he, Function.update_self]
  · rw [Function.update_of_ne hsame] at he
    have hown := h.own he
    by_cases hc : c' = c
    · rw [hc, ← hfd] at hown
      exact absurd hown.symm hsame
    · rw [Function.update_of_ne hc]
      exact hown

private theorem Agrees.put_known (h : p.Agrees) {c fd c' : Nat} {events : BitVec 32} {ch : Channel}
    {entry : Option Nat} {kernel : Option (Nat × BitVec 32)} (hfits : Fits c ch entry kernel)
    (hk : (p.put c ch entry kernel).interest fd = some (c', events)) :
    (p.put c ch entry kernel).channels fd = some c' := by
  simp only [put] at hk ⊢
  by_cases hsame : fd = ch.fd
  · subst hsame
    rw [Function.update_self] at hk ⊢
    exact hfits.kernel_eq hk
  · rw [Function.update_of_ne hsame] at hk ⊢
    exact h.known hk

private theorem Agrees.put_marked (h : p.Agrees) {c : Nat} {ch : Channel} {entry : Option Nat}
    {kernel : Option (Nat × BitVec 32)}
    (hfree : p.channels ch.fd = none ∨ p.channels ch.fd = some c)
    (hfits : Fits c ch entry kernel) (c' : Nat) : (p.put c ch entry kernel).Marked c' := by
  unfold Marked put
  by_cases hc : c' = c
  · subst hc
    unfold Fits at hfits
    simp only [Function.update_self]
    cases hindex : ch.index with
    | kNew =>
      simp only [hindex] at hfits ⊢
      rw [hfits.1]
      exact Option.some_ne_none c' ∘ Eq.symm
    | kAdded | kDeleted =>
      simp only [hindex] at hfits ⊢
      exact hfits
  · simp only [Function.update_of_ne hc]
    by_cases hsame : (p.objects c').fd = ch.fd
    · -- Another channel of this descriptor is new: the entry was free or belonged to `c`.
      have hne : p.channels (p.objects c').fd ≠ some c' := by
        rw [hsame]
        rcases hfree with hnone | hself
        · rw [hnone]
          exact Option.some_ne_none c' ∘ Eq.symm
        · rw [hself]
          exact fun heq => hc (Option.some.inj heq).symm
      simp only [h.index_of_ne hne, hsame, Function.update_self]
      exact fun he => hc (hfits.entry_eq he)
    · simp only [Function.update_of_ne hsame]
      exact h.marked c'

/-- Entries that fit their channel, at a descriptor no other channel holds, keep the agreement. -/
theorem Agrees.put (h : p.Agrees) {c : Nat} {ch : Channel} {entry : Option Nat}
    {kernel : Option (Nat × BitVec 32)} (hfd : ch.fd = (p.objects c).fd)
    (hfree : p.channels ch.fd = none ∨ p.channels ch.fd = some c)
    (hfits : Fits c ch entry kernel) : (p.put c ch entry kernel).Agrees where
  ready := h.ready
  own := h.put_own hfd hfits
  known := h.put_known hfits
  marked := h.put_marked hfree hfits

/-! ## What an update does -/

/-- The channel has the new interest. -/
theorem setEvents_objects (p : EPollPoller) (c : Nat) (events : BitVec 32) :
    (p.setEvents c events).objects c = { p.objects c with events := events } :=
  Function.update_self ..

/-- The entry of the descriptor is there already. -/
theorem update_eq_put {c : Nat} {index : ChannelIndex} {events : BitVec 32}
    {kernel : Option (Nat × BitVec 32)} (hentry : p.channels (p.objects c).fd = some c) :
    p.put c ⟨(p.objects c).fd, events, index⟩ (some c) kernel =
      { p with
        objects := Function.update p.objects c ⟨(p.objects c).fd, events, index⟩
        interest := Function.update p.interest (p.objects c).fd kernel } := by
  unfold put
  rw [← hentry, Function.update_eq_self]

/-- A new channel is refused while another one holds its descriptor. -/
theorem update_refused {c : Nat} (events : BitVec 32) (hindex : (p.objects c).index = .kNew)
    (hheld : p.channels (p.objects c).fd ≠ none) :
    (p.setEvents c events).updateChannel c = (p.setEvents c events, false) := by
  have hsome : ((p.setEvents c events).channels (p.objects c).fd).isSome = true :=
    Option.isSome_iff_ne_none.mpr hheld
  unfold updateChannel
  simp only [setEvents_objects, hindex, hsome, if_true]

/-- A channel that is not registered is added with its events. -/
theorem Agrees.update_add (h : p.Agrees) {c : Nat} (events : BitVec 32)
    (hindex : ((p.objects c).index = .kNew ∧ p.channels (p.objects c).fd = none) ∨
      (p.objects c).index = .kDeleted) :
    (p.setEvents c events).updateChannel c =
      (p.put c ⟨(p.objects c).fd, events, .kAdded⟩ (some c) (some (c, events)), true) := by
  have hready := h.ready
  rcases hindex with ⟨hnew, hnone⟩ | hdeleted
  · have hfree : p.interest (p.objects c).fd = none := h.interest_eq_none hnone
    simp only [updateChannel, setEvents_objects, hnew, update, setIndex, Function.update_self]
    simp only [setEvents, hnone, hfree, hready, Option.isSome_none, Bool.false_eq_true, if_false,
      Bool.or_self, Function.update_idem, EPollPoller.put]
  · have hmarked := h.of_kDeleted hdeleted
    simp only [updateChannel, setEvents_objects, hdeleted, update, setIndex, Function.update_self]
    simp only [setEvents, hmarked, hready, Option.isSome_none, Bool.false_eq_true, if_false,
      ne_eq, not_true_eq_false, Bool.or_self, Function.update_idem, update_eq_put hmarked.1]

/-- A registered channel is deleted from the kernel when it asks for nothing. -/
theorem Agrees.update_del (h : p.Agrees) {c : Nat} (hindex : (p.objects c).index = .kAdded) :
    (p.setEvents c Channel.kNoneEvent).updateChannel c =
      (p.put c ⟨(p.objects c).fd, Channel.kNoneEvent, .kDeleted⟩ (some c) none, true) := by
  have hmarked := h.of_kAdded hindex
  simp only [updateChannel, setEvents_objects, hindex, update, setIndex]
  simp only [setEvents, hmarked, Channel.isNoneEvent, Option.isNone_some, Bool.false_eq_true,
    if_false, ne_eq, not_true_eq_false, beq_self_eq_true, if_true, Function.update_self,
    Function.update_idem, update_eq_put hmarked.1]

/-- A registered channel that asks for something is registered with its events. -/
theorem Agrees.update_mod (h : p.Agrees) {c : Nat} {events : BitVec 32}
    (hindex : (p.objects c).index = .kAdded) (hevents : events ≠ Channel.kNoneEvent) :
    (p.setEvents c events).updateChannel c =
      (p.put c ⟨(p.objects c).fd, events, .kAdded⟩ (some c) (some (c, events)), true) := by
  have hmarked := h.of_kAdded hindex
  have hsome : (events == Channel.kNoneEvent) = false := beq_eq_false_iff_ne.mpr hevents
  simp only [updateChannel, setEvents_objects, hindex, update, setIndex]
  simp only [setEvents, hmarked, Channel.isNoneEvent, hsome, Option.isNone_some,
    Bool.false_eq_true, if_false, ne_eq, not_true_eq_false, Function.update_self,
    Function.update_idem, update_eq_put hmarked.1]
  rw [← hindex]

/-- Whatever a channel asks for, an update keeps the agreement. -/
theorem Agrees.updateChannel (h : p.Agrees) (c : Nat) (events : BitVec 32) :
    ((p.setEvents c events).updateChannel c).1.Agrees := by
  cases hindex : (p.objects c).index with
  | kNew =>
    by_cases hnone : p.channels (p.objects c).fd = none
    · rw [h.update_add events (Or.inl ⟨hindex, hnone⟩)]
      exact h.put rfl (Or.inl hnone) ⟨rfl, rfl⟩
    · -- Refused: only the events of a channel that is nowhere have changed.
      rw [update_refused events hindex hnone]
      refine ⟨h.ready, fun {fd c'} he => ?_, h.known, fun c' => ?_⟩
      · by_cases hc : c' = c
        · subst hc
          rw [setEvents_objects]
          exact h.own he
        · simp only [setEvents, Function.update_of_ne hc]
          exact h.own he
      · unfold Marked
        by_cases hc : c' = c
        · subst hc
          simp only [setEvents_objects, hindex]
          exact h.of_kNew hindex
        · simp only [setEvents, Function.update_of_ne hc]
          exact h.marked c'
  | kDeleted =>
    rw [h.update_add events (Or.inr hindex)]
    exact h.put rfl (Or.inr (h.of_kDeleted hindex).1) ⟨rfl, rfl⟩
  | kAdded =>
    have hentry := (h.of_kAdded hindex).1
    by_cases hevents : events = Channel.kNoneEvent
    · rw [hevents, h.update_del hindex]
      exact h.put rfl (Or.inr hentry) ⟨rfl, rfl⟩
    · rw [h.update_mod hindex hevents]
      exact h.put rfl (Or.inr hentry) ⟨rfl, rfl⟩

/-- What `remove` does to a channel of the map that asks for nothing. -/
theorem Agrees.remove_eq (h : p.Agrees) {c : Nat}
    (hentry : p.channels (p.objects c).fd = some c)
    (hevents : (p.objects c).events = Channel.kNoneEvent) :
    p.remove c = p.put c ⟨(p.objects c).fd, Channel.kNoneEvent, .kNew⟩ none none := by
  cases hindex : (p.objects c).index with
  | kNew => exact absurd hentry (h.of_kNew hindex)
  | kAdded =>
    simp only [remove, removeChannel, Channel.isNoneEvent, hevents, hentry, hindex, update,
      setIndex, (h.of_kAdded hindex).2, beq_self_eq_true, if_true, ne_eq, not_true_eq_false, Bool.not_true,
      Bool.false_eq_true, or_self, if_false, Option.isNone_some, EPollPoller.put]
  | kDeleted =>
    simp only [remove, removeChannel, Channel.isNoneEvent, hevents, hentry, hindex, setIndex,
      beq_self_eq_true, if_true, ne_eq, not_true_eq_false, Bool.not_true, Bool.false_eq_true,
      or_self, if_false, EPollPoller.put]
    rw [← (h.of_kDeleted hindex).2, Function.update_eq_self]

/-- Any other channel is left alone by `remove`. -/
theorem remove_of_ne {c : Nat} (h : p.channels (p.objects c).fd ≠ some c ∨
    (p.objects c).events ≠ Channel.kNoneEvent) : p.remove c = p := by
  unfold remove
  split
  · next hnone =>
    have hevents : (p.objects c).events = Channel.kNoneEvent := eq_of_beq hnone
    unfold removeChannel
    exact if_pos (Or.inl (h.resolve_right (not_not.mpr hevents)))
  · rfl

/-- `remove` keeps map, marks and kernel in agreement. -/
theorem Agrees.remove (h : p.Agrees) (c : Nat) : (p.remove c).Agrees := by
  by_cases hin : p.channels (p.objects c).fd = some c ∧ (p.objects c).events = Channel.kNoneEvent
  · rw [h.remove_eq hin.1 hin.2]
    exact h.put rfl (Or.inr hin.1) ⟨rfl, rfl⟩
  · rw [remove_of_ne (not_and_or.mp hin)]
    exact h

/-- A channel operation keeps map, marks and kernel in agreement. -/
theorem Agrees.operate (h : p.Agrees) (c : Nat) (op : ChannelOp) : (p.operate c op).Agrees := by
  cases op with
  | remove => exact h.remove c
  | enableReading | disableReading | enableWriting | disableWriting | disableAll =>
    exact h.updateChannel c _

/-- Closing a descriptor keeps map, marks and kernel in agreement. -/
theorem Agrees.close (h : p.Agrees) (fd : Nat) : (p.close fd).Agrees := by
  unfold EPollPoller.close
  split
  · exact h
  · next hnone =>
    have hfree : p.interest fd = none :=
      h.interest_eq_none (Option.not_isSome_iff_eq_none.mp hnone)
    rw [← hfree, Function.update_eq_self]
    exact h

/-- A new poller knows no channel. -/
theorem agrees_new (fds : Nat → Nat) : (new fun c => Channel.new (fds c)).Agrees where
  ready := rfl
  own := nofun
  known := nofun
  marked _ := nofun

/-- Every step keeps map, marks and kernel in agreement. -/
theorem Agrees.step (h : p.Agrees) (i : PollerInput) : (pollerStep p i).Agrees := by
  cases i with
  | channel c op => exact h.operate c op
  | close fd => exact h.close fd

/-- A channel is marked as new exactly when the map does not have it. -/
theorem Agrees.kNew_iff (h : p.Agrees) (c : Nat) :
    (p.objects c).index = .kNew ↔ ∀ fd, p.channels fd ≠ some c := by
  constructor
  · intro hindex fd he
    have hown := h.own he
    exact h.of_kNew hindex (hown ▸ he)
  · intro hnowhere
    exact h.index_of_ne (hnowhere _)

private theorem Agrees.kAdded_iff (h : p.Agrees) (c : Nat) :
    (p.objects c).index = .kAdded ↔ p.channels (p.objects c).fd = some c ∧
      p.interest (p.objects c).fd = some (c, (p.objects c).events) := by
  refine ⟨h.of_kAdded, fun hin => ?_⟩
  cases hindex : (p.objects c).index with
  | kNew => exact absurd hin.1 (h.of_kNew hindex)
  | kAdded => rfl
  | kDeleted =>
    have hnone := (h.of_kDeleted hindex).2
    rw [hin.2] at hnone
    cases hnone

private theorem Agrees.kDeleted_iff (h : p.Agrees) (c : Nat) :
    (p.objects c).index = .kDeleted ↔
      p.channels (p.objects c).fd = some c ∧ p.interest (p.objects c).fd = none := by
  refine ⟨h.of_kDeleted, fun hin => ?_⟩
  cases hindex : (p.objects c).index with
  | kNew => exact absurd hin.1 (h.of_kNew hindex)
  | kAdded =>
    have hsome := (h.of_kAdded hindex).2
    rw [hin.2] at hsome
    cases hsome
  | kDeleted => rfl

/-- What `epoll_wait` may return: addresses it was given for descriptors that are registered. -/
def Reported (p : EPollPoller) (events : List (Nat × BitVec 32)) : Prop :=
  ∀ e ∈ events, ∃ fd asked, p.interest fd = some (e.1, asked)

private theorem Agrees.fillActiveChannels_eq (h : p.Agrees) {events : List (Nat × BitVec 32)}
    (hreported : p.Reported events) : p.fillActiveChannels events = events := by
  induction events with
  | nil => rfl
  | cons e rest ih =>
    obtain ⟨fd, asked, hinterest⟩ := hreported e (List.mem_cons_self ..)
    have hentry := h.known hinterest
    have hown := h.own hentry
    rw [fillActiveChannels, if_neg (by rw [hown]; exact not_not.mpr hentry),
      ih fun e' he' => hreported e' (List.mem_cons_of_mem _ he')]

end EPollPoller

/-- After every sequence of channel operations the three records agree, and every event
that the kernel reports reaches its channel. -/
theorem poller_agrees_with_kernel (fds : Nat → Nat) (inputs : List PollerInput) :
    let p := inputs.foldl pollerStep (.new fun c => Channel.new (fds c))
    (∀ c, (p.objects c).index = .kNew ↔ ∀ fd, p.channels fd ≠ some c) ∧
      (∀ c, (p.objects c).index = .kAdded ↔ p.channels (p.objects c).fd = some c ∧
        p.interest (p.objects c).fd = some (c, (p.objects c).events)) ∧
      (∀ c, (p.objects c).index = .kDeleted ↔
        p.channels (p.objects c).fd = some c ∧ p.interest (p.objects c).fd = none) ∧
      ∀ events, p.Reported events → p.fillActiveChannels events = events := by
  intro p
  have h : p.Agrees := foldl_invariant (EPollPoller.agrees_new fds) (fun _ i ht => ht.step i) inputs
  exact ⟨h.kNew_iff, h.kAdded_iff, h.kDeleted_iff,
    fun _ hreported => h.fillActiveChannels_eq hreported⟩

/-- Two channels of one descriptor: the second is refused, and the event of the first
reaches it. -/
theorem poller_agrees_for_shared_descriptor :
    let p := [PollerInput.channel 0 .enableReading, .channel 1 .enableWriting].foldl pollerStep
      (.new fun _ => Channel.new 5)
    p.fillActiveChannels [(0, xpollIn)] = [(0, xpollIn)] := by
  intro p
  refine (poller_agrees_with_kernel (fun _ => 5)
    [.channel 0 .enableReading, .channel 1 .enableWriting]).2.2.2 [(0, xpollIn)] ?_
  intro e he
  rw [List.mem_singleton.mp he]
  exact ⟨5, Channel.kReadEvent, rfl⟩

end ChatRoom.Net
