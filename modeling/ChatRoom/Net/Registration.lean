import ChatRoom.Net.PollerAgreement

/-!
# The registration of one channel

A connection sees its poller through the entries of its own channel. These are the
rules for them without any assumption on the rest: an update changes the mark of its
own channel only, a channel that holds its descriptor keeps it whatever the others
do, and an update that succeeds leaves the channel registered for what it asks.
-/

namespace ChatRoom.Net

namespace EPollPoller

variable {p : EPollPoller} {c c' fd : Nat}

/-- The channel holds its descriptor, and the kernel watches it for what the channel asks. -/
structure Registered (p : EPollPoller) (c : Nat) : Prop where
  added : (p.objects c).index = .kAdded
  held : p.channels (p.objects c).fd = some c
  watched : p.interest (p.objects c).fd = some (c, (p.objects c).events)

/-! ## What stays as it is -/

/-- `epoll_ctl` does not change the channels. -/
theorem update_objects (p : EPollPoller) (operation : EpollCtl) (c : Nat) :
    (p.update operation c).1.objects = p.objects := by
  cases operation <;> simp only [update] <;> split <;> rfl

/-- `epoll_ctl` does not change the map. -/
theorem update_channels (p : EPollPoller) (operation : EpollCtl) (c : Nat) :
    (p.update operation c).1.channels = p.channels := by
  cases operation <;> simp only [update] <;> split <;> rfl

private theorem update_interest_of_ne (operation : EpollCtl) (hfd : fd ≠ (p.objects c).fd) :
    (p.update operation c).1.interest fd = p.interest fd := by
  cases operation <;> simp only [update] <;> split <;>
    first | rfl | exact Function.update_of_ne hfd ..

/-- The channel has the new index. -/
theorem setIndex_objects (p : EPollPoller) (c : Nat) (index : ChannelIndex) :
    (p.setIndex c index).objects c = { p.objects c with index := index } :=
  Function.update_self ..

private theorem setIndex_objects_of_ne (hc : c ≠ c') (index : ChannelIndex) :
    (p.setIndex c' index).objects c = p.objects c := Function.update_of_ne hc ..

/-- An update leaves the other channels alone. -/
theorem updateChannel_objects_of_ne (hc : c ≠ c') :
    (p.updateChannel c').1.objects c = p.objects c := by
  simp only [updateChannel]
  split
  · split
    · rfl
    · rw [update_objects]
      exact setIndex_objects_of_ne hc _
  · split
    · rfl
    · rw [update_objects]
      exact setIndex_objects_of_ne hc _
  · split
    · rfl
    · split
      · split
        · rw [setIndex_objects_of_ne hc, update_objects]
        · rw [update_objects]
      · rw [update_objects]

/-- An update changes the mark of its channel and nothing else of it. -/
theorem updateChannel_objects (p : EPollPoller) (c : Nat) :
    ∃ index, (p.updateChannel c).1.objects c = { p.objects c with index := index } := by
  simp only [updateChannel]
  split
  · split
    · exact ⟨_, rfl⟩
    · refine ⟨.kAdded, ?_⟩
      rw [update_objects, setIndex_objects]
  · split
    · exact ⟨_, rfl⟩
    · refine ⟨.kAdded, ?_⟩
      rw [update_objects, setIndex_objects]
  · split
    · exact ⟨_, rfl⟩
    · split
      · split
        · refine ⟨.kDeleted, ?_⟩
          rw [setIndex_objects, update_objects]
        · refine ⟨(p.objects c).index, ?_⟩
          rw [update_objects]
      · refine ⟨(p.objects c).index, ?_⟩
        rw [update_objects]

/-- The channel keeps its interest whether the kernel takes it or not. -/
theorem setEvents_updateChannel_events (p : EPollPoller) (c : Nat) (events : BitVec 32) :
    (((p.setEvents c events).updateChannel c).1.objects c).events = events := by
  obtain ⟨index, hobject⟩ := (p.setEvents c events).updateChannel_objects c
  rw [hobject, setEvents_objects]

/-- An update touches the entries of its own descriptor only. -/
theorem updateChannel_entries_of_ne (hfd : fd ≠ (p.objects c).fd) :
    (p.updateChannel c).1.channels fd = p.channels fd ∧
      (p.updateChannel c).1.interest fd = p.interest fd := by
  have hindex : ∀ (q : EPollPoller) (index : ChannelIndex),
      ((q.setIndex c index).objects c).fd = (q.objects c).fd := by
    intro q index
    rw [setIndex_objects]
  simp only [updateChannel]
  split
  · split
    · exact ⟨rfl, rfl⟩
    · rw [update_channels, update_interest_of_ne _ (by rw [hindex]; exact hfd)]
      exact ⟨Function.update_of_ne hfd .., rfl⟩
  · split
    · exact ⟨rfl, rfl⟩
    · rw [update_channels, update_interest_of_ne _ (by rw [hindex]; exact hfd)]
      exact ⟨rfl, rfl⟩
  · split
    · exact ⟨rfl, rfl⟩
    · split
      · split
        · exact ⟨congrFun (update_channels ..) fd, update_interest_of_ne _ hfd⟩
        · exact ⟨congrFun (update_channels ..) fd, update_interest_of_ne _ hfd⟩
      · exact ⟨congrFun (update_channels ..) fd, update_interest_of_ne _ hfd⟩

/-- A channel whose descriptor is held by another one cannot be updated. -/
theorem updateChannel_held (hheld : p.channels (p.objects c').fd = some c) (hc : c ≠ c') :
    p.updateChannel c' = (p, false) := by
  have hne : p.channels (p.objects c').fd ≠ some c' := by
    rw [hheld]
    exact fun heq => hc (Option.some.inj heq)
  simp only [updateChannel]
  split
  · exact if_pos (by rw [hheld]; rfl)
  · exact if_pos hne
  · exact if_pos hne

private theorem removeChannel_objects_of_ne (hc : c ≠ c') :
    (p.removeChannel c').objects c = p.objects c := by
  simp only [removeChannel]
  split
  · rfl
  · split
    · rfl
    · rw [setIndex_objects_of_ne hc, update_objects]
    · exact Function.update_of_ne hc ..

private theorem removeChannel_entries_of_ne (hfd : fd ≠ (p.objects c).fd) :
    (p.removeChannel c).channels fd = p.channels fd ∧
      (p.removeChannel c).interest fd = p.interest fd := by
  simp only [removeChannel]
  split
  · exact ⟨rfl, rfl⟩
  · split
    · exact ⟨rfl, rfl⟩
    · refine ⟨?_, update_interest_of_ne _ hfd⟩
      rw [setIndex, update_channels]
      exact Function.update_of_ne hfd ..
    · exact ⟨Function.update_of_ne hfd .., rfl⟩

private theorem remove_objects_of_ne (hc : c ≠ c') : (p.remove c').objects c = p.objects c := by
  unfold remove
  split
  · exact removeChannel_objects_of_ne hc
  · rfl

/-- What another channel does leaves the object of this one alone. -/
theorem operate_objects_of_ne (hc : c ≠ c') (op : ChannelOp) :
    (p.operate c' op).objects c = p.objects c := by
  have hupdate : ∀ events, ((p.setEvents c' events).updateChannel c').1.objects c = p.objects c := by
    intro events
    rw [updateChannel_objects_of_ne hc]
    exact Function.update_of_ne hc ..
  cases op with
  | remove => exact remove_objects_of_ne hc
  | enableReading | disableReading | enableWriting | disableWriting | disableAll =>
    exact hupdate _

/-- What another channel does leaves the entries of this one alone while it holds its
descriptor. -/
theorem operate_entries_of_ne (hc : c ≠ c') (hheld : p.channels (p.objects c).fd = some c)
    (op : ChannelOp) :
    (p.operate c' op).channels (p.objects c).fd = some c ∧
      (p.operate c' op).interest (p.objects c).fd = p.interest (p.objects c).fd := by
  have hupdate : ∀ events,
      ((p.setEvents c' events).updateChannel c').1.channels (p.objects c).fd = some c ∧
        ((p.setEvents c' events).updateChannel c').1.interest (p.objects c).fd =
          p.interest (p.objects c).fd := by
    intro events
    have hobject : ((p.setEvents c' events).objects c').fd = (p.objects c').fd := by
      rw [setEvents_objects]
    by_cases hfd : (p.objects c).fd = (p.objects c').fd
    · rw [updateChannel_held (c := c) (by rw [hobject, ← hfd]; exact hheld) hc]
      exact ⟨hheld, rfl⟩
    · have hother := updateChannel_entries_of_ne (p := p.setEvents c' events) (c := c')
        (by rw [hobject]; exact hfd)
      exact ⟨hother.1.trans hheld, hother.2⟩
  cases op with
  | enableReading | disableReading | enableWriting | disableWriting | disableAll =>
    exact hupdate _
  | remove =>
    change (p.remove c').channels _ = _ ∧ (p.remove c').interest _ = _
    by_cases hfd : (p.objects c).fd = (p.objects c').fd
    · have hne : p.channels (p.objects c').fd ≠ some c' := by
        rw [← hfd, hheld]
        exact fun heq => hc (Option.some.inj heq)
      rw [remove_of_ne (Or.inl hne)]
      exact ⟨hheld, rfl⟩
    · unfold remove
      split
      · have hother := removeChannel_entries_of_ne (p := p) (c := c') hfd
        exact ⟨hother.1.trans hheld, hother.2⟩
      · exact ⟨hheld, rfl⟩

/-- The operations of another channel leave a registered one alone. -/
theorem Registered.operate (h : p.Registered c) (hc : c ≠ c') (op : ChannelOp) :
    (p.operate c' op).Registered c := by
  have hentries := operate_entries_of_ne hc h.held op
  have hobject := operate_objects_of_ne (p := p) hc op
  constructor
  · rw [hobject]
    exact h.added
  · rw [hobject]
    exact hentries.1
  · rw [hobject, hentries.2]
    exact h.watched

private theorem removeChannel_events (p : EPollPoller) (c : Nat) :
    ((p.removeChannel c).objects c).events = (p.objects c).events := by
  simp only [removeChannel]
  split
  · rfl
  · split
    · rfl
    · rw [setIndex_objects, update_objects]
    · rw [setIndex_objects]

/-- `remove` leaves the interest of the channel as it is. -/
theorem remove_events (p : EPollPoller) (c : Nat) :
    ((p.remove c).objects c).events = (p.objects c).events := by
  unfold remove
  split
  · exact p.removeChannel_events c
  · rfl

/-! ## What an update of this channel does -/

/-- `epoll_ctl` that adds or modifies leaves the descriptor watched for the channel's events. -/
theorem update_watched {operation : EpollCtl} (hop : operation ≠ .del)
    (hok : (p.update operation c).2 = true) :
    (p.update operation c).1.interest (p.objects c).fd = some (c, (p.objects c).events) := by
  cases operation with
  | del => exact absurd rfl hop
  | add | mod =>
    simp only [update] at hok ⊢
    split at hok
    · cases hok
    · next hnew =>
      rw [if_neg hnew]
      exact Function.update_self ..

/-- An added channel at its descriptor is registered once `epoll_ctl` has succeeded. -/
theorem registered_update {operation : EpollCtl} (hop : operation ≠ .del)
    (hindex : (p.objects c).index = .kAdded) (hheld : p.channels (p.objects c).fd = some c)
    (hok : (p.update operation c).2 = true) : (p.update operation c).1.Registered c where
  added := by rw [update_objects]; exact hindex
  held := by rw [update_objects, update_channels]; exact hheld
  watched := by rw [update_objects]; exact update_watched hop hok

/-- A channel that asks for something is registered once its update has succeeded. -/
theorem registered_of_updateChannel (hevents : (p.objects c).events ≠ Channel.kNoneEvent)
    (hok : (p.updateChannel c).2 = true) : (p.updateChannel c).1.Registered c := by
  have hsome : (p.objects c).isNoneEvent = false := beq_eq_false_iff_ne.mpr hevents
  have hadded : ∀ q : EPollPoller, ((q.setIndex c .kAdded).objects c).index = .kAdded := by
    intro q
    rw [setIndex_objects]
  have hfd : ∀ q : EPollPoller, ((q.setIndex c .kAdded).objects c).fd = (q.objects c).fd := by
    intro q
    rw [setIndex_objects]
  cases hindex : (p.objects c).index with
  | kNew =>
    simp only [updateChannel, hindex] at hok ⊢
    by_cases hheld : (p.channels (p.objects c).fd).isSome = true
    · rw [if_pos hheld] at hok
      cases hok
    · rw [if_neg hheld] at hok ⊢
      refine registered_update (by decide) (hadded _) ?_ hok
      rw [hfd]
      exact Function.update_self ..
  | kDeleted =>
    simp only [updateChannel, hindex] at hok ⊢
    by_cases hheld : p.channels (p.objects c).fd = some c
    · rw [if_neg (not_not.mpr hheld)] at hok ⊢
      refine registered_update (by decide) (hadded _) ?_ hok
      rw [hfd]
      exact hheld
    · rw [if_pos hheld] at hok
      cases hok
  | kAdded =>
    simp only [updateChannel, hindex, hsome, Bool.false_eq_true, if_false] at hok ⊢
    by_cases hheld : p.channels (p.objects c).fd = some c
    · rw [if_neg (not_not.mpr hheld)] at hok ⊢
      exact registered_update (by decide) hindex hheld hok
    · rw [if_pos hheld] at hok
      cases hok

/-- A registered channel can be updated at will. -/
theorem Registered.update (h : p.Registered c) {events : BitVec 32}
    (hevents : events ≠ Channel.kNoneEvent) :
    ((p.setEvents c events).updateChannel c).1.Registered c := by
  have hobject := p.setEvents_objects c events
  apply registered_of_updateChannel (by rw [hobject]; exact hevents)
  have hsome : (events == Channel.kNoneEvent) = false := beq_eq_false_iff_ne.mpr hevents
  have hheld : (p.setEvents c events).channels (p.objects c).fd = some c := h.held
  have hwatched : (p.setEvents c events).interest (p.objects c).fd =
      some (c, (p.objects c).events) := h.watched
  simp only [updateChannel, EPollPoller.update, hobject, h.added, hheld, hwatched,
    Channel.isNoneEvent, hsome, ne_eq, not_true_eq_false, Bool.false_eq_true, if_false,
    Option.isNone_some]

end EPollPoller

end ChatRoom.Net
