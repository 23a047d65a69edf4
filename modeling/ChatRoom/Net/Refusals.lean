import ChatRoom.Net.Registration

/-!
# A kernel that refuses descriptors

When `epoll_ctl` refuses to add a descriptor, the poller has already entered the channel
in its map and marked it. The records then no longer agree, but the map still holds
exactly the marked channels, and the kernel knows only channels that are marked as added.
This is enough to say that `disableAll` and `remove` undo a registration, whatever the
kernel has answered before.
-/

namespace ChatRoom.Net.EPollPoller

/-- The map holds the marked channels, each at its descriptor, and the kernel knows only
added ones. -/
structure Tracks (p : EPollPoller) : Prop where
  own : ∀ {fd c}, p.channels fd = some c ↔ (p.objects c).fd = fd ∧ (p.objects c).index ≠ .kNew
  known : ∀ {fd c events}, p.interest fd = some (c, events) →
    p.channels fd = some c ∧ (p.objects c).index = .kAdded

/-- A new channel object. -/
def create (p : EPollPoller) (c fd : Nat) : EPollPoller :=
  { p with objects := Function.update p.objects c (Channel.new fd) }

/-- The map or the kernel has the address of the channel. -/
def Present (p : EPollPoller) (c : Nat) : Prop :=
  p.channels (p.objects c).fd = some c ∨ (p.interest (p.objects c).fd).map Prod.fst = some c

instance (p : EPollPoller) (c : Nat) : Decidable (p.Present c) :=
  inferInstanceAs (Decidable (_ ∨ _))

/-- Entries that a channel may have with its mark. -/
def Holds (c : Nat) (ch : Channel) (entry : Option Nat) (kernel : Option (Nat × BitVec 32)) :
    Prop :=
  match ch.index with
  | .kNew => entry = none ∧ kernel = none
  | .kAdded => entry = some c ∧ ∀ e, kernel = some e → e.1 = c
  | .kDeleted => entry = some c ∧ kernel = none

variable {p : EPollPoller} {c : Nat}

/-- A channel is in the map exactly when it is not marked as new. -/
theorem Tracks.present_iff (h : p.Tracks) : p.Present c ↔ (p.objects c).index ≠ .kNew := by
  constructor
  · rintro (hentry | hkernel)
    · exact (h.own.mp hentry).2
    · obtain ⟨e, hk, rfl⟩ := Option.map_eq_some_iff.mp hkernel
      exact (h.own.mp (h.known hk).1).2
  · intro hindex
    exact Or.inl (h.own.mpr ⟨rfl, hindex⟩)

private theorem Holds.entry_iff {ch : Channel} {entry : Option Nat}
    {kernel : Option (Nat × BitVec 32)}
    (h : Holds c ch entry kernel) (c' : Nat) : entry = some c' ↔ c' = c ∧ ch.index ≠ .kNew := by
  unfold Holds at h
  split at h
  · next hindex => simp [h.1, hindex]
  · next hindex => simp [h.1, hindex, eq_comm]
  · next hindex => simp [h.1, hindex, eq_comm]

private theorem Holds.kernel {ch : Channel} {entry : Option Nat} {kernel : Option (Nat × BitVec 32)}
    (h : Holds c ch entry kernel) {c' : Nat} {events : BitVec 32}
    (hk : kernel = some (c', events)) : c' = c ∧ ch.index = .kAdded := by
  unfold Holds at h
  split at h
  · rw [h.2] at hk
    cases hk
  · next hindex => exact ⟨h.2 _ hk, hindex⟩
  · rw [h.2] at hk
    cases hk

/-- Entries that go with the mark, at a descriptor no other channel holds. -/
theorem Tracks.put (h : p.Tracks) {ch : Channel} {entry : Option Nat}
    {kernel : Option (Nat × BitVec 32)} (hfd : ch.fd = (p.objects c).fd)
    (hfree : p.channels ch.fd = none ∨ p.channels ch.fd = some c)
    (hholds : Holds c ch entry kernel) : (p.put c ch entry kernel).Tracks := by
  -- No other channel is entered at this descriptor.
  have hother : ∀ c', c' ≠ c → p.channels ch.fd ≠ some c' := by
    intro c' hc he
    rcases hfree with hnone | hself
    · rw [hnone] at he
      cases he
    · exact hc (Option.some.inj (he.symm.trans hself))
  constructor
  · intro fd c'
    simp only [EPollPoller.put]
    by_cases hc : c' = c
    · rw [hc, Function.update_self]
      by_cases hsame : fd = ch.fd
      · rw [hsame, Function.update_self, hholds.entry_iff]
        simp
      · rw [Function.update_of_ne hsame]
        refine iff_of_false (fun he => hsame ?_) fun he => hsame he.1.symm
        rw [hfd, (h.own.mp he).1]
    · rw [Function.update_of_ne hc]
      by_cases hsame : fd = ch.fd
      · rw [hsame, Function.update_self, hholds.entry_iff, ← h.own]
        exact iff_of_false (fun he => hc he.1) (hother c' hc)
      · rw [Function.update_of_ne hsame]
        exact h.own
  · intro fd c' events hk
    simp only [EPollPoller.put] at hk ⊢
    by_cases hsame : fd = ch.fd
    · rw [hsame, Function.update_self] at hk
      obtain ⟨rfl, hindex⟩ := hholds.kernel hk
      rw [hsame, Function.update_self, Function.update_self, hholds.entry_iff, hindex]
      simp
    · rw [Function.update_of_ne hsame] at hk
      obtain ⟨hentry, hindex⟩ := h.known hk
      have hc : c' ≠ c := by
        rintro rfl
        exact hsame (by rw [hfd, (h.own.mp hentry).1])
      rw [Function.update_of_ne hsame, Function.update_of_ne hc]
      exact ⟨hentry, hindex⟩

private theorem Tracks.setEvents (h : p.Tracks) (c : Nat) (events : BitVec 32) :
    (p.setEvents c events).Tracks := by
  have hobj : ∀ c', ((p.setEvents c events).objects c').fd = (p.objects c').fd ∧
      ((p.setEvents c events).objects c').index = (p.objects c').index := by
    intro c'
    by_cases hc : c' = c
    · rw [hc, setEvents_objects]
      exact ⟨rfl, rfl⟩
    · simp only [EPollPoller.setEvents, Function.update_of_ne hc, and_self]
  constructor
  · intro fd c'
    rw [(hobj c').1, (hobj c').2]
    exact h.own
  · intro fd c' asked hk
    rw [(hobj c').2]
    exact h.known hk

/-- The kernel knows no other channel at a descriptor that no other channel holds. -/
theorem Tracks.kernel_eq (h : p.Tracks) {fd : Nat}
    (hfree : p.channels fd = none ∨ p.channels fd = some c) {e : Nat × BitVec 32}
    (hk : p.interest fd = some e) : e.1 = c := by
  have hentry : p.channels fd = some e.1 := (h.known hk).1
  rcases hfree with hnone | hself
  · rw [hnone] at hentry
    cases hentry
  · exact Option.some.inj (hentry.symm.trans hself)

/-- A channel is entered and marked before the kernel is asked. -/
theorem Tracks.enter (h : p.Tracks)
    (hfree : p.channels (p.objects c).fd = none ∨ p.channels (p.objects c).fd = some c) :
    ({ p with channels := Function.update p.channels (p.objects c).fd (some c) }.setIndex c
      .kAdded).Tracks := by
  have hput : ({ p with channels := Function.update p.channels (p.objects c).fd (some c) }.setIndex
      c .kAdded) = p.put c { p.objects c with index := .kAdded } (some c)
        (p.interest (p.objects c).fd) := by
    simp only [setIndex, EPollPoller.put, Function.update_eq_self]
  rw [hput]
  exact h.put rfl hfree ⟨rfl, fun e hk => h.kernel_eq hfree hk⟩

/-- Whatever `epoll_ctl` is asked and answers. -/
theorem Tracks.update (h : p.Tracks) (operation : EpollCtl)
    (hentry : p.channels (p.objects c).fd = some c) (hindex : (p.objects c).index = .kAdded) :
    (p.update operation c).1.Tracks := by
  have hput : ∀ kernel, (∀ e, kernel = some e → e.1 = c) →
      { p with interest := Function.update p.interest (p.objects c).fd kernel }.Tracks := by
    intro kernel hkernel
    have heq : { p with interest := Function.update p.interest (p.objects c).fd kernel } =
        p.put c (p.objects c) (some c) kernel := by
      simp only [EPollPoller.put, ← hentry, Function.update_eq_self]
    rw [heq]
    refine h.put rfl (Or.inr hentry) ?_
    simp only [Holds, hindex, true_and]
    exact hkernel
  cases operation with
  | add | mod =>
    simp only [EPollPoller.update]
    split
    · exact h
    · apply hput
      rintro e ⟨rfl⟩
      rfl
  | del =>
    simp only [EPollPoller.update]
    split
    · exact h
    · apply hput
      rintro e ⟨⟩

/-- The mark of a channel that the kernel has let go. -/
theorem Tracks.markDeleted (h : p.Tracks) (hentry : p.channels (p.objects c).fd = some c)
    (hkernel : p.interest (p.objects c).fd = none) : (p.setIndex c .kDeleted).Tracks := by
  have hput : p.setIndex c .kDeleted =
      p.put c { p.objects c with index := .kDeleted } (some c) none := by
    simp only [setIndex, EPollPoller.put, ← hentry, ← hkernel, Function.update_eq_self]
  rw [hput]
  exact h.put rfl (Or.inr hentry) ⟨rfl, rfl⟩

private theorem update_del_interest (hdel : (p.update .del c).2 = true) :
    (p.update .del c).1.interest (p.objects c).fd = none := by
  simp only [EPollPoller.update] at hdel ⊢
  split at hdel
  · cases hdel
  · next hsome =>
    rw [if_neg hsome]
    exact Function.update_self ..

private theorem Tracks.updateChannel (h : p.Tracks) (c : Nat) : (p.updateChannel c).1.Tracks := by
  have hadd : (p.channels (p.objects c).fd = none ∨ p.channels (p.objects c).fd = some c) →
      (({ p with channels := Function.update p.channels (p.objects c).fd (some c) }.setIndex c
        .kAdded).update .add c).1.Tracks := by
    intro hfree
    apply (h.enter hfree).update
    · simp only [setIndex, Function.update_self]
    · simp only [setIndex, Function.update_self]
  simp only [EPollPoller.updateChannel]
  cases hindex : (p.objects c).index with
  | kNew =>
    simp only
    split
    · exact h
    · next hnone => exact hadd (Or.inl (Option.not_isSome_iff_eq_none.mp hnone))
  | kDeleted =>
    simp only
    split
    · exact h
    · next hentry =>
      have hentry := not_not.mp hentry
      have hkept : Function.update p.channels (p.objects c).fd (some c) = p.channels := by
        rw [← hentry, Function.update_eq_self]
      have hadded := hadd (Or.inr hentry)
      rw [hkept] at hadded
      exact hadded
  | kAdded =>
    simp only
    split
    · exact h
    · next hentry =>
      have hentry := not_not.mp hentry
      split
      · split
        · next hdel =>
          apply (h.update .del hentry hindex).markDeleted
          · rw [update_objects, update_channels, hentry]
          · rw [update_objects, update_del_interest hdel]
        · exact h.update .del hentry hindex
      · exact h.update .mod hentry hindex

/-- What `remove` does to a channel of the map that asks for nothing. -/
theorem Tracks.remove_eq (h : p.Tracks) (hentry : p.channels (p.objects c).fd = some c)
    (hevents : (p.objects c).events = Channel.kNoneEvent) :
    p.remove c = p.put c { p.objects c with index := .kNew } none none := by
  have hnone : (p.objects c).isNoneEvent = true := by
    rw [Channel.isNoneEvent, hevents, beq_self_eq_true]
  rw [remove, if_pos hnone, removeChannel, if_neg (by simp [hentry, hnone])]
  cases hindex : (p.objects c).index with
  | kNew => exact absurd hindex (h.own.mp hentry).2
  | kAdded =>
    simp only [EPollPoller.update]
    cases hkernel : p.interest (p.objects c).fd with
    | none =>
      simp only [Option.isNone_none, if_true, setIndex, EPollPoller.put]
      rw [← hkernel, Function.update_eq_self]
    | some e =>
      simp only [Option.isNone_some, Bool.false_eq_true, if_false, setIndex, EPollPoller.put]
  | kDeleted =>
    have hkernel : p.interest (p.objects c).fd = none := by
      cases hk : p.interest (p.objects c).fd with
      | none => rfl
      | some e =>
        have hadded := (h.known hk).2
        rw [h.kernel_eq (Or.inr hentry) hk, hindex] at hadded
        cases hadded
    simp only [setIndex, EPollPoller.put]
    rw [← hkernel, Function.update_eq_self]

/-- `remove` keeps map and marks together. -/
theorem Tracks.remove (h : p.Tracks) (c : Nat) : (p.remove c).Tracks := by
  by_cases hin : p.channels (p.objects c).fd = some c ∧ (p.objects c).events = Channel.kNoneEvent
  · rw [h.remove_eq hin.1 hin.2]
    exact h.put rfl (Or.inr hin.1) ⟨rfl, rfl⟩
  · rw [remove_of_ne (not_and_or.mp hin)]
    exact h

/-- A channel operation keeps map and marks together, whatever the kernel refuses. -/
theorem Tracks.operate (h : p.Tracks) (c : Nat) (op : ChannelOp) : (p.operate c op).Tracks := by
  cases op with
  | remove => exact h.remove c
  | enableReading | disableReading | enableWriting | disableWriting | disableAll =>
    exact (h.setEvents c _).updateChannel c

/-- Closing a descriptor keeps map and marks together. -/
theorem Tracks.close (h : p.Tracks) (fd : Nat) : (p.close fd).Tracks := by
  rw [EPollPoller.close]
  split
  · exact h
  · refine ⟨h.own, fun {fd' c events} hk => ?_⟩
    dsimp only at hk ⊢
    by_cases hsame : fd' = fd
    · rw [hsame, Function.update_self] at hk
      cases hk
    · rw [Function.update_of_ne hsame] at hk
      exact h.known hk

/-- A new poller knows no channel. -/
theorem tracks_new (fds : Nat → Nat) : (new fun c => Channel.new (fds c)).Tracks where
  own := by
    intro fd c
    exact iff_of_false (Option.some_ne_none c ∘ Eq.symm) fun hmarked => hmarked.2 rfl
  known := by
    intro fd c events hk
    cases hk

/-- A channel object is made at an address that no registered channel has. -/
theorem Tracks.create (h : p.Tracks) (hindex : (p.objects c).index = .kNew) (fd : Nat) :
    (p.create c fd).Tracks := by
  constructor
  · intro fd' c'
    simp only [EPollPoller.create]
    by_cases hc : c' = c
    · rw [hc, Function.update_self, h.own]
      exact iff_of_false (fun hmarked => hmarked.2 hindex) fun hmarked => hmarked.2 rfl
    · rw [Function.update_of_ne hc]
      exact h.own
  · intro fd' c' events hk
    simp only [EPollPoller.create] at hk ⊢
    obtain ⟨hentry, hadded⟩ := h.known hk
    have hc : c' ≠ c := by
      rintro rfl
      rw [hindex] at hadded
      cases hadded
    rw [Function.update_of_ne hc]
    exact ⟨hentry, hadded⟩

/-- `disableAll` and `remove` take a channel out, whatever the kernel has answered. -/
theorem Tracks.index_disableAll_remove (h : p.Tracks) (c : Nat) :
    (((p.disableAll c).1.remove c).objects c).index = .kNew := by
  have htracks : (p.disableAll c).1.Tracks := h.operate c .disableAll
  have hevents : ((p.disableAll c).1.objects c).events = Channel.kNoneEvent :=
    setEvents_updateChannel_events p c Channel.kNoneEvent
  by_cases hentry : (p.disableAll c).1.channels ((p.disableAll c).1.objects c).fd = some c
  · rw [htracks.remove_eq hentry hevents]
    simp only [EPollPoller.put, Function.update_self]
  · rw [remove_of_ne (Or.inl hentry)]
    by_contra hindex
    exact hentry (htracks.own.mpr ⟨rfl, hindex⟩)

private theorem fd_updateChannel (p : EPollPoller) (c : Nat) :
    ((p.updateChannel c).1.objects c).fd = (p.objects c).fd := by
  obtain ⟨index, hobject⟩ := p.updateChannel_objects c
  rw [hobject]

private theorem fd_removeChannel (p : EPollPoller) (c : Nat) :
    ((p.removeChannel c).objects c).fd = (p.objects c).fd := by
  simp only [removeChannel]
  split
  · rfl
  · split
    · rfl
    · rw [setIndex_objects, update_objects]
    · rw [setIndex_objects]

/-- No operation changes the descriptor of its channel. -/
theorem fd_operate (p : EPollPoller) (c : Nat) (op : ChannelOp) :
    ((p.operate c op).objects c).fd = (p.objects c).fd := by
  have hupdate : ∀ events, (((p.setEvents c events).updateChannel c).1.objects c).fd =
      (p.objects c).fd := by
    intro events
    rw [fd_updateChannel, setEvents_objects]
  cases op with
  | enableReading | disableReading | enableWriting | disableWriting | disableAll => exact hupdate _
  | remove =>
    simp only [operate, remove]
    split
    · exact fd_removeChannel p c
    · rfl

end ChatRoom.Net.EPollPoller
