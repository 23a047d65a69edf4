import ChatRoom.Core.Run
import ChatRoom.Core.SwapRemove
import ChatRoom.Net.PollPoller

/-!
# The slots of PollPoller

The array has one slot for each channel in the map, in the order of a list of addresses, and
removal takes the last address into the hole as it takes the last slot. What is never undone
is the negation of a descriptor, and neither is the index of a removed channel; so a channel
that has lost its interest is not watched again.
-/

namespace ChatRoom.Net

open ChatRoom.Core

/-- The events a channel asks for after an operation. -/
def ChannelOp.apply : ChannelOp → BitVec 32 → BitVec 32
  | .enableReading, events => events ||| Channel.kReadEvent
  | .disableReading, events => events &&& ~~~Channel.kReadEvent
  | .enableWriting, events => events ||| Channel.kWriteEvent
  | .disableWriting, events => events &&& ~~~Channel.kWriteEvent
  | .disableAll, _ => Channel.kNoneEvent
  | .remove, events => events

namespace PollPoller

/-- The slot that a channel is to have. -/
def slot (ch : SlotChannel) : PollFd :=
  ⟨if ch.isNoneEvent then -ch.fd - 1 else ch.fd, ch.events.setWidth 16, 0⟩

private theorem fd_slot_none {ch : SlotChannel} (h : ch.isNoneEvent = true) :
    (slot ch).fd = -ch.fd - 1 := by
  rw [slot, h]
  rfl

private theorem fd_slot_some {ch : SlotChannel} (h : ch.isNoneEvent = false) :
    (slot ch).fd = ch.fd := by
  rw [slot, h]
  rfl

/-- The poller watches what its channels ask for. -/
structure Watches (p : PollPoller) : Prop where
  size : p.channels.entries.length = p.pollfds.length
  slots : ∀ fd c, p.channels.get? fd = some c →
    fd = (p.objects c).fd ∧ 0 ≤ (p.objects c).index ∧
      ∃ pfd, p.pollfds[(p.objects c).index.toNat]? = some pfd ∧
        pfd.fd = (slot (p.objects c)).fd ∧ pfd.events = (slot (p.objects c)).events
  watched : ∀ fd : Nat, (∃ pfd ∈ p.pollfds, pfd.fd = fd) ↔
    ∃ c, (p.objects c).fd = fd ∧ (p.objects c).isNoneEvent = false

/-- Interest is given to a channel in its first call and never again once it has none. -/
def Allowed (p : PollPoller) (c : Nat) (op : ChannelOp) : Prop :=
  op = .remove ∨
    if (p.objects c).index < 0 then op.apply (p.objects c).events ≠ Channel.kNoneEvent
    else (p.objects c).events = Channel.kNoneEvent →
      op.apply (p.objects c).events = Channel.kNoneEvent

/-- The channels of the map, in the order of their slots. -/
structure Slots (p : PollPoller) (owners : List Nat) : Prop where
  pollfds : p.pollfds = owners.map fun c => slot (p.objects c)
  index : ∀ (i c : Nat), owners[i]? = some c → (p.objects c).index = i
  entries : ∀ fd c, p.channels.get? fd = some c ↔ c ∈ owners ∧ fd = (p.objects c).fd
  size : p.channels.entries.length = owners.length
  idle : ∀ c, c ∉ owners → (p.objects c).events = Channel.kNoneEvent
  distinct : Function.Injective fun c => (p.objects c).fd

section Slots

variable {p : PollPoller} {owners : List Nat}

private theorem slots_new {fd : Nat → Nat} (h : Function.Injective fd) : Slots (new fd) [] where
  pollfds := rfl
  index := by
    intro i c hc
    cases hc
  entries := by
    intro fd c
    constructor
    · intro hget
      cases hget
    · rintro ⟨hmem, -⟩
      cases hmem
  size := rfl
  idle := fun _ _ => rfl
  distinct := h

private theorem Slots.nodup (h : Slots p owners) : owners.Nodup := by
  rw [List.nodup_iff_injective_get]
  intro i j hij
  have hi := h.index i owners[i] (List.getElem?_eq_getElem i.isLt)
  have hj := h.index j owners[j] (List.getElem?_eq_getElem j.isLt)
  rw [List.get_eq_getElem, List.get_eq_getElem] at hij
  rw [Fin.getElem_fin, hij] at hi
  rw [Fin.getElem_fin, hi] at hj
  exact Fin.ext (Int.ofNat_inj.mp hj)

private theorem Slots.length_pollfds (h : Slots p owners) : p.pollfds.length = owners.length := by
  rw [h.pollfds, List.length_map]

private theorem Slots.getElem?_pollfds (h : Slots p owners) {i c : Nat} (hi : owners[i]? = some c) :
    p.pollfds[i]? = some (slot (p.objects c)) := by
  rw [h.pollfds, List.getElem?_map, hi, Option.map_some]

private theorem Slots.watches (h : Slots p owners) : Watches p where
  size := h.size.trans h.length_pollfds.symm
  slots := by
    intro fd c hget
    obtain ⟨hmem, hfd⟩ := (h.entries fd c).mp hget
    obtain ⟨i, hi⟩ := List.mem_iff_getElem?.mp hmem
    have hindex := h.index i c hi
    refine ⟨hfd, by omega, slot (p.objects c), ?_, rfl, rfl⟩
    rw [hindex, Int.toNat_natCast, h.getElem?_pollfds hi]
  watched := by
    intro fd
    rw [h.pollfds]
    constructor
    · rintro ⟨pfd, hpfd, hfd⟩
      obtain ⟨c, -, rfl⟩ := List.mem_map.mp hpfd
      cases hnone : (p.objects c).isNoneEvent with
      | true =>
        rw [fd_slot_none hnone] at hfd
        omega
      | false =>
        rw [fd_slot_some hnone] at hfd
        exact ⟨c, Int.ofNat_inj.mp hfd, hnone⟩
    · rintro ⟨c, rfl, hsome⟩
      have hmem : c ∈ owners := by
        by_contra hnot
        rw [SlotChannel.isNoneEvent, h.idle c hnot] at hsome
        cases hsome
      exact ⟨slot (p.objects c), List.mem_map_of_mem hmem, fd_slot_some hsome⟩

private theorem Slots.not_mem_of_index_neg (h : Slots p owners) {c : Nat}
    (hindex : (p.objects c).index < 0) : c ∉ owners := by
  intro hmem
  obtain ⟨i, hi⟩ := List.mem_iff_getElem?.mp hmem
  rw [h.index i c hi] at hindex
  omega

/-- Nothing is in the map for the descriptor of a channel that is not. -/
theorem Slots.get?_eq_none (h : Slots p owners) {c : Nat} (hc : c ∉ owners) :
    p.channels.get? (p.objects c).fd = none := by
  cases hget : p.channels.get? (p.objects c).fd with
  | none => rfl
  | some c' =>
    obtain ⟨hmem, hfd⟩ := (h.entries _ _).mp hget
    exact absurd (h.distinct (Int.ofNat_inj.mp hfd) ▸ hmem) hc

end Slots

/-! ## One channel changes -/

section Change

variable {p : PollPoller} {owners : List Nat} {c i : Nat} {ch : SlotChannel}

private theorem fd_update (events : BitVec 32) (index : Int) (c' : Nat) :
    (Function.update p.objects c ⟨(p.objects c).fd, events, index⟩ c').fd =
      (p.objects c').fd := by
  by_cases hc : c' = c
  · subst hc
    rw [Function.update_self]
  · rw [Function.update_of_ne hc]

private theorem events_update (index : Int) (c' : Nat) :
    (Function.update p.objects c ⟨(p.objects c).fd, (p.objects c).events, index⟩ c').events =
      (p.objects c').events := by
  by_cases hc : c' = c
  · subst hc
    rw [Function.update_self]
  · rw [Function.update_of_ne hc]

private theorem map_slot_of_not_mem (hc : c ∉ owners) :
    (owners.map fun c' => slot (Function.update p.objects c ch c')) =
      owners.map fun c' => slot (p.objects c') := by
  apply List.map_congr_left
  intro c' hc'
  rw [Function.update_of_ne (ne_of_mem_of_not_mem hc' hc)]

private theorem map_slot_at (hl : owners.Nodup) (hi : owners[i]? = some c) :
    (owners.map fun c' => slot (Function.update p.objects c ch c')) =
      (owners.map fun c' => slot (p.objects c')).set i (slot ch) := by
  have hlt := (List.getElem?_eq_some_iff.mp hi).1
  ext1 j
  rw [List.getElem?_map, List.getElem?_set, List.length_map]
  by_cases hij : i = j
  · subst hij
    rw [if_pos rfl, if_pos hlt, hi, Option.map_some, Function.update_self]
  · rw [if_neg hij, List.getElem?_map]
    cases hj : owners[j]? with
    | none => rfl
    | some c' =>
      have hne : c' ≠ c := by
        rintro rfl
        exact hij ((List.getElem?_inj hlt hl).mp (hi.trans hj.symm))
      rw [Option.map_some, Option.map_some, Function.update_of_ne hne]

end Change

/-! ## updateChannel -/

section Update

variable {p : PollPoller} {owners : List Nat} {c i : Nat} {events : BitVec 32}

private theorem objects_setEvents (p : PollPoller) (c : Nat) (events : BitVec 32) :
    (p.setEvents c events).objects c = ⟨(p.objects c).fd, events, (p.objects c).index⟩ := by
  simp only [setEvents, Function.update_self]

private theorem updateChannel_new (hindex : (p.objects c).index < 0)
    (hget : p.channels.get? (p.objects c).fd = none) :
    ((p.setEvents c events).updateChannel c).1 =
      ⟨Function.update p.objects c ⟨(p.objects c).fd, events, p.pollfds.length⟩,
        p.channels.insert (p.objects c).fd c,
        p.pollfds ++ [⟨(p.objects c).fd, events.setWidth 16, 0⟩]⟩ := by
  rw [updateChannel, objects_setEvents]
  simp only [if_pos hindex, setIndex, setEvents, Function.update_self, Function.update_idem,
    List.length_append, List.length_singleton, Int.natCast_add, Int.natCast_one,
    Int.add_sub_cancel, hget, Option.isSome_none, Bool.false_eq_true, if_false]

private theorem updateChannel_old (hindex : (p.objects c).index = i)
    (hget : p.channels.get? (p.objects c).fd = some c) {pfd : PollFd}
    (hslot : p.pollfds[i]? = some pfd) :
    ((p.setEvents c events).updateChannel c).1 =
      ⟨Function.update p.objects c ⟨(p.objects c).fd, events, i⟩, p.channels,
        p.pollfds.set i ⟨if events = Channel.kNoneEvent then -(p.objects c).fd - 1 else pfd.fd,
          events.setWidth 16, 0⟩⟩ := by
  have hnat : ¬ (i : Int) < 0 := by omega
  rw [updateChannel, objects_setEvents, hindex]
  simp only [if_neg hnat, setEvents, hget, ne_eq, not_true_eq_false, if_false, Int.toNat_natCast,
    hslot, SlotChannel.isNoneEvent, beq_iff_eq, hindex]

private theorem updateChannel_removed (hindex : 0 ≤ (p.objects c).index)
    (hget : p.channels.get? (p.objects c).fd = none) :
    ((p.setEvents c events).updateChannel c).1 = p.setEvents c events := by
  rw [updateChannel, objects_setEvents]
  simp only [if_neg (Int.not_lt.mpr hindex), setEvents, hget, ne_eq, reduceCtorEq,
    not_false_eq_true, if_true]

private theorem setEvents_self (p : PollPoller) (c : Nat) :
    p.setEvents c (p.objects c).events = p := by
  rw [setEvents, Function.update_eq_self]

/-- A new channel with interest gets the next slot. -/
theorem Slots.push (h : Slots p owners) (hc : c ∉ owners) (hevents : events ≠ Channel.kNoneEvent) :
    Slots ⟨Function.update p.objects c ⟨(p.objects c).fd, events, p.pollfds.length⟩,
      p.channels.insert (p.objects c).fd c,
      p.pollfds ++ [⟨(p.objects c).fd, events.setWidth 16, 0⟩]⟩ (owners ++ [c]) where
  pollfds := by
    have hslot : slot ⟨(p.objects c).fd, events, p.pollfds.length⟩ =
        ⟨(p.objects c).fd, events.setWidth 16, 0⟩ := by
      rw [slot, SlotChannel.isNoneEvent, beq_eq_false_iff_ne.mpr hevents]
      rfl
    dsimp only
    rw [List.map_append, List.map_singleton, map_slot_of_not_mem hc, Function.update_self, hslot,
      ← h.pollfds]
  index := by
    intro i c' hi
    have hlen := h.length_pollfds
    rw [List.getElem?_append] at hi
    split at hi
    · have hne : c' ≠ c := ne_of_mem_of_not_mem (List.mem_of_getElem? hi) hc
      dsimp only
      rw [Function.update_of_ne hne]
      exact h.index i c' hi
    · next hge =>
      obtain ⟨hi', rfl⟩ := List.getElem?_eq_some_iff.mp hi
      rw [List.length_singleton] at hi'
      simp only [List.getElem_singleton, Function.update_self]
      omega
  entries := by
    intro fd c'
    have hnone := h.get?_eq_none hc
    dsimp only
    rw [SortedMap.get?_insert, hnone, Option.getD_none, fd_update, List.mem_append,
      List.mem_singleton]
    by_cases hfd : fd = (p.objects c).fd
    · rw [if_pos hfd, Option.some.injEq]
      constructor
      · rintro rfl
        exact ⟨Or.inr rfl, hfd⟩
      · rintro ⟨-, heq⟩
        exact h.distinct (Int.ofNat_inj.mp (hfd.symm.trans heq))
    · rw [if_neg hfd, h.entries]
      constructor
      · rintro ⟨hmem, heq⟩
        exact ⟨Or.inl hmem, heq⟩
      · rintro ⟨hmem | rfl, heq⟩
        · exact ⟨hmem, heq⟩
        · exact absurd heq hfd
  size := by
    rw [SortedMap.length_insert _ (h.get?_eq_none hc), h.size, List.length_append,
      List.length_singleton]
  idle := by
    intro c' hc'
    rw [List.mem_append, List.mem_singleton, not_or] at hc'
    dsimp only
    rw [Function.update_of_ne hc'.2]
    exact h.idle c' hc'.1
  distinct := by
    intro c' c'' heq
    simp only [fd_update] at heq
    exact h.distinct heq

/-- A channel keeps its slot, as long as interest is not given back. -/
theorem Slots.keep (h : Slots p owners) (hi : owners[i]? = some c)
    (hevents : (p.objects c).events = Channel.kNoneEvent → events = Channel.kNoneEvent) :
    Slots ⟨Function.update p.objects c ⟨(p.objects c).fd, events, i⟩, p.channels,
      p.pollfds.set i ⟨if events = Channel.kNoneEvent then -(p.objects c).fd - 1
        else (slot (p.objects c)).fd, events.setWidth 16, 0⟩⟩ owners where
  pollfds := by
    have hslot : slot ⟨(p.objects c).fd, events, i⟩ =
        ⟨if events = Channel.kNoneEvent then -(p.objects c).fd - 1 else (slot (p.objects c)).fd,
          events.setWidth 16, 0⟩ := by
      by_cases hnone : events = Channel.kNoneEvent
      · simp only [slot, SlotChannel.isNoneEvent, hnone, beq_self_eq_true, if_true]
      · have hold : (p.objects c).isNoneEvent = false :=
          beq_eq_false_iff_ne.mpr fun heq => hnone (hevents heq)
        rw [if_neg hnone, fd_slot_some hold, slot, SlotChannel.isNoneEvent,
          beq_eq_false_iff_ne.mpr hnone]
        rfl
    dsimp only
    rw [map_slot_at h.nodup hi, hslot, ← h.pollfds]
  index := by
    intro j c' hj
    by_cases hc : c' = c
    · subst hc
      have hij := (List.getElem?_inj (List.getElem?_eq_some_iff.mp hi).1 h.nodup).mp
        (hi.trans hj.symm)
      simp only [Function.update_self, hij]
    · dsimp only
      rw [Function.update_of_ne hc]
      exact h.index j c' hj
  entries := by
    intro fd c'
    dsimp only
    rw [fd_update]
    exact h.entries fd c'
  size := h.size
  idle := by
    intro c' hc'
    have hne : c' ≠ c := fun heq => hc' (heq ▸ List.mem_of_getElem? hi)
    dsimp only
    rw [Function.update_of_ne hne]
    exact h.idle c' hc'
  distinct := by
    intro c' c'' heq
    simp only [fd_update] at heq
    exact h.distinct heq

end Update

/-! ## removeChannel -/

section Remove

variable {p : PollPoller} {owners : List Nat} {c i : Nat}

/-- The descriptor is found again in a slot that is asleep. -/
theorem fd_of_slot (ch : SlotChannel) :
    (if (slot ch).fd < 0 then -(slot ch).fd - 1 else (slot ch).fd) = ch.fd := by
  cases hnone : ch.isNoneEvent with
  | true =>
    rw [fd_slot_none hnone]
    omega
  | false =>
    rw [fd_slot_some hnone]
    omega

/-- Without the channel, and with the last one in its place. -/
theorem Slots.removed (h : Slots p owners) (hi : owners[i]? = some c)
    (hnone : (p.objects c).isNoneEvent = true) {objects : Nat → SlotChannel}
    (hfd : ∀ c', (objects c').fd = (p.objects c').fd)
    (hevents : ∀ c', (objects c').events = (p.objects c').events)
    (hindex : ∀ j c' : Nat, (swapRemove owners i)[j]? = some c' → (objects c').index = j) :
    Slots ⟨objects, p.channels.erase (p.objects c).fd, swapRemove p.pollfds i⟩
      (swapRemove owners i) where
  pollfds := by
    have hslot : (fun c' => slot (objects c')) = fun c' => slot (p.objects c') := by
      funext c'
      rw [slot, slot, SlotChannel.isNoneEvent, SlotChannel.isNoneEvent, hfd, hevents]
    dsimp only
    rw [hslot, map_swapRemove, h.pollfds]
  index := hindex
  entries := by
    intro fd c'
    dsimp only
    rw [SortedMap.get?_erase, mem_swapRemove h.nodup hi, hfd]
    by_cases heq : fd = (p.objects c).fd
    · rw [if_pos heq]
      constructor
      · intro hget
        cases hget
      · rintro ⟨⟨-, hne⟩, heq'⟩
        exact absurd (h.distinct (Int.ofNat_inj.mp (heq'.symm.trans heq))) hne
    · rw [if_neg heq, h.entries]
      constructor
      · rintro ⟨hmem, heq'⟩
        refine ⟨⟨hmem, ?_⟩, heq'⟩
        rintro rfl
        exact heq heq'
      · rintro ⟨⟨hmem, -⟩, heq'⟩
        exact ⟨hmem, heq'⟩
  size := by
    have hget := (h.entries _ c).mpr ⟨List.mem_of_getElem? hi, rfl⟩
    have hlen := SortedMap.length_erase hget
    rw [h.size] at hlen
    rw [length_swapRemove]
    exact Nat.eq_sub_of_add_eq hlen
  idle := by
    intro c' hc'
    rw [mem_swapRemove h.nodup hi, not_and_or, not_not] at hc'
    dsimp only
    rw [hevents]
    rcases hc' with hc' | rfl
    · exact h.idle c' hc'
    · exact beq_iff_eq.mp hnone
  distinct := by
    intro c' c'' heq
    simp only [hfd] at heq
    exact h.distinct heq

/-- Only the last slot is that of the last channel. -/
theorem Slots.ne_atEnd (h : Slots p owners) {j c' atEnd : Nat} (hj : owners[j]? = some c')
    (hbefore : j + 1 < owners.length) (hatEnd : owners.getLast? = some atEnd) : c' ≠ atEnd := by
  rintro rfl
  rw [List.getLast?_eq_getElem?] at hatEnd
  have hsame := (List.getElem?_inj (by omega) h.nodup).mp (hj.trans hatEnd.symm)
  omega

/-- The last channel is told its new place, and the others keep theirs. -/
theorem Slots.index_moved (h : Slots p owners) (hlt : i < owners.length) {atEnd : Nat}
    (hatEnd : owners.getLast? = some atEnd) (j c' : Nat) (hj : (swapRemove owners i)[j]? = some c') :
    (Function.update p.objects atEnd
      ⟨(p.objects atEnd).fd, (p.objects atEnd).events, i⟩ c').index = j := by
  rw [getElem?_swapRemove hlt] at hj
  split at hj
  · next hbefore =>
    split at hj
    · next hji =>
      rw [hatEnd] at hj
      cases hj
      rw [Function.update_self, hji]
    · rw [Function.update_of_ne (h.ne_atEnd hj hbefore hatEnd)]
      exact h.index j c' hj
  · cases hj

/-- Without the last channel all others keep their places. -/
theorem Slots.index_popped (h : Slots p owners) (hend : i + 1 = owners.length) (j c' : Nat)
    (hj : (swapRemove owners i)[j]? = some c') : (p.objects c').index = j := by
  rw [getElem?_swapRemove (by omega)] at hj
  split at hj
  · rw [if_neg (by omega)] at hj
    exact h.index j c' hj
  · cases hj

private theorem Slots.removeChannel (h : Slots p owners) (hi : owners[i]? = some c)
    (hnone : (p.objects c).isNoneEvent = true) :
    ∃ p', p.removeChannel c = some p' ∧ Slots p' (swapRemove owners i) := by
  have hlt := (List.getElem?_eq_some_iff.mp hi).1
  have hlen := h.length_pollfds
  have hget := (h.entries _ c).mpr ⟨List.mem_of_getElem? hi, rfl⟩
  have hindex := h.index i c hi
  have hin : ¬ (0 > (i : Int) ∨ (i : Int) ≥ p.pollfds.length) := by omega
  have hin' : ¬ (0 > (i : Int) ∧ (i : Int) ≥ p.pollfds.length) := by omega
  rw [PollPoller.removeChannel]
  simp only [hget, hnone, ne_eq, not_true_eq_false, Bool.not_true, Bool.false_eq_true, or_false,
    if_false, hindex, if_neg hin, if_neg hin', Int.toNat_natCast]
  by_cases hend : i + 1 = owners.length
  · have hpop : p.pollfds.dropLast = swapRemove p.pollfds i := (swapRemove_last (by omega)).symm
    rw [if_pos (by omega), hpop]
    exact ⟨_, rfl, h.removed hi hnone (fun _ => rfl) (fun _ => rfl) (h.index_popped hend)⟩
  · obtain ⟨atEnd, hatEnd⟩ : ∃ atEnd, owners.getLast? = some atEnd := by
      rw [List.getLast?_eq_getElem?]
      exact ⟨_, List.getElem?_eq_getElem (by omega)⟩
    have hback : p.pollfds.getLast? = some (slot (p.objects atEnd)) := by
      rw [h.pollfds, List.getLast?_map, hatEnd, Option.map_some]
    have hfound : (p.channels.erase (p.objects c).fd).get? (p.objects atEnd).fd = some atEnd := by
      have hne : ((p.objects atEnd).fd : Int) ≠ (p.objects c).fd := fun heq =>
        h.ne_atEnd hi (by omega) hatEnd (h.distinct (Int.ofNat_inj.mp heq)).symm
      rw [SortedMap.get?_erase, if_neg hne]
      exact (h.entries _ _).mpr ⟨List.mem_of_getLast? hatEnd, rfl⟩
    have hswap : (p.pollfds.set i (slot (p.objects atEnd))).dropLast = swapRemove p.pollfds i := by
      rw [swapRemove, hback]
    rw [if_neg (by omega), hback, Option.bind_some, fd_of_slot, hfound, Option.map_some, hswap]
    exact ⟨_, rfl, h.removed hi hnone (fd_update _ _) (events_update _) (h.index_moved hlt hatEnd)⟩

private theorem Slots.remove (h : Slots p owners) (c : Nat) :
    ∃ p' owners', p.remove c = some p' ∧ Slots p' owners' := by
  rw [PollPoller.remove]
  cases hnone : (p.objects c).isNoneEvent with
  | false =>
    rw [if_neg Bool.false_ne_true]
    exact ⟨p, owners, rfl, h⟩
  | true =>
    rw [if_pos rfl]
    by_cases hc : c ∈ owners
    · obtain ⟨i, hi⟩ := List.mem_iff_getElem?.mp hc
      obtain ⟨p', hremove, hslots⟩ := h.removeChannel hi hnone
      exact ⟨p', _, hremove, hslots⟩
    · refine ⟨p, owners, ?_, h⟩
      rw [PollPoller.removeChannel]
      simp only [h.get?_eq_none hc, ne_eq, reduceCtorEq, not_false_eq_true, true_or, if_true]

end Remove

/-! ## One call -/

section Call

variable {p : PollPoller} {owners : List Nat} {c : Nat} {op : ChannelOp}

private theorem operate_eq (hop : op ≠ .remove) :
    p.operate c op = some ((p.setEvents c (op.apply (p.objects c).events)).updateChannel c).1 := by
  cases op with
  | remove => exact absurd rfl hop
  | enableReading => rfl
  | disableReading => rfl
  | enableWriting => rfl
  | disableWriting => rfl
  | disableAll => rfl

/-- A channel with a slot in the array. -/
theorem Slots.operate_old (h : Slots p owners) {i : Nat} (hi : owners[i]? = some c)
    (hop : op ≠ .remove) :
    p.operate c op = some ⟨Function.update p.objects c
        ⟨(p.objects c).fd, op.apply (p.objects c).events, i⟩, p.channels,
      p.pollfds.set i ⟨if op.apply (p.objects c).events = Channel.kNoneEvent
        then -(p.objects c).fd - 1 else (slot (p.objects c)).fd,
        (op.apply (p.objects c).events).setWidth 16, 0⟩⟩ := by
  have hget := (h.entries _ c).mpr ⟨List.mem_of_getElem? hi, rfl⟩
  rw [operate_eq hop, updateChannel_old (h.index i c hi) hget (h.getElem?_pollfds hi)]

private theorem Slots.operate (h : Slots p owners) (hallowed : Allowed p c op) :
    ∃ p' owners', p.operate c op = some p' ∧ Slots p' owners' := by
  by_cases hop : op = .remove
  · rw [hop]
    exact h.remove c
  · replace hallowed := hallowed.resolve_left hop
    by_cases hc : c ∈ owners
    · obtain ⟨i, hi⟩ := List.mem_iff_getElem?.mp hc
      rw [if_neg (by rw [h.index i c hi]; omega)] at hallowed
      exact ⟨_, owners, h.operate_old hi hop, h.keep hi hallowed⟩
    · have hget := h.get?_eq_none hc
      rw [operate_eq hop]
      by_cases hindex : (p.objects c).index < 0
      · rw [if_pos hindex] at hallowed
        rw [updateChannel_new hindex hget]
        exact ⟨_, _, rfl, h.push hc hallowed⟩
      · rw [if_neg hindex] at hallowed
        have hsame : op.apply (p.objects c).events = (p.objects c).events := by
          rw [hallowed (h.idle c hc), h.idle c hc]
        rw [hsame, updateChannel_removed (Int.not_lt.mp hindex) hget, setEvents_self]
        exact ⟨p, owners, rfl, h⟩

/-- A new channel without interest gets a slot that is awake. -/
theorem Slots.not_watches_new (h : Slots p owners) (hindex : (p.objects c).index < 0)
    (hop : op ≠ .remove) (hnone : op.apply (p.objects c).events = Channel.kNoneEvent)
    {p' : PollPoller} (hp' : p.operate c op = some p') : ¬ Watches p' := by
  have hget := h.get?_eq_none (h.not_mem_of_index_neg hindex)
  rw [operate_eq hop, updateChannel_new hindex hget, hnone] at hp'
  cases hp'
  intro hwatches
  obtain ⟨-, -, pfd, hpfd, hfd, -⟩ := hwatches.slots (p.objects c).fd c (by
    rw [SortedMap.get?_insert, hget, if_pos rfl, Option.getD_none])
  simp only [Function.update_self, Int.toNat_natCast, List.getElem?_concat_length,
    Option.some.injEq] at hpfd hfd
  rw [fd_slot_none rfl, ← hpfd] at hfd
  dsimp only at hfd
  omega

/-- A slot that is asleep stays asleep. -/
theorem Slots.not_watches_again (h : Slots p owners) (hc : c ∈ owners)
    (hop : op ≠ .remove) (hold : (p.objects c).events = Channel.kNoneEvent)
    (hevents : op.apply (p.objects c).events ≠ Channel.kNoneEvent)
    {p' : PollPoller} (hp' : p.operate c op = some p') : ¬ Watches p' := by
  obtain ⟨i, hi⟩ := List.mem_iff_getElem?.mp hc
  have hlt : i < p.pollfds.length := by
    rw [h.length_pollfds]
    exact (List.getElem?_eq_some_iff.mp hi).1
  have hasleep : (p.objects c).isNoneEvent = true := beq_iff_eq.mpr hold
  rw [h.operate_old hi hop, if_neg hevents, fd_slot_none hasleep] at hp'
  cases hp'
  intro hwatches
  obtain ⟨-, -, pfd, hpfd, hfd, -⟩ :=
    hwatches.slots (p.objects c).fd c ((h.entries _ c).mpr ⟨hc, rfl⟩)
  simp only [Function.update_self, Int.toNat_natCast, List.getElem?_set_self hlt,
    Option.some.injEq] at hpfd hfd
  rw [fd_slot_some (beq_eq_false_iff_ne.mpr hevents), ← hpfd] at hfd
  dsimp only at hfd
  omega

/-- A channel that was removed gets no slot. -/
theorem Slots.not_watches_removed (h : Slots p owners) (hc : c ∉ owners)
    (hindex : 0 ≤ (p.objects c).index) (hop : op ≠ .remove)
    (hevents : op.apply (p.objects c).events ≠ Channel.kNoneEvent)
    {p' : PollPoller} (hp' : p.operate c op = some p') : ¬ Watches p' := by
  rw [operate_eq hop, updateChannel_removed hindex (h.get?_eq_none hc)] at hp'
  cases hp'
  intro hwatches
  have hslot : ∃ pfd ∈ p.pollfds, pfd.fd = (p.objects c).fd := by
    apply (hwatches.watched (p.objects c).fd).mpr
    refine ⟨c, ?_, ?_⟩
    · rw [objects_setEvents]
    · rw [objects_setEvents]
      exact beq_eq_false_iff_ne.mpr hevents
  obtain ⟨c', hfd, hsome⟩ := (h.watches.watched _).mp hslot
  rw [h.distinct hfd, SlotChannel.isNoneEvent, h.idle c hc] at hsome
  cases hsome

private theorem Slots.allowed_of_watches (h : Slots p owners) {p' : PollPoller}
    (hp' : p.operate c op = some p') (hwatches : Watches p') : Allowed p c op := by
  by_cases hop : op = .remove
  · exact Or.inl hop
  · right
    split
    · next hindex =>
      intro hnone
      exact h.not_watches_new hindex hop hnone hp' hwatches
    · next hindex =>
      intro hold
      by_contra hevents
      by_cases hc : c ∈ owners
      · exact h.not_watches_again hc hop hold hevents hp' hwatches
      · exact h.not_watches_removed hc (Int.not_lt.mp hindex) hop hevents hp' hwatches

end Call

/-! ## Whole runs -/

/-- Nothing undefined has happened, and the poller watches what its channels ask for. -/
def Watching (s : Option PollPoller) : Prop := ∃ p, s = some p ∧ Watches p

/-- The call may be made. -/
def CallAllowed (s : Option PollPoller) (call : Nat × ChannelOp) : Prop :=
  ∀ p ∈ s, Allowed p call.1 call.2

/-- In every state of a run the poller watches what its channels ask for, exactly when every
call of the run is allowed: the first one on a channel gives it interest, and none gives
interest to a channel that has lost it. -/
theorem watching_iff {fd : Nat → Nat} (hfd : Function.Injective fd)
    (calls : List (Nat × ChannelOp)) :
    (∀ before after, calls = before ++ after →
        Watching (before.foldl slotStep (some (new fd)))) ↔
      ∀ s call, Visits slotStep (some (new fd)) calls s call → CallAllowed s call := by
  refine @forall_prefix_iff_of_visits _ _ slotStep Watching
    (fun s => ∃ p owners, s = some p ∧ Slots p owners) CallAllowed (some (new fd)) ?_ ?_ ?_ ?_ calls
  · exact ⟨new fd, [], rfl, slots_new hfd⟩
  · rintro s ⟨p, owners, rfl, hslots⟩
    exact ⟨p, rfl, hslots.watches⟩
  · rintro s call ⟨p, owners, rfl, hslots⟩ hallowed
    exact hslots.operate (hallowed p rfl)
  · rintro s call ⟨p, owners, rfl, hslots⟩ ⟨p', hp', hwatches⟩ q hq
    cases hq
    exact hslots.allowed_of_watches hp' hwatches

/-- Two channels with reading enabled, of which the first is disabled and removed. -/
theorem watching_removed :
    Watching ([(0, .enableReading), (1, .enableReading), (0, .disableAll), (0, .remove)].foldl
      slotStep (some (new id))) := by
  refine (watching_iff Function.injective_id _).mpr ?_ _ [] (List.append_nil _).symm
  intro s call h p hp
  rcases visits_cons.mp h with ⟨rfl, rfl⟩ | h
  · cases hp
    exact Or.inr (by decide)
  rcases visits_cons.mp h with ⟨rfl, rfl⟩ | h
  · cases hp
    exact Or.inr (by decide)
  rcases visits_cons.mp h with ⟨rfl, rfl⟩ | h
  · cases hp
    exact Or.inr (by decide)
  rcases visits_cons.mp h with ⟨rfl, rfl⟩ | h
  · exact Or.inl rfl
  · exact absurd h (not_visits_nil _ _ _ _)

/-- A channel that is disabled and enabled again is not watched. -/
theorem reenabled_not_watched :
    ¬ Watching ([(0, .enableReading), (0, .disableAll), (0, .enableReading)].foldl
      slotStep (some (new id))) := by
  rintro ⟨p, hp, hwatches⟩
  have hslots : p.pollfds = [⟨-1, 3, 0⟩] := by
    have h := congrArg (Option.map pollfds) hp
    exact (Option.some.inj h).symm
  have hchannel : p.objects 0 = ⟨0, 3, 0⟩ := by
    have h := congrArg (Option.map fun p => p.objects 0) hp
    exact (Option.some.inj h).symm
  obtain ⟨pfd, hpfd, hfd⟩ := (hwatches.watched 0).mpr ⟨0, by rw [hchannel], by rw [hchannel]; rfl⟩
  rw [hslots] at hpfd
  rw [List.mem_singleton.mp hpfd] at hfd
  cases hfd

end PollPoller

end ChatRoom.Net
