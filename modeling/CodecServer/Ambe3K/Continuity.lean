import Mathlib.Logic.Function.Basic
import CodecServer.Transition
import CodecServer.Ambe3K.Channel

/-! What comes out of a channel from one `reserve` to the next. One thread receives the packets of
the device, any number of threads read, and their steps come in any order. -/
namespace CodecServer.Ambe3K.Continuity
open CodecServer.Transition CodecServer.Ambe3K.Protocol

/-- A call of `Channel::receive` that has found a queue: it is before `push`, or `push` has thrown
and the queue is still to be deleted. -/
inductive Receiving (π : Type)
  | pushing (packet : π)
  | refused (packet : π)

def Receiving.packet {π : Type} : Receiving π → π
  | pushing packet => packet
  | refused packet => packet

/-- A call of `Channel::read` that has found a queue: it is before the call of `pop`, for which it
loads `outQueue` once more, or in `pop` of the queue of a reservation. -/
inductive Reading
  | tested
  | inside (reservation : ℕ)
  deriving DecidableEq

/-- A channel with the calls that are in progress: the one of `receive`, and those of `read` by
thread. Since the last `reserve` there is a record of the packets delivered, of how `read` has
returned, with the payload of a packet or with 0 for a queue that is gone, and of the overflow of the
queue. A call has failed that used a queue which is not there or has been deleted. -/
structure State (π : Type) where
  channel : Channel π
  reservation : ℕ := 0
  receiving : Option (Receiving π) := none
  reading : ℕ → Option Reading := fun _ => none
  delivered : List π := []
  results : List (Option π) := []
  overflowed : Bool := false
  failed : Bool := false

/-- `Channel::reserve` and `Channel::release`; the three parts of `Channel::receive`; the three parts
of `Channel::read`. -/
inductive Event (π : Type)
  | reserve
  | release
  | receive (packet : π)
  | push
  | drop
  | read (thread : ℕ)
  | call (thread : ℕ)
  | pop (thread : ℕ)

namespace State
variable {π : Type}

/-- Only a channel that is not busy is reserved. -/
def reserve (s : State π) : Option (State π) :=
  if s.channel.busy = false then
    some
      { s with
        channel := s.channel.reserve
        reservation := s.reservation+1
        delivered := []
        results := []
        overflowed := false }
  else none

def release (s : State π) : Option (State π) := some {s with channel := s.channel.release}

/-- The test of `Channel::receive` for a queue. -/
def receive (s : State π) (packet : π) : Option (State π) :=
  if s.receiving.isNone then
    some
      { s with
        receiving := if s.channel.outQueue.isSome then some (.pushing packet) else none
        delivered := s.delivered ++ [packet] }
  else none

/-- `outQueue->push(packet, false)`; a release may have left no queue to push to. -/
def push (s : State π) : Option (State π) :=
  match s.receiving with
  | some (.pushing packet) =>
    match s.channel.outQueue with
    | none => some {s with receiving := none, failed := true}
    | some queue =>
      match queue.push packet false with
      | .pushed queue =>
        some {s with channel := {s.channel with outQueue := some queue}, receiving := none}
      | _ => some {s with receiving := some (.refused packet)}
  | _ => none

/-- The packet is deleted, and the queue with it. -/
def drop (s : State π) : Option (State π) :=
  match s.receiving with
  | some (.refused _) =>
    some
      { s with
        channel := {s.channel with outQueue := none}
        receiving := none
        overflowed := s.overflowed || s.channel.outQueue.isSome }
  | _ => none

/-- `Channel::read` ends. -/
def leave (s : State π) (k : ℕ) : State π :=
  {s with reading := Function.update s.reading k none}

/-- It returns in the reservation that there is. -/
def finish (s : State π) (k : ℕ) (result : Option π) : State π :=
  {s.leave k with results := s.results ++ [result]}

/-- It uses a queue that is not there. What comes of it is left open where a release has taken the
queue away: that is behind the reservation. -/
def lose (s : State π) (k : ℕ) : State π :=
  {s.leave k with failed := s.failed || s.overflowed}

/-- The test of `Channel::read` for a queue. -/
def read (s : State π) (k : ℕ) : Option (State π) :=
  match s.reading k with
  | some _ => none
  | none =>
    if s.channel.outQueue.isNone then some (s.finish k none)
    else some {s with reading := Function.update s.reading k (some .tested)}

/-- `outQueue` is loaded for the call of `pop`. -/
def call (s : State π) (k : ℕ) : Option (State π) :=
  if s.reading k = some .tested then
    if s.channel.outQueue.isNone then some (s.lose k)
    else some {s with reading := Function.update s.reading k (some (.inside s.reservation))}
  else none

/-- `pop` and the rest of `Channel::read`. -/
def pop (s : State π) (k : ℕ) : Option (State π) :=
  match s.reading k with
  | some (.inside reservation) =>
    if reservation = s.reservation then
      match s.channel.outQueue with
      | none => some (s.lose k)
      | some queue =>
        match queue.pop with
        | .wait => none
        | .null => some (s.finish k none)
        | .item packet queue =>
          some
            ({s with channel := {s.channel with outQueue := some queue}}.finish k (some packet))
    else some (s.leave k)
  | _ => none

def step (s : State π) : Event π → Option (State π)
  | .reserve => s.reserve
  | .release => s.release
  | .receive packet => s.receive packet
  | .push => s.push
  | .drop => s.drop
  | .read k => s.read k
  | .call k => s.call k
  | .pop k => s.pop k

/-- The packets whose payloads `read` has returned. -/
def returned (s : State π) : List π := s.results.filterMap id

/-- A call of `Channel::read` between its test and its return, in the reservation that there is. -/
def InRead (s : State π) (k : ℕ) : Prop :=
  s.reading k = some .tested ∨ s.reading k = some (.inside s.reservation)

end State

/-- The overflow deletes the queue while no call of `read` is in progress, and a release does not fall
between the test of `receive` and its push. -/
def Fine {π : Type} (s : State π) : Event π → Prop
  | .drop => s.channel.outQueue.isSome → ∀ k, ¬ s.InRead k
  | .release => ∀ packet, s.receiving ≠ some (.pushing packet)
  | _ => True

/-- While there is a queue, nothing of what was delivered is missing: it has been returned, or is in
the queue, or is about to be pushed. -/
structure Inv {π : Type} (s : State π) : Prop where
  idle : s.channel.busy = false → s.channel.outQueue = none
  pushing : ∀ packet, s.receiving = some (.pushing packet) → s.channel.outQueue ≠ none
  queued : ∀ queue, s.channel.outQueue = some queue → queue.run = true ∧ s.overflowed = false ∧
    ∃ rest, s.delivered = s.returned ++ queue.items ++ rest ∧ (s.receiving = none → rest = []) ∧
      ∀ packet, s.receiving = some (.pushing packet) → rest = [packet]
  ordered : s.returned <+: s.delivered
  quiet : s.overflowed = true → ∀ k, ¬ s.InRead k
  sound : s.failed = false

section
variable {π : Type} {s t : State π} {k : ℕ}

theorem inv_init (index : Byte) : Inv ({channel := {index := index}} : State π) where
  idle := fun _ => rfl
  pushing := fun _ h => by cases h
  queued := fun _ h => by cases h
  ordered := List.prefix_rfl
  quiet := fun h => by cases h
  sound := rfl

theorem returned_finish (s : State π) (k : ℕ) (result : Option π) :
    (s.finish k result).returned = s.returned ++ result.toList := by
  unfold State.returned State.finish
  rw [List.filterMap_append]
  cases result <;> rfl

/-- A call that ends leaves the others as they are. -/
theorem inRead_leave {j : ℕ} (h : (s.leave k).InRead j) : s.InRead j := by
  unfold State.InRead State.leave at h
  simp only at h
  by_cases hj : j = k
  · subst hj
    rw [Function.update_self] at h
    rcases h with h | h <;> cases h
  · rwa [Function.update_of_ne hj] at h

theorem inv_leave (hs : Inv s) : Inv (s.leave k) :=
  ⟨hs.idle,hs.pushing,hs.queued,hs.ordered,fun hover j hj => hs.quiet hover j (inRead_leave hj),
    hs.sound⟩

/-- What is returned without a packet changes nothing. -/
theorem inv_finish (hs : Inv s) : Inv (s.finish k none) := by
  have hreturned : (s.finish k none).returned = s.returned := by
    rw [returned_finish,Option.toList_none,List.append_nil]
  refine ⟨hs.idle,hs.pushing,?_,?_,(inv_leave hs).quiet,hs.sound⟩
  · rw [hreturned]
    exact hs.queued
  · rw [hreturned]
    exact hs.ordered

/-- No call that is in progress finds the queue gone by an overflow. -/
theorem inv_lose (hs : Inv s) (h : s.InRead k) : Inv (s.lose k) := by
  have hover : s.overflowed = false := Bool.eq_false_iff.mpr fun hover => hs.quiet hover k h
  have hleave := inv_leave (k := k) hs
  refine ⟨hleave.idle,hleave.pushing,hleave.queued,hleave.ordered,hleave.quiet,?_⟩
  change (s.failed || s.overflowed) = false
  rw [hs.sound,hover]
  rfl

theorem inv_reserve (hs : Inv s) (h : s.reserve = some t) : Inv t := by
  unfold State.reserve at h
  split_ifs at h with hfree
  obtain rfl := Option.some.inj h
  refine ⟨nofun,nofun,?_,List.prefix_rfl,nofun,hs.sound⟩
  intro queue hqueue
  obtain rfl := Option.some.inj hqueue
  refine ⟨rfl,rfl,[],rfl,fun _ => rfl,fun packet hpushing => ?_⟩
  exact absurd (hs.idle hfree) (hs.pushing packet hpushing)

theorem inv_release (hs : Inv s) (hfine : Fine s .release) (h : s.release = some t) : Inv t := by
  obtain rfl := Option.some.inj h
  exact ⟨fun _ => rfl,fun packet hpushing => absurd hpushing (hfine packet),nofun,hs.ordered,
    hs.quiet,hs.sound⟩

theorem inv_receive {packet : π} (hs : Inv s) (h : s.receive packet = some t) : Inv t := by
  unfold State.receive at h
  split_ifs at h with hreceiving hqueue
  · obtain rfl := Option.some.inj h
    have hqueue : s.channel.outQueue ≠ none := Option.isSome_iff_ne_none.mp hqueue
    refine ⟨hs.idle,fun _ _ => hqueue,?_,hs.ordered.trans (List.prefix_append _ _),hs.quiet,hs.sound⟩
    intro queue hqueue
    obtain ⟨hrun,hover,rest,hdelivered,hrest,-⟩ := hs.queued queue hqueue
    obtain rfl := hrest (Option.isNone_iff_eq_none.mp hreceiving)
    rw [List.append_nil] at hdelivered
    refine ⟨hrun,hover,[packet],congrArg (· ++ [packet]) hdelivered,nofun,?_⟩
    rintro _ ⟨⟩
    rfl
  · obtain rfl := Option.some.inj h
    refine ⟨hs.idle,nofun,?_,hs.ordered.trans (List.prefix_append _ _),hs.quiet,hs.sound⟩
    intro queue hsome
    rw [Option.isSome_iff_exists] at hqueue
    exact absurd ⟨queue,hsome⟩ hqueue

theorem inv_push (hs : Inv s) (h : s.push = some t) : Inv t := by
  unfold State.push at h
  split at h
  · rename_i packet hreceiving
    split at h
    · rename_i hnone
      exact absurd hnone (hs.pushing packet hreceiving)
    · rename_i q hqueue
      obtain ⟨hrun,hover,rest,hdelivered,-,hrest⟩ := hs.queued q hqueue
      obtain rfl := hrest packet hreceiving
      have hbusy (hbusy : s.channel.busy = false) : False := by
        have hnone := hs.idle hbusy
        rw [hqueue] at hnone
        cases hnone
      split at h
      · rename_i queue hpush
        obtain rfl := Option.some.inj h
        obtain ⟨hitems,-,hrun',-⟩ := BlockingQueue.push_eq_pushed hpush
        refine ⟨fun h => (hbusy h).elim,nofun,?_,hs.ordered,hs.quiet,hs.sound⟩
        intro queue' hqueue'
        obtain rfl := Option.some.inj hqueue'
        refine ⟨hrun'.trans hrun,hover,[],?_,fun _ => rfl,nofun⟩
        change s.delivered = s.returned ++ queue.items ++ []
        rw [hdelivered,hitems,List.append_nil,List.append_assoc]
      · obtain rfl := Option.some.inj h
        refine ⟨hs.idle,nofun,?_,hs.ordered,hs.quiet,hs.sound⟩
        intro queue' hqueue'
        obtain rfl := Option.some.inj (hqueue.symm.trans hqueue')
        exact ⟨hrun,hover,[packet],hdelivered,nofun,nofun⟩
  · cases h

theorem inv_drop (hs : Inv s) (hfine : Fine s .drop) (h : s.drop = some t) : Inv t := by
  unfold State.drop at h
  split at h
  · obtain rfl := Option.some.inj h
    refine ⟨fun _ => rfl,nofun,nofun,hs.ordered,fun hover => ?_,hs.sound⟩
    rcases Bool.or_eq_true_iff.mp hover with hover | hqueue
    · exact hs.quiet hover
    · exact hfine hqueue
  · cases h

/-- A queue that is there has not overflowed. -/
theorem Inv.not_overflowed (hs : Inv s) (h : s.channel.outQueue ≠ none) : s.overflowed = false := by
  obtain ⟨queue,hqueue⟩ := Option.ne_none_iff_exists'.mp h
  exact (hs.queued queue hqueue).2.1

/-- A call of `read` may go on while there is a queue. -/
theorem inv_reading (hs : Inv s) (h : s.channel.outQueue ≠ none) (r : Reading) :
    Inv {s with reading := Function.update s.reading k (some r)} := by
  refine ⟨hs.idle,hs.pushing,hs.queued,hs.ordered,fun hover => ?_,hs.sound⟩
  exact absurd (hs.not_overflowed h) (by rw [show s.overflowed = true from hover]; exact nofun)

/-- A call of `read` may find no queue, or it goes on to `pop`. -/
theorem read_effect (h : s.read k = some t) :
    (s.channel.outQueue = none ∧ t = s.finish k none) ∨ (s.channel.outQueue ≠ none ∧
      t = {s with reading := Function.update s.reading k (some .tested)}) := by
  unfold State.read at h
  split at h
  · cases h
  · split_ifs at h with hnone
    · exact Or.inl ⟨Option.isNone_iff_eq_none.mp hnone,(Option.some.inj h).symm⟩
    · exact Or.inr ⟨fun hn => hnone (by rw [hn]; rfl),(Option.some.inj h).symm⟩

theorem call_effect (h : s.call k = some t) : s.InRead k ∧
    ((s.channel.outQueue = none ∧ t = s.lose k) ∨ (s.channel.outQueue ≠ none ∧
      t = {s with reading := Function.update s.reading k (some (.inside s.reservation))})) := by
  unfold State.call at h
  split_ifs at h with htested hnone
  · exact ⟨Or.inl htested,Or.inl ⟨Option.isNone_iff_eq_none.mp hnone,(Option.some.inj h).symm⟩⟩
  · exact ⟨Or.inl htested,
      Or.inr ⟨fun hn => hnone (by rw [hn]; rfl),(Option.some.inj h).symm⟩⟩

/-- `pop` ends with the packet at the front of the queue of the channel, or with nothing. -/
theorem pop_effect (h : s.pop k = some t) :
    t = s.leave k ∨ (s.InRead k ∧ s.channel.outQueue = none ∧ t = s.lose k) ∨
      ∃ q, s.channel.outQueue = some q ∧ (t = s.finish k none ∨
        ∃ packet queue, q.items = packet::queue.items ∧ queue.run = q.run ∧
          t = {s with channel := {s.channel with outQueue := some queue}}.finish k (some packet)) := by
  unfold State.pop at h
  split at h
  · rename_i reservation hreading
    split_ifs at h with hcurrent
    · subst hcurrent
      split at h
      · rename_i hnone
        exact Or.inr (Or.inl ⟨Or.inr hreading,hnone,(Option.some.inj h).symm⟩)
      · rename_i q hqueue
        refine Or.inr (Or.inr ⟨q,hqueue,?_⟩)
        split at h
        · cases h
        · exact Or.inl (Option.some.inj h).symm
        · rename_i packet queue hpop
          obtain ⟨hitems,-,hrun,-⟩ := BlockingQueue.pop_eq_item hpop
          exact Or.inr ⟨packet,queue,hitems,hrun,(Option.some.inj h).symm⟩
    · exact Or.inl (Option.some.inj h).symm
  · cases h

theorem inv_read (hs : Inv s) (h : s.read k = some t) : Inv t := by
  obtain ⟨-,rfl⟩ | ⟨hqueue,rfl⟩ := read_effect h
  · exact inv_finish hs
  · exact inv_reading hs hqueue .tested

theorem inv_call (hs : Inv s) (h : s.call k = some t) : Inv t := by
  obtain ⟨hread,⟨-,rfl⟩ | ⟨hqueue,rfl⟩⟩ := call_effect h
  · exact inv_lose hs hread
  · exact inv_reading hs hqueue (.inside s.reservation)

theorem inv_pop (hs : Inv s) (h : s.pop k = some t) : Inv t := by
  obtain rfl | ⟨hread,-,rfl⟩ | ⟨q,hqueue,rfl | ⟨packet,queue,hitems,hrun,rfl⟩⟩ := pop_effect h
  · exact inv_leave hs
  · exact inv_lose hs hread
  · exact inv_finish hs
  · obtain ⟨hopen,hover,rest,hdelivered,hrest⟩ := hs.queued q hqueue
    have hdelivered' : s.delivered = (s.returned ++ [packet]) ++ queue.items ++ rest := by
      rw [hdelivered,hitems]
      simp
    refine ⟨fun hbusy => ?_,nofun,?_,?_,(inv_leave hs).quiet,hs.sound⟩
    · have hnone := hs.idle hbusy
      rw [hqueue] at hnone
      cases hnone
    · intro queue' hqueue'
      obtain rfl := Option.some.inj hqueue'
      refine ⟨hrun.trans hopen,hover,rest,?_,hrest⟩
      rw [returned_finish]
      exact hdelivered'
    · rw [returned_finish]
      refine ⟨queue.items ++ rest,?_⟩
      rw [← List.append_assoc]
      exact hdelivered'.symm

theorem inv_step {e : Event π} (hs : Inv s) (hfine : Fine s e) (h : s.step e = some t) : Inv t := by
  cases e with
  | reserve => exact inv_reserve hs h
  | release => exact inv_release hs hfine h
  | receive packet => exact inv_receive hs h
  | push => exact inv_push hs h
  | drop => exact inv_drop hs hfine h
  | read k => exact inv_read hs h
  | call k => exact inv_call hs h
  | pop k => exact inv_pop hs h

/-- Without a queue every step is fine. -/
theorem Inv.fine (hs : Inv s) (hgone : s.channel.outQueue = none) (e : Event π) : Fine s e := by
  cases e with
  | drop =>
    intro hqueue
    rw [hgone] at hqueue
    cases hqueue
  | release => exact fun packet hpushing => hs.pushing packet hpushing hgone
  | _ => trivial

theorem push_of_room {packet : π} {queue queue' : BlockingQueue π}
    (hreceiving : s.receiving = some (.pushing packet)) (hqueue : s.channel.outQueue = some queue)
    (hpush : queue.push packet false = .pushed queue') :
    s.push = some {s with channel := {s.channel with outQueue := some queue'}, receiving := none} := by
  simp only [State.push,hreceiving,hqueue,hpush]

theorem push_of_full {packet : π} {queue : BlockingQueue π}
    (hreceiving : s.receiving = some (.pushing packet)) (hqueue : s.channel.outQueue = some queue)
    (hpush : queue.push packet false = .queueFull) :
    s.push = some {s with receiving := some (.refused packet)} := by
  simp only [State.push,hreceiving,hqueue,hpush]

/-- A call of `receive` that nothing comes in between is `Channel::receive`. -/
theorem run_receive (hreceiving : s.receiving = none) (packet : π) :
    ∃ es t, run State.step s (.receive packet::es) = some t ∧ t.receiving = none ∧
      t.channel = s.channel.receive packet ∧ t.results = s.results := by
  cases hqueue : s.channel.outQueue with
  | none =>
    let u : State π := {s with receiving := none, delivered := s.delivered ++ [packet]}
    have hreceive : s.receive packet = some u := by
      simp only [State.receive,hreceiving,hqueue]
      rfl
    refine ⟨[],u,(run_cons ..).mpr ⟨u,hreceive,rfl⟩,rfl,?_,rfl⟩
    rw [Channel.receive,hqueue]
  | some queue =>
    let u : State π :=
      {s with receiving := some (.pushing packet), delivered := s.delivered ++ [packet]}
    have hreceive : s.receive packet = some u := by
      simp only [State.receive,hreceiving,hqueue]
      rfl
    have hu : u.channel.outQueue = some queue := hqueue
    obtain ⟨-,queue',hpush⟩ | ⟨-,hpush⟩ := queue.push_nonblocking packet
    · have hroom := push_of_room rfl hu hpush
      have hchannel : s.channel.receive packet = {s.channel with outQueue := some queue'} := by
        simp only [Channel.receive,hqueue,hpush]
      exact ⟨[.push],_,(run_cons ..).mpr ⟨u,hreceive,(run_cons ..).mpr ⟨_,hroom,run_nil _⟩⟩,rfl,
        hchannel.symm,rfl⟩
    · have hfull := push_of_full rfl hu hpush
      have hchannel : s.channel.receive packet = {s.channel with outQueue := none} := by
        simp only [Channel.receive,hqueue,hpush]
      exact ⟨[.push,.drop],_,(run_cons ..).mpr ⟨u,hreceive,(run_cons ..).mpr ⟨_,hfull,
        (run_cons ..).mpr ⟨_,rfl,run_nil _⟩⟩⟩,rfl,hchannel.symm,rfl⟩

end
end CodecServer.Ambe3K.Continuity
