import CodecServer.Ambe3K.Channel
import CodecServer.Pointer

/-! The queue of a channel in memory. The thread that receives packets, the sessions that end and their
readers test `outQueue` and use it without a lock, one step after the other. -/
namespace CodecServer.Ambe3K.OutQueue
open Function CodecServer.Transition

/-- The worker of the device, and for each client the threads of its connection. -/
inductive Thread
  | receiver
  | session (k : ℕ)
  | reader (k : ℕ)
  deriving DecidableEq

/-- A channel, with its queues as they are, or were, in memory; the packet that `receive` has been
called with; the sessions that are in `release`; and what `read` has returned to its callers. -/
structure State (π : Type) where
  outQueue : Pointer.State Thread := {}
  queues : ℕ → BlockingQueue π := fun _ => .new 10
  busy : Bool := false
  packet : Option π := none
  releasing : ℕ → Bool := fun _ => false
  results : List (ℕ × Option π) := []

/-- `reserve`; the tests of `release`, `receive` and `read`; the end of `release`; a call of the queue
and how it ends for `receive` and for `read`; and the parts of a deletion. -/
inductive Event (π : Type)
  | reserve
  | release (k : ℕ)
  | unset (k : ℕ)
  | receive (packet : π)
  | read (k : ℕ)
  | call (i : Thread)
  | push
  | pop (k : ℕ)
  | destroy (i : Thread)
  | free (i : Thread)
  | clear (i : Thread)

namespace State
variable {π : Type}

/-- How `outQueue->push(packet, false)` ends: with the packet in the queue, or with an exception. -/
def pushed (s : State π) : Option (ℕ × BlockingQueue.Push π) :=
  match s.packet,s.outQueue.phase .receiver with
  | some packet,.inside q => some (q,(s.queues q).push packet false)
  | _,_ => none

/-- What the event does with the pointer. -/
def action (s : State π) : Event π → Option (Pointer.Event Thread)
  | .reserve => some .assign
  | .release k => some (.test (.session k) true)
  | .unset _ => none
  | .receive _ => some (.test .receiver false)
  | .read k => some (.test (.reader k) false)
  | .call i => some (.call i)
  | .push =>
    match s.pushed with
    | some (_,.pushed _) => some (.leave .receiver)
    | _ => some (.refuse .receiver)
  | .pop k => some (.leave (.reader k))
  | .destroy i => some (.destroy i)
  | .free i => some (.free i)
  | .clear i => some (.clear i)

/-- `Channel::reserve`, of a channel that is not busy. -/
def reserve (s : State π) (p : Pointer.State Thread) : Option (State π) :=
  if s.busy then none
  else some
    {s with outQueue := p, busy := true, queues := update s.queues s.outQueue.fresh (.new 10)}

def release (s : State π) (k : ℕ) (p : Pointer.State Thread) : Option (State π) :=
  if s.releasing k then none
  else some {s with outQueue := p, releasing := update s.releasing k true}

/-- `busy = false`, once the queue is gone. -/
def unset (s : State π) (k : ℕ) : Option (State π) :=
  if s.releasing k = true ∧ s.outQueue.phase (.session k) = .outside then
    some {s with busy := false, releasing := update s.releasing k false}
  else none

/-- A packet for which there is no queue is deleted. -/
def receive (s : State π) (packet : π) (p : Pointer.State Thread) : Option (State π) :=
  some {s with outQueue := p, packet := if p.phase .receiver = .outside then none else some packet}

/-- Without a queue, 0 is returned. -/
def read (s : State π) (k : ℕ) (p : Pointer.State Thread) : Option (State π) :=
  some
    { s with
      outQueue := p
      results :=
        if p.phase (.reader k) = .outside then s.results ++ [(k,none)] else s.results }

/-- The packet is in the queue, or it is deleted, and the queue is to follow. -/
def push (s : State π) (p : Pointer.State Thread) : Option (State π) :=
  match s.pushed with
  | none => none
  | some (q,.pushed queue) =>
    some {s with outQueue := p, packet := none, queues := update s.queues q queue}
  | some _ => some {s with outQueue := p, packet := none}

def pop (s : State π) (k : ℕ) (p : Pointer.State Thread) : Option (State π) :=
  match s.outQueue.phase (.reader k) with
  | .inside q =>
    match (s.queues q).pop with
    | .wait => none
    | .null => some {s with outQueue := p, results := s.results ++ [(k,none)]}
    | .item packet queue =>
      some
        { s with
          outQueue := p
          queues := update s.queues q queue
          results := s.results ++ [(k,some packet)] }
  | _ => none

/-- The destructor of the queue; there may be none to destroy. -/
def destroy (s : State π) (i : Thread) (p : Pointer.State Thread) : Option (State π) :=
  match p.phase i with
  | .destroyed q => some {s with outQueue := p, queues := update s.queues q (s.queues q).close}
  | _ => some {s with outQueue := p}

/-- What the event does besides. -/
def effect (s : State π) (p : Pointer.State Thread) : Event π → Option (State π)
  | .reserve => s.reserve p
  | .release k => s.release k p
  | .unset k => s.unset k
  | .receive packet => s.receive packet p
  | .read k => s.read k p
  | .push => s.push p
  | .pop k => s.pop k p
  | .destroy i => s.destroy i p
  | .call _ | .free _ | .clear _ => some {s with outQueue := p}

def step (s : State π) (e : Event π) : Option (State π) :=
  match s.action e with
  | none => s.effect s.outQueue e
  | some e' => (s.outQueue.step e').bind fun p => s.effect p e

end State

variable {π : Type}

/-- No thread is about to use a null pointer or a queue that has been freed. -/
def Safe (s : State π) : Prop := Pointer.Safe s.outQueue

/-- `outQueue` is null or its queue is there whenever it is tested, and when `push` has thrown. A queue
is freed only when no other thread is in `push` or `pop` of it or about to delete it, and none has
tested `outQueue` and not used it; `outQueue` is cleared only when none has tested it for a call. -/
def Fine (s : State π) (e : Event π) : Prop := ∀ e' ∈ s.action e, Pointer.Fine s.outQueue e'

theorem safe_init : Safe ({} : State π) := Pointer.safe_init

theorem outQueue_effect {s t : State π} {p : Pointer.State Thread} {e : Event π}
    (h : s.effect p e = some t) (hp : s.action e = none → p = s.outQueue) : t.outQueue = p := by
  cases e with
  | reserve =>
    simp only [State.effect,State.reserve] at h
    split_ifs at h
    exact Option.some.inj h ▸ rfl
  | release k =>
    simp only [State.effect,State.release] at h
    split_ifs at h
    exact Option.some.inj h ▸ rfl
  | unset k =>
    simp only [State.effect,State.unset] at h
    split_ifs at h
    obtain rfl := Option.some.inj h
    exact (hp rfl).symm
  | receive packet | read k | call i | free i | clear i => exact Option.some.inj h ▸ rfl
  | push =>
    simp only [State.effect,State.push] at h
    split at h
    · cases h
    · exact Option.some.inj h ▸ rfl
    · exact Option.some.inj h ▸ rfl
  | pop k =>
    simp only [State.effect,State.pop] at h
    split at h
    · split at h
      · cases h
      · exact Option.some.inj h ▸ rfl
      · exact Option.some.inj h ▸ rfl
    · cases h
  | destroy i =>
    simp only [State.effect,State.destroy] at h
    split at h
    · exact Option.some.inj h ▸ rfl
    · exact Option.some.inj h ▸ rfl

/-- A step of the channel is one of the pointer, or leaves the pointer alone. -/
theorem step_outQueue {s t : State π} {e : Event π} (h : s.step e = some t) :
    match s.action e with
    | none => t.outQueue = s.outQueue
    | some e' => s.outQueue.step e' = some t.outQueue := by
  unfold State.step at h
  cases haction : s.action e with
  | none =>
    rw [haction] at h
    exact outQueue_effect h fun _ => rfl
  | some e' =>
    rw [haction] at h
    obtain ⟨p,hp,h⟩ := Option.bind_eq_some_iff.mp h
    have hp' := outQueue_effect h fun hnone => by cases hnone.symm.trans haction
    exact hp.trans (congrArg some hp'.symm)

theorem fresh_step (s : State π) (e : Event π) (t : State π) (hs : Pointer.Fresh s.outQueue)
    (h : s.step e = some t) : Pointer.Fresh t.outQueue := by
  have hstep := step_outQueue h
  split at hstep
  · rw [hstep]
    exact hs
  · exact Pointer.fresh_step _ _ _ hs hstep

theorem safe_step_iff (s : State π) (e : Event π) (t : State π) (hfresh : Pointer.Fresh s.outQueue)
    (hs : Safe s) (h : s.step e = some t) : Safe t ↔ Fine s e := by
  have hstep := step_outQueue h
  unfold Safe Fine
  split at hstep
  · rename_i haction
    rw [hstep,haction]
    exact iff_of_true hs nofun
  · rename_i e' haction
    rw [Pointer.safe_step_iff _ _ _ hfresh hs hstep,haction]
    simp

/-- While the queue is there or `outQueue` is null, only a deletion can do harm. -/
theorem fine_of_valid {s : State π} {e : Event π} (he : ∀ i, e ≠ .free i ∧ e ≠ .clear i)
    (hs : s.outQueue.Valid) : Fine s e := by
  intro e' he'
  cases e with
  | free i => exact absurd rfl (he i).1
  | clear i => exact absurd rfl (he i).2
  | unset k => cases he'
  | release k | receive packet | read k =>
    obtain rfl := Option.some.inj he'
    exact hs
  | reserve | call i | pop k | destroy i =>
    obtain rfl := Option.some.inj he'
    trivial
  | push =>
    simp only [State.action] at he'
    split at he'
    · obtain rfl := Option.some.inj he'
      trivial
    · obtain rfl := Option.some.inj he'
      exact hs

/-- A thread does no harm by a deletion when no other one is concerned with the queue. -/
theorem fine_of_alone {s : State π} {i : Thread} (h : ∀ j ≠ i, s.outQueue.phase j = .outside) :
    Fine s (.free i) ∧ Fine s (.clear i) := by
  constructor
  · intro e' he'
    obtain rfl := Option.some.inj he'
    intro q _ j hj
    simp [h j hj]
  · intro e' he'
    obtain rfl := Option.some.inj he'
    intro j hj
    simp [h j hj]

/-- In every run of the threads of a channel: they never get to where one of them uses a null pointer or
a queue that has been freed, exactly if each of them tests `outQueue` while its queue is there or it is
null, frees the queue while no other thread is in it or has tested `outQueue` for it, and clears
`outQueue` while no other thread has tested it. Nothing in the code sees to that. -/
theorem always_safe_iff {es : List (Event π)} (h : (run State.step {} es).isSome) :
    Always State.step Safe {} es ↔ Meets State.step Fine {} es :=
  always_iff_meets fresh_step safe_step_iff Pointer.fresh_init safe_init h

/-- A packet arrives and is read, and then the session ends. -/
def visit : List (Event ℕ) :=
  [.reserve,.receive 7,.call .receiver,.push,.read 0,.call (.reader 0),.pop 0,.release 0,
    .destroy (.session 0),.free (.session 0),.clear (.session 0),.unset 0]

theorem always_safe_iff_visit : ∃ s : State ℕ, run State.step {} visit = some s ∧
    s.results = [(0,some 7)] ∧ Always State.step Safe {} visit := by
  refine ⟨_,rfl,rfl,(always_safe_iff rfl).mpr ?_⟩
  -- the queue is there until it is freed, and the others are gone by then
  iterate 9 refine meets_cons (fine_of_valid (by simp) fun _ _ => rfl) rfl ?_
  refine meets_cons (fine_of_alone fun j hj => ?_).1 rfl ?_
  · match j with
    | .receiver | .reader 0 => rfl
    | .reader (k+1) => rfl
    | .session 0 => exact absurd rfl hj
    | .session (k+1) => rfl
  refine meets_cons (fine_of_alone fun j hj => ?_).2 rfl (meets_cons nofun rfl trivial)
  match j with
  | .receiver | .reader 0 => rfl
  | .reader (k+1) => rfl
  | .session 0 => exact absurd rfl hj
  | .session (k+1) => rfl

/-- The reader still waits for a packet when the session ends, as it does as a rule. -/
example : ∃ s : State ℕ, run State.step {} [.reserve,.read 0,.call (.reader 0),.release 0,
    .destroy (.session 0),.free (.session 0)] = some s ∧ ¬ Safe s :=
  ⟨_,rfl,fun h => h (.reader 0) rfl⟩

end CodecServer.Ambe3K.OutQueue
