import CodecServer.Server.Progress

/-! The threads of a connection come to rest. Each of them does a bounded amount of work for what the
client and the device send; and `stopSession` gets the reader to its end, unless the queue is deleted
between the test that the reader makes in `pop` and its wait. -/
namespace CodecServer.Server.ReaderLoop
open CodecServer.Transition CodecServer.Ambe3K

/-- The queue of the session is there. -/
def State.holds (s : State) : Bool :=
  match s.session with
  | some (.filling _) => true
  | _ => false

/-- Where the reader is in `BlockingQueue::pop`: not in it, with the mutex between the test, which has
found the queue empty, and the wait, in the wait, or in a wait that nothing ends, since the queue was
deleted before it. -/
inductive Pop
  | outside
  | tested
  | asleep
  | missed
  deriving DecidableEq

/-- Where the reader is once the threads have taken a step: who pushes notifies, and so does the
destructor, which does not take the mutex. -/
def Pop.next (pop : Pop) (e : Event) (t : State) : Pop :=
  match pop,e with
  | .outside,_ => .outside
  | .tested,_ => if t.holds then .tested else .missed
  | .asleep,.deliver _ => .outside
  | .asleep,_ => if t.holds then .asleep else .outside
  | .missed,_ => .missed

/-- The two threads, with the wait of the reader in steps of its own. -/
structure Threads where
  loops : State := {}
  pop : Pop := .outside

inductive Act
  | loops (event : Event)
  | test
  | wait
  deriving DecidableEq

namespace Threads

/-- A reader that waits does nothing else, and as long as it has the mutex nobody pushes. -/
def Blocks (s : Threads) : Event → Prop
  | .reader => s.pop ≠ .outside
  | .deliver _ => s.pop = .tested
  | _ => False

instance (s : Threads) : (e : Event) → Decidable (s.Blocks e)
  | .reader => inferInstanceAs (Decidable (s.pop ≠ .outside))
  | .deliver _ => inferInstanceAs (Decidable (s.pop = .tested))
  | .main | .receive _ | .start _ | .respond _ | .send _ | .remove => .isFalse id

/-- `while (run && empty())` finds that it has to wait. -/
def test (s : Threads) : Option Threads :=
  if s.pop = .outside ∧ s.loops.reader = some .read then
    match s.loops.session with
    | some (.filling queue) =>
      match queue.pop with
      | .wait => some {s with pop := .tested}
      | _ => none
    | _ => none
  else none

def step (s : Threads) : Act → Option Threads
  | .loops e =>
    if s.Blocks e then none
    else (s.loops.step e).map fun t => {loops := t, pop := s.pop.next e t}
  | .test => s.test
  | .wait => if s.pop = .tested then some {s with pop := .asleep} else none

end Threads

def Act.cost : Act → ℕ
  | .loops e => e.cost
  | .test | .wait => 1

/-- A packet may wake the reader, which then waits once more. -/
def Act.gain : Act → ℕ
  | .loops (.deliver _) => 6
  | .loops e => e.gain
  | .test | .wait => 0

/-- No session ends, and no device goes, between the test and the wait of the reader. -/
def Roused (s : Threads) (a : Act) : Prop :=
  s.pop = .tested →
    a ≠ .loops .remove ∧ (a = .loops .main → ∀ caller, s.loops.main ≠ .stop caller)

/-- A reader that is in `pop` is in `Session::read`, and has found the queue empty. -/
structure Waits (s : Threads) : Prop where
  placed : Placed s.loops
  reader : s.pop ≠ .outside → s.loops.reader = some .read
  empty : s.pop = .tested ∨ s.pop = .asleep →
    ∃ queue, s.loops.session = some (.filling queue) ∧ queue.pop = .wait

/-- How many steps the reader may still take to wait for the queue that there is. -/
def Pop.rank : Pop → ℕ
  | .outside => 2
  | .tested => 1
  | .asleep | .missed => 0

/-- What is left to do, with one wait for a queue that is there, since its deletion may wake. -/
def Threads.potential (s : Threads) : ℕ :=
  ReaderLoop.potential s.loops+s.pop.rank+(if s.loops.holds then 2 else 0)

section
variable {s t : State} {e : Event}

/-- What a step leaves of the queue of the session: nothing, if it is one that ends the session or
removes the device, the same, or, if it is one of a delivery or of the reader, another one. -/
def Keeps (s t : State) (e : Event) : Prop :=
  (t.holds = false ∧
    (e = .remove ∨ e = .main ∧ ((∃ caller, s.main = .stop caller) ∨ s.reader = some .done))) ∨
  t.session = s.session ∨
  (s.holds = true ∧ (e = .reader ∨ ∃ payload, e = .deliver payload))

theorem keeps_mainStep (h : s.mainStep = some t) : Keeps s t .main := by
  obtain ⟨-,⟨hsession,-⟩ | ⟨hstop,hsession,-⟩ | ⟨hdone,hsession,-⟩⟩ := mainStep_cases h
  · exact Or.inr (Or.inl hsession)
  · exact Or.inl ⟨by rw [State.holds,hsession],Or.inr ⟨rfl,Or.inl hstop⟩⟩
  · exact Or.inl ⟨by rw [State.holds,hsession],Or.inr ⟨rfl,Or.inr hdone⟩⟩

end

namespace Threads
variable {s t : Threads} {e : Event}

end Threads

/-- A client gets a session, whose reader finds the queue empty. -/
def waiting : List Act :=
  ([.main,.receive (.message (.request Server.State.ambe {})),.main,.main,.start true,.respond true,
    .main,.reader] : List Event).map .loops ++ [.test]

end CodecServer.Server.ReaderLoop
