import CodecServer.Transition
import CodecServer.Ambe3K.BlockingQueue
import CodecServer.Ambe3K.Protocol.Field

/-! The thread that writes the packets of a device queue to the tty and collects the responses. It
runs interleaved with the pushes of any number of sessions, which are the only other access to the
queue, and with a shutdown of the device. -/
namespace CodecServer.Ambe3K
open CodecServer.Transition

namespace QueueWorker

/-- Where `QueueWorker::run` is: at the test of one of its three loops, before a call, or between
the call and what is done with its result. -/
inductive Pc (π ρ : Type)
  | outer
  | inner
  | pop
  | popped (packet : Option π)
  | write (packet : π)
  | receive
  | received (response : ρ)
  | tail
  | stopped
  deriving DecidableEq

/-- The worker and its queue, with a record of the packets whose push has completed, of the packets
written to the tty and of the responses that have been dealt with. -/
structure State (π ρ : Type) where
  pc : Pc π ρ := .outer
  inProgress : BitVec 64 := 0
  dorun : Bool := true
  queue : BlockingQueue π := .new 10
  pushed : List π := []
  written : List π := []
  received : List ρ := []

/-- What can happen next: a push by a session, a step of the worker, the return of `receiveFrom`
with a response or without, and the two parts of a shutdown, in which the destructor of the worker
clears `dorun` and the destructor of the queue wakes up whoever waits for it. -/
inductive Event (π ρ : Type)
  | push (packet : π)
  | work
  | receive (response : Option ρ)
  | stop
  | close
  deriving DecidableEq

variable {π ρ : Type}

/-- The condition of the loop that sends. -/
def sends (s : State π ρ) : Bool :=
  (!s.queue.empty && s.inProgress.toNat < Protocol.fifoMaxPending) || s.inProgress == 0

/-- A step of the worker, which ends where another thread can interfere. -/
def work (s : State π ρ) : Option (State π ρ) :=
  match s.pc with
  | .outer => if s.dorun then some {s with pc := .inner} else some {s with pc := .stopped}
  | .inner => if sends s then some {s with pc := .pop} else some {s with pc := .receive}
  | .pop =>
    match s.queue.pop with
    | .wait => none
    | .null => some {s with pc := .popped none}
    | .item packet queue => some {s with pc := .popped (some packet), queue := queue}
  | .popped packet =>
    if s.dorun = false then some {s with pc := .stopped}
    else
      match packet with
      | none => some {s with pc := .stopped, dorun := false}
      | some packet => some {s with pc := .write packet}
  | .write packet =>
    some {s with pc := .inner, written := s.written ++ [packet], inProgress := s.inProgress+1}
  | .receive => none
  | .received response =>
    some {s with
      pc := .tail
      received := s.received ++ [response]
      inProgress := s.inProgress-1}
  | .tail =>
    if 0 < s.inProgress ∧ s.queue.empty then some {s with pc := .receive}
    else some {s with pc := .outer}
  | .stopped => none

/-- `Device::writePacket`, once the queue has room. -/
def push (s : State π ρ) (packet : π) : Option (State π ρ) :=
  match s.queue.push packet true with
  | .pushed queue => some {s with queue := queue, pushed := s.pushed ++ [packet]}
  | .gone => some s
  | _ => none

/-- Without a response, the device is given up. -/
def receive (s : State π ρ) (response : Option ρ) : Option (State π ρ) :=
  match s.pc,response with
  | .receive,some response => some {s with pc := .received response}
  | .receive,none => some {s with pc := .stopped, dorun := false}
  | _,_ => none

def step (s : State π ρ) : Event π ρ → Option (State π ρ)
  | .push packet => push s packet
  | .work => work s
  | .receive response => receive s response
  | .stop => some {s with dorun := false}
  | .close => some {s with queue := s.queue.close}

/-- The packet that is no more in the queue and not yet on the wire. -/
def inHand (s : State π ρ) : List π :=
  match s.pc with
  | .popped (some packet) => [packet]
  | .write packet => [packet]
  | _ => []

/-- What `in_progress` is known to be at each point of the loops. -/
def PcHolds (s : State π ρ) : Prop :=
  match s.pc with
  | .pop =>
    s.inProgress.toNat < Protocol.fifoMaxPending ∧ (s.queue.items = [] → s.inProgress.toNat = 0)
  | .popped _ => s.inProgress.toNat < Protocol.fifoMaxPending
  | .write _ => s.inProgress.toNat < Protocol.fifoMaxPending
  | .receive => 0 < s.inProgress.toNat
  | .received _ => 0 < s.inProgress.toNat
  | _ => True

structure Inv (s : State π ρ) : Prop where
  pc : PcHolds s
  count : s.received.length+s.inProgress.toNat = s.written.length
  bound : s.inProgress.toNat ≤ Protocol.fifoMaxPending
  size : s.queue.maxSize = 10
  stopped : s.pc = .stopped → s.dorun = false
  kept : s.pc ≠ .stopped → s.pushed = s.written ++ (inHand s ++ s.queue.items)
  order : s.written <+: s.pushed

theorem inv_init : Inv ({} : State π ρ) where
  pc := trivial
  count := rfl
  bound := Nat.zero_le _
  size := rfl
  stopped := nofun
  kept := fun _ => rfl
  order := List.prefix_rfl

theorem inv_push {s t : State π ρ} {packet : π} (hs : Inv s) (h : push s packet = some t) :
    Inv t := by
  unfold push at h
  split at h
  · rename_i queue hpush
    obtain ⟨hitems,hsize,-,-⟩ := BlockingQueue.push_eq_pushed hpush
    obtain rfl := Option.some.inj h
    refine ⟨?_,hs.count,hs.bound,hsize.trans hs.size,hs.stopped,fun hpc => ?_,?_⟩
    · have hpc : PcHolds s := hs.pc
      rcases s with ⟨_ | _ | _ | _ | _ | _ | _ | _ | _,_,_,_,_,_,_⟩
      case pop => exact ⟨hpc.1,fun hnil => by simp [hitems] at hnil⟩
      all_goals exact hpc
    · change s.pushed ++ [packet] = s.written ++ (inHand s ++ queue.items)
      rw [hs.kept hpc,hitems]
      simp only [List.append_assoc]
    · exact hs.order.trans (List.prefix_append _ _)
  · obtain rfl := Option.some.inj h
    exact hs
  · cases h

/-- A step to another point of the loops, with the same packet in hand. -/
theorem inv_goto {s : State π ρ} (hs : Inv s) (pc : Pc π ρ) (hfrom : s.pc ≠ .stopped)
    (hto : pc ≠ .stopped) (hhand : inHand {s with pc := pc} = inHand s)
    (hpc : PcHolds {s with pc := pc}) : Inv {s with pc := pc} where
  pc := hpc
  count := hs.count
  bound := hs.bound
  size := hs.size
  stopped := fun h => absurd h hto
  kept := fun _ => hhand ▸ hs.kept hfrom
  order := hs.order

theorem inv_halt {s : State π ρ} (hs : Inv s) :
    Inv {s with pc := .stopped, dorun := false} where
  pc := trivial
  count := hs.count
  bound := hs.bound
  size := hs.size
  stopped := fun _ => rfl
  kept := fun h => absurd rfl h
  order := hs.order

theorem inv_receive {s t : State π ρ} {response : Option ρ} (hs : Inv s)
    (h : receive s response = some t) : Inv t := by
  unfold receive at h
  split at h
  · rename_i hat
    obtain rfl := Option.some.inj h
    have hpc : PcHolds s := hs.pc
    rw [PcHolds,hat] at hpc
    exact inv_goto hs _ (by simp [hat]) (by simp) (by simp [inHand,hat]) hpc
  · obtain rfl := Option.some.inj h
    exact inv_halt hs
  · cases h

/-- The test of the inner loop, in terms of what `pop` needs. -/
theorem sends_iff (s : State π ρ) :
    sends s = true ↔ (s.queue.items ≠ [] ∧ s.inProgress.toNat < Protocol.fifoMaxPending) ∨
      s.inProgress.toNat = 0 := by
  have hzero : s.inProgress = 0#64 ↔ s.inProgress.toNat = 0 :=
    ⟨fun h => by rw [h]; rfl,fun h => BitVec.eq_of_toNat_eq h⟩
  simp [sends,BlockingQueue.empty,hzero]

theorem inv_work {s t : State π ρ} (hs : Inv s) (h : work s = some t) : Inv t := by
  have hpc : PcHolds s := hs.pc
  have hbound := hs.bound
  have hcount := hs.count
  unfold work at h
  cases hat : s.pc with
  | outer =>
    simp only [hat] at h
    split_ifs at h with hrun
    · obtain rfl := Option.some.inj h
      exact inv_goto hs _ (by simp [hat]) (by simp) (by simp [inHand,hat]) trivial
    · obtain rfl := Option.some.inj h
      have hstop := inv_halt hs
      rw [Bool.not_eq_true] at hrun
      rwa [← hrun] at hstop
  | inner =>
    simp only [hat] at h
    split_ifs at h with hsends
    · obtain rfl := Option.some.inj h
      refine inv_goto hs _ (by simp [hat]) (by simp) (by simp [inHand,hat]) ?_
      rcases (sends_iff s).mp hsends with ⟨hitems,hlt⟩ | hzero
      · exact ⟨hlt,fun hnil => absurd hnil hitems⟩
      · exact ⟨by rw [hzero]; decide,fun _ => hzero⟩
    · obtain rfl := Option.some.inj h
      refine inv_goto hs _ (by simp [hat]) (by simp) (by simp [inHand,hat]) ?_
      have := mt (sends_iff s).mpr hsends
      change 0 < s.inProgress.toNat
      omega
  | pop =>
    simp only [PcHolds,hat] at hpc
    simp only [hat] at h
    split at h
    · cases h
    · obtain rfl := Option.some.inj h
      exact inv_goto hs _ (by simp [hat]) (by simp) (by simp [inHand,hat]) hpc.1
    · rename_i packet queue hpop
      obtain ⟨hitems,hsize,-,-⟩ := BlockingQueue.pop_eq_item hpop
      obtain rfl := Option.some.inj h
      have hkept := hs.kept (by simp [hat])
      refine ⟨hpc.1,hcount,hbound,hsize.trans hs.size,nofun,fun _ => ?_,hs.order⟩
      rw [hkept,hitems]
      simp [inHand,hat]
  | popped packet =>
    simp only [PcHolds,hat] at hpc
    simp only [hat] at h
    split_ifs at h with hrun
    · obtain rfl := Option.some.inj h
      have hstop := inv_halt hs
      rwa [← hrun] at hstop
    · cases packet with
      | none =>
        obtain rfl := Option.some.inj h
        exact inv_halt hs
      | some packet =>
        obtain rfl := Option.some.inj h
        exact inv_goto hs _ (by simp [hat]) (by simp) (by simp [inHand,hat]) hpc
  | write packet =>
    simp only [PcHolds,hat] at hpc
    simp only [hat] at h
    obtain rfl := Option.some.inj h
    have hadd : (s.inProgress+1).toNat = s.inProgress.toNat+1 := by
      rw [BitVec.toNat_add]
      unfold Protocol.fifoMaxPending at hpc
      change (s.inProgress.toNat+1)%2^64 = _
      omega
    have hkept := hs.kept (by simp [hat])
    refine ⟨trivial,?_,?_,hs.size,nofun,fun _ => ?_,?_⟩
    · rw [hadd,List.length_append,← hcount]
      rfl
    · rw [hadd]
      exact hpc
    · rw [hkept]
      simp [inHand,hat]
    · rw [hkept]
      simp [inHand,hat]
  | receive => simp only [hat] at h; cases h
  | received response =>
    simp only [PcHolds,hat] at hpc
    simp only [hat] at h
    obtain rfl := Option.some.inj h
    have hsub : (s.inProgress-1).toNat = s.inProgress.toNat-1 := by
      rw [BitVec.toNat_sub]
      unfold Protocol.fifoMaxPending at hbound
      change (2^64-1+s.inProgress.toNat)%2^64 = _
      omega
    refine ⟨trivial,?_,?_,hs.size,nofun,fun _ => ?_,hs.order⟩
    · rw [hsub,List.length_append,← hcount]
      simp only [List.length_singleton]
      omega
    · rw [hsub]
      omega
    · rw [hs.kept (by simp [hat])]
      simp [inHand,hat]
  | tail =>
    simp only [hat] at h
    split_ifs at h with hmore
    · obtain rfl := Option.some.inj h
      exact inv_goto hs _ (by simp [hat]) (by simp) (by simp [inHand,hat]) hmore.1
    · obtain rfl := Option.some.inj h
      exact inv_goto hs _ (by simp [hat]) (by simp) (by simp [inHand,hat]) trivial
  | stopped => simp only [hat] at h; cases h

theorem inv_step (s : State π ρ) (e : Event π ρ) (t : State π ρ) (hs : Inv s)
    (h : step s e = some t) : Inv t := by
  cases e with
  | push packet => exact inv_push hs h
  | work => exact inv_work hs h
  | receive response => exact inv_receive hs h
  | stop =>
    obtain rfl := Option.some.inj h
    exact ⟨hs.pc,hs.count,hs.bound,hs.size,fun _ => rfl,hs.kept,hs.order⟩
  | close =>
    obtain rfl := Option.some.inj h
    exact ⟨hs.pc,hs.count,hs.bound,hs.size,hs.stopped,hs.kept,hs.order⟩

/-- Flow control and order of a device worker. -/
structure FlowControl (s : State π ρ) : Prop where
  outstanding : s.received.length ≤ s.written.length ∧
    s.written.length-s.received.length = s.inProgress.toNat
  bound : s.inProgress.toNat ≤ Protocol.fifoMaxPending
  waits : s.pc = .receive → 0 < s.inProgress.toNat
  blocks : s.pc = .pop → s.queue.pop = .wait → s.inProgress.toNat = 0
  size : s.queue.items.length ≤ 10
  order : s.written <+: s.pushed
  kept : s.dorun = true → s.pushed = s.written ++ inHand s ++ s.queue.items

/-- Whatever the order of pushes, steps of the worker, responses and shutdown, the worker has at
most three packets outstanding, waits for a response only if there is one to come and for a packet
only if there is none, and writes the packets in the order in which they were pushed. -/
theorem run_flowControl (es : List (Event π ρ)) (s : State π ρ) (h : run step {} es = some s) :
    FlowControl s := by
  have hs := run_invariant inv_step inv_init h
  have hcount := hs.count
  have hpc : PcHolds s := hs.pc
  refine ⟨⟨by omega,by omega⟩,hs.bound,fun hat => ?_,fun hat hwait => ?_,?_,hs.order,fun hrun => ?_⟩
  · rwa [PcHolds,hat] at hpc
  · rw [PcHolds,hat] at hpc
    exact hpc.2 (BlockingQueue.pop_eq_wait hwait)
  · rw [← hs.size]
    exact s.queue.length_le
  · have hat : s.pc ≠ .stopped := by
      intro hat
      rw [hs.stopped hat] at hrun
      cases hrun
    rw [hs.kept hat,List.append_assoc]

/-- Two packets are sent before the response to the first of them arrives. -/
theorem run_flowControl_two : ∃ s : State ℕ Bool,
    run step {} ([.push 7,.push 8] ++ List.replicate 10 .work ++ [.receive (some true),.work]) =
      some s ∧ s.written = [7,8] ∧ s.received = [true] ∧ FlowControl s :=
  ⟨_,rfl,rfl,rfl,run_flowControl
    ([.push 7,.push 8] ++ List.replicate 10 .work ++ [.receive (some true),.work]) _ rfl⟩

/-! What each event does to the packets and the responses, for who follows a single packet. -/

/-- The packets whose response has not been dealt with, in the order of their responses. -/
def unanswered (s : State π ρ) : List π := s.pushed.drop s.received.length

/-- The response that has arrived and has not been dealt with. -/
def inReceipt (s : State π ρ) : List ρ :=
  match s.pc with
  | .received response => [response]
  | _ => []

theorem work_effect {s t : State π ρ} (h : work s = some t) :
    t.pushed = s.pushed ∧ t.received = s.received ++ inReceipt s ∧ inReceipt t = [] := by
  unfold work at h
  cases hat : s.pc with
  | outer =>
    simp only [hat] at h
    split_ifs at h <;> obtain rfl := Option.some.inj h <;> simp [inReceipt,hat]
  | inner =>
    simp only [hat] at h
    split_ifs at h <;> obtain rfl := Option.some.inj h <;> simp [inReceipt,hat]
  | pop =>
    simp only [hat] at h
    split at h
    · cases h
    · obtain rfl := Option.some.inj h
      simp [inReceipt,hat]
    · obtain rfl := Option.some.inj h
      simp [inReceipt,hat]
  | popped packet =>
    simp only [hat] at h
    split_ifs at h
    · obtain rfl := Option.some.inj h
      simp [inReceipt,hat]
    · cases packet <;> obtain rfl := Option.some.inj h <;> simp [inReceipt,hat]
  | write packet =>
    simp only [hat] at h
    obtain rfl := Option.some.inj h
    simp [inReceipt,hat]
  | receive => simp only [hat] at h; cases h
  | received response =>
    simp only [hat] at h
    obtain rfl := Option.some.inj h
    simp [inReceipt,hat]
  | tail =>
    simp only [hat] at h
    split_ifs at h <;> obtain rfl := Option.some.inj h <;> simp [inReceipt,hat]
  | stopped => simp only [hat] at h; cases h

theorem push_effect {s t : State π ρ} {packet : π} (h : push s packet = some t) :
    (t.pushed = s.pushed ∨ t.pushed = s.pushed ++ [packet]) ∧ t.received = s.received ∧
      t.pc = s.pc := by
  unfold push at h
  split at h
  · obtain rfl := Option.some.inj h
    exact ⟨Or.inr rfl,rfl,rfl⟩
  · obtain rfl := Option.some.inj h
    exact ⟨Or.inl rfl,rfl,rfl⟩
  · cases h

theorem mem_unanswered_of_push {s t : State π ρ} {packet p : π} (h : push s packet = some t)
    (hp : p ∈ unanswered t) : p ∈ unanswered s ∨ p = packet := by
  obtain ⟨hpushed,hreceived,-⟩ := push_effect h
  rw [unanswered,hreceived] at hp
  rcases hpushed with hpushed | hpushed
  · rw [hpushed] at hp
    exact Or.inl hp
  · rw [hpushed,List.drop_append] at hp
    apply (List.mem_append.mp hp).imp_right
    exact fun hlast => List.mem_singleton.mp (List.mem_of_mem_drop hlast)

theorem getElem?_of_push {s t : State π ρ} {packet p : π} {i : ℕ} (h : push s packet = some t)
    (hp : s.pushed[i]? = some p) : t.pushed[i]? = some p := by
  rcases (push_effect h).1 with hpushed | hpushed
  · rwa [hpushed]
  · obtain ⟨hlt,-⟩ := List.getElem?_eq_some_iff.mp hp
    rwa [hpushed,List.getElem?_append_left hlt]

theorem receive_effect {s t : State π ρ} {response : ρ} (h : receive s (some response) = some t) :
    t = {s with pc := .received response} := by
  unfold receive at h
  split at h
  · rename_i heq
    cases heq
    exact (Option.some.inj h).symm
  · rename_i heq
    cases heq
  · cases h

/-- A packet is pushed as long as the queue is not gone. -/
theorem push_cases {s t : State π ρ} {packet : π} (h : push s packet = some t) :
    (t = s ∧ s.queue.run = false) ∨
      (t.pushed = s.pushed ++ [packet] ∧ s.queue.run = true ∧ t.queue.run = true) := by
  unfold push at h
  split at h
  · rename_i queue hpush
    obtain ⟨-,-,hrun,-⟩ := BlockingQueue.push_eq_pushed hpush
    have hopen := BlockingQueue.push_blocking.1 queue hpush
    obtain rfl := Option.some.inj h
    exact Or.inr ⟨rfl,hopen,hrun.trans hopen⟩
  · rename_i hpush
    obtain rfl := Option.some.inj h
    exact Or.inl ⟨rfl,BlockingQueue.push_blocking.2 hpush⟩
  · cases h

theorem run_work {s t : State π ρ} (h : work s = some t) : t.queue.run = s.queue.run := by
  unfold work at h
  split at h
  · split_ifs at h <;> exact Option.some.inj h ▸ rfl
  · split_ifs at h <;> exact Option.some.inj h ▸ rfl
  · split at h
    · cases h
    · exact Option.some.inj h ▸ rfl
    · rename_i packet queue hpop
      obtain ⟨-,-,hrun,-⟩ := BlockingQueue.pop_eq_item hpop
      exact Option.some.inj h ▸ hrun
  · split_ifs at h
    · exact Option.some.inj h ▸ rfl
    · split at h <;> exact Option.some.inj h ▸ rfl
  · exact Option.some.inj h ▸ rfl
  · cases h
  · exact Option.some.inj h ▸ rfl
  · split_ifs at h <;> exact Option.some.inj h ▸ rfl
  · cases h

/-- Only a push adds to what was pushed, and a queue that is gone stays so. -/
theorem step_effect {s t : State π ρ} {e : Event π ρ} (he : ∀ packet, e ≠ .push packet)
    (h : step s e = some t) :
    t.pushed = s.pushed ∧ (t.queue.run = true → s.queue.run = true) := by
  cases e with
  | push packet => exact absurd rfl (he packet)
  | work => exact ⟨(work_effect h).1,fun hrun => run_work h ▸ hrun⟩
  | receive response =>
    simp only [step,receive] at h
    split at h
    · exact Option.some.inj h ▸ ⟨rfl,id⟩
    · exact Option.some.inj h ▸ ⟨rfl,id⟩
    · cases h
  | stop => exact Option.some.inj h ▸ ⟨rfl,id⟩
  | close =>
    obtain rfl := Option.some.inj h
    exact ⟨rfl,nofun⟩

end QueueWorker
end CodecServer.Ambe3K
