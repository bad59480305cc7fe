import CodecServer.Ambe3K.QueueWorker

/-! The worker makes progress. It does a bounded amount of work for each packet that is pushed; and
when it can do nothing anymore, everything is written and answered, unless the device keeps silent
or has been given up. -/
namespace CodecServer.Ambe3K.QueueWorker
open CodecServer.Transition

variable {π ρ : Type}

/-- How far the worker is from the place where it writes, or deals with a response. -/
def Pc.rank : Pc π ρ → ℕ
  | .tail => 5
  | .outer => 4
  | .inner => 3
  | .pop | .receive => 2
  | .popped _ | .received _ => 1
  | .write _ | .stopped => 0

/-- The work that is left: for each packet that is not written, for each that is not answered, and
until the next of them. -/
def potential (s : State π ρ) : ℕ :=
  9*((inHand s).length+s.queue.items.length)+5*s.inProgress.toNat+s.pc.rank

/-- The steps of the worker, with the return of a call that it is in. -/
def Event.cost : Event π ρ → ℕ
  | .work | .receive _ => 1
  | _ => 0

/-- The work that a push can make. -/
def Event.gain : Event π ρ → ℕ
  | .push _ => 9
  | _ => 0

/-- Every step of the worker comes closer to a place where it waits. -/
theorem potential_work {s t : State π ρ} (hs : Inv s) (h : work s = some t) :
    1+potential t ≤ potential s := by
  have hpc : PcHolds s := hs.pc
  have hbound := hs.bound
  unfold work at h
  cases hat : s.pc with
  | outer =>
    simp only [hat] at h
    split_ifs at h <;> obtain rfl := Option.some.inj h <;> simp [potential,inHand,Pc.rank,hat] <;> omega
  | inner =>
    simp only [hat] at h
    split_ifs at h <;> obtain rfl := Option.some.inj h <;> simp [potential,inHand,Pc.rank,hat] <;> omega
  | pop =>
    simp only [hat] at h
    split at h
    · cases h
    · obtain rfl := Option.some.inj h
      simp [potential,inHand,Pc.rank,hat]
      omega
    · rename_i packet queue hpop
      obtain ⟨hitems,-,-,-⟩ := BlockingQueue.pop_eq_item hpop
      obtain rfl := Option.some.inj h
      simp [potential,inHand,Pc.rank,hat,hitems]
      omega
  | popped packet =>
    simp only [hat] at h
    split_ifs at h
    · obtain rfl := Option.some.inj h
      cases packet <;> simp [potential,inHand,Pc.rank,hat] <;> omega
    · cases packet <;> obtain rfl := Option.some.inj h <;> simp [potential,inHand,Pc.rank,hat] <;> omega
  | write packet =>
    -- the packet that is written has to be answered now
    simp only [PcHolds,hat] at hpc
    simp only [hat] at h
    obtain rfl := Option.some.inj h
    have hadd : (s.inProgress+1).toNat = s.inProgress.toNat+1 := by
      rw [BitVec.toNat_add]
      unfold Protocol.fifoMaxPending at hpc
      change (s.inProgress.toNat+1)%2^64 = _
      omega
    simp only [potential,inHand,Pc.rank,hat,hadd,List.length_nil,List.length_singleton]
    omega
  | receive =>
    simp only [hat] at h
    cases h
  | received response =>
    simp only [PcHolds,hat] at hpc
    simp only [hat] at h
    obtain rfl := Option.some.inj h
    have hsub : (s.inProgress-1).toNat = s.inProgress.toNat-1 := by
      rw [BitVec.toNat_sub]
      unfold Protocol.fifoMaxPending at hbound
      change (2^64-1+s.inProgress.toNat)%2^64 = _
      omega
    simp only [potential,inHand,Pc.rank,hat,hsub,List.length_nil]
    omega
  | tail =>
    simp only [hat] at h
    split_ifs at h <;> obtain rfl := Option.some.inj h <;> simp [potential,inHand,Pc.rank,hat] <;> omega
  | stopped =>
    simp only [hat] at h
    cases h

theorem potential_receive {s t : State π ρ} {response : Option ρ} (h : receive s response = some t) :
    1+potential t ≤ potential s := by
  unfold receive at h
  split at h
  · rename_i hat
    obtain rfl := Option.some.inj h
    simp only [potential,inHand,Pc.rank,hat]
    omega
  · rename_i hat
    obtain rfl := Option.some.inj h
    simp only [potential,inHand,Pc.rank,hat]
    omega
  · cases h

theorem potential_push {s t : State π ρ} {packet : π} (h : push s packet = some t) :
    potential t ≤ 9+potential s := by
  unfold push at h
  split at h
  · rename_i queue hpush
    obtain ⟨hitems,-,-,-⟩ := BlockingQueue.push_eq_pushed hpush
    obtain rfl := Option.some.inj h
    change 9*((inHand s).length+queue.items.length)+5*s.inProgress.toNat+s.pc.rank ≤ 9+potential s
    rw [hitems,List.length_append,List.length_singleton,potential]
    omega
  · obtain rfl := Option.some.inj h
    omega
  · cases h

theorem potential_step (s : State π ρ) (e : Event π ρ) (t : State π ρ) (hs : Inv s)
    (h : step s e = some t) : e.cost+potential t ≤ e.gain+potential s := by
  cases e with
  | push packet =>
    have := potential_push h
    simp only [Event.cost,Event.gain]
    omega
  | work =>
    have := potential_work hs h
    simp only [Event.cost,Event.gain]
    omega
  | receive response =>
    have := potential_receive h
    simp only [Event.cost,Event.gain]
    omega
  | stop | close =>
    obtain rfl := Option.some.inj h
    exact Nat.le_refl _

/-- Where the worker can do nothing, and why. -/
inductive Rests (s : State π ρ) : Prop
  | stopped (pc : s.pc = .stopped) (dorun : s.dorun = false)
  | silent (pc : s.pc = .receive) (unanswered : s.received.length < s.written.length)
  | done (pc : s.pc = .pop) (run : s.queue.run = true) (written : s.written = s.pushed)
      (received : s.received.length = s.pushed.length) (empty : s.queue.items = [])

theorem rests_of_work {s : State π ρ} (hs : Inv s) (h : work s = none) : Rests s := by
  have hpc : PcHolds s := hs.pc
  have hcount := hs.count
  unfold work at h
  cases hat : s.pc with
  | pop =>
    simp only [PcHolds,hat] at hpc
    simp only [hat] at h
    split at h
    · rename_i hpop
      have hempty := BlockingQueue.pop_eq_wait hpop
      have hzero := hpc.2 hempty
      have hwritten : s.pushed = s.written := by
        rw [hs.kept (by simp [hat]),hempty]
        simp [inHand,hat]
      refine .done hat ?_ hwritten.symm (by rw [hwritten]; omega) hempty
      by_contra hrun
      rw [BlockingQueue.pop,if_pos (by simpa using hrun)] at hpop
      cases hpop
    · cases h
    · cases h
  | receive =>
    simp only [PcHolds,hat] at hpc
    exact .silent hat (by omega)
  | stopped => exact .stopped hat (hs.stopped hat)
  | popped packet =>
    simp only [hat] at h
    split_ifs at h
    cases packet <;> cases h
  | outer | inner | tail =>
    simp only [hat] at h
    split_ifs at h
  | write packet | received response =>
    simp only [hat] at h
    cases h

/-- In every run, whatever the others do, the worker makes nine steps at most for each push and four
more. Once it can make none, it has been stopped, or it waits for a device that has not answered a
packet, or everything that was pushed has been written and answered, in order. -/
theorem run_rests {es : List (Event π ρ)} {s : State π ρ} (h : run step {} es = some s) :
    (es.map Event.cost).sum ≤ (es.map Event.gain).sum+4 ∧ (work s = none → Rests s) := by
  have hs := run_invariant inv_step inv_init h
  have hsum := run_potential inv_step potential_step inv_init h
  have hinit : potential ({} : State π ρ) = 4 := rfl
  exact ⟨by omega,rests_of_work hs⟩

/-- Two packets, and a device that answers both of them. -/
def exchange : List (Event ℕ Bool) :=
  [.push 7,.push 8] ++ List.replicate 10 .work ++
    [.receive (some true),.work,.work,.receive (some false),.work,.work,.work,.work]

theorem run_rests_exchange : ∃ s : State ℕ Bool, run step {} exchange = some s ∧ work s = none ∧
    s.written = [7,8] ∧ Rests s :=
  ⟨_,rfl,rfl,rfl,(run_rests (show run step {} exchange = some _ from rfl)).2 rfl⟩

end CodecServer.Ambe3K.QueueWorker
