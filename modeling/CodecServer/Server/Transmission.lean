import CodecServer.Tenancy
import CodecServer.Ambe3K.QueueWorker
import CodecServer.Server.CodecSetup

/-! From the clients to the wire: the handlers of all connections, and the worker of each device that
writes what they queue. What is written to a device is what the clients of its channels have asked
for, in order, and the packets of two sessions on a channel do not mix. -/
namespace CodecServer.Server
open Function CodecServer.Ownership CodecServer.Tenancy CodecServer.Transition CodecServer.Ambe3K
  CodecServer.Ambe3K.Protocol

variable {π ρ : Type}

namespace State
variable {s t u : State π}

/-- Sessions may have ended since, and none has started. -/
structure Ends (s t : State π) : Prop where
  sessions : ∀ p k, t.sessions p = some k → s.sessions p = some k
  indexed : Indexed s.devices → Indexed t.devices
  codecs : ∀ i j, codecAt t.devices i j = codecAt s.devices i j

theorem Ends.refl (s : State π) : Ends s s := ⟨fun _ _ h => h,id,fun _ _ => rfl⟩

theorem Ends.trans (h : Ends s t) (h' : Ends t u) : Ends s u :=
  ⟨fun p k hk => h.sessions p k (h'.sessions p k hk),h'.indexed ∘ h.indexed,
    fun i j => (h'.codecs i j).trans (h.codecs i j)⟩

theorem ends_stopSession (s : State π) (conn : ℕ) : Ends s (s.stopSession conn) :=
  ⟨fun _ _ => sessions_stopSession,fun h => indexed_stopSession h conn,codecAt_stopSession s conn⟩

end State

namespace Service
variable {s t : Service π}

theorem ends_destroy (s : Service π) (conn : ℕ) : s.server.Ends (s.destroy conn).server :=
  State.ends_stopSession s.server conn

theorem ends_leave (s : Service π) (conn : ℕ) : s.server.Ends (s.leave conn).server :=
  (State.ends_stopSession s.server conn).trans (State.ends_stopSession _ conn)

/-- What the end of a connection leaves as it is. -/
structure Others (conn : ℕ) (s t : Service π) : Prop where
  ends : s.server.Ends t.server
  log : t.log = s.log
  phase : ∀ p ≠ conn, t.phase p = s.phase p
  gone : s.phase conn = .gone → t.phase conn = .gone

theorem others_destroy (s : Service π) (conn : ℕ) : Others conn s (s.destroy conn) :=
  ⟨ends_destroy s conn,rfl,fun _ hp => update_of_ne hp _ _,fun _ => update_self ..⟩

theorem others_leave (s : Service π) (conn : ℕ) : Others conn s (s.leave conn) :=
  ⟨ends_leave s conn,rfl,fun _ hp => update_of_ne hp _ _,fun _ => update_self ..⟩

theorem others_resume (s : Service π) (conn : ℕ) : Others conn s (s.resume conn) := by
  unfold resume
  split_ifs
  · exact ⟨.refl _,rfl,fun _ _ => rfl,id⟩
  · exact others_leave s conn

/-- A message has been handled: sessions may have ended after it, and it is on record, unless the
connection is gone. -/
structure Handled (s : Service π) (conn : ℕ) (outcome : Outcome π) (t : Service π) : Prop where
  ends : ∃ server, outcome.next = some server ∧ server.Ends t.server
  phase : ∀ p ≠ conn, t.phase p = s.phase p
  log : ∀ p ≠ conn, t.log p = s.log p
  recorded : t.phase conn ≠ .gone →
    (t.log conn).flatMap Entry.queued = (s.log conn).flatMap Entry.queued ++ outcome.queued

theorem handled_resume {conn : ℕ} {message : Message} {outcome : Outcome π} {server : State π}
    {entry : Entry π} (hserver : outcome.next = some server) (hentry : entry.queued = outcome.queued) :
    Handled s conn outcome (((s.handled conn message server).record conn entry).resume conn) := by
  have hothers := others_resume ((s.handled conn message server).record conn entry) conn
  refine ⟨⟨server,hserver,hothers.ends⟩,hothers.phase,fun p hp => ?_,fun _ => ?_⟩
  · rw [hothers.log]
    exact update_of_ne hp _ _
  · rw [hothers.log]
    change (update s.log conn (s.log conn ++ [entry]) conn).flatMap Entry.queued = _
    rw [update_self,List.flatMap_append,List.flatMap_singleton,hentry]

theorem handled_receive {conn : ℕ} {fresh : RateP} {message : Message} {sent : Bool}
    (h : s.receive conn fresh message sent = some t) :
    Handled s conn (s.server.processMessage conn fresh message) t := by
  unfold receive at h
  split at h
  · rename_i response queued server hout
    split_ifs at h
    · obtain rfl := Option.some.inj h
      apply handled_resume
      · rw [hout]
        rfl
      · rw [hout]
        rfl
    · obtain rfl := Option.some.inj h
      have hothers := others_destroy (s.handled conn message server) conn
      refine ⟨⟨server,by rw [hout]; rfl,hothers.ends⟩,hothers.phase,fun _ _ => rfl,fun hgone => ?_⟩
      exact absurd (update_self ..) hgone
  · rename_i queued server hout
    obtain rfl := Option.some.inj h
    apply handled_resume
    · rw [hout]
      rfl
    · rw [hout]
      rfl
  · cases h
  · cases h

/-- The client whose message the event is, if it is served. -/
def outcome (s : Service π) : Event → Option (ℕ × Outcome π)
  | .message conn fresh message _ =>
    if s.phase conn = .serving then some (conn,s.server.processMessage conn fresh message) else none
  | _ => none

/-- An event handles a message, or concerns one connection without a message. -/
theorem step_effect {e : Event} (h : s.step e = some t) :
    (∃ conn o, s.outcome e = some (conn,o) ∧ Handled s conn o t) ∨
      (s.outcome e = none ∧ ∃ conn, Others conn s t) := by
  have hrefl : ∀ conn, Others conn s s := fun conn => ⟨.refl _,rfl,fun _ _ => rfl,id⟩
  cases e with
  | accept conn sent =>
    simp only [step] at h
    refine Or.inr ⟨rfl,conn,?_⟩
    split at h
    · rename_i habsent
      obtain rfl := Option.some.inj h
      split_ifs
      · refine ⟨.refl _,rfl,fun p hp => update_of_ne hp _ _,fun hgone => ?_⟩
        cases habsent.symm.trans hgone
      · exact others_destroy s conn
    · exact Option.some.inj h ▸ hrefl conn
  | message conn fresh message sent =>
    simp only [step] at h
    split at h
    · rename_i hserving
      exact Or.inl ⟨conn,_,if_pos hserving,handled_receive h⟩
    · rename_i hserving
      exact Or.inr ⟨if_neg hserving,conn,Option.some.inj h ▸ hrefl conn⟩
  | readerEnds conn =>
    simp only [step] at h
    refine Or.inr ⟨rfl,conn,?_⟩
    split at h
    · exact Option.some.inj h ▸ hrefl conn
    · obtain rfl := Option.some.inj h
      exact ⟨.refl _,rfl,fun _ _ => rfl,id⟩
  | disconnect conn =>
    simp only [step] at h
    refine Or.inr ⟨rfl,conn,?_⟩
    split at h
    · obtain rfl := Option.some.inj h
      exact others_leave s conn
    · exact Option.some.inj h ▸ hrefl conn

end Service

/-- A packet, the message that it has been queued for, and the session that the client has had then:
its device and the number of its channel. -/
structure Order where
  message : Message
  packet : Outgoing
  session : Option (ℕ × Byte)

/-- A packet that a client has queued to a device. The channel of the device that it is for is the one
that is written in it. -/
abbrev Job := Use ℕ (ℕ × Byte) Order

namespace Transmission

/-- The device and the number of the channel of each session. -/
def held (server : Server.State π) (conn : ℕ) : Option (ℕ × Byte) :=
  (server.sessions conn).map fun k => (k.1,BitVec.ofNat 8 k.2)

/-- The server, the worker of each device, and all jobs so far. The requests of the clients are
numbered; `number` is that of the last one of each client. -/
structure State (π ρ : Type) where
  service : Service π
  worker : ℕ → QueueWorker.State Job ρ := fun _ => {}
  jobs : List Job := []
  number : ℕ → ℕ := fun _ => 0
  next : ℕ := 0

/-- Something happens to a connection, or to the worker of a device. -/
inductive Event (ρ : Type)
  | client (e : Service.Event)
  | device (i : ℕ) (e : QueueWorker.Event Job ρ)

namespace State

def start (counts : List ℕ) : State π ρ := {service := .start counts}

/-- A client that is served and makes a request gets the next number. -/
def renumber (s : State π ρ) : Service.Event → State π ρ
  | .message conn _ (.request _ _) _ =>
    if s.service.phase conn = .serving then
      {s with number := update s.number conn s.next, next := s.next+1}
    else s
  | _ => s

/-- The jobs that an event makes. -/
def jobsOf (s : State π ρ) : Service.Event → List Job
  | .message conn fresh message _ =>
    if s.service.phase conn = .serving then
      let outcome := s.service.server.processMessage conn fresh message
      let session := outcome.next.bind fun server => held server conn
      outcome.queued.map fun (i,packet) =>
        ⟨conn,(i,packet.channelNo),s.number conn,message,packet,session⟩
    else []
  | _ => []

/-- `Device::writePacket`, which waits as long as the queue is full. -/
def queue (s : State π ρ) (job : Job) : Option (State π ρ) :=
  (QueueWorker.push (s.worker job.key.1) job).map fun worker =>
    {s with worker := update s.worker job.key.1 worker, jobs := s.jobs ++ [job]}

/-- A handler can go on once its packets are queued; nobody else pushes to the queue. -/
def step (s : State π ρ) : Event ρ → Option (State π ρ)
  | .client e => do
    let service ← s.service.step e
    ((s.renumber e).jobsOf e).foldlM queue {s.renumber e with service := service}
  | .device _ (.push _) => none
  | .device i e =>
    (QueueWorker.step (s.worker i) e).map fun worker => {s with worker := update s.worker i worker}

/-- The jobs for a device. -/
def jobsFor (s : State π ρ) (i : ℕ) : List Job := s.jobs.filter fun job => job.key.1 = i

/-- All packets that were queued, with their devices. -/
def queued (s : State π ρ) : List (ℕ × Outgoing) := s.jobs.map fun job => (job.key.1,job.work.packet)

/-- What a client has queued. -/
def queuedBy (s : State π ρ) (conn : ℕ) : List (ℕ × Outgoing) :=
  (s.jobs.filter fun job => job.client = conn).map fun job => (job.key.1,job.work.packet)

end State

section
variable {s t : State π ρ}

/-- Each worker has been given the jobs for its device, all of them unless its queue is gone. -/
structure Given (s : State π ρ) (i : ℕ) : Prop where
  inv : QueueWorker.Inv (s.worker i)
  jobs : (s.worker i).pushed <+: s.jobsFor i
  all : (s.worker i).queue.run = true → (s.worker i).pushed = s.jobsFor i

theorem given_queue (hs : ∀ i, Given s i) {job : Job} (h : s.queue job = some t) :
    (t.service = s.service ∧ t.number = s.number ∧ t.next = s.next ∧ t.jobs = s.jobs ++ [job]) ∧
      ∀ i, Given t i := by
  obtain ⟨worker,hpush,rfl⟩ := Option.map_eq_some_iff.mp h
  refine ⟨⟨rfl,rfl,rfl,rfl⟩,fun i => ?_⟩
  have hi := hs i
  by_cases hjob : job.key.1 = i
  · subst hjob
    have hjobs : State.jobsFor {s with worker := update s.worker job.key.1 worker,jobs := s.jobs ++ [job]}
        job.key.1 = s.jobsFor job.key.1 ++ [job] := by
      simp [State.jobsFor]
    refine ⟨?_,?_,?_⟩
    · simp only [update_self]
      exact QueueWorker.inv_push hi.inv hpush
    · rw [hjobs]
      simp only [update_self]
      rcases QueueWorker.push_cases hpush with ⟨rfl,-⟩ | ⟨hpushed,hrun,-⟩
      · exact hi.jobs.trans (List.prefix_append _ _)
      · rw [hpushed,hi.all hrun]
    · rw [hjobs]
      simp only [update_self]
      intro hrun'
      rcases QueueWorker.push_cases hpush with ⟨rfl,hgone⟩ | ⟨hpushed,hrun,-⟩
      · cases hrun'.symm.trans hgone
      · rw [hpushed,hi.all hrun]
  · have hjobs : State.jobsFor {s with worker := update s.worker job.key.1 worker,jobs := s.jobs ++ [job]}
        i = s.jobsFor i := by
      simp [State.jobsFor,hjob]
    refine ⟨?_,?_,?_⟩
    · simp only [update_of_ne (Ne.symm hjob)]
      exact hi.inv
    · rw [hjobs]
      simp only [update_of_ne (Ne.symm hjob)]
      exact hi.jobs
    · rw [hjobs]
      simp only [update_of_ne (Ne.symm hjob)]
      exact hi.all

theorem given_queue_all (hs : ∀ i, Given s i) {jobs : List Job}
    (h : jobs.foldlM State.queue s = some t) :
    (t.service = s.service ∧ t.number = s.number ∧ t.next = s.next ∧ t.jobs = s.jobs ++ jobs) ∧
      ∀ i, Given t i := by
  induction jobs generalizing s with
  | nil =>
    obtain rfl := Option.some.inj h
    exact ⟨⟨rfl,rfl,rfl,(List.append_nil _).symm⟩,hs⟩
  | cons job jobs ih =>
    rw [List.foldlM_cons] at h
    obtain ⟨u,hu,hrest⟩ := Option.bind_eq_some_iff.mp h
    obtain ⟨⟨hservice,hnumber,hnext,hjobs⟩,hgiven⟩ := given_queue hs hu
    obtain ⟨⟨hservice',hnumber',hnext',hjobs'⟩,hgiven'⟩ := ih hgiven hrest
    refine ⟨⟨hservice'.trans hservice,hnumber'.trans hnumber,hnext'.trans hnext,?_⟩,hgiven'⟩
    rw [hjobs',hjobs,List.append_assoc]
    rfl

theorem given_device (hs : ∀ i, Given s i) {i : ℕ} {e : QueueWorker.Event Job ρ}
    {worker : QueueWorker.State Job ρ} (he : ∀ packet, e ≠ .push packet)
    (h : QueueWorker.step (s.worker i) e = some worker) (k : ℕ) :
    Given {s with worker := update s.worker i worker} k := by
  have hk := hs k
  by_cases hik : k = i
  · subst hik
    obtain ⟨hpushed,hrun⟩ := QueueWorker.step_effect he h
    refine ⟨?_,?_,?_⟩
    · simp only [update_self]
      exact QueueWorker.inv_step _ e _ hk.inv h
    · simp only [update_self,hpushed]
      exact hk.jobs
    · simp only [update_self,hpushed]
      exact fun hrun' => hk.all (hrun hrun')
  · refine ⟨?_,?_,?_⟩
    · simp only [update_of_ne hik]
      exact hk.inv
    · simp only [update_of_ne hik]
      exact hk.jobs
    · simp only [update_of_ne hik]
      exact hk.all

end

section
variable {server server' : Server.State π} {counts : List ℕ}

theorem held_eq_some {conn : ℕ} {k : ℕ × Byte} (h : held server conn = some k) :
    ∃ j, server.sessions conn = some (k.1,j) ∧ k.2 = BitVec.ofNat 8 j := by
  obtain ⟨⟨i,j⟩,hconn,rfl⟩ := Option.map_eq_some_iff.mp h
  exact ⟨j,hconn,rfl⟩

theorem held_of_ends (h : server.Ends server') {conn : ℕ} {k : ℕ × Byte}
    (hk : held server' conn = some k) : held server conn = some k := by
  obtain ⟨j,hconn,hj⟩ := held_eq_some hk
  rw [held,h.sessions conn _ hconn,Option.map_some,← hj]

/-- The channels of a device are few, so that the number of a channel tells which it is. -/
theorem lt_of_session (hcounts : ∀ n ∈ counts, n ≤ 4) (hs : server.Accounted)
    (hshape : Server.State.shape server.devices = counts) {conn i j : ℕ}
    (h : server.sessions conn = some (i,j)) : j < 4 := by
  obtain ⟨n,hn,hj⟩ := (Server.State.isSome_channelAt_iff ..).mp (hs.valid conn i j h)
  rw [hshape] at hn
  exact Nat.lt_of_lt_of_le hj (hcounts n (List.mem_of_getElem? hn))

theorem held_unique (hcounts : ∀ n ∈ counts, n ≤ 4) (hs : server.Accounted)
    (hshape : Server.State.shape server.devices = counts) {p q : ℕ} {k : ℕ × Byte}
    (hp : held server p = some k) (hq : held server q = some k) : p = q := by
  obtain ⟨j,hpj,hj⟩ := held_eq_some hp
  obtain ⟨j',hqj,hj'⟩ := held_eq_some hq
  have hlt := lt_of_session hcounts hs hshape hpj
  have hlt' := lt_of_session hcounts hs hshape hqj
  have heq : j = j' := by
    have := congrArg BitVec.toNat (hj.symm.trans hj')
    rw [BitVec.toNat_ofNat,BitVec.toNat_ofNat] at this
    omega
  subst heq
  exact hs.unique hpj hqj

end

/-- The jobs are on record, and are what the messages call for. -/
structure Inv (counts : List ℕ) (s : State π ρ) : Prop where
  shaped : s.service.Shaped counts
  indexed : State.Indexed s.service.server.devices
  recorded : Recorded (held s.service.server) s.number s.next s.jobs
  calls : ∀ job ∈ s.jobs, job.work.message.Calls job.key.2 job.work.packet ∧ job.key.2 ≤ 3 ∧
    job.work.session = some job.key
  queued : ∀ conn, s.service.phase conn ≠ .gone →
    s.queuedBy conn = (s.service.log conn).flatMap Entry.queued
  codecs : ∀ i j, j < 4 → ∀ codec, State.codecAt s.service.server.devices i j = some codec →
    codec = told i (BitVec.ofNat 8 j) s.queued (0,none)
  given : ∀ i, Given s i

section
variable {counts : List ℕ} {s t : State π ρ} {server : Server.State π}

theorem renumber_eq (s : State π ρ) (e : Service.Event) :
    (s.renumber e).service = s.service ∧ (s.renumber e).jobs = s.jobs ∧
      (s.renumber e).worker = s.worker := by
  unfold State.renumber
  split
  · split_ifs <;> exact ⟨rfl,rfl,rfl⟩
  · exact ⟨rfl,rfl,rfl⟩

/-- Without a message that is handled, there is nothing to queue. -/
theorem idle_of_outcome {e : Service.Event} (h : s.service.outcome e = none) :
    s.renumber e = s ∧ s.jobsOf e = [] := by
  cases e with
  | message conn fresh message sent =>
    have hserving : ¬ s.service.phase conn = .serving := by
      intro hserving
      cases (if_pos hserving).symm.trans h
    refine ⟨?_,if_neg hserving⟩
    cases message with
    | request codec settings => exact if_neg hserving
    | check codec | channelData data | speechData data | renegotiation settings => rfl
  | accept conn sent | readerEnds conn | disconnect conn => exact ⟨rfl,rfl⟩

theorem exists_message {e : Service.Event} {conn : ℕ} {o : Outcome π}
    (h : s.service.outcome e = some (conn,o)) :
    ∃ fresh message sent, e = .message conn fresh message sent ∧
      s.service.phase conn = .serving ∧ o = s.service.server.processMessage conn fresh message := by
  cases e with
  | message conn' fresh message sent =>
    simp only [Service.outcome] at h
    split_ifs at h with hserving
    cases h
    exact ⟨fresh,message,sent,rfl,hserving,rfl⟩
  | accept conn sent | readerEnds conn | disconnect conn => cases h

/-- After a message, the numbers fit the sessions again. -/
theorem recorded_renumber (hcounts : ∀ n ∈ counts, n ≤ 4) (hs : Inv counts s) {conn : ℕ}
    {fresh : RateP} {message : Message} (sent : Bool) (hserving : s.service.phase conn = .serving)
    (h : (s.service.server.processMessage conn fresh message).next = some server) :
    Recorded (held server) (s.renumber (.message conn fresh message sent)).number
      (s.renumber (.message conn fresh message sent)).next s.jobs := by
  have haccounted := hs.shaped.sound.accounted
  cases message with
  | request codec settings =>
    obtain ⟨hserver,hothers⟩ := Server.State.accounted_processMessage haccounted h
    have hshape := (Server.State.shape_processMessage haccounted h).trans hs.shaped.shape
    have hheld : ∀ q ≠ conn, held server q = held s.service.server q := by
      intro q hq
      rw [held,held,hothers q hq]
    simp only [State.renumber,if_pos hserving]
    refine hs.recorded.renew conn hheld fun k hk q hq hqk => hq ?_
    rw [← hheld q hq] at hqk
    exact held_unique hcounts hserver hshape hqk hk
  | renegotiation settings =>
    obtain ⟨-,hsessions⟩ := Server.State.accounted_processRenegotiation haccounted h
    have hheld : held server = held s.service.server := by
      funext q
      rw [held,held,hsessions]
    exact hheld ▸ hs.recorded
  | check codec =>
    obtain rfl := Server.State.next_processCheck h
    exact hs.recorded
  | channelData data | speechData data =>
    obtain rfl := Server.State.next_processData h
    exact hs.recorded

theorem inv_idle (hs : Inv counts s) {service : Service π} {e : Service.Event}
    (h : s.service.step e = some service) {conn : ℕ} (hothers : Service.Others conn s.service service) :
    Inv counts {s with service := service} where
  shaped := Service.shaped_step counts _ e _ hs.shaped h
  indexed := hothers.ends.indexed hs.indexed
  recorded := hs.recorded.weaken fun _ _ hk => held_of_ends hothers.ends hk
  calls := hs.calls
  queued p hp := by
    have hold : s.service.phase p ≠ .gone := by
      intro hgone
      by_cases hconn : p = conn
      · subst hconn
        exact hp (hothers.gone hgone)
      · exact hp ((hothers.phase p hconn).trans hgone)
    simp only [hothers.log]
    exact hs.queued p hold
  codecs i j hj codec hcodec := by
    rw [hothers.ends.codecs] at hcodec
    exact hs.codecs i j hj codec hcodec
  given i := ⟨(hs.given i).inv,(hs.given i).jobs,(hs.given i).all⟩

/-- The jobs that a message makes are for the channel that the client has then. -/
theorem jobsOf_message (hcounts : ∀ n ∈ counts, n ≤ 4) (hs : Inv counts s) {conn : ℕ}
    {fresh : RateP} {message : Message} (sent : Bool) (hserving : s.service.phase conn = .serving)
    (h : (s.service.server.processMessage conn fresh message).next = some server) (job : Job)
    (hjob : job ∈ (s.renumber (.message conn fresh message sent)).jobsOf
      (.message conn fresh message sent)) :
    held server conn = some job.key ∧ job.client = conn ∧
      job.number = (s.renumber (.message conn fresh message sent)).number conn ∧
      job.work.message.Calls job.key.2 job.work.packet ∧ job.key.2 ≤ 3 ∧
      job.work.session = some job.key := by
  have haccounted := hs.shaped.sound.accounted
  have hshape := (Server.State.shape_processMessage haccounted h).trans hs.shaped.shape
  have hserver := (Server.State.accounted_processMessage haccounted h).1
  obtain ⟨-,hqueued⟩ := Server.State.indexed_processMessage haccounted.valid hs.indexed h
  simp only [State.jobsOf,(renumber_eq s _).1,if_pos hserving] at hjob
  obtain ⟨⟨i,packet⟩,hmem,rfl⟩ := List.mem_map.mp hjob
  obtain ⟨j,hconn,hcalls⟩ := hqueued i packet hmem
  have hno := Message.channelNo_of_calls hcalls
  have hlt := lt_of_session hcounts hserver hshape hconn
  have hheld : held server conn = some (i,packet.channelNo) := by
    rw [held,hconn,hno]
    rfl
  refine ⟨hheld,rfl,rfl,?_,?_,?_⟩
  · rw [hno]
    exact hcalls
  · rw [hno,BitVec.le_def,BitVec.toNat_ofNat]
    change j%256 ≤ 3
    omega
  · simp only [h,Option.bind_some]
    exact hheld

theorem jobsOf_queued (hserving : s.service.phase conn = .serving) (fresh : RateP) (message : Message)
    (sent : Bool) :
    ((s.renumber (.message conn fresh message sent)).jobsOf (.message conn fresh message sent)).map
        (fun job => (job.key.1,job.work.packet)) =
      (s.service.server.processMessage conn fresh message).queued := by
  simp only [State.jobsOf,(renumber_eq s _).1,if_pos hserving,List.map_map]
  exact List.map_id'' (fun _ => rfl) _

theorem queuedBy_append (s : State π ρ) {u : State π ρ} {conn : ℕ} {jobs : List Job}
    (hu : u.jobs = s.jobs ++ jobs) (hjobs : ∀ job ∈ jobs, job.client = conn) :
    u.queuedBy conn = s.queuedBy conn ++ jobs.map (fun job => (job.key.1,job.work.packet)) ∧
      ∀ p ≠ conn, u.queuedBy p = s.queuedBy p := by
  constructor
  · rw [State.queuedBy,hu,List.filter_append,List.map_append,
      List.filter_eq_self.mpr fun job hjob => decide_eq_true (hjobs job hjob)]
    rfl
  · intro p hp
    have hnone : jobs.filter (fun job => job.client = p) = [] :=
      List.filter_eq_nil_iff.mpr fun job hjob heq =>
        hp ((of_decide_eq_true heq).symm.trans (hjobs job hjob))
    rw [State.queuedBy,hu,List.filter_append,hnone,List.append_nil]
    rfl

theorem inv_message (hcounts : ∀ n ∈ counts, n ≤ 4) (hs : Inv counts s) {conn : ℕ} {fresh : RateP}
    {message : Message} {sent : Bool} (hserving : s.service.phase conn = .serving)
    {service : Service π}
    (h : s.service.step (.message conn fresh message sent) = some service)
    (hhandled : Service.Handled s.service conn
      (s.service.server.processMessage conn fresh message) service)
    (hqueue : ((s.renumber (.message conn fresh message sent)).jobsOf
      (.message conn fresh message sent)).foldlM State.queue
      {s.renumber (.message conn fresh message sent) with service := service} = some t) :
    Inv counts t := by
  obtain ⟨server,hserver,hends⟩ := hhandled.ends
  obtain ⟨hservice,hold,hworker⟩ := renumber_eq s (.message conn fresh message sent)
  have hgiven : ∀ i, Given {s.renumber (.message conn fresh message sent) with service := service} i := by
    intro i
    obtain ⟨hinv,hjobs,hall⟩ := hs.given i
    refine ⟨?_,?_,?_⟩
    · simp only [hworker]
      exact hinv
    · simp only [hworker,State.jobsFor,hold]
      exact hjobs
    · simp only [hworker,State.jobsFor,hold]
      exact hall
  obtain ⟨⟨htservice,htnumber,htnext,htjobs⟩,htgiven⟩ := given_queue_all hgiven hqueue
  simp only [hold] at htservice htnumber htnext htjobs
  have hjobs := jobsOf_message hcounts hs sent hserving hserver
  have hindexed := Server.State.indexed_processMessage hs.shaped.sound.accounted.valid hs.indexed hserver
  have hby := queuedBy_append s htjobs fun job hjob => (hjobs job hjob).2.1
  have hshape := (Server.State.shape_processMessage hs.shaped.sound.accounted hserver).trans hs.shaped.shape
  have haccounted := (Server.State.accounted_processMessage hs.shaped.sound.accounted hserver).1
  refine ⟨?_,?_,?_,?_,?_,?_,htgiven⟩
  · rw [htservice]
    exact Service.shaped_step counts _ _ _ hs.shaped h
  · rw [htservice]
    exact hends.indexed hindexed.1
  · rw [htservice,htnumber,htnext,htjobs]
    have hrecorded := recorded_renumber hcounts hs sent hserving hserver
    refine (hrecorded.uses fun job hjob => ?_).weaken fun _ _ hk => held_of_ends hends hk
    obtain ⟨hheld,hclient,hnumber,-⟩ := hjobs job hjob
    rw [hclient]
    exact ⟨hheld,hnumber⟩
  · rw [htjobs]
    intro job hjob
    rcases List.mem_append.mp hjob with hjob | hjob
    · exact hs.calls job hjob
    · exact (hjobs job hjob).2.2.2
  · intro p hp
    rw [htservice] at hp ⊢
    by_cases hconn : p = conn
    · subst hconn
      have hlive : s.service.phase p ≠ .gone := by
        rw [hserving]
        nofun
      rw [hby.1,hhandled.recorded hp,hs.queued p hlive,jobsOf_queued hserving]
    · rw [hby.2 p hconn,hhandled.log p hconn]
      rw [hhandled.phase p hconn] at hp
      exact hs.queued p hp
  · intro i j hj codec hcodec
    have htells := Server.State.tells_processMessage hs.shaped.sound.accounted.valid hs.indexed
      (fun i j => lt_of_session hcounts haccounted hshape) hserver i j hj
    rw [htservice,hends.codecs,htells] at hcodec
    obtain ⟨codec,hold,rfl⟩ := Option.map_eq_some_iff.mp hcodec
    rw [State.queued,htjobs,List.map_append,told_append,jobsOf_queued hserving,
      hs.codecs i j hj codec hold]
    rfl

theorem inv_step (hcounts : ∀ n ∈ counts, n ≤ 4) (s : State π ρ) (e : Event ρ) (t : State π ρ)
    (hs : Inv counts s) (h : s.step e = some t) : Inv counts t := by
  cases e with
  | client e =>
    obtain ⟨service,hservice,hqueue⟩ := Option.bind_eq_some_iff.mp h
    rcases Service.step_effect hservice with ⟨conn,o,ho,hhandled⟩ | ⟨hnone,conn,hothers⟩
    · obtain ⟨fresh,message,sent,rfl,hserving,rfl⟩ := exists_message ho
      exact inv_message hcounts hs hserving hservice hhandled hqueue
    · obtain ⟨hsame,hjobs⟩ := idle_of_outcome hnone
      rw [hsame,hjobs] at hqueue
      obtain rfl := Option.some.inj hqueue
      exact inv_idle hs hservice hothers
  | device i e =>
    have hdevice : ∀ worker, (∀ packet, e ≠ .push packet) →
        QueueWorker.step (s.worker i) e = some worker →
        Inv counts {s with worker := update s.worker i worker} := fun worker he hstep =>
      ⟨hs.shaped,hs.indexed,hs.recorded,hs.calls,hs.queued,hs.codecs,given_device hs.given he hstep⟩
    cases e with
    | push job => cases h
    | work | receive response =>
      obtain ⟨worker,hstep,rfl⟩ := Option.map_eq_some_iff.mp h
      exact hdevice worker nofun hstep
    | stop | close =>
      obtain rfl := Option.some.inj h
      exact hdevice _ nofun rfl

theorem inv_start (counts : List ℕ) : Inv counts (State.start counts : State π ρ) where
  shaped := Service.shaped_start counts
  indexed := by
    intro d hd
    obtain ⟨n,-,rfl⟩ := List.mem_map.mp hd
    exact Device.indexed_createChannels n
  recorded := .init
  calls := nofun
  queued _ _ := rfl
  codecs i j _ codec hcodec := by
    obtain ⟨c,hc,rfl⟩ := Option.map_eq_some_iff.mp hcodec
    obtain ⟨d,hd,hj⟩ := Option.bind_eq_some_iff.mp hc
    obtain ⟨n,-,rfl⟩ := List.mem_map.mp (List.mem_of_getElem? hd)
    obtain ⟨k,-,rfl⟩ := List.mem_map.mp (List.mem_of_getElem? hj)
    rfl
  given _ := ⟨QueueWorker.inv_init,List.prefix_rfl,fun _ => rfl⟩

/-- In every run, what is written to a device is, in order and without gaps, what the clients of its
channels have queued for it: all of it, but for what the worker and its queue still have, unless they
are stopped. Each packet is one that its message calls for, can be sent, and has gone to the device and
bears the number of the channel of the session that its client had; those of two sessions on a channel
do not mix. What a client has queued is what its messages on record have, as long as it is not
gone. -/
theorem run_transmitted (counts : List ℕ) (hcounts : ∀ n ∈ counts, n ≤ 4) (es : List (Event ρ))
    (s : State π ρ) (h : Transition.run State.step (State.start counts) es = some s) :
    (∀ i, (s.worker i).written <+: s.jobsFor i ∧
      ((s.worker i).dorun = true → (s.worker i).queue.run = true →
        s.jobsFor i =
          (s.worker i).written ++ (QueueWorker.inHand (s.worker i) ++ (s.worker i).queue.items)) ∧
      (∀ job ∈ (s.worker i).written, job.work.session = some (i,job.work.packet.channelNo) ∧
        job.work.message.Calls job.work.packet.channelNo job.work.packet ∧
        Sends job.work.packet job.work.packet.fields) ∧
      Ordered (s.worker i).written) ∧
    ∀ conn, s.service.phase conn ≠ .gone →
      s.queuedBy conn = (s.service.log conn).flatMap Entry.queued := by
  have hs := run_invariant (inv_step hcounts) (inv_start counts) h
  refine ⟨fun i => ?_,hs.queued⟩
  have hgiven := hs.given i
  have hwritten : (s.worker i).written <+: s.jobsFor i := hgiven.inv.order.trans hgiven.jobs
  refine ⟨hwritten,fun hdorun hrun => ?_,fun job hjob => ?_,?_⟩
  · have hpc : (s.worker i).pc ≠ .stopped := by
      intro hstopped
      cases hdorun.symm.trans (hgiven.inv.stopped hstopped)
    rw [← hgiven.all hrun,hgiven.inv.kept hpc]
  · have hfor := hwritten.subset hjob
    obtain ⟨hcalls,hle,hsession⟩ := hs.calls job (List.mem_of_mem_filter hfor)
    have hdevice : job.key.1 = i := by simpa using (List.mem_filter.mp hfor).2
    have hkey : job.key = (i,job.work.packet.channelNo) :=
      Prod.ext hdevice (Message.channelNo_of_calls hcalls).symm
    rw [hsession,hkey]
    rw [hkey] at hcalls hle
    exact ⟨rfl,hcalls,Message.sends_of_calls hcalls hle⟩
  · apply hs.recorded.ordered.sublist
    exact hwritten.sublist.trans List.filter_sublist

/-- Two clients of a device with three channels, which ask for a rate and send data; the worker writes
three of their four packets. -/
def pair : List (Event Unit) :=
  [.client (.accept 0 true),.client (.accept 1 true),
    .client (.message 0 (.replicate 6 0) (.request State.ambe {args := [(Settings.indexName,[0x33])]}) true),
    .client (.message 1 (.replicate 6 0) (.request State.ambe {args := [(Settings.indexName,[0x34])]}) true),
    .client (.message 1 (.replicate 6 0) (.speechData [1,2]) true),
    .client (.message 0 (.replicate 6 0) (.channelData [3]) true)] ++
    .replicate 13 (.device 0 .work)

theorem run_transmitted_pair : ∃ s : State Packet Unit,
    Transition.run State.step (State.start [3]) pair = some s ∧
      (s.worker 0).written.map (fun job => (job.client,job.work.packet)) =
        [(0,.setupIndex 0 3 0),(1,.setupIndex 1 4 0),(1,.speech 1 [1,2] 1)] ∧
      Ordered (s.worker 0).written :=
  ⟨_,rfl,rfl,((run_transmitted [3] (by decide) pair _ rfl).1 0).2.2.2⟩

end

end Transmission
end CodecServer.Server
