import Mathlib.Data.List.Induction
import CodecServer.Ambe3K.Isolation
import CodecServer.Ambe3K.Protocol.Extent
import CodecServer.Ambe3K.Protocol.Samples
import CodecServer.Server.ReaderLoop

/-! What `ClientConnection::read` sends to the client of the packets that are delivered to its
channel. Their payload is what `Channel::read` makes of them, and a packet need not have one. -/
namespace CodecServer.Server.Forwarding
open CodecServer.Transition CodecServer.Memory CodecServer.Memory.Access
open CodecServer.Ambe3K CodecServer.Ambe3K.Protocol CodecServer.Server

/-- What `Channel::read` stores of a packet; a sample is stored in the byte order of the host. -/
def payload (packet : Packet) : Access (List Byte) :=
  match packet.kind with
  | .speech _ => do
    let (samples,_) ← packet.getSpeechData
    return samples.flatMap hostOrder
  | .channel _ => Prod.fst <$> packet.getChannelData
  | .control _ => return []

/-- There is a data field in the packet, and it has a sample or a bit. -/
def HasData (packet : Packet) : Prop :=
  match packet.kind with
  | .speech (some (_,samples)) => samples ≠ 0
  | .channel (some (_,bits)) => bits ≠ 0
  | _ => False

/-- A `SpeechPacket` or a `ChannelPacket` that `parse` has returned. -/
structure Received (packet : Packet) : Prop where
  parsed : ∃ bytes behind, 4 ≤ bytes.length ∧
    (Packet.parse (bytes ++ behind) bytes.length).result = .ok (some packet)
  data : packet.kind.type ≠ .control

/-- The two threads of a connection with a session whose channel has just been reserved: the main
loop waits for the client, which is connected, and the reader starts. The packets delivered and the
payloads sent are recorded, and whether a send has failed. -/
structure State where
  connection : ReaderLoop.State :=
    { main := .receive
      session := some (.filling (.new 10))
      reader := some .test }
  delivered : List Packet := []
  sent : List (List Byte) := []
  failed : Bool := false

/-- A packet for the channel, while there is room in its queue or after the queue has been shut
down; the shutdown; a step of the reader between two sends; a `sendMessage` of the reader. -/
inductive Event
  | deliver (packet : Packet)
  | shutDown
  | reader
  | send (sent : Bool)
  deriving DecidableEq

namespace State

/-- The queue of the channel is full. -/
def full (s : State) : Bool :=
  match s.connection.session with
  | some (.filling queue) => queue.full
  | _ => false

def deliver (s : State) (packet : Packet) : Option State :=
  if s.full then none
  else
    match (payload packet).result with
    | .error _ => none
    | .ok payload =>
      some
        { s with
          connection := s.connection.deliver payload
          delivered := s.delivered ++ [packet] }

def reader (s : State) : Option State :=
  s.connection.readerStep.map fun connection => {s with connection := connection}

def send (s : State) (sent : Bool) : Option State :=
  match s.connection.reader with
  | some (.send payload) =>
    (s.connection.send sent).map fun connection =>
      { s with
        connection := connection
        sent := if sent then s.sent ++ [payload] else s.sent
        failed := s.failed || !sent }
  | _ => none

def step (s : State) : Event → Option State
  | .deliver packet => s.deliver packet
  | .shutDown => some {s with connection := s.connection.remove}
  | .reader => s.reader
  | .send sent => s.send sent

/-- The queue of the channel, until it is shut down. -/
def queue (s : State) : Option (BlockingQueue (List Byte)) :=
  match s.connection.session with
  | some (.filling queue) => some queue
  | _ => none

/-- The payloads that are due to the client. -/
def due (s : State) : List (List Byte) :=
  s.delivered.filterMap fun packet =>
    match (payload packet).result with
    | .ok payload => if payload = [] then none else some payload
    | .error _ => none

end State

/-- The payloads are sent in order, and as long as the queue is not shut down and no send has
failed, the reader comes to send all that are due. It has left its loop only if one of the two has
happened. -/
structure Served (s : State) : Prop where
  inOrder : s.sent <+: s.due
  goesOn : s.queue.isSome → s.failed = false → ∃ es t, (∀ e ∈ es, e = .reader ∨ e = .send true) ∧
    run State.step s es = some t ∧ t.sent = s.due
  left : s.connection.reader = some .done → s.queue = none ∨ s.failed = true

/-- In whatever order the packets are delivered, read and sent. -/
def Forwards (packets : List Packet) : Prop :=
  ∀ es s, run State.step {} es = some s → s.delivered <+: packets → Served s

section Payload
variable {p : Packet} {n : ℕ}

theorem hostOrder_length (samples : List (BitVec 16)) :
    (samples.flatMap hostOrder).length = samples.length*2 := by
  induction samples with
  | nil => rfl
  | cons w samples ih =>
    rw [List.flatMap_cons,List.length_append,ih,List.length_cons]
    simp only [hostOrder,List.length_cons,List.length_nil]
    omega

/-- The data of a packet can be read, as many bytes as `Channel::read` returns, and there is none
only if the packet says so. -/
theorem exists_payload (hp : p.FieldsInside n) (hlen : n ≤ p.data.length) :
    ∃ bytes, (payload p).result = .ok bytes ∧
      (Isolation.readSize p).result = .ok bytes.length ∧ (bytes = [] ↔ ¬ HasData p) := by
  rcases p with ⟨data,dataSize,checksum,channel,fields | speechD | chanD⟩
  · exact ⟨[],rfl,rfl,by simp [HasData]⟩
  · cases speechD with
    | none => exact ⟨[],rfl,rfl,by simp [HasData]⟩
    | some d =>
      have hin := (hp.inside (.speechD d.1 d.2) (by simp [Packet.fields,Kind.fields])).2
      obtain ⟨output,hlength,houtput⟩ := exists_safe_fieldSpeechData hin hlen
      refine ⟨output.flatMap hostOrder,?_,?_,?_⟩
      · exact (result_bind ..).mpr ⟨_,houtput.2,rfl⟩
      · rw [hostOrder_length,hlength]
        exact (result_map ..).mpr ⟨_,houtput.2,rfl⟩
      · rw [← List.length_eq_zero_iff,hostOrder_length,hlength]
        simp only [HasData,not_not]
        omega
  · cases chanD with
    | none => exact ⟨[],rfl,rfl,by simp [HasData]⟩
    | some d =>
      have hin := (hp.inside (.chanD d.1 d.2) (by simp [Packet.fields,Kind.fields])).2
      obtain ⟨output,hlength,houtput⟩ := exists_safe_fieldChannelData hin hlen
      refine ⟨output,?_,?_,?_⟩
      · exact (result_map ..).mpr ⟨_,houtput.2,rfl⟩
      · rw [hlength]
        exact (result_map ..).mpr ⟨_,houtput.2,rfl⟩
      · rw [← List.length_eq_zero_iff,hlength]
        simp only [HasData,not_not]
        omega

theorem Received.exists_payload (h : Received p) :
    ∃ bytes, (payload p).result = .ok bytes ∧ (bytes = [] ↔ ¬ HasData p) := by
  obtain ⟨bytes,behind,h4,hparse⟩ := h.parsed
  have hlen : bytes.length ≤ p.data.length := by
    rw [(parse_data h4 hparse).1,List.length_append]
    omega
  obtain ⟨output,houtput,-,hempty⟩ :=
    Forwarding.exists_payload (returned_fieldsInside h4 hparse).1 hlen
  exact ⟨output,houtput,hempty⟩

end Payload

/-- The payload that the reader has read and not sent yet. -/
def inFlight : Option ReaderLoop.Reader → List (List Byte)
  | some (.returned payload) => if payload = [] then [] else [payload]
  | some (.send payload) => [payload]
  | _ => []

/-- As long as the queue is not shut down and no send has failed, nothing that is due is missing,
and the reader is in its loop. -/
structure Flows (s : State) (queue : BlockingQueue (List Byte)) : Prop where
  open' : queue.run = true
  run : s.connection.run = true
  reader : s.connection.reader ≠ some .done ∧ s.connection.reader ≠ some (.returned [])
  items : [] ∉ queue.items
  due : s.due = s.sent ++ inFlight s.connection.reader ++ queue.items

structure Inv (s : State) : Prop where
  flows : ∀ queue, s.queue = some queue → s.failed = false → Flows s queue
  reader : s.connection.reader ≠ none ∧ s.connection.reader ≠ some (.send [])
  failed : s.failed = true → s.connection.run = false ∧
    (s.connection.reader = some .test ∨ s.connection.reader = some .done)
  inOrder : s.sent ++ inFlight s.connection.reader <+: s.due

section
variable {s t : State}

theorem inv_init : Inv {} where
  flows := by
    intro queue hqueue _
    obtain rfl := Option.some.inj hqueue
    exact ⟨rfl,rfl,⟨nofun,nofun⟩,nofun,rfl⟩
  reader := ⟨nofun,nofun⟩
  failed := nofun
  inOrder := List.prefix_rfl

theorem due_append {packet : Packet} {bytes : List Byte}
    (hbytes : (payload packet).result = .ok bytes)
    (hne : bytes ≠ []) (connection : ReaderLoop.State) :
    State.due {s with connection := connection, delivered := s.delivered ++ [packet]} =
      s.due ++ [bytes] := by
  simp [State.due,List.filterMap_append,hbytes,hne]

theorem queue_eq_some {queue : BlockingQueue (List Byte)} (h : s.queue = some queue) :
    s.connection.session = some (.filling queue) := by
  unfold State.queue at h
  split at h
  · rename_i hsession
    rw [hsession,Option.some.inj h]
  · cases h

/-- The queue takes what is delivered as long as there is room. -/
theorem deliver_of_room {queue : BlockingQueue (List Byte)} (hqueue : s.queue = some queue)
    (hroom : s.full = false) (bytes : List Byte) : ∃ queue', s.connection.deliver bytes =
      {s.connection with session := some (.filling queue')} ∧
        queue'.items = queue.items ++ [bytes] ∧ queue'.run = queue.run := by
  have hsession := queue_eq_some hqueue
  obtain ⟨-,queue',hpush⟩ | ⟨hfull,-⟩ := queue.push_nonblocking bytes
  · obtain ⟨hitems,-,hrun,-⟩ := BlockingQueue.push_eq_pushed hpush
    refine ⟨queue',?_,hitems,hrun⟩
    simp only [ReaderLoop.State.deliver,hsession,hpush]
  · simp only [State.full,hsession] at hroom
    rw [hroom] at hfull
    cases hfull

theorem deliver_of_gone (hqueue : s.queue = none) (bytes : List Byte) :
    s.connection.deliver bytes = s.connection := by
  unfold ReaderLoop.State.deliver
  split
  · rename_i queue hsession
    rw [State.queue,hsession] at hqueue
    cases hqueue
  · rfl

theorem inv_deliver {packet : Packet} (hs : Inv s) (hpacket : Received packet)
    (hdata : HasData packet) (h : s.deliver packet = some t) : Inv t := by
  obtain ⟨bytes,hbytes,hempty⟩ := hpacket.exists_payload
  have hne : bytes ≠ [] := fun h => hempty.mp h hdata
  unfold State.deliver at h
  split_ifs at h with hfull
  rw [hbytes] at h
  obtain rfl := Option.some.inj h
  have hdue := due_append (s := s) hbytes hne
  cases hqueue : s.queue with
  | none =>
    rw [deliver_of_gone hqueue]
    refine ⟨?_,hs.reader,hs.failed,?_⟩
    · intro queue hqueue'
      have hqueue' : s.queue = some queue := hqueue'
      rw [hqueue] at hqueue'
      cases hqueue'
    · rw [hdue]
      exact hs.inOrder.trans (List.prefix_append _ _)
  | some queue =>
    obtain ⟨queue',hdeliver,hitems,hrun⟩ :=
      deliver_of_room hqueue (Bool.eq_false_iff.mpr hfull) bytes
    rw [hdeliver]
    refine ⟨?_,hs.reader,hs.failed,?_⟩
    · intro queue'' hqueue'' hfailed
      obtain rfl := Option.some.inj hqueue''
      have hflows := hs.flows queue hqueue hfailed
      refine ⟨hrun.trans hflows.open',hflows.run,hflows.reader,?_,?_⟩
      · rw [hitems,List.mem_append,List.mem_singleton]
        rintro (hmem | hnil)
        · exact hflows.items hmem
        · exact hne hnil.symm
      · rw [hdue,hflows.due,hitems,List.append_assoc]
    · rw [hdue]
      exact hs.inOrder.trans (List.prefix_append _ _)

theorem inv_shutDown (hs : Inv s) : Inv {s with connection := s.connection.remove} := by
  obtain ⟨session,hremove,hgone⟩ : ∃ session, s.connection.remove =
      {s.connection with session := session} ∧ ∀ queue, session ≠ some (.filling queue) := by
    unfold ReaderLoop.State.remove
    split
    · exact ⟨some .lost,rfl,nofun⟩
    · rename_i hsession
      exact ⟨s.connection.session,rfl,hsession⟩
  rw [hremove]
  refine ⟨?_,hs.reader,hs.failed,hs.inOrder⟩
  intro queue hqueue
  exact absurd (queue_eq_some hqueue) (hgone queue)

/-- The reader goes on from its test of `run`. -/
theorem inv_test (hs : Inv s) (hreader : s.connection.reader = some .test) :
    Inv {s with connection :=
      {s.connection with reader := some (if s.connection.run then .read else .done)}} := by
  have hnone : inFlight (some (if s.connection.run then .read else .done)) = [] := by
    split_ifs <;> rfl
  refine ⟨?_,⟨nofun,?_⟩,?_,?_⟩
  · intro queue hqueue hfailed
    have hflows := hs.flows queue hqueue hfailed
    refine ⟨hflows.open',hflows.run,?_,hflows.items,?_⟩
    · rw [if_pos hflows.run]
      exact ⟨nofun,nofun⟩
    · rw [hnone]
      have hdue := hflows.due
      rw [hreader] at hdue
      exact hdue
  · split_ifs <;> nofun
  · intro hfailed
    have hrun := (hs.failed hfailed).1
    refine ⟨hrun,Or.inr ?_⟩
    rw [hrun]
    rfl
  · rw [hnone]
    have hinOrder := hs.inOrder
    rw [hreader] at hinOrder
    exact hinOrder

/-- No send has failed while the reader is not at its test or at its end. -/
theorem failed_eq_false (hs : Inv s) (htest : s.connection.reader ≠ some .test)
    (hdone : s.connection.reader ≠ some .done) : s.failed = false := by
  cases hfailed : s.failed with
  | false => rfl
  | true =>
    rcases (hs.failed hfailed).2 with hreader | hreader
    · exact absurd hreader htest
    · exact absurd hreader hdone

theorem inv_read {connection : ReaderLoop.State} (hs : Inv s)
    (hreader : s.connection.reader = some .read) (h : s.connection.read = some connection) :
    Inv {s with connection := connection} := by
  have hfailed := failed_eq_false hs (by simp [hreader]) (by simp [hreader])
  have hinOrder := hs.inOrder
  rw [hreader] at hinOrder
  unfold ReaderLoop.State.read at h
  split at h
  · cases h
  · rename_i queue hsession
    have hqueue : s.queue = some queue := by rw [State.queue,hsession]
    have hflows := hs.flows queue hqueue hfailed
    split at h
    · cases h
    · rename_i hnull
      have hrun := hflows.open'
      rw [BlockingQueue.pop_eq_null hnull] at hrun
      cases hrun
    · rename_i bytes queue' hpop
      obtain ⟨hitems,-,hrun,-⟩ := BlockingQueue.pop_eq_item hpop
      obtain rfl := Option.some.inj h
      have hnil := hflows.items
      have hdue := hflows.due
      rw [hitems] at hnil hdue
      rw [hreader] at hdue
      obtain ⟨hne,hrest⟩ := not_or.mp (mt List.mem_cons.mpr hnil)
      have hinFlight : inFlight (some (.returned bytes)) = [bytes] := if_neg (Ne.symm hne)
      have hdue' : s.due = s.sent ++ [bytes] ++ queue'.items := by
        rw [hdue,List.append_assoc,List.append_assoc]
        rfl
      refine ⟨?_,⟨nofun,nofun⟩,?_,?_⟩
      · intro queue'' hqueue'' _
        obtain rfl := Option.some.inj hqueue''
        refine ⟨hrun.trans hflows.open',hflows.run,⟨nofun,?_⟩,hrest,?_⟩
        · intro hreturned
          cases hreturned
          exact hne rfl
        · rw [hinFlight]
          exact hdue'
      · intro hfailed'
        exact absurd (hfailed.symm.trans hfailed') nofun
      · rw [hinFlight]
        exact ⟨queue'.items,hdue'.symm⟩
  · rename_i session hfilling hsession
    obtain rfl := Option.some.inj h
    refine ⟨?_,⟨nofun,nofun⟩,?_,hinOrder⟩
    · intro queue hqueue
      have hsome : s.connection.session = some (.filling queue) := queue_eq_some hqueue
      rw [hsession] at hsome
      exact absurd (Option.some.inj hsome) (hfilling queue)
    · intro hfailed'
      exact absurd (hfailed.symm.trans hfailed') nofun

theorem inv_returned {bytes : List Byte} {connection : ReaderLoop.State} (hs : Inv s)
    (hreader : s.connection.reader = some (.returned bytes))
    (h : s.connection.readerStep = some connection) : Inv {s with connection := connection} := by
  have hfailed := failed_eq_false hs (by simp [hreader]) (by simp [hreader])
  have hinOrder := hs.inOrder
  rw [hreader] at hinOrder
  simp only [ReaderLoop.State.readerStep,hreader] at h
  by_cases hempty : bytes = []
  · subst hempty
    obtain rfl := Option.some.inj h
    refine ⟨?_,⟨nofun,nofun⟩,fun _ => ⟨ReaderLoop.run_clear _ _,Or.inr rfl⟩,hinOrder⟩
    intro queue hqueue hfailed
    -- While the queue is there, the reader has not come back without a payload.
    have hsession : (s.connection.clear s.connection.reason).session = some (.filling queue) :=
      queue_eq_some hqueue
    rw [ReaderLoop.clear_session] at hsession
    have hsome : s.queue = some queue := by rw [State.queue,hsession]
    exact absurd hreader (hs.flows queue hsome hfailed).reader.2
  · rw [if_neg (mt List.length_eq_zero_iff.mp hempty)] at h
    obtain rfl := Option.some.inj h
    have hinFlight : inFlight (some (.returned bytes)) = inFlight (some (.send bytes)) :=
      if_neg hempty
    rw [hinFlight] at hinOrder
    refine ⟨?_,⟨nofun,?_⟩,?_,hinOrder⟩
    · intro queue hqueue _
      have hflows := hs.flows queue hqueue hfailed
      refine ⟨hflows.open',hflows.run,⟨nofun,nofun⟩,hflows.items,?_⟩
      have hdue := hflows.due
      rw [hreader,hinFlight] at hdue
      exact hdue
    · intro hsend
      cases hsend
      exact hempty rfl
    · intro hfailed'
      exact absurd (hfailed.symm.trans hfailed') nofun

theorem inv_reader (hs : Inv s) (h : s.reader = some t) : Inv t := by
  obtain ⟨connection,hstep,rfl⟩ := Option.map_eq_some_iff.mp h
  have hcases := hstep
  unfold ReaderLoop.State.readerStep at hcases
  split at hcases
  · rename_i hreader
    obtain rfl := Option.some.inj hcases
    exact inv_test hs hreader
  · rename_i hreader
    exact inv_read hs hreader hcases
  · rename_i bytes hreader
    exact inv_returned hs hreader hstep
  · cases hcases

theorem inv_send {sent : Bool} (hs : Inv s) (h : s.send sent = some t) : Inv t := by
  unfold State.send at h
  split at h
  · rename_i bytes hreader
    have hfailed := failed_eq_false hs (by simp [hreader]) (by simp [hreader])
    have hinOrder := hs.inOrder
    rw [hreader] at hinOrder
    obtain ⟨connection,hsend,rfl⟩ := Option.map_eq_some_iff.mp h
    simp only [ReaderLoop.State.send,hreader] at hsend
    cases sent with
    | true =>
      obtain rfl := Option.some.inj hsend
      refine ⟨?_,⟨by simp,by simp⟩,?_,?_⟩
      · intro queue hqueue _
        have hflows := hs.flows queue hqueue hfailed
        refine ⟨hflows.open',hflows.run,⟨by simp,by simp⟩,hflows.items,?_⟩
        have hdue := hflows.due
        rw [hreader] at hdue
        change s.due = s.sent ++ [bytes] ++ [] ++ queue.items
        rw [List.append_nil]
        exact hdue
      · intro hfailed'
        change (s.failed || false) = true at hfailed'
        rw [hfailed] at hfailed'
        cases hfailed'
      · change s.sent ++ [bytes] ++ [] <+: s.due
        rw [List.append_nil]
        exact hinOrder
    | false =>
      obtain rfl := Option.some.inj hsend
      refine ⟨?_,⟨by simp,by simp⟩,fun _ => ⟨ReaderLoop.run_clear _ _,Or.inl rfl⟩,?_⟩
      · intro queue _ hfailed'
        change (s.failed || true) = false at hfailed'
        rw [Bool.or_true] at hfailed'
        cases hfailed'
      · change s.sent ++ [] <+: s.due
        rw [List.append_nil]
        exact (List.prefix_append _ _).trans hinOrder
  · cases h

theorem inv_step {e : Event} (hs : Inv s) (h : s.step e = some t)
    (he : ∀ packet, e = .deliver packet → Received packet ∧ HasData packet) : Inv t := by
  cases e with
  | deliver packet => exact inv_deliver hs (he packet rfl).1 (he packet rfl).2 h
  | shutDown =>
    obtain rfl := Option.some.inj h
    exact inv_shutDown hs
  | reader => exact inv_reader hs h
  | send sent => exact inv_send hs h

/-- What has been delivered stays delivered. -/
theorem step_delivered {e : Event} (h : s.step e = some t) : s.delivered <+: t.delivered := by
  cases e with
  | deliver packet =>
    simp only [State.step,State.deliver] at h
    split_ifs at h
    split at h
    · cases h
    · exact Option.some.inj h ▸ List.prefix_append _ _
  | shutDown => exact Option.some.inj h ▸ List.prefix_rfl
  | reader =>
    obtain ⟨connection,-,rfl⟩ := Option.map_eq_some_iff.mp h
    exact List.prefix_rfl
  | send sent =>
    simp only [State.step,State.send] at h
    split at h
    · obtain ⟨connection,-,rfl⟩ := Option.map_eq_some_iff.mp h
      exact List.prefix_rfl
    · cases h

theorem run_delivered {es : List Event} (h : run State.step s es = some t) :
    s.delivered <+: t.delivered := by
  induction es generalizing s with
  | nil => exact Option.some.inj h ▸ List.prefix_rfl
  | cons e es ih =>
    obtain ⟨u,hu,hrest⟩ := (run_cons s t e es).mp h
    exact (step_delivered hu).trans (ih hrest)

theorem deliver_delivered {packet : Packet} (h : s.deliver packet = some t) :
    packet ∈ t.delivered := by
  unfold State.deliver at h
  split_ifs at h
  split at h
  · cases h
  · exact Option.some.inj h ▸ List.mem_concat_self

theorem run_inv {es : List Event} (hs : Inv s)
    (hdata : ∀ packet ∈ t.delivered, Received packet ∧ HasData packet)
    (h : run State.step s es = some t) : Inv t := by
  induction es generalizing s with
  | nil => exact Option.some.inj h ▸ hs
  | cons e es ih =>
    obtain ⟨u,hu,hrest⟩ := (run_cons s t e es).mp h
    refine ih (inv_step hs hu ?_) hrest
    rintro packet rfl
    exact hdata packet ((run_delivered hrest).subset (deliver_delivered hu))

/-- How far the reader is from its next call of `Session::read`. -/
def toRead : Option ReaderLoop.Reader → ℕ
  | some (.returned _) => 3
  | some (.send _) => 2
  | some .test => 1
  | _ => 0

/-- The reader is done with what is due, or it makes a step towards that. -/
theorem advance {queue : BlockingQueue (List Byte)} (hs : Inv s) (hqueue : s.queue = some queue)
    (hfailed : s.failed = false) : s.sent = s.due ∨ ∃ e t queue', (e = .reader ∨ e = .send true) ∧
      s.step e = some t ∧ t.queue = some queue' ∧ t.failed = false ∧ t.due = s.due ∧
      4*queue'.items.length+toRead t.connection.reader <
        4*queue.items.length+toRead s.connection.reader := by
  have hflows := hs.flows queue hqueue hfailed
  have hsession := queue_eq_some hqueue
  cases hreader : s.connection.reader with
  | none => exact absurd hreader hs.reader.1
  | some reader =>
    cases reader with
    | done => exact absurd hreader hflows.reader.1
    | test =>
      right
      refine ⟨.reader,{s with connection := {s.connection with reader := some .read}},queue,
        Or.inl rfl,?_,hqueue,hfailed,rfl,?_⟩
      · simp only [State.step,State.reader,ReaderLoop.State.readerStep,hreader,hflows.run,if_true]
        rfl
      · simp [toRead]
    | read =>
      cases hitems : queue.items with
      | nil =>
        left
        have hdue := hflows.due
        rw [hreader,hitems] at hdue
        rw [hdue]
        simp [inFlight]
      | cons bytes items =>
        right
        obtain ⟨queue',hpop,hitems'⟩ := BlockingQueue.pop_of_cons hflows.open' hitems
        refine ⟨.reader,{s with connection := {s.connection with
          reader := some (.returned bytes), session := some (.filling queue')}},queue',
          Or.inl rfl,?_,rfl,hfailed,rfl,?_⟩
        · simp only [State.step,State.reader,ReaderLoop.State.readerStep,hreader,
            ReaderLoop.State.read,hsession,hpop]
          rfl
        · simp only [toRead,hitems',List.length_cons]
          omega
    | returned bytes =>
      right
      have hne : bytes ≠ [] := by
        rintro rfl
        exact hflows.reader.2 hreader
      refine ⟨.reader,{s with connection := {s.connection with reader := some (.send bytes)}},queue,
        Or.inl rfl,?_,hqueue,hfailed,rfl,?_⟩
      · simp only [State.step,State.reader,ReaderLoop.State.readerStep,hreader,
          List.length_eq_zero_iff,hne,if_false]
        rfl
      · simp [toRead]
    | send bytes =>
      right
      refine ⟨.send true,{s with
        connection := {s.connection with reader := some .test}
        sent := s.sent ++ [bytes]},queue,Or.inr rfl,?_,hqueue,hfailed,rfl,?_⟩
      · simp only [State.step,State.send,hreader,ReaderLoop.State.send,if_true,Bool.not_true,
          Bool.or_false]
        rfl
      · simp [toRead]

/-- The reader comes to the end of what is due, by itself and with sends that do not fail. -/
theorem drains {queue : BlockingQueue (List Byte)} (hs : Inv s) (hqueue : s.queue = some queue)
    (hfailed : s.failed = false) : ∃ es t, (∀ e ∈ es, e = .reader ∨ e = .send true) ∧
      run State.step s es = some t ∧ t.sent = s.due := by
  induction hn : 4*queue.items.length+toRead s.connection.reader using Nat.strong_induction_on
    generalizing s queue with
  | _ n ih =>
    rcases advance hs hqueue hfailed with hdone | ⟨e,t,queue',he,hstep,hqueue',hfailed',hdue,hlt⟩
    · exact ⟨[],s,nofun,rfl,hdone⟩
    · have ht : Inv t := by
        refine inv_step hs hstep ?_
        rintro packet rfl
        rcases he with he | he <;> cases he
      obtain ⟨es,u,hes,hrun,hsent⟩ := ih _ (hn ▸ hlt) ht hqueue' hfailed' rfl
      refine ⟨e::es,u,List.forall_mem_cons.mpr ⟨he,hes⟩,(run_cons ..).mpr ⟨t,hstep,hrun⟩,?_⟩
      rw [hsent,hdue]

theorem Inv.served (hs : Inv s) : Served s where
  inOrder := (List.prefix_append _ _).trans hs.inOrder
  goesOn := by
    intro hsome hfailed
    obtain ⟨queue,hqueue⟩ := Option.isSome_iff_exists.mp hsome
    exact drains hs hqueue hfailed
  left := by
    intro hdone
    cases hqueue : s.queue with
    | none => exact Or.inl rfl
    | some queue =>
      right
      by_contra hfailed
      exact (hs.flows queue hqueue (Bool.eq_false_iff.mpr hfailed)).reader.1 hdone

end

/-- A packet is delivered, read and sent. -/
def serve (packet : Packet) : List Event := [.deliver packet,.reader,.reader,.reader,.send true]

section
variable {packets : List Packet}

theorem deliver_eq {packet : Packet} {bytes : List Byte}
    (hbytes : (payload packet).result = .ok bytes)
    (delivered : List Packet) (sent : List (List Byte)) :
    State.deliver {delivered := delivered, sent := sent} packet = some
      { connection := ReaderLoop.State.deliver
          {main := .receive, session := some (.filling (.new 10)), reader := some .test} bytes
        delivered := delivered ++ [packet]
        sent := sent } := by
  have hroom : State.full {delivered := delivered, sent := sent} = false := rfl
  rw [State.deliver,hroom,if_neg Bool.false_ne_true,hbytes]

/-- After a packet, the connection is as it was before. -/
theorem run_serve {packet : Packet} {bytes : List Byte}
    (hbytes : (payload packet).result = .ok bytes)
    (hne : bytes ≠ []) (delivered : List Packet) (sent : List (List Byte)) :
    run State.step {delivered := delivered, sent := sent} (serve packet) =
      some {delivered := delivered ++ [packet], sent := sent ++ [bytes]} := by
  obtain ⟨b,rest,rfl⟩ := List.exists_cons_of_ne_nil hne
  exact (run_cons ..).mpr ⟨_,deliver_eq hbytes delivered sent,rfl⟩

theorem run_serve_all {before : List Packet} (h : ∀ p ∈ before, Received p ∧ HasData p)
    (delivered : List Packet) (sent : List (List Byte)) : ∃ sent',
      run State.step {delivered := delivered, sent := sent} (before.flatMap serve) =
        some {delivered := delivered ++ before, sent := sent'} := by
  induction before generalizing delivered sent with
  | nil =>
    refine ⟨sent,?_⟩
    rw [List.append_nil]
    rfl
  | cons packet before ih =>
    obtain ⟨⟨hreceived,hdata⟩,hrest⟩ := List.forall_mem_cons.mp h
    obtain ⟨bytes,hbytes,hempty⟩ := hreceived.exists_payload
    have hserve := run_serve hbytes (fun h => hempty.mp h hdata) delivered sent
    obtain ⟨sent',hrun⟩ := ih hrest (delivered ++ [packet]) (sent ++ [bytes])
    refine ⟨sent',?_⟩
    rw [List.append_assoc,List.singleton_append] at hrun
    exact run_append hserve hrun

/-- A packet without a payload ends the loop of the reader, with the queue in use. -/
theorem run_empty {packet : Packet} (hbytes : (payload packet).result = .ok [])
    (delivered : List Packet) (sent : List (List Byte)) : ∃ t,
      run State.step {delivered := delivered, sent := sent}
        [.deliver packet,.reader,.reader,.reader] = some t ∧
      t.delivered = delivered ++ [packet] ∧ ¬ Served t := by
  refine ⟨_,(run_cons ..).mpr ⟨_,deliver_eq hbytes delivered sent,rfl⟩,rfl,?_⟩
  intro hserved
  rcases hserved.left rfl with hqueue | hfailed
  · cases hqueue
  · cases hfailed

theorem hasData_of_forwards (h : ∀ p ∈ packets, Received p) (hforwards : Forwards packets)
    {before : List Packet} (hbefore : before <+: packets) : ∀ p ∈ before, HasData p := by
  induction before using List.reverseRecOn with
  | nil => nofun
  | append_singleton before packet ih =>
    have hdata := ih ((List.prefix_append _ _).trans hbefore)
    have hreceived : ∀ p ∈ before ++ [packet], Received p := fun p hp => h p (hbefore.subset hp)
    obtain ⟨bytes,hbytes,hempty⟩ := (hreceived packet (by simp)).exists_payload
    obtain ⟨sent,hrun⟩ := run_serve_all
      (fun p hp => ⟨hreceived p (by simp [hp]),hdata p hp⟩) [] []
    intro p hp
    rcases List.mem_append.mp hp with hp | hp
    · exact hdata p hp
    · obtain rfl := List.mem_singleton.mp hp
      by_contra hnone
      rw [hempty.mpr hnone] at hbytes
      obtain ⟨t,ht,hdelivered,hnot⟩ := run_empty hbytes before sent
      apply hnot
      apply hforwards _ t (run_append hrun ht)
      rw [hdelivered]
      exact hbefore

/-- The packets are forwarded, whatever the schedule, exactly if each of them has data. -/
theorem forwards_iff (h : ∀ p ∈ packets, Received p) :
    Forwards packets ↔ ∀ p ∈ packets, HasData p := by
  constructor
  · intro hforwards
    exact hasData_of_forwards h hforwards List.prefix_rfl
  · intro hdata es s hrun hdelivered
    have hs : Inv s := by
      apply run_inv inv_init _ hrun
      intro p hp
      have hmem := hdelivered.subset hp
      exact ⟨h p hmem,hdata p hmem⟩
    exact hs.served

/-- A packet with two samples, for channel 0. -/
def spoken : Packet :=
  { data := [startByte,0x00,0x07,typeAudio,0x40,speechSpeechd,0x02,0x01,0x02,0x03,0x04]
    dataSize := 11
    channel := some 4
    kind := .speech (some (5,2)) }

/-- A packet with no samples, for channel 0. -/
def silent : Packet :=
  { data := [startByte,0x00,0x03,typeAudio,0x40,speechSpeechd,0x00]
    dataSize := 7
    channel := some 4
    kind := .speech (some (5,0)) }

theorem forwards_iff_spoken : Forwards [spoken,spoken] := by
  have hspoken : Received spoken := ⟨⟨spoken.data,[],by decide,by decide⟩,nofun⟩
  refine (forwards_iff ?_).mpr ?_
  · simp only [List.mem_cons,List.not_mem_nil,or_false,or_self,forall_eq,hspoken]
  · simp only [List.mem_cons,List.not_mem_nil,or_false,or_self,forall_eq]
    exact Nat.succ_ne_zero 1

/-- The reader ends at a packet without samples, while the device goes on to send. -/
theorem not_forwards_silent :
    ¬ ∀ packets, (∀ p ∈ packets, Received p) → Forwards packets := by
  intro h
  have hsilent : Received silent := ⟨⟨silent.data,[],by decide,by decide⟩,nofun⟩
  have hforwards := h [silent] (by simpa using hsilent)
  have hserved := hforwards [.deliver silent,.reader,.reader,.reader] _ rfl List.prefix_rfl
  rcases hserved.left rfl with hqueue | hfailed
  · cases hqueue
  · cases hfailed

end
end CodecServer.Server.Forwarding
