import CodecServer.Ambe3K.BlockingQueue
import CodecServer.Server.ClientConnection

/-! The two threads of a connection: the loop over the messages of the client, and the reader of the
session, which sends what the codec returns. They share the flag `run`. -/
namespace CodecServer.Server.ReaderLoop
open CodecServer.Transition CodecServer.Ambe3K CodecServer.Ambe3K.Protocol

/-- The queue of the channel of the session: in use, shut down when it was full or when the device
was removed, or deleted by the end of the session. -/
inductive Queue
  | filling (payloads : BlockingQueue (List Byte))
  | lost
  | released

/-- Why `run` was cleared: `receiveMessage` returned null, a `sendMessage` failed, the queue of the
session was lost, the connection ended its own session, or there was a packet without payload. -/
inductive Cause
  | disconnected
  | sendFailed
  | queueLost
  | released
  | noPayload
  deriving DecidableEq

/-- Where `ClientConnection::read` is: at its test of `run`, before the call of `Session::read`, at
the test of its result, before `sendMessage`, or at its end. -/
inductive Reader
  | test
  | read
  | returned (payload : List Byte)
  | send (payload : List Byte)
  | done
  deriving DecidableEq

/-- Who has called `stopSession`: the handler of a request, or what ends the connection. -/
inductive Caller
  | request
  | leaving
  deriving DecidableEq

/-- Where the main loop is. -/
inductive Main
  | test
  | receive
  | process (message : Message)
  | stop (caller : Caller)
  | join (caller : Caller)
  | start
  | respond
  | closed
  deriving DecidableEq

/-- What `receiveMessage` returns. -/
inductive Received
  | null
  | unexpected
  | message (message : Message)
  deriving DecidableEq

/-- A connection; its session is known by the queue of its channel. `failed` is set once the main
loop was left because a response could not be sent. -/
structure State where
  run : Bool := true
  main : Main := .test
  session : Option Queue := none
  reader : Option Reader := none
  failed : Bool := false
  cause : Option Cause := none

/-- A step of the main loop or of the reader loop, with what a call in it returns where that is not
up to the connection; a packet for the channel of the session; the removal of the device. -/
inductive Event
  | main
  | receive (received : Received)
  | start (found : Bool)
  | respond (sent : Bool)
  | reader
  | send (sent : Bool)
  | deliver (payload : List Byte)
  | remove
  deriving DecidableEq

namespace State

/-- `run = false`, and what has led to it. -/
def clear (s : State) (cause : Cause) : State :=
  if s.run then {s with run := false, cause := some cause} else s

/-- `stopSession`, up to the `join`. -/
def stop (s : State) (caller : Caller) : State :=
  match s.session,caller with
  | none,.request => {s with main := .start}
  | none,.leaving => {s with main := .closed}
  | some .lost,_ => {s with main := .join caller}
  | some _,_ => {s with main := .join caller, session := some .released}

/-- The rest of `stopSession`, once the reader has come to its end. -/
def join (s : State) (caller : Caller) : Option State :=
  if s.reader = some .done then
    some
      { s with
        main := match caller with | .request => .start | .leaving => .closed
        session := none
        reader := none }
  else none

/-- A step of the main loop between two calls. -/
def mainStep (s : State) : Option State :=
  match s.main with
  | .test => some {s with main := if s.run then .receive else .stop .leaving}
  | .process message =>
    match message with
    | .request _ _ => some {s with main := .stop .request}
    | .check _ => some {s with main := .respond}
    | .channelData _ => some {s with main := .test}
    | .speechData _ => some {s with main := .test}
    -- Without a session, a null pointer is dereferenced.
    | .renegotiation _ => if s.session.isNone then none else some {s with main := .respond}
  | .stop caller => some (s.stop caller)
  | .join caller => s.join caller
  | _ => none

/-- `receiveMessage` returns to the main loop. -/
def receive (s : State) (received : Received) : Option State :=
  if s.main = .receive then
    match received with
    | .null => some {s.clear .disconnected with main := .test}
    | .unexpected => some {s with main := .test}
    | .message message => some {s with main := .process message}
  else none

/-- A device starts a session, whose channel has a new queue and which gets a reader, or none
does. -/
def start (s : State) (found : Bool) : Option State :=
  if s.main = .start then
    if found then
      some
        { s with
          main := .respond
          session := some (.filling (.new 10))
          reader := some .test }
    else some {s with main := .respond}
  else none

/-- `sendMessage(response)`; if it fails, the exception ends the connection. -/
def respond (s : State) (sent : Bool) : Option State :=
  if s.main = .respond then
    if sent then some {s with main := .test}
    else some {s with main := .stop .leaving, failed := true}
  else none

/-- `Session::read`: it waits for a packet as long as there is a queue. (The steps of the wait are those
of `Threads`.) -/
def read (s : State) : Option State :=
  match s.session with
  | none => none
  | some (.filling queue) =>
    match queue.pop with
    | .wait => none
    | .null => some {s with reader := some (.returned [])}
    | .item payload queue =>
      some {s with reader := some (.returned payload), session := some (.filling queue)}
  | some _ => some {s with reader := some (.returned [])}

/-- Why `Session::read` has returned 0. -/
def reason (s : State) : Cause :=
  match s.session with
  | some .lost => .queueLost
  | some .released => if s.failed then .sendFailed else .released
  | _ => .noPayload

/-- A step of the reader loop between two sends. -/
def readerStep (s : State) : Option State :=
  match s.reader with
  | some .test => some {s with reader := some (if s.run then .read else .done)}
  | some .read => s.read
  | some (.returned payload) =>
    if payload.length = 0 then some {s.clear s.reason with reader := some .done}
    else some {s with reader := some (.send payload)}
  | _ => none

/-- `sendMessage(data)`. -/
def send (s : State) (sent : Bool) : Option State :=
  match s.reader with
  | some (.send _) =>
    if sent then some {s with reader := some .test}
    else some {s.clear .sendFailed with reader := some .test}
  | _ => none

/-- `Channel::receive`, as far as the session of the connection is concerned. -/
def deliver (s : State) (payload : List Byte) : State :=
  match s.session with
  | some (.filling queue) =>
    match queue.push payload false with
    | .pushed queue => {s with session := some (.filling queue)}
    | _ => {s with session := some .lost}
  | _ => s

def remove (s : State) : State :=
  match s.session with
  | some (.filling _) => {s with session := some .lost}
  | _ => s

def step (s : State) : Event → Option State
  | .main => s.mainStep
  | .receive received => s.receive received
  | .start found => s.start found
  | .respond sent => s.respond sent
  | .reader => s.readerStep
  | .send sent => s.send sent
  | .deliver payload => some (s.deliver payload)
  | .remove => some s.remove

end State

/-- The connection is alive, or it has been ended for one of the reasons that there may be. -/
def Alive (s : State) : Prop :=
  s.run = true ∨ s.cause = some .disconnected ∨ s.cause = some .sendFailed ∨
    s.cause = some .queueLost

/-- Every packet has a payload. -/
def HasPayload : Event → Prop
  | .deliver payload => payload ≠ []
  | _ => True

instance : (e : Event) → Decidable (HasPayload e)
  | .deliver payload => inferInstanceAs (Decidable (payload ≠ []))
  | .main => .isTrue trivial
  | .receive _ => .isTrue trivial
  | .start _ => .isTrue trivial
  | .respond _ => .isTrue trivial
  | .reader => .isTrue trivial
  | .send _ => .isTrue trivial
  | .remove => .isTrue trivial

/-- There is no session that could be replaced: there is none at all, or its queue is lost, or the
flag is cleared anyway. -/
def Over (s : State) : Prop := s.session = none ∨ s.session = some .lost ∨ s.run = false

/-- A request is processed only if no session has to be replaced for it. -/
def Fine (s : State) (e : Event) : Prop :=
  e = .main → ∀ codec settings, s.main = .process (.request codec settings) → Over s

/-- A queue that is in use, with packets that have a payload. -/
def Intact (queue : BlockingQueue (List Byte)) : Prop :=
  queue.run = true ∧ ∀ payload ∈ queue.items, payload ≠ []

structure Inv (s : State) : Prop where
  alive : Alive s
  filling : ∀ queue, s.session = some (.filling queue) → Intact queue
  released : s.session = some .released → s.run = false ∨ s.failed = true
  reader : s.session = none → s.reader = none
  start : s.main = .start → s.session = none
  request : s.main = .stop .request → Over s
  leaving : s.main = .stop .leaving → s.run = false ∨ s.failed = true
  returned : s.reader = some (.returned []) → s.session = some .lost ∨ s.session = some .released

section
variable {s t : State}

theorem inv_init : Inv {} where
  alive := Or.inl rfl
  filling := nofun
  released := nofun
  reader := fun _ => rfl
  start := nofun
  request := nofun
  leaving := nofun
  returned := nofun

theorem clear_session (s : State) (cause : Cause) : (s.clear cause).session = s.session := by
  unfold State.clear
  split_ifs <;> rfl

/-- The flag may be cleared for a reason. -/
theorem inv_clear {cause : Cause} (hs : Inv s)
    (hcause : cause = .disconnected ∨ cause = .sendFailed ∨ cause = .queueLost) :
    Inv (s.clear cause) := by
  unfold State.clear
  split_ifs with hrun
  · refine ⟨Or.inr ?_,hs.filling,fun _ => Or.inl rfl,hs.reader,hs.start,
      fun _ => Or.inr (Or.inr rfl),fun _ => Or.inl rfl,hs.returned⟩
    rcases hcause with rfl | rfl | rfl
    · exact Or.inl rfl
    · exact Or.inr (Or.inl rfl)
    · exact Or.inr (Or.inr rfl)
  · exact hs

/-- The reader goes on; it has been told that the queue is gone only if it is. -/
theorem inv_setReader {r : Reader} (hs : Inv s) (hsome : s.session ≠ none)
    (hr : r = .returned [] → s.session = some .lost ∨ s.session = some .released) :
    Inv {s with reader := some r} :=
  ⟨hs.alive,hs.filling,hs.released,fun h => absurd h hsome,hs.start,hs.request,hs.leaving,
    fun h => hr (Option.some.inj h)⟩

/-- The main loop goes on from where there may be a session. -/
theorem inv_setMain {m : Main} (hs : Inv s) (hstart : m ≠ .start)
    (hrequest : m = .stop .request → Over s)
    (hleaving : m = .stop .leaving → s.run = false ∨ s.failed = true) :
    Inv {s with main := m} :=
  ⟨hs.alive,hs.filling,hs.released,hs.reader,fun h => absurd h hstart,hrequest,hleaving,
    hs.returned⟩

/-- The queue of the session changes, or is lost. -/
theorem inv_setSession {queue : BlockingQueue (List Byte)} {q : Queue} (hs : Inv s)
    (hqueue : s.session = some (.filling queue)) (hreleased : q ≠ .released)
    (hintact : ∀ queue', q = .filling queue' → Intact queue') :
    Inv {s with session := some q} := by
  refine ⟨hs.alive,fun queue' h => hintact queue' (Option.some.inj h),
    fun h => absurd (Option.some.inj h) hreleased,nofun,fun h => ?_,fun h => ?_,hs.leaving,
    fun h => ?_⟩
  · have := hs.start h
    rw [hqueue] at this
    cases this
  · rcases hs.request h with h | h | h
    · rw [hqueue] at h; cases h
    · rw [hqueue] at h; cases h
    · exact Or.inr (Or.inr h)
  · rcases hs.returned h with h | h
    · rw [hqueue] at h; cases h
    · rw [hqueue] at h; cases h

theorem inv_stop {caller : Caller} (hs : Inv s) (hmain : s.main = .stop caller) :
    Inv (s.stop caller) := by
  -- The queue that is released is not missed.
  have hend : ∀ queue, s.session = some (.filling queue) → s.run = false ∨ s.failed = true := by
    intro queue hqueue
    cases caller with
    | request =>
      rcases hs.request hmain with h | h | h
      · rw [hqueue] at h; cases h
      · rw [hqueue] at h; cases h
      · exact Or.inl h
    | leaving => exact hs.leaving hmain
  unfold State.stop
  split
  · rename_i hsession
    exact ⟨hs.alive,hs.filling,hs.released,hs.reader,fun _ => hsession,nofun,nofun,hs.returned⟩
  · exact inv_setMain hs nofun nofun nofun
  · exact inv_setMain hs nofun nofun nofun
  · rename_i queue hlost hsession
    refine ⟨hs.alive,nofun,fun _ => ?_,nofun,nofun,nofun,nofun,fun _ => Or.inr rfl⟩
    cases queue with
    | filling queue => exact hend queue hsession
    | lost => exact absurd rfl hlost
    | released => exact hs.released hsession

theorem inv_join {caller : Caller} (hs : Inv s) (h : s.join caller = some t) : Inv t := by
  unfold State.join at h
  split_ifs at h
  obtain rfl := Option.some.inj h
  refine ⟨hs.alive,nofun,nofun,fun _ => rfl,fun _ => rfl,fun h => ?_,fun h => ?_,nofun⟩
  · exact Or.inl rfl
  · cases caller <;> cases h

theorem inv_mainStep (hs : Inv s) (hfine : Fine s .main) (h : s.mainStep = some t) : Inv t := by
  unfold State.mainStep at h
  cases hmain : s.main with
  | test =>
    simp only [hmain] at h
    obtain rfl := Option.some.inj h
    split_ifs with hrun
    · exact inv_setMain hs nofun nofun nofun
    · exact inv_setMain hs nofun nofun fun _ => Or.inl (Bool.eq_false_iff.mpr hrun)
  | process message =>
    simp only [hmain] at h
    cases message with
    | request codec settings =>
      obtain rfl := Option.some.inj h
      exact inv_setMain hs nofun (fun _ => hfine rfl codec settings hmain) nofun
    | renegotiation settings =>
      simp only at h
      split_ifs at h
      obtain rfl := Option.some.inj h
      exact inv_setMain hs nofun nofun nofun
    | _ =>
      obtain rfl := Option.some.inj h
      exact inv_setMain hs nofun nofun nofun
  | stop caller =>
    simp only [hmain] at h
    obtain rfl := Option.some.inj h
    exact inv_stop hs hmain
  | join caller =>
    simp only [hmain] at h
    exact inv_join hs h
  | _ => simp only [hmain] at h; cases h

theorem inv_receive {received : Received} (hs : Inv s) (h : s.receive received = some t) :
    Inv t := by
  unfold State.receive at h
  split_ifs at h
  cases received with
  | null =>
    obtain rfl := Option.some.inj h
    exact inv_setMain (inv_clear hs (Or.inl rfl)) nofun nofun nofun
  | unexpected =>
    obtain rfl := Option.some.inj h
    exact inv_setMain hs nofun nofun nofun
  | message message =>
    obtain rfl := Option.some.inj h
    exact inv_setMain hs nofun nofun nofun

theorem inv_start {found : Bool} (hs : Inv s) (h : s.start found = some t) : Inv t := by
  unfold State.start at h
  split_ifs at h with hmain hfound
  · obtain rfl := Option.some.inj h
    refine ⟨hs.alive,fun queue hqueue => ?_,nofun,nofun,nofun,nofun,nofun,nofun⟩
    obtain rfl := Queue.filling.inj (Option.some.inj hqueue)
    exact ⟨rfl,nofun⟩
  · obtain rfl := Option.some.inj h
    exact inv_setMain hs nofun nofun nofun

theorem inv_respond {sent : Bool} (hs : Inv s) (h : s.respond sent = some t) : Inv t := by
  unfold State.respond at h
  split_ifs at h with hmain hsent
  · obtain rfl := Option.some.inj h
    exact inv_setMain hs nofun nofun nofun
  · obtain rfl := Option.some.inj h
    exact ⟨hs.alive,hs.filling,fun _ => Or.inr rfl,hs.reader,nofun,nofun,fun _ => Or.inr rfl,
      hs.returned⟩

theorem inv_read (hs : Inv s) (h : s.read = some t) : Inv t := by
  unfold State.read at h
  split at h
  · cases h
  · rename_i queue hsession
    obtain ⟨hrun,hitems⟩ := hs.filling queue hsession
    split at h
    · cases h
    · rename_i hnull
      rw [BlockingQueue.pop_eq_null hnull] at hrun
      cases hrun
    · rename_i payload queue' hpop
      obtain ⟨hcons,-,hrun',-⟩ := BlockingQueue.pop_eq_item hpop
      rw [hcons] at hitems
      obtain rfl := Option.some.inj h
      have hnext : Inv {s with session := some (.filling queue')} := by
        apply inv_setSession hs hsession
        · exact nofun
        · intro q hq
          obtain rfl := Queue.filling.inj hq
          exact ⟨hrun'.trans hrun,fun p hp => hitems p (List.mem_cons_of_mem _ hp)⟩
      exact inv_setReader hnext nofun fun hr =>
        absurd (Reader.returned.inj hr) (hitems payload List.mem_cons_self)
  · rename_i queue hfilling hsession
    obtain rfl := Option.some.inj h
    apply inv_setReader hs (by simp [hsession])
    intro _
    cases queue with
    | filling queue => exact absurd rfl (hfilling queue)
    | lost => exact Or.inl hsession
    | released => exact Or.inr hsession

/-- A queue that is gone has been lost, or the connection is at its end. -/
theorem inv_reason (hs : Inv s)
    (hgone : s.session = some .lost ∨ s.session = some .released) : Inv (s.clear s.reason) := by
  rcases hgone with hlost | hreleased
  · have hreason : s.reason = .queueLost := by rw [State.reason,hlost]
    rw [hreason]
    exact inv_clear hs (Or.inr (Or.inr rfl))
  · rcases hs.released hreleased with hrun | hfailed
    · rw [State.clear,hrun]
      exact hs
    · have hreason : s.reason = .sendFailed := by
        rw [State.reason,hreleased]
        exact if_pos hfailed
      rw [hreason]
      exact inv_clear hs (Or.inr (Or.inl rfl))

theorem inv_readerStep (hs : Inv s) (h : s.readerStep = some t) : Inv t := by
  unfold State.readerStep at h
  split at h
  · rename_i hreader
    obtain rfl := Option.some.inj h
    refine inv_setReader hs (fun hnone => ?_) fun hr => ?_
    · rw [hs.reader hnone] at hreader
      cases hreader
    · split_ifs at hr
  · exact inv_read hs h
  · rename_i payload hreader
    have hsome : s.session ≠ none := by
      intro hnone
      rw [hs.reader hnone] at hreader
      cases hreader
    split_ifs at h with hzero
    · obtain rfl := Option.some.inj h
      obtain rfl := List.length_eq_zero_iff.mp hzero
      refine inv_setReader (inv_reason hs (hs.returned hreader)) ?_ nofun
      rwa [clear_session]
    · obtain rfl := Option.some.inj h
      exact inv_setReader hs hsome nofun
  · cases h

theorem inv_send {sent : Bool} (hs : Inv s) (h : s.send sent = some t) : Inv t := by
  unfold State.send at h
  split at h
  · rename_i payload hreader
    have hsome : s.session ≠ none := by
      intro hnone
      rw [hs.reader hnone] at hreader
      cases hreader
    split_ifs at h
    · obtain rfl := Option.some.inj h
      exact inv_setReader hs hsome nofun
    · obtain rfl := Option.some.inj h
      refine inv_setReader (inv_clear hs (Or.inr (Or.inl rfl))) ?_ nofun
      rwa [clear_session]
  · cases h

theorem inv_deliver {payload : List Byte} (hs : Inv s) (hpayload : payload ≠ []) :
    Inv (s.deliver payload) := by
  unfold State.deliver
  split
  · rename_i queue hsession
    obtain ⟨hrun,hitems⟩ := hs.filling queue hsession
    split
    · rename_i queue' hpush
      obtain ⟨happend,-,hrun',-⟩ := BlockingQueue.push_eq_pushed hpush
      apply inv_setSession hs hsession
      · exact nofun
      · intro q hq
        obtain rfl := Queue.filling.inj hq
        refine ⟨hrun'.trans hrun,fun p hp => ?_⟩
        rw [happend] at hp
        rcases List.mem_append.mp hp with hp | hp
        · exact hitems p hp
        · exact List.mem_singleton.mp hp ▸ hpayload
    · exact inv_setSession hs hsession nofun nofun
  · exact hs

theorem inv_remove (hs : Inv s) : Inv s.remove := by
  unfold State.remove
  split
  · rename_i queue hsession
    exact inv_setSession hs hsession nofun nofun
  · exact hs

theorem inv_step (s : State) (e : Event) (t : State) (hs : Inv s)
    (hfine : HasPayload e ∧ Fine s e) (h : s.step e = some t) : Inv t := by
  cases e with
  | main => exact inv_mainStep hs hfine.2 h
  | receive received => exact inv_receive hs h
  | start found => exact inv_start hs h
  | respond sent => exact inv_respond hs h
  | reader => exact inv_readerStep hs h
  | send sent => exact inv_send hs h
  | deliver payload =>
    obtain rfl := Option.some.inj h
    exact inv_deliver hs hfine.1
  | remove =>
    obtain rfl := Option.some.inj h
    exact inv_remove hs

/-- A reader that has come to its end has found the flag cleared, or has cleared it. -/
def Stopped (s : State) : Prop := s.reader = some .done → s.run = false

theorem run_clear (s : State) (cause : Cause) : (s.clear cause).run = false := by
  unfold State.clear
  split_ifs with hrun
  · rfl
  · exact Bool.eq_false_iff.mpr hrun

/-- What a step of the main loop does to the session and its reader: nothing, or the queue is deleted,
or the reader is joined. -/
theorem mainStep_cases (h : s.mainStep = some t) : t.run = s.run ∧
    (t.session = s.session ∧ t.reader = s.reader ∨
      (∃ caller, s.main = .stop caller) ∧ t.session = some .released ∧ t.reader = s.reader ∨
      s.reader = some .done ∧ t.session = none ∧ t.reader = none) := by
  unfold State.mainStep at h
  cases hmain : s.main with
  | test =>
    simp only [hmain] at h
    exact Option.some.inj h ▸ ⟨rfl,Or.inl ⟨rfl,rfl⟩⟩
  | process message =>
    simp only [hmain] at h
    cases message with
    | renegotiation settings =>
      simp only at h
      split_ifs at h
      exact Option.some.inj h ▸ ⟨rfl,Or.inl ⟨rfl,rfl⟩⟩
    | _ => exact Option.some.inj h ▸ ⟨rfl,Or.inl ⟨rfl,rfl⟩⟩
  | stop caller =>
    simp only [hmain] at h
    obtain rfl := Option.some.inj h
    unfold State.stop
    split
    · exact ⟨rfl,Or.inl ⟨rfl,rfl⟩⟩
    · exact ⟨rfl,Or.inl ⟨rfl,rfl⟩⟩
    · exact ⟨rfl,Or.inl ⟨rfl,rfl⟩⟩
    · exact ⟨rfl,Or.inr (Or.inl ⟨⟨_,rfl⟩,rfl,rfl⟩)⟩
  | join caller =>
    simp only [hmain,State.join] at h
    split_ifs at h with hdone
    exact Option.some.inj h ▸ ⟨rfl,Or.inr (Or.inr ⟨hdone,rfl,rfl⟩)⟩
  | _ => simp only [hmain] at h; cases h

theorem stopped_mainStep (hs : Stopped s) (h : s.mainStep = some t) : Stopped t := by
  obtain ⟨hrun,⟨-,hreader⟩ | ⟨-,-,hreader⟩ | ⟨-,-,hreader⟩⟩ := mainStep_cases h
  · rwa [Stopped,hreader,hrun]
  · rwa [Stopped,hreader,hrun]
  · rw [Stopped,hreader]
    exact nofun

/-- A reader that reads is not at its end. -/
theorem stopped_read (h : s.read = some t) : Stopped t := by
  unfold State.read at h
  split at h
  · cases h
  · split at h
    · cases h
    · exact Option.some.inj h ▸ nofun
    · exact Option.some.inj h ▸ nofun
  · exact Option.some.inj h ▸ nofun

theorem stopped_readerStep (h : s.readerStep = some t) : Stopped t := by
  unfold State.readerStep at h
  split at h
  · obtain rfl := Option.some.inj h
    intro hdone
    by_contra hrun
    simp [hrun] at hdone
  · exact stopped_read h
  · split_ifs at h
    · obtain rfl := Option.some.inj h
      exact fun _ => run_clear s s.reason
    · exact Option.some.inj h ▸ nofun
  · cases h

theorem stopped_step (s : State) (e : Event) (t : State) (hs : Stopped s)
    (h : s.step e = some t) : Stopped t := by
  cases e with
  | main => exact stopped_mainStep hs h
  | receive received =>
    simp only [State.step,State.receive] at h
    split_ifs at h
    cases received with
    | null =>
      obtain rfl := Option.some.inj h
      exact fun _ => run_clear s .disconnected
    | _ => exact Option.some.inj h ▸ hs
  | start found =>
    simp only [State.step,State.start] at h
    split_ifs at h
    · exact Option.some.inj h ▸ nofun
    · exact Option.some.inj h ▸ hs
  | respond sent =>
    simp only [State.step,State.respond] at h
    split_ifs at h <;> exact Option.some.inj h ▸ hs
  | reader => exact stopped_readerStep h
  | send sent =>
    simp only [State.step,State.send] at h
    split at h
    · split_ifs at h <;> exact Option.some.inj h ▸ nofun
    · cases h
  | deliver payload =>
    obtain rfl := Option.some.inj h
    unfold State.deliver
    split
    · split <;> exact hs
    · exact hs
  | remove =>
    obtain rfl := Option.some.inj h
    unfold State.remove
    split <;> exact hs

end

/-- In every run in which no request has to replace a session, the flag is cleared for a reason
only. In every run at all, it is cleared once a session has been replaced. -/
theorem run_alive (es : List Event) (s : State) (h : run State.step {} es = some s) :
    ((∀ e ∈ es, HasPayload e) → Meets State.step Fine {} es → Alive s) ∧
    (∀ t, s.main = .join .request → s.step .main = some t → t.run = false) := by
  refine ⟨fun hpayload hfine => ?_,fun t hmain ht => ?_⟩
  · exact (run_invariant_of_meets inv_step inv_init (meets_and hpayload hfine) h).alive
  · have hinit : Stopped {} := fun hdone => by cases hdone
    have hstopped := run_invariant stopped_step hinit h
    simp only [State.step,State.mainStep,hmain,State.join] at ht
    split_ifs at ht with hdone
    obtain rfl := Option.some.inj ht
    exact hstopped hdone

/-- A client asks for a session. -/
def request : List Event :=
  [.main,.receive (.message (.request State.ambe {})),.main,.main]

/-- The session is there, and the client gets a packet from it. -/
def chat : List Event :=
  [.start true,.respond true,.deliver [1,2],.reader,.reader,.reader,.send true]

/-- A client that gets a packet and then disconnects. -/
theorem run_alive_chat : ∃ s : State,
    run State.step {} (request ++ (chat ++ [.main,.receive .null])) = some s ∧
      s.cause = some .disconnected ∧ Alive s := by
  refine ⟨_,rfl,rfl,
    (run_alive (request ++ (chat ++ [.main,.receive .null])) _ rfl).1 (by decide) ?_⟩
  have hchat : ∀ s, ∀ e ∈ chat, Fine s e := by
    intro s e he hmain
    subst hmain
    exact absurd he (by decide)
  have hnone : ∀ {s : State} {e : Event}, s.session = none → Fine s e :=
    fun hs _ _ _ _ => Or.inl hs
  refine meets_cons (hnone rfl) rfl (meets_cons (hnone rfl) rfl ?_)
  refine meets_cons (hnone rfl) rfl (meets_cons (hnone rfl) rfl ?_)
  change Meets State.step Fine _ (chat ++ [.main,.receive .null])
  apply meets_append hchat rfl
  exact meets_cons (fun _ _ _ h => by cases h) rfl (meets_cons nofun rfl trivial)

/-- A client that asks for another session after that: the reader of the first one is told that its
queue is gone, and ends the connection. -/
theorem not_alive_replaced :
    ¬ ∀ (es : List Event) (s : State), (∀ e ∈ es, HasPayload e) → run State.step {} es = some s →
      Alive s := by
  intro h
  have alive := h (request ++ (chat ++ (request ++ [.reader,.reader,.reader]))) _ (by decide) rfl
  rcases alive with halive | halive | halive | halive <;> cases halive

end CodecServer.Server.ReaderLoop
