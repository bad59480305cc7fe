import CodecServer.Server.Accounting
import CodecServer.Server.Answers

/-! What a client gets for its messages: a response to each one that asks for something, in the order
in which they were sent, as long as its connection and the server last. -/
namespace CodecServer.Server
open Function CodecServer.Transition CodecServer.Numeral CodecServer.Ambe3K
open CodecServer.Ambe3K.Protocol
variable {π : Type}

/-- A message that asks has a response; data is queued for the session, or dropped if there is
none. -/
def Entry.Fits (entry : Entry π) : Prop :=
  match entry.message with
  | .channelData data =>
    entry.response = none ∧ entry.queued = entry.session.toList.map fun (i,c) => (i,c.decode data)
  | .speechData data =>
    entry.response = none ∧ entry.queued = entry.session.toList.map fun (i,c) => (i,c.encode data)
  | _ => entry.response.isSome

namespace State

/-- The messages that end the server: settings whose index is out of the range of `int`, if there is
a channel to try them on, and a renegotiation without a session. -/
def Fatal (s : State π) (conn : ℕ) : Message → Prop
  | .request codec settings =>
    codec = ambe ∧ s.Available conn ∧ Rejected settings .outOfRange
  | .renegotiation _ => s.sessions conn = none
  | _ => False

section
variable {s : State π} {conn : ℕ} (fresh : RateP) {message : Message}

end
end State

namespace Service

/-- What a client sends with an event. -/
def arrival (conn : ℕ) : Event → List Message
  | .message k _ message _ => if k = conn then [message] else []
  | _ => []

/-- The messages of a client that were handled. -/
def messages (s : Service π) (conn : ℕ) : List Message := (s.log conn).map Entry.message

/-- No message that is handled ends the server, and the client only sends what is read. -/
def Fine (conn : ℕ) (s : Service π) : Event → Prop
  | .message k _ message _ =>
    (s.phase k = .serving → ¬ s.server.Fatal k message) ∧ (k = conn → s.phase k = .serving)
  | _ => True

section
variable {s t : Service π} {conn : ℕ}

end

/-- The connection that an event is about. -/
def Event.conn : Event → ℕ
  | .accept conn _ => conn
  | .message conn _ _ _ => conn
  | .readerEnds conn => conn
  | .disconnect conn => conn

/-- A request is handled while there is a session. -/
def Replaces (s : Service π) : Event → Prop
  | .message conn _ message _ =>
    s.phase conn = .serving ∧ (s.server.sessions conn).isSome ∧ message.isRequest
  | _ => False

/-- A session is ended: by a request, because the loop is left, or because a response is not sent. -/
def Ends (s : Service π) : Event → Prop
  | .message conn _ message sent =>
    s.phase conn = .serving ∧ (s.server.sessions conn).isSome ∧
      (message.isRequest ∨ s.run conn = false ∨ (message.asks ∧ sent = false))
  | .disconnect conn => s.phase conn = .serving ∧ (s.server.sessions conn).isSome
  | _ => False

instance (s : Service π) (e : Event) : Decidable (s.Replaces e) := by
  cases e <;> unfold Replaces <;> infer_instance

instance (s : Service π) (e : Event) : Decidable (s.Ends e) := by
  cases e <;> unfold Ends <;> infer_instance

end Service

/-- Where the reader of a session is: in `Channel::read` with the queue found, before it loads
`outQueue` again for the call of `pop`; in `pop` with the queue found empty, before it waits; or
anywhere else. -/
inductive Stage
  | elsewhere
  | tested
  | paused
  deriving DecidableEq

/-- The service with the readers of its sessions. -/
structure Attended (π : Type) where
  service : Service π
  stage : ℕ → Stage := fun _ => .elsewhere

/-- Something happens to a connection, or the reader of its session gets somewhere. -/
inductive Attended.Event
  | service (e : Service.Event)
  | read (conn : ℕ) (stage : Stage)

namespace Attended

/-- The destructor of a queue notifies without the mutex, which does not reach a reader that is about
to wait: `stopSession` joins it for ever, and nothing more is read from the client. -/
def Stuck (s : Attended π) (e : Service.Event) : Prop :=
  s.service.Replaces e ∧ s.stage e.conn = .paused

/-- The end of a session sets `outQueue` to null, and its reader calls `pop` of that. -/
def Lost (s : Attended π) (e : Service.Event) : Prop :=
  s.service.Ends e ∧ s.stage e.conn = .tested

instance (s : Attended π) (e : Service.Event) : Decidable (s.Stuck e) := by
  unfold Stuck; infer_instance

instance (s : Attended π) (e : Service.Event) : Decidable (s.Lost e) := by
  unfold Lost; infer_instance

/-- The reader of a session that ends is done; a new one has not come anywhere yet. -/
def settle (s : Attended π) (e : Service.Event) (service : Service π) : Attended π where
  service := service
  stage := if s.service.Ends e then update s.stage e.conn .elsewhere else s.stage

/-- The channel of a session is given back before its reader is joined. -/
def step (s : Attended π) : Event → Option (Attended π)
  | .read conn stage =>
    if (s.service.server.sessions conn).isSome then
      some {s with stage := update s.stage conn stage}
    else some s
  | .service e =>
    if s.Lost e then none
    else if s.Stuck e then some (s.settle e (s.service.destroy e.conn))
    else (s.service.step e).map (s.settle e)

def start (counts : List ℕ) : Attended π := {service := .start counts}

def arrival (conn : ℕ) : Event → List Message
  | .service e => Service.arrival conn e
  | .read _ _ => []

def messages (s : Attended π) (conn : ℕ) : List Message := s.service.messages conn

/-- All messages of the client were handled, in order, each one as it should be. -/
def Serves (s : Attended π) (conn : ℕ) (es : List Event) : Prop :=
  s.messages conn = es.flatMap (arrival conn) ∧ ∀ entry ∈ s.service.log conn, entry.Fits

/-- No session ends while its reader is between the two loads of `outQueue`; no request of the client
replaces a session whose reader is about to wait; and what is handled is fine. -/
def Fine (conn : ℕ) (s : Attended π) : Event → Prop
  | .service e =>
    ¬ s.Lost e ∧ (e.conn = conn → ¬ s.Stuck e) ∧ (¬ s.Stuck e → Service.Fine conn s.service e)
  | .read _ _ => True

section
variable {s t : Attended π} {conn : ℕ}

theorem sound_step {e : Event} (hs : s.service.Sound) (h : s.step e = some t) : t.service.Sound := by
  cases e with
  | read k stage =>
    simp only [step] at h
    split_ifs at h <;> exact Option.some.inj h ▸ hs
  | service e =>
    simp only [step] at h
    split_ifs at h
    · exact Option.some.inj h ▸ Service.sound_destroy hs e.conn
    · obtain ⟨service,hstep,rfl⟩ := Option.map_eq_some_iff.mp h
      exact Service.sound_step _ _ _ hs hstep

end

/-- A message of the first client, with six words that were in memory. -/
def tells (message : Message) : Event := .service (.message 0 (.replicate 6 0) message true)

/-- A client that checks, gets a session, sets it up again, sends data, and while the reader of the
session waits for what comes back asks for another one. -/
def talk : List Event :=
  [.service (.accept 0 true),tells (.check State.ambe),tells (.request State.ambe {}),
    tells (.renegotiation {}),tells (.channelData [1,2]),.read 0 .tested,.read 0 .paused,
    .read 0 .elsewhere,tells (.request State.ambe {})]

end Attended
end CodecServer.Server
