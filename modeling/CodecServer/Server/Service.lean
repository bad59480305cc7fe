import Mathlib.Logic.Function.Basic
import CodecServer.Server.ClientConnection

/-! The server with all its connections, from message to message: a connection is accepted, its
messages are handled one at a time, and it goes when its loop is left or a response cannot be
sent. -/
namespace CodecServer.Server
open Function CodecServer.Transition CodecServer.Ambe3K CodecServer.Ambe3K.Protocol

/-- A client that has not connected yet; one that is served; one whose `ClientConnection` has been
deleted. -/
inductive Phase
  | absent
  | serving
  | gone
  deriving DecidableEq

/-- What a message has led to, and the device and the channel of the session it was for. -/
structure Entry (π : Type) where
  message : Message
  session : Option (ℕ × Channel π)
  response : Option Response
  queued : List (ℕ × Outgoing)

/-- The devices and sessions, the connections and their flags `run`, and a record of the messages
that were handled, per connection. -/
structure Service (π : Type) where
  server : State π
  phase : ℕ → Phase := fun _ => .absent
  run : ℕ → Bool := fun _ => true
  log : ℕ → List (Entry π) := fun _ => []

/-- A client connects, and gets a handshake if it can be sent; a message arrives, and its response
can be sent or not; the reader of a session clears `run`; the client disconnects. -/
inductive Service.Event
  | accept (conn : ℕ) (sent : Bool)
  | message (conn : ℕ) (fresh : RateP) (message : Message) (sent : Bool)
  | readerEnds (conn : ℕ)
  | disconnect (conn : ℕ)

namespace Message

def isRequest : Message → Bool
  | .request _ _ => true
  | _ => false

/-- The messages that a client gets a response to. -/
def asks : Message → Bool
  | .request _ _ => true
  | .check _ => true
  | .renegotiation _ => true
  | _ => false

end Message

namespace Service
variable {π : Type}

/-- The server once it is up, with devices as `createChannels` leaves them. -/
def start (counts : List ℕ) : Service π := {server := {devices := counts.map .createChannels}}

/-- The device and the channel of the session of a connection. -/
def sessionOf (s : Service π) (conn : ℕ) : Option (ℕ × Channel π) :=
  (s.server.sessions conn).bind fun (i,j) =>
    (State.channelAt s.server.devices i j).map fun c => (i,c)

/-- `~ClientConnection`. -/
def destroy (s : Service π) (conn : ℕ) : Service π :=
  { s with
    server := s.server.stopSession conn
    phase := update s.phase conn .gone }

/-- The rest of `loop` and of the constructor, once `run` is false. -/
def leave (s : Service π) (conn : ℕ) : Service π :=
  {s with server := s.server.stopSession conn}.destroy conn

/-- The test of `run` at the top of the loop. -/
def resume (s : Service π) (conn : ℕ) : Service π := if s.run conn then s else s.leave conn

def record (s : Service π) (conn : ℕ) (entry : Entry π) : Service π :=
  {s with log := update s.log conn (s.log conn ++ [entry])}

/-- The server has handled a message. The reader of a session that a request replaces clears `run`
before it is joined. -/
def handled (s : Service π) (conn : ℕ) (message : Message) (server : State π) : Service π :=
  let replaced := message.isRequest && (s.server.sessions conn).isSome
  { s with
    server := server
    run := update s.run conn (s.run conn && !replaced) }

/-- A message of a client that is served; a failed response throws past the loop. -/
def receive (s : Service π) (conn : ℕ) (fresh : RateP) (message : Message) (sent : Bool) :
    Option (Service π) :=
  match s.server.processMessage conn fresh message with
  | .answered response queued server =>
    if sent then
      some (((s.handled conn message server).record conn
        ⟨message,s.sessionOf conn,some response,queued⟩).resume conn)
    else some ((s.handled conn message server).destroy conn)
  | .unanswered queued server =>
    some (((s.handled conn message server).record conn
      ⟨message,s.sessionOf conn,none,queued⟩).resume conn)
  | .terminated => none
  | .crashed => none

/-- What a client sends when its connection is gone is not read, and what cannot happen leaves
everything as it is. There is no next state if the server has come to its end. -/
def step (s : Service π) : Event → Option (Service π)
  | .accept conn sent =>
    match s.phase conn with
    | .absent =>
      some (if sent then {s with phase := update s.phase conn .serving} else s.destroy conn)
    | _ => some s
  | .message conn fresh message sent =>
    match s.phase conn with
    | .serving => s.receive conn fresh message sent
    | _ => some s
  | .readerEnds conn =>
    match s.server.sessions conn with
    | none => some s
    | some _ => some {s with run := update s.run conn false}
  | .disconnect conn =>
    match s.phase conn with
    | .serving => some (s.leave conn)
    | _ => some s

end Service
end CodecServer.Server
