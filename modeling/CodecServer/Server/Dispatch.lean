import CodecServer.Server.Proto
import CodecServer.Server.Service

/-! The bytes that a client sends, and the messages that `ClientConnection::loop` makes of them. -/
namespace CodecServer.Server.Dispatch
open CodecServer.Transition CodecServer.Ambe3K CodecServer.Ambe3K.Protocol CodecServer.Protobuf
variable {p : Protobuf} {π : Type} (x : Schema p) (conn : ℕ)

/-- A round of the loop: the bytes that there were to be read, the message that a handler was called
with, and the server before and after it. -/
structure Round (π : Type) where
  bytes : List (BitVec 8)
  called : Option Message
  before : Service π
  after : Option (Service π)

/-- The server, as long as it runs, the input of one of the connections, and the rounds of its
loop. -/
structure State (π : Type) where
  service : Option (Service π)
  input : InStream (BitVec 8)
  rounds : List (Round π) := []

/-- The loop receives something; anything else happens to the server. -/
inductive Event
  | receive (fresh : RateP) (sent : Bool)
  | other (e : Service.Event)

/-- The types in the order in which `checkMessageType` is called. -/
def kinds : List Kind := [.request,.check,.channelData,.speechData,.renegotiation]

/-- The message that `processMessage` is called with. The result of `UnpackTo` is not looked at. -/
def checkMessageType (any : p.Any) : Option Message :=
  (kinds.find? fun kind => x.is kind any).map fun kind => (x.unpackTo kind any).1

/-- A round of the loop of a connection that is served. -/
def loop (service : Service π) (input : InStream (BitVec 8)) (fresh : RateP) (sent : Bool) :
    Round π :=
  match (p.receiveMessage input).1 with
  | none => {bytes := input.content, called := none, before := service, after := service.leave conn}
  | some any =>
    match checkMessageType x any with
    | none =>
      {bytes := input.content, called := none, before := service, after := service.resume conn}
    | some message =>
      { bytes := input.content
        called := some message
        before := service
        after := service.step (.message conn fresh message sent) }

/-- The messages of this client only come from its loop. -/
def Event.IsMessage : Service.Event → Prop
  | .message k _ _ _ => k = conn
  | _ => False

instance (e : Service.Event) : Decidable (Event.IsMessage conn e) :=
  match e with
  | .message k _ _ _ => inferInstanceAs (Decidable (k = conn))
  | .accept _ _ => instDecidableFalse
  | .readerEnds _ => instDecidableFalse
  | .disconnect _ => instDecidableFalse

/-- What cannot happen leaves everything as it is. -/
def step (s : State π) : Event → Option (State π)
  | .receive fresh sent =>
    match s.service with
    | none => some s
    | some service =>
      if service.phase conn = .serving then
        let round := loop x conn service s.input fresh sent
        some
          { service := round.after
            input := (p.receiveMessage s.input).2
            rounds := s.rounds ++ [round] }
      else some s
  | .other e =>
    if Event.IsMessage conn e then some s
    else some {s with service := s.service.bind fun service => service.step e}

/-- Bytes that encode an `Any` which names a type are a complete frame, of a size that is an `int`,
and its value is well formed. -/
def WellFormed (bs : List (BitVec 8)) : Prop :=
  ∀ size k any, Varint.read bs = some (size,k) → size ≠ 0 →
    p.decode (p.limited size (bs.drop k)) = some any → ∀ kind, x.is kind any →
      size < 2^31 ∧ k+size ≤ bs.length ∧ (x.decode kind (x.value any)).isSome

/-- The first parse of what is to be read decides, and what names a type is well formed. -/
def Fine (s : State π) : Event → Prop
  | .receive _ _ =>
    ∀ service, s.service = some service → service.phase conn = .serving →
      p.Decisive s.input.content ∧ WellFormed x s.input.content
  | .other _ => True

section
variable {x} {conn} {bs : List (BitVec 8)} {any : p.Any} {message : Message}

end

/-- A `Check` for the codec `ambe`. -/
def check : WireFormat.protobuf.Message where
  name := Proto.name .check
  data := WireFormat.bytesField (1,State.ambe)

/-- A client that connects, sends one message and disconnects. -/
def visit : List Event :=
  [.other (.accept 0 true),.receive (.replicate 6 0) true,.receive (.replicate 6 0) true]

end CodecServer.Server.Dispatch
