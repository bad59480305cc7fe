import CodecServer.Ambe3K.BlockingQueue
import CodecServer.Ambe3K.Protocol.Outgoing

/-! A channel of the device: who holds it, how its codec is set up, and the queue of the packets
that the device has sent for it. -/
namespace CodecServer.Ambe3K
open CodecServer.Ambe3K.Protocol

/-- The six control words of a custom rate. -/
abbrev RateP := Vector (BitVec 16) 6

/-- `Channel`; `π` is what its queue holds, a received packet or more than that. -/
structure Channel (π : Type) where
  index : Byte
  busy : Bool := false
  codecIndex : Byte := 0
  ratep : Option RateP := none
  outQueue : Option (BlockingQueue π) := none

namespace Channel
variable {π : Type}

def dstar : RateP := #v[0x0130,0x0763,0x4000,0x0000,0x0000,0x0048]
def ysfVw : RateP := #v[0x0558,0x086b,0x1030,0x0000,0x0000,0x0190]

/-- The second `memcmp` compares `sizeof(short) & 6` bytes, which is the first word only. -/
def getFramingBits (c : Channel π) : Byte :=
  if c.codecIndex = 33 then 72
  else if c.codecIndex = 34 then 49
  else if c.codecIndex = 59 then 144
  else
    match c.ratep with
    | none => 0
    | some cwds => if cwds = dstar then 72 else if cwds[0] = ysfVw[0] then 144 else 0

/-- The packet that `Channel::decode` queues; the bit count becomes an `unsigned char`. -/
def decode (c : Channel π) (input : List Byte) : Outgoing :=
  .channel c.index input (BitVec.ofNat 8 (input.length*8))

/-- The packet that `Channel::encode` queues; the sample count becomes an `unsigned char`. -/
def encode (c : Channel π) (input : List Byte) : Outgoing :=
  .speech c.index input (BitVec.ofNat 8 (input.length/2))

/-- Both overloads of `Channel::receive`. A queue that is full is shut down. -/
def receive (c : Channel π) (packet : π) : Channel π :=
  match c.outQueue with
  | none => c
  | some queue =>
    match queue.push packet false with
    | .pushed queue => {c with outQueue := some queue}
    | _ => {c with outQueue := none}

def reserve (c : Channel π) : Channel π := {c with busy := true, outQueue := some (.new 10)}

def release (c : Channel π) : Channel π := {c with outQueue := none, busy := false}

/-- `Channel::setup(unsigned char, unsigned char)` and the packet that it queues. -/
def setup (c : Channel π) (codecIndex direction : Byte) : Channel π × Outgoing :=
  ({c with codecIndex := codecIndex, ratep := none},.setupIndex c.index codecIndex direction)

/-- `Channel::setup(short*, unsigned char)` and the packet that it queues. -/
def setupRateP (c : Channel π) (cwds : RateP) (direction : Byte) : Channel π × Outgoing :=
  ({c with codecIndex := 0, ratep := some cwds},.setupRateP c.index cwds direction)

end Channel
end CodecServer.Ambe3K
