import CodecServer.Ambe3K.Channel
import CodecServer.Ambe3K.Protocol.Parse

/-! The device side of its channels: which channel a received packet is for. -/
namespace CodecServer.Ambe3K
open CodecServer.Memory CodecServer.Memory.Access CodecServer.Ambe3K.Protocol

/-- The channels of a device; `π` is a received packet, or more than that. -/
structure Device (π : Type) where
  channels : List (Channel π)

namespace Device
variable {π : Type}

/-- `Device::createChannels(unsigned int)`. -/
def createChannels (count : ℕ) : Device π :=
  ⟨(List.range count).map fun i => {index := BitVec.ofNat 8 i}⟩

/-- The number of channels that `createChannels(const std::string&)` creates. -/
def channelCount (prodId : List Byte) : ℕ :=
  if prodId.take 8 = [0x41,0x4d,0x42,0x45,0x33,0x30,0x30,0x30] then 1
  else if prodId.take 8 = [0x41,0x4d,0x42,0x45,0x33,0x30,0x30,0x33] then 3
  else 0

/-- `Device::getChannelNumber`, with its assertion. -/
def getChannelNumber (d : Device π) (packet : Packet) : Access ℕ :=
  if packet.hasChannel = false then return 0
  else do
    let channelNo ← packet.getChannel
    require (channelNo.toNat < d.channels.length)
    return channelNo.toNat

/-- What `Device::receivePacket` does with a packet. -/
inductive Receipt (π : Type)
  | delivered (channel : ℕ) (device : Device π)
  | discarded

/-- `channels[n]->receive(packet)`; there is no bounds check. -/
def deliver (d : Device π) (n : ℕ) (item : π) : Access (Receipt π) :=
  match d.channels[n]? with
  | none => fail .segfault
  | some c => return .delivered n {d with channels := d.channels.set n (c.receive item)}

/-- `Device::receivePacket`. A control packet is reported, with its channel, and dropped. -/
def receivePacket (d : Device π) (packet : Packet) (item : π) : Access (Receipt π) :=
  match packet.kind with
  | .control _ =>
    if packet.hasChannel then do
      let _ ← packet.getChannel
      return .discarded
    else return .discarded
  | _ => do
    let n ← d.getChannelNumber packet
    d.deliver n item

end Device
end CodecServer.Ambe3K
