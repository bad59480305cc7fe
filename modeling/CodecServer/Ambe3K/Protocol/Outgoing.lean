import CodecServer.Ambe3K.Protocol.Wire

/-! Packets built by the server. Each constructor allocates a size of its own and lays its fields
out behind the header, by a running offset. -/
namespace CodecServer.Ambe3K.Protocol
open CodecServer.Memory CodecServer.Memory.Access CodecServer.Parity

/-- A field constructor for an outgoing packet: the bytes it stores, and the object it makes. -/
structure FieldCtor where
  bytes : Except Fault (List Byte)
  make : ℕ → Field

/-- The constructor of `ChecksumField`; the checksum itself is stored later. -/
def checksumField : FieldCtor := ⟨.ok [parityByte],.checksum⟩
def resetField : FieldCtor := ⟨.ok [controlReset],.reset⟩
def prodIdRequestField : FieldCtor := ⟨.ok [controlProdid],.prodIdRequest⟩
def versionStringRequestField : FieldCtor := ⟨.ok [controlVerstring],.versionStringRequest⟩

def channelField (channel : Byte) : FieldCtor :=
  ⟨if channel ≤ 3 then .ok [0x40+channel] else .error .assertion,.channel⟩

def rateTRequestField (index : Byte) : FieldCtor := ⟨.ok [controlRatet,index],.rateTRequest⟩

def ratePRequestField (cwds : Vector (BitVec 16) 6) : FieldCtor :=
  ⟨.ok (controlRatep::cwds.toList.flatMap htons),.ratePRequest⟩

def initRequestField (direction : Byte) : FieldCtor := ⟨.ok [controlInit,direction],.initRequest⟩

/-- `ChanDField(char*, char*, unsigned char)`; its `memcpy` reads the caller's buffer. -/
def chanDRequestField (channelData : List Byte) (bits : Byte) : FieldCtor :=
  ⟨(loadFrom channelData ((bits.toNat+7)/8)).map fun block => channelChand::bits::block,
    fun data => .chanD data bits.toNat⟩

/-- `SpeechDField(char*, char*, unsigned char)`: the samples are copied as they are. -/
def speechDRequestField (speechData : List Byte) (samples : Byte) : FieldCtor :=
  ⟨(loadFrom speechData (samples.toNat*2)).map fun block => speechSpeechd::samples::block,
    fun data => .speechD data samples.toNat⟩

namespace Packet

/-- `Packet(size_t, char)`: zeroed memory with the header stored into it. -/
def ofSize (size : ℕ) (type : PacketType) : Except Fault Packet :=
  if size < 4 then .error .assertion else do
    let data ← store (List.replicate size 0) 0 [startByte]
    let data ← store data 1 (htons (BitVec.ofNat 16 (size-4)))
    let data ← store data 3 [type.toByte]
    return {data := data, dataSize := size, kind := .empty type}

/-- Construct the fields at `payload + offset`, the offset growing by each `getLength()`. Of the
field pointers only those are kept that an accessor or `updateChecksum` reads. -/
def layOut (p : Packet) : ℕ → List FieldCtor → Except Fault Packet
  | _,[] => .ok p
  | offset,c::cs => do
    let block ← c.bytes
    let data ← store p.data (4+offset) block
    let f := c.make (4+offset)
    layOut ({p with data := data}.storeField f) (offset+f.getLength) cs

def updateChecksum (p : Packet) : Except Fault Packet :=
  match p.checksum with
  | none => .ok p
  | some checksum => do
    let parity ← p.getChecksum.result
    let data ← store p.data (checksum+1) [parity]
    return {p with data := data}

/-- `Packet::writeTo`: the bytes handed to `write(2)`. -/
def writeTo (p : Packet) : Except Fault (Packet × List Byte) := do
  let p ← p.updateChecksum
  return (p,p.data.take p.dataSize)

end Packet

/-! The packet constructors. -/

def resetPacket : Except Fault Packet := do
  let p ← Packet.ofSize 7 .control
  p.layOut 0 [resetField,checksumField]

def prodIdRequest : Except Fault Packet := do
  let p ← Packet.ofSize 7 .control
  p.layOut 0 [prodIdRequestField,checksumField]

def versionStringRequest : Except Fault Packet := do
  let p ← Packet.ofSize 7 .control
  p.layOut 0 [versionStringRequestField,checksumField]

/-- `SetupRequest(unsigned char, unsigned char, unsigned char)`. -/
def setupRequestIndex (channel index direction : Byte) : Except Fault Packet := do
  let p ← Packet.ofSize 11 .control
  if channel ≤ 3 then
    p.layOut 0 [channelField channel,rateTRequestField index,initRequestField direction,
      checksumField]
  else .error .assertion

/-- `SetupRequest(unsigned char, short*, unsigned char)`. -/
def setupRequestRateP (channel : Byte) (cwds : Vector (BitVec 16) 6) (direction : Byte) :
    Except Fault Packet := do
  let p ← Packet.ofSize 22 .control
  if channel ≤ 3 then
    p.layOut 0 [channelField channel,ratePRequestField cwds,initRequestField direction,
      checksumField]
  else .error .assertion

def channelPacket (channel : Byte) (channelData : List Byte) (bits : Byte) :
    Except Fault Packet := do
  let p ← Packet.ofSize ((bits.toNat+7)/8+9) .channel
  p.layOut 0 [channelField channel,chanDRequestField channelData bits,checksumField]

def speechPacket (channel : Byte) (speechData : List Byte) (samples : Byte) :
    Except Fault Packet := do
  let p ← Packet.ofSize (samples.toNat*2+9) .speech
  p.layOut 0 [channelField channel,speechDRequestField speechData samples,checksumField]

/-- A packet of the server, by its constructor and the arguments. -/
inductive Outgoing
  | reset
  | prodIdRequest
  | versionStringRequest
  | setupIndex (channel index direction : Byte)
  | setupRateP (channel : Byte) (cwds : Vector (BitVec 16) 6) (direction : Byte)
  | channel (channel : Byte) (channelData : List Byte) (bits : Byte)
  | speech (channel : Byte) (speechData : List Byte) (samples : Byte)
  deriving DecidableEq

namespace Outgoing

/-- The `new` expression. -/
def new : Outgoing → Except Fault Packet
  | .reset => resetPacket
  | .prodIdRequest => Protocol.prodIdRequest
  | .versionStringRequest => Protocol.versionStringRequest
  | .setupIndex c index direction => setupRequestIndex c index direction
  | .setupRateP c cwds direction => setupRequestRateP c cwds direction
  | .channel c channelData bits => channelPacket c channelData bits
  | .speech c speechData samples => speechPacket c speechData samples

/-- The assertions of the constructors, and the sizes that the caller's buffers must have. -/
def Admitted : Outgoing → Prop
  | .setupIndex c _ _ => c ≤ 3
  | .setupRateP c _ _ => c ≤ 3
  | .channel c channelData bits => c ≤ 3 ∧ (bits.toNat+7)/8 ≤ channelData.length
  | .speech c speechData samples => c ≤ 3 ∧ samples.toNat*2 ≤ speechData.length
  | _ => True

instance : (o : Outgoing) → Decidable o.Admitted
  | .setupIndex c _ _ | .setupRateP c _ _ => inferInstanceAs (Decidable (c ≤ 3))
  | .channel c channelData bits =>
    inferInstanceAs (Decidable (c ≤ 3 ∧ (bits.toNat+7)/8 ≤ channelData.length))
  | .speech c speechData samples =>
    inferInstanceAs (Decidable (c ≤ 3 ∧ samples.toNat*2 ≤ speechData.length))
  | .reset | .prodIdRequest | .versionStringRequest => .isTrue trivial

def type : Outgoing → PacketType
  | .channel _ _ _ => .channel
  | .speech _ _ _ => .speech
  | _ => .control

/-- The channel that the packet is for; 0 for the packets that are for the whole device. -/
def channelNo : Outgoing → Byte
  | .setupIndex c _ _ => c
  | .setupRateP c _ _ => c
  | .channel c _ _ => c
  | .speech c _ _ => c
  | _ => 0

/-- The fields of the packet, as the AMBE-3000 frame format writes them. -/
def fields : Outgoing → List (List Byte)
  | .reset => [[0x33]]
  | .prodIdRequest => [[0x30]]
  | .versionStringRequest => [[0x31]]
  | .setupIndex c index direction => [[0x40+c],[0x09,index],[0x0b,direction]]
  | .setupRateP c cwds direction =>
    [[0x40+c],0x0a::cwds.toList.flatMap htons,[0x0b,direction]]
  | .channel c channelData bits =>
    [[0x40+c],0x01::bits::channelData.take ((bits.toNat+7)/8)]
  | .speech c speechData samples =>
    [[0x40+c],0x00::samples::speechData.take (samples.toNat*2)]

end Outgoing

end CodecServer.Ambe3K.Protocol
