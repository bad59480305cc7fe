import CodecServer.Memory

/-! The field classes of the AMBE-3000 protocol. A field object holds a pointer into its packet,
kept here as an index, and whatever its constructor has read there. -/
namespace CodecServer.Ambe3K.Protocol
open CodecServer.Memory CodecServer.Memory.Access

/-- `char`. Only equality and exclusive-or are used, so the sign plays no part. -/
abbrev Byte := BitVec 8

def startByte : Byte := 0x61
def parityByte : Byte := 0x2f

def typeControl : Byte := 0x00
def typeAmbe : Byte := 0x01
def typeAudio : Byte := 0x02

def controlRatep : Byte := 0x0a
def controlRatet : Byte := 0x09
def controlInit : Byte := 0x0b
def controlProdid : Byte := 0x30
def controlVerstring : Byte := 0x31
def controlReset : Byte := 0x33
def controlReady : Byte := 0x39

def directionEncode : Byte := 0x01
def directionDecode : Byte := 0x02

def channelChand : Byte := 0x01
def speechSpeechd : Byte := 0x00

def fifoMaxPending : ℕ := 3

/-- The three cases `0x40`, `0x41` and `0x42` of the field switches. -/
def IsChannelOpcode (b : Byte) : Prop := b = 0x40 ∨ b = 0x41 ∨ b = 0x42

instance (b : Byte) : Decidable (IsChannelOpcode b) := by
  unfold IsChannelOpcode; infer_instance

inductive Field
  | checksum (data : ℕ)
  | ready (data : ℕ)
  | reset (data : ℕ)
  | prodIdRequest (data : ℕ)
  | prodIdResponse (data : ℕ) (productId : List Byte)
  | versionStringRequest (data : ℕ)
  | versionStringResponse (data : ℕ)
  | channel (data : ℕ)
  | channelResponse (data : ℕ)
  | rateTRequest (data : ℕ)
  | rateTResponse (data : ℕ)
  | ratePRequest (data : ℕ)
  | ratePResponse (data : ℕ)
  | initRequest (data : ℕ)
  | initResponse (data : ℕ)
  | chanD (data bits : ℕ)
  | speechD (data samples : ℕ)
  deriving Repr, DecidableEq

def Field.getLength : Field → ℕ
  | .checksum _ => 2
  | .ready _ => 1
  | .reset _ => 1
  | .prodIdRequest _ => 1
  | .prodIdResponse _ productId => productId.length+2
  | .versionStringRequest _ => 1
  | .versionStringResponse _ => 49
  | .channel _ => 1
  | .channelResponse _ => 2
  | .rateTRequest _ => 2
  | .rateTResponse _ => 2
  | .ratePRequest _ => 13
  | .ratePResponse _ => 2
  | .initRequest _ => 2
  | .initResponse _ => 2
  | .chanD _ bits => 2+(bits+7)/8
  | .speechD _ samples => 2+samples*2

theorem Field.getLength_pos (f : Field) : 0 < f.getLength := by
  cases f <;> simp only [getLength] <;> omega

/-! The constructors that `buildField` calls. Those of `ChecksumField` and `ReadyField` store
their opcode at `data[0]`, where the switch has just read it; no byte changes. -/

/-- The product id is copied by `std::string(data + 1)`, up to the next NUL wherever it lies. -/
def prodIdResponseField (mem : List Byte) (data : ℕ) : Access Field := do
  let productId ← loadUntil 0 (mem.drop (data+1)) (data+1)
  return .prodIdResponse data productId

/-- A response field: `assert(data[1] == 0)`. -/
def statusField (make : ℕ → Field) (mem : List Byte) (data : ℕ) : Access Field := do
  let status ← load mem (data+1)
  require (status = 0)
  return make data

def channelResponseField := statusField .channelResponse
def rateTResponseField := statusField .rateTResponse
def ratePResponseField := statusField .ratePResponse
def initResponseField := statusField .initResponse

/-- A data field keeps the count found at `data[1]`, as an `unsigned char`. -/
def countedField (make : ℕ → ℕ → Field) (mem : List Byte) (data : ℕ) : Access Field := do
  let count ← load mem (data+1)
  return make data count.toNat

def chanDField := countedField .chanD
def speechDField := countedField .speechD

/-! Accessors. -/

/-- `ChannelField::getChannel` and `ChannelResponseField::getChannel`. -/
def fieldChannel (mem : List Byte) (data : ℕ) : Access Byte := do
  let b ← load mem data
  return b-0x40

/-- `VersionStringResponseField::getVersionId`. -/
def fieldVersionId (mem : List Byte) (data : ℕ) : Access (List Byte) := loadBlock mem (data+1) 48

/-- `ChanDField::getChannelData`: the bytes copied and the size returned. -/
def fieldChannelData (mem : List Byte) (data bits : ℕ) : Access (List Byte × ℕ) := do
  let size := (bits+7)/8
  let output ← loadBlock mem (data+2) size
  return (output,size)

/-- `ntohs` of the two bytes found in memory: the first one is the high one on every host. -/
def ntohs (high low : Byte) : BitVec 16 := high ++ low

/-- The sample loop of `SpeechDField::getSpeechData`. -/
def fieldSamples (mem : List Byte) (src : ℕ) : ℕ → Access (List (BitVec 16))
  | 0 => pure []
  | samples+1 => do
    let high ← load mem src
    let low ← load mem (src+1)
    let tail ← fieldSamples mem (src+2) samples
    return ntohs high low::tail

/-- `SpeechDField::getSpeechData`: the samples stored and the size returned. -/
def fieldSpeechData (mem : List Byte) (data samples : ℕ) : Access (List (BitVec 16) × ℕ) := do
  let output ← fieldSamples mem (data+2) samples
  return (output,samples*2)

/-- `ChecksumField::isCorrect`. -/
def checksumIsCorrect (mem : List Byte) (data : ℕ) (checksum : Byte) : Access Bool := do
  let b ← load mem (data+1)
  return b = checksum

end CodecServer.Ambe3K.Protocol
