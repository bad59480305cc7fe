import CodecServer.Ambe3K.Protocol.Field

/-! Received packets: the packet classes, the field scan and `Packet::parse`. -/
namespace CodecServer.Ambe3K.Protocol
open CodecServer.Memory CodecServer.Memory.Access

/-- The three classes `Packet::parse` chooses from. -/
inductive PacketType
  | control
  | speech
  | channel
  deriving Repr, DecidableEq

def PacketType.ofByte (type : Byte) : Option PacketType :=
  if type = typeControl then some .control
  else if type = typeAudio then some .speech
  else if type = typeAmbe then some .channel
  else none

def PacketType.toByte : PacketType → Byte
  | .control => typeControl
  | .speech => typeAudio
  | .channel => typeAmbe

@[simp] theorem PacketType.ofByte_toByte (t : PacketType) : ofByte t.toByte = some t := by
  cases t <;> decide

/-- The field pointers of a `ControlPacket`; a product id comes with the string it has copied. -/
structure ControlFields where
  ready : Option ℕ := none
  prodid : Option (ℕ × List Byte) := none
  version : Option ℕ := none
  rateTResponse : Option ℕ := none
  ratePResponse : Option ℕ := none
  initResponse : Option ℕ := none
  channelResponse : Option ℕ := none
  deriving Repr, DecidableEq

/-- What the dynamic class of a packet adds to `Packet`. -/
inductive Kind
  | control (fields : ControlFields)
  | speech (speechD : Option (ℕ × ℕ))
  | channel (chanD : Option (ℕ × ℕ))
  deriving Repr, DecidableEq

def Kind.type : Kind → PacketType
  | .control _ => .control
  | .speech _ => .speech
  | .channel _ => .channel

/-- A packet without any field yet. -/
def Kind.empty : PacketType → Kind
  | .control => .control {}
  | .speech => .speech none
  | .channel => .channel none

@[simp] theorem Kind.type_empty (t : PacketType) : (Kind.empty t).type = t := by
  cases t <;> rfl

/-- `data` is the memory from the start byte on; the packet itself is its first `dataSize` bytes. -/
structure Packet where
  data : List Byte
  dataSize : ℕ
  checksum : Option ℕ := none
  channel : Option ℕ := none
  kind : Kind
  deriving Repr, DecidableEq

namespace Packet

/-- The constructor `Packet(char*, size_t)`, called for a received packet. -/
def new (data : List Byte) (size : ℕ) (type : PacketType) : Access Packet := do
  require (4 ≤ size)
  return {data := data, dataSize := size, kind := .empty type}

/-! `buildField`, for the base class and for each class that overrides it. -/

def buildFieldBase (current : ℕ) (opcode : Byte) : Option Field :=
  if opcode = parityByte then some (.checksum current)
  else if IsChannelOpcode opcode then some (.channel current)
  else none

def buildFieldControl (mem : List Byte) (current : ℕ) (opcode : Byte) : Access (Option Field) :=
  if opcode = controlReady then return some (.ready current)
  else if opcode = controlProdid then some <$> prodIdResponseField mem current
  else if opcode = controlVerstring then return some (.versionStringResponse current)
  else if opcode = controlRatet then some <$> rateTResponseField mem current
  else if opcode = controlRatep then some <$> ratePResponseField mem current
  else if opcode = controlInit then some <$> initResponseField mem current
  else if IsChannelOpcode opcode then some <$> channelResponseField mem current
  else return buildFieldBase current opcode

def buildFieldChannel (mem : List Byte) (current : ℕ) (opcode : Byte) : Access (Option Field) :=
  if opcode = channelChand then some <$> chanDField mem current
  else return buildFieldBase current opcode

def buildFieldSpeech (mem : List Byte) (current : ℕ) (opcode : Byte) : Access (Option Field) :=
  if opcode = speechSpeechd then some <$> speechDField mem current
  else return buildFieldBase current opcode

/-- The virtual call `buildField(current)`, with the `switch (*current)` it starts with. -/
def buildField (type : PacketType) (mem : List Byte) (current : ℕ) : Access (Option Field) := do
  let opcode ← load mem current
  match type with
  | .control => buildFieldControl mem current opcode
  | .speech => buildFieldSpeech mem current opcode
  | .channel => buildFieldChannel mem current opcode

/-- `Packet::storeField`; any other field is reported and dropped. -/
def storeFieldBase (p : Packet) : Field → Packet
  | .checksum data => {p with checksum := some data}
  | .channel data => {p with channel := some data}
  | _ => p

def storeFieldControl (p : Packet) (fields : ControlFields) : Field → Packet
  | .ready data => {p with kind := .control {fields with ready := some data}}
  | .prodIdResponse data productId =>
    {p with kind := .control {fields with prodid := some (data,productId)}}
  | .versionStringResponse data => {p with kind := .control {fields with version := some data}}
  | .ratePResponse data => {p with kind := .control {fields with ratePResponse := some data}}
  | .rateTResponse data => {p with kind := .control {fields with rateTResponse := some data}}
  | .initResponse data => {p with kind := .control {fields with initResponse := some data}}
  | .channelResponse data => {p with kind := .control {fields with channelResponse := some data}}
  | f => p.storeFieldBase f

def storeFieldSpeech (p : Packet) : Field → Packet
  | .speechD data samples => {p with kind := .speech (some (data,samples))}
  | f => p.storeFieldBase f

def storeFieldChannel (p : Packet) : Field → Packet
  | .chanD data bits => {p with kind := .channel (some (data,bits))}
  | f => p.storeFieldBase f

/-- The virtual call `storeField(f)`. -/
def storeField (p : Packet) (f : Field) : Packet :=
  match p.kind with
  | .control fields => p.storeFieldControl fields f
  | .speech _ => p.storeFieldSpeech f
  | .channel _ => p.storeFieldChannel f

/-- The loop of `Packet::scanFields`, with a bound on its rounds. -/
def scanLoop : ℕ → Packet → (current remaining : ℕ) → Access Packet
  | 0,_,_,_ => fail .diverged
  | rounds+1,p,current,remaining =>
    if remaining = 0 then return p
    else do
      match ← buildField p.kind.type p.data current with
      | none => return p
      | some f =>
        if remaining < f.getLength then return p
        else scanLoop rounds (p.storeField f) (current+f.getLength) (remaining-f.getLength)

/-- Every field is at least one byte long, so `remaining + 1` rounds are never used up. -/
def scanFields (p : Packet) : Access Packet :=
  scanLoop (p.dataSize-4+1) p 4 (p.dataSize-4)

/-- The loop of `Packet::getChecksum`, from index `i` on. -/
def checksumLoop (mem : List Byte) : ℕ → (i : ℕ) → Byte → Access Byte
  | 0,_,parity => return parity
  | rounds+1,i,parity => do
    let b ← load mem (i+1)
    checksumLoop mem rounds (i+1) (parity^^^b)

def getChecksum (p : Packet) : Access Byte := checksumLoop p.data (p.dataSize-2) 0 0#8

def hasChecksum (p : Packet) : Bool := p.checksum.isSome

/-- Packets without checksum pass without checking. -/
def isChecksumValid (p : Packet) : Access Bool :=
  match p.checksum with
  | none => return true
  | some checksum => do
    let parity ← p.getChecksum
    checksumIsCorrect p.data checksum parity

/-- `Packet::parse`; `none` is the null pointer. -/
def parse (data : List Byte) (size : ℕ) : Access (Option Packet) := do
  let type ← load data 3
  match PacketType.ofByte type with
  | none => return none
  | some t => do
    let p ← new data size t
    let p ← p.scanFields
    let valid ← p.isChecksumValid
    return if valid then some p else none

/-! Accessors. Those of a null field pointer are a null dereference. -/

def hasChannel (p : Packet) : Bool :=
  match p.kind with
  | .control fields => fields.channelResponse.isSome
  | _ => p.channel.isSome

def getChannel (p : Packet) : Access Byte :=
  match p.kind with
  | .control fields =>
    match fields.channelResponse with
    | none => fail .segfault
    | some data => fieldChannel p.data data
  | _ =>
    match p.channel with
    | none => return 0
    | some data => fieldChannel p.data data

def controlFields (p : Packet) : ControlFields :=
  match p.kind with
  | .control fields => fields
  | _ => {}

def hasReadyField (p : Packet) : Bool := p.controlFields.ready.isSome
def hasProductId (p : Packet) : Bool := p.controlFields.prodid.isSome
def hasVersionString (p : Packet) : Bool := p.controlFields.version.isSome
def hasRatePResponse (p : Packet) : Bool := p.controlFields.ratePResponse.isSome
def hasRateTResponse (p : Packet) : Bool := p.controlFields.rateTResponse.isSome
def hasInitResponse (p : Packet) : Bool := p.controlFields.initResponse.isSome

def getProductId (p : Packet) : Access (List Byte) :=
  match p.controlFields.prodid with
  | none => fail .segfault
  | some (_,productId) => return productId

def getVersionString (p : Packet) : Access (List Byte) :=
  match p.controlFields.version with
  | none => fail .segfault
  | some data => fieldVersionId p.data data

/-- `SpeechPacket::getSpeechData`: the samples stored and the size returned. -/
def getSpeechData (p : Packet) : Access (List (BitVec 16) × ℕ) :=
  match p.kind with
  | .speech (some (data,samples)) => fieldSpeechData p.data data samples
  | _ => return ([],0)

/-- `ChannelPacket::getChannelData`: the bytes stored and the size returned. -/
def getChannelData (p : Packet) : Access (List Byte × ℕ) :=
  match p.kind with
  | .channel (some (data,bits)) => fieldChannelData p.data data bits
  | _ => return ([],0)

end Packet
end CodecServer.Ambe3K.Protocol
