import CodecServer.Ambe3K.Protocol.Packet

/-! What the payload of a packet says, as a function of its bytes alone: the shape of a field is
given by its opcode, the fields follow each other without a gap, and the list ends at the first
field that is unknown or does not lie in the payload as a whole. -/
namespace CodecServer.Ambe3K.Protocol

/-- How the extent of a field is found: it is fixed; it is fixed and the second byte is a status
that must be zero; the second byte is a count; or the field runs up to a NUL. -/
inductive Shape
  | plain (make : ℕ → Field)
  | status (make : ℕ → Field)
  | counted (make : ℕ → ℕ → Field)
  | text

def baseShape (opcode : Byte) : Option Shape :=
  if opcode = parityByte then some (.plain .checksum)
  else if IsChannelOpcode opcode then some (.plain .channel)
  else none

/-- The fields of each packet type; `0x00`, `0x01` and `0x40` to `0x42` depend on it. -/
def shape : PacketType → Byte → Option Shape
  | .control,opcode =>
    if opcode = controlReady then some (.plain .ready)
    else if opcode = controlProdid then some .text
    else if opcode = controlVerstring then some (.plain .versionStringResponse)
    else if opcode = controlRatet then some (.status .rateTResponse)
    else if opcode = controlRatep then some (.status .ratePResponse)
    else if opcode = controlInit then some (.status .initResponse)
    else if IsChannelOpcode opcode then some (.status .channelResponse)
    else baseShape opcode
  | .speech,opcode =>
    if opcode = speechSpeechd then some (.counted .speechD) else baseShape opcode
  | .channel,opcode =>
    if opcode = channelChand then some (.counted .chanD) else baseShape opcode

namespace Shape

/-- The field whose opcode is at `current` and is followed by `rest`. -/
def field (current : ℕ) (rest : List Byte) : Shape → Option Field
  | plain make => some (make current)
  | status make => if rest.head? = some 0 then some (make current) else none
  | counted make => rest.head?.map fun count => make current count.toNat
  | text =>
    if 0 ∈ rest then some (.prodIdResponse current (rest.takeWhile (·≠0))) else none

/-- The bytes from which the extent of the field is computed lie in `rest`, with a good status. -/
def Contained (rest : List Byte) : Shape → Prop
  | plain _ => True
  | status _ => rest.head? = some 0
  | counted _ => rest ≠ []
  | text => 0 ∈ rest

instance (rest : List Byte) (s : Shape) : Decidable (s.Contained rest) := by
  cases s <;> unfold Contained <;> infer_instance

/-- The lengths the shapes stand for. -/
def HasLength : Shape → Prop
  | plain _ => True
  | status make => ∀ data, (make data).getLength = 2
  | counted make => ∀ data count, 2 ≤ (make data count).getLength
  | text => True

end Shape

theorem shape_hasLength {t : PacketType} {opcode : Byte} {s : Shape} (h : shape t opcode = some s) :
    s.HasLength := by
  cases t <;> simp only [shape,baseShape] at h <;> split_ifs at h <;> cases h <;>
    simp [Shape.HasLength,Field.getLength]

/-- The field at the front of `l`, if it is known and `l` holds all of it. -/
def frontField (t : PacketType) (current : ℕ) : List Byte → Option Field
  | [] => none
  | opcode::rest =>
    ((shape t opcode).bind (Shape.field current rest)).filter (·.getLength ≤ rest.length+1)

def FrontContained (t : PacketType) : List Byte → Prop
  | [] => True
  | opcode::rest => ∀ s ∈ shape t opcode, s.Contained rest

/-- The fields of `l`, whose first byte has index `current`, at most `rounds` of them. -/
def fieldsFrom (t : PacketType) : ℕ → ℕ → List Byte → List Field
  | 0,_,_ => []
  | rounds+1,current,l =>
    match frontField t current l with
    | none => []
    | some f => f::fieldsFrom t rounds (current+f.getLength) (l.drop f.getLength)

/-- No field that the walk through `l` meets takes its extent or its status from behind `l`. -/
def ContainedFrom (t : PacketType) : ℕ → ℕ → List Byte → Prop
  | 0,_,_ => True
  | rounds+1,current,l =>
    FrontContained t l ∧
      match frontField t current l with
      | none => True
      | some f => ContainedFrom t rounds (current+f.getLength) (l.drop f.getLength)

/-- The fields of a whole payload; it follows the four bytes of the header. -/
def fieldsOf (t : PacketType) (payload : List Byte) : List Field :=
  fieldsFrom t (payload.length+1) 4 payload

def PayloadContained (t : PacketType) (payload : List Byte) : Prop :=
  ContainedFrom t (payload.length+1) 4 payload

/-- Where the parity fields, the channel fields and the channel fields of a control packet are. -/
def Field.checksumAt : Field → Option ℕ
  | .checksum data => some data
  | _ => none

def Field.channelAt : Field → Option ℕ
  | .channel data => some data
  | _ => none

def Field.channelResponseAt : Field → Option ℕ
  | .channelResponse data => some data
  | _ => none

/-- Where the last field of a kind is; a packet keeps no other. -/
def lastAt (at? : Field → Option ℕ) (fs : List Field) : Option ℕ := fs.reverse.findSome? at?

theorem lastAt_cons (at? : Field → Option ℕ) (f : Field) (fs : List Field) :
    lastAt at? (f::fs) = (lastAt at? fs).or (at? f) := by
  rw [lastAt,List.reverse_cons,List.findSome?_append,List.findSome?_cons]
  cases at? f <;> rfl

theorem mem_of_lastAt {at? : Field → Option ℕ} {fs : List Field} {data : ℕ}
    (h : lastAt at? fs = some data) : ∃ f ∈ fs, at? f = some data := by
  obtain ⟨f,hf,hat⟩ := List.exists_of_findSome?_eq_some h
  exact ⟨f,List.mem_reverse.mp hf,hat⟩

instance (t : PacketType) (l : List Byte) : Decidable (FrontContained t l) := by
  cases l <;> unfold FrontContained <;> infer_instance

instance (t : PacketType) (rounds current : ℕ) (l : List Byte) :
    Decidable (ContainedFrom t rounds current l) := by
  induction rounds generalizing current l with
  | zero => exact isTrue trivial
  | succ rounds ih =>
    unfold ContainedFrom
    cases frontField t current l with
    | none => infer_instance
    | some f =>
      have := ih (current+f.getLength) (l.drop f.getLength)
      infer_instance

instance (t : PacketType) (payload : List Byte) : Decidable (PayloadContained t payload) := by
  unfold PayloadContained; infer_instance

theorem frontField_length {t : PacketType} {current : ℕ} {l : List Byte} {f : Field}
    (h : frontField t current l = some f) : f.getLength ≤ l.length := by
  cases l with
  | nil => simp [frontField] at h
  | cons opcode rest => simpa using (Option.filter_eq_some_iff.mp h).2

end CodecServer.Ambe3K.Protocol
