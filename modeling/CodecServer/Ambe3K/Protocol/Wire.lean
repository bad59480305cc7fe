import CodecServer.Ambe3K.Protocol.Parse

/-! The fields of a packet on the wire, by what they say, and how a packet lays them out. A payload
written so is contained, and the scan finds exactly the fields that were written. -/
namespace CodecServer.Ambe3K.Protocol
open CodecServer.Memory CodecServer.Memory.Access CodecServer.Parity

inductive WireField
  | ready
  | prodId (id : List Byte)
  | version (id : List Byte)
  | rateT
  | rateP
  | init
  | channel (channel : Byte)
  | speechD (samples : List (BitVec 16))
  | chanD (bits : Byte) (data : List Byte)
  | parity (checksum : Byte)
  deriving Repr, DecidableEq

inductive WireKind
  | ready
  | prodId
  | version
  | rateT
  | rateP
  | init
  | channel
  | speechD
  | chanD
  | parity
  deriving Repr, DecidableEq

/-- `htons`: a 16-bit word in network order. -/
def htons (w : BitVec 16) : List Byte := [w.extractLsb' 8 8,w.extractLsb' 0 8]

@[simp] theorem htons_length (w : BitVec 16) : (htons w).length = 2 := rfl

theorem ntohs_htons (w : BitVec 16) : ntohs (w.extractLsb' 8 8) (w.extractLsb' 0 8) = w := by
  apply BitVec.eq_of_getLsbD_eq
  intro i hi
  simp only [ntohs,BitVec.getLsbD_append,BitVec.getLsbD_extractLsb',Nat.zero_add]
  by_cases h : i < 8
  · simp [h]
  · simp [h,show i-8 < 8 by omega,show 8+(i-8) = i by omega]

theorem htons_ntohs (high low : Byte) : htons (ntohs high low) = [high,low] := by
  have hhigh : (high ++ low).extractLsb' 8 8 = high := by
    rw [BitVec.extractLsb'_append_eq_of_le (Nat.le_refl 8)]
    simp
  have hlow : (high ++ low).extractLsb' 0 8 = low := BitVec.extractLsb'_append_eq_right
  rw [htons,ntohs,hhigh,hlow]

namespace WireField

def kind : WireField → WireKind
  | ready => .ready
  | prodId _ => .prodId
  | version _ => .version
  | rateT => .rateT
  | rateP => .rateP
  | init => .init
  | channel _ => .channel
  | speechD _ => .speechD
  | chanD _ _ => .chanD
  | parity _ => .parity

/-- The fields of each packet type, and what the device puts into them. -/
def WellFormed : PacketType → WireField → Prop
  | .control,ready => True
  | .control,prodId id => 0 ∉ id
  | .control,version id => id.length = 48
  | .control,rateT => True
  | .control,rateP => True
  | .control,init => True
  | .speech,speechD samples => samples.length ≤ 255
  | .channel,chanD bits data => data.length = (bits.toNat+7)/8
  | _,channel c => c.toNat ≤ 2
  | _,parity _ => True
  | _,_ => False

instance : (t : PacketType) → (w : WireField) → Decidable (w.WellFormed t)
  | .control,prodId id => inferInstanceAs (Decidable (0 ∉ id))
  | .control,version id => inferInstanceAs (Decidable (id.length = 48))
  | .speech,speechD samples => inferInstanceAs (Decidable (samples.length ≤ 255))
  | .channel,chanD bits data => inferInstanceAs (Decidable (data.length = (bits.toNat+7)/8))
  | .control,channel c | .speech,channel c | .channel,channel c =>
    inferInstanceAs (Decidable (c.toNat ≤ 2))
  | .control,ready | .control,rateT | .control,rateP | .control,init => .isTrue trivial
  | .control,parity _ | .speech,parity _ | .channel,parity _ => .isTrue trivial
  | .control,speechD _ | .control,chanD _ _ | .speech,chanD _ _ | .channel,speechD _ => .isFalse id
  | .speech,ready | .speech,prodId _ | .speech,version _ => .isFalse id
  | .speech,rateT | .speech,rateP | .speech,init => .isFalse id
  | .channel,ready | .channel,prodId _ | .channel,version _ => .isFalse id
  | .channel,rateT | .channel,rateP | .channel,init => .isFalse id

/-- The bytes of a field. In a control packet, a channel byte is followed by an extra zero. -/
def encode (t : PacketType) : WireField → List Byte
  | ready => [controlReady]
  | prodId id => controlProdid::id ++ [0]
  | version id => controlVerstring::id
  | rateT => [controlRatet,0]
  | rateP => [controlRatep,0]
  | init => [controlInit,0]
  | channel c => if t = .control then [0x40+c,0] else [0x40+c]
  | speechD samples => speechSpeechd::BitVec.ofNat 8 samples.length::samples.flatMap htons
  | chanD bits data => channelChand::bits::data
  | parity checksum => [parityByte,checksum]

/-- The field object for a field whose opcode is at `current`. -/
def field (t : PacketType) (current : ℕ) : WireField → Field
  | ready => .ready current
  | prodId id => .prodIdResponse current id
  | version _ => .versionStringResponse current
  | rateT => .rateTResponse current
  | rateP => .ratePResponse current
  | init => .initResponse current
  | channel _ => if t = .control then .channelResponse current else .channel current
  | speechD samples => .speechD current samples.length
  | chanD bits _ => .chanD current bits.toNat
  | parity _ => .checksum current

end WireField

open WireField

theorem channelOpcode {c : Byte} (h : c.toNat ≤ 2) : c = 0 ∨ c = 1 ∨ c = 2 := by
  rcases show c.toNat = 0 ∨ c.toNat = 1 ∨ c.toNat = 2 by omega with h | h | h
  · exact Or.inl (BitVec.eq_of_toNat_eq h)
  · exact Or.inr (Or.inl (BitVec.eq_of_toNat_eq h))
  · exact Or.inr (Or.inr (BitVec.eq_of_toNat_eq h))

theorem flatMap_htons_length (samples : List (BitVec 16)) :
    (samples.flatMap htons).length = 2*samples.length := by
  induction samples with
  | nil => rfl
  | cons w samples ih =>
    rw [List.flatMap_cons,List.length_append,ih,htons_length,List.length_cons]
    omega

section Field
variable {t : PacketType} {w : WireField}

theorem field_length (h : w.WellFormed t) (current : ℕ) :
    (w.field t current).getLength = (w.encode t).length := by
  cases w with
  | channel c => cases t <;> rfl
  | version id =>
    cases t
    · simp only [WellFormed] at h
      simp [field,encode,Field.getLength,h]
    all_goals exact h.elim
  | speechD samples => simp only [field,encode,Field.getLength,List.length_cons,flatMap_htons_length]; omega
  | chanD bits data =>
    cases t
    case channel =>
      simp only [WellFormed] at h
      simp [field,encode,Field.getLength,h]; omega
    all_goals exact h.elim
  | prodId id => simp [field,encode,Field.getLength]
  | _ => rfl

theorem takeWhile_nul {id rest : List Byte} (h : 0 ∉ id) :
    (id ++ 0::rest).takeWhile (·≠0) = id := by
  have hp : ∀ x ∈ id, decide (x ≠ 0) = true := by
    intro x hx
    simpa using fun hx0 : x = 0 => h (hx0 ▸ hx)
  rw [List.takeWhile_append_of_pos hp]
  simp

/-- The shape that the opcode of a written field stands for, and the field it gives. -/
theorem shape_encode (h : w.WellFormed t) (current : ℕ) (rest : List Byte) :
    ∃ opcode args s, w.encode t = opcode::args ∧ shape t opcode = some s ∧
      s.Contained (args ++ rest) ∧ s.field current (args ++ rest) = some (w.field t current) := by
  cases w with
  | channel c =>
    rcases channelOpcode (by cases t <;> exact h) with rfl | rfl | rfl
    all_goals
      cases t
      · exact ⟨_,_,.status .channelResponse,rfl,rfl,rfl,rfl⟩
      · exact ⟨_,_,.plain .channel,rfl,rfl,trivial,rfl⟩
      · exact ⟨_,_,.plain .channel,rfl,rfl,trivial,rfl⟩
  | parity checksum => cases t <;> exact ⟨_,_,.plain .checksum,rfl,rfl,trivial,rfl⟩
  | speechD samples =>
    cases t
    case speech =>
      refine ⟨_,_,.counted .speechD,rfl,rfl,by simp [Shape.Contained],?_⟩
      simp only [WellFormed] at h
      simp [Shape.field,field]
      omega
    all_goals exact h.elim
  | chanD bits data =>
    cases t
    case channel => exact ⟨_,_,.counted .chanD,rfl,rfl,by simp [Shape.Contained],rfl⟩
    all_goals exact h.elim
  | prodId id =>
    cases t
    case control =>
      refine ⟨_,id ++ [0],.text,rfl,rfl,by simp [Shape.Contained],?_⟩
      simp only [WellFormed] at h
      rw [Shape.field,if_pos (by simp),List.append_assoc]
      exact congrArg (fun s => some (Field.prodIdResponse current s)) (takeWhile_nul h)
    all_goals exact h.elim
  | ready =>
    cases t
    case control => exact ⟨_,_,.plain .ready,rfl,rfl,trivial,rfl⟩
    all_goals exact h.elim
  | version id =>
    cases t
    case control => exact ⟨_,_,.plain .versionStringResponse,rfl,rfl,trivial,rfl⟩
    all_goals exact h.elim
  | rateT =>
    cases t
    case control => exact ⟨_,_,.status .rateTResponse,rfl,rfl,rfl,rfl⟩
    all_goals exact h.elim
  | rateP =>
    cases t
    case control => exact ⟨_,_,.status .ratePResponse,rfl,rfl,rfl,rfl⟩
    all_goals exact h.elim
  | init =>
    cases t
    case control => exact ⟨_,_,.status .initResponse,rfl,rfl,rfl,rfl⟩
    all_goals exact h.elim

theorem frontField_encode (h : w.WellFormed t) (current : ℕ) (rest : List Byte) :
    frontField t current (w.encode t ++ rest) = some (w.field t current) := by
  have hlen := field_length h current
  obtain ⟨opcode,args,s,he,hs,-,hf⟩ := shape_encode h current rest
  rw [he] at hlen ⊢
  simp only [List.cons_append,frontField,hs,Option.bind_some,hf]
  simp [hlen]

theorem frontContained_encode (h : w.WellFormed t) (rest : List Byte) :
    FrontContained t (w.encode t ++ rest) := by
  obtain ⟨opcode,args,s,he,hs,hc,-⟩ := shape_encode h 0 rest
  rw [he]
  intro s' hs'
  obtain rfl : s = s' := by simpa [hs] using hs'
  exact hc

end Field

/-- The field objects of fields written one behind the other, the first at `current`. -/
def layout (t : PacketType) : ℕ → List WireField → List Field
  | _,[] => []
  | current,w::ws => w.field t current::layout t (current+(w.encode t).length) ws

theorem layout_append (t : PacketType) (current : ℕ) (us ws : List WireField) :
    layout t current (us ++ ws) =
      layout t current us ++ layout t (current+(us.flatMap (encode t)).length) ws := by
  induction us generalizing current with
  | nil => rfl
  | cons u us ih => simp [layout,ih,Nat.add_assoc]

theorem encode_length_pos {t : PacketType} {w : WireField} : 0 < (w.encode t).length := by
  cases w <;> simp only [encode] <;> try split_ifs
  all_goals simp

theorem length_le_flatMap_encode (t : PacketType) (ws : List WireField) :
    ws.length ≤ (ws.flatMap (encode t)).length := by
  induction ws with
  | nil => simp
  | cons w ws ih =>
    have := encode_length_pos (t := t) (w := w)
    simp only [List.length_cons,List.flatMap_cons,List.length_append]
    omega

theorem fieldsFrom_encode {t : PacketType} (ws : List WireField) (h : ∀ w ∈ ws, w.WellFormed t)
    (rounds current : ℕ) (hr : ws.length < rounds) :
    fieldsFrom t rounds current (ws.flatMap (encode t)) = layout t current ws := by
  induction ws generalizing rounds current with
  | nil =>
    obtain ⟨rounds,rfl⟩ : ∃ k, rounds = k+1 := ⟨rounds-1,by simp at hr; omega⟩
    rfl
  | cons w ws ih =>
    obtain ⟨rounds,rfl⟩ : ∃ k, rounds = k+1 := ⟨rounds-1,by simp at hr; omega⟩
    have hw := h w (by simp)
    rw [List.flatMap_cons,fieldsFrom,frontField_encode hw]
    simp only [field_length hw,List.drop_left,layout]
    rw [ih (fun v hv => h v (by simp [hv])) _ _ (by simpa using hr)]

theorem containedFrom_encode {t : PacketType} (ws : List WireField) (h : ∀ w ∈ ws, w.WellFormed t)
    (rounds current : ℕ) : ContainedFrom t rounds current (ws.flatMap (encode t)) := by
  induction ws generalizing rounds current with
  | nil =>
    cases rounds with
    | zero => trivial
    | succ rounds => exact ⟨trivial,trivial⟩
  | cons w ws ih =>
    cases rounds with
    | zero => trivial
    | succ rounds =>
      have hw := h w (by simp)
      refine ⟨frontContained_encode hw _,?_⟩
      rw [List.flatMap_cons,frontField_encode hw]
      simp only [field_length hw,List.drop_left]
      exact ih (fun v hv => h v (by simp [hv])) _ _

/-- The four bytes in front of a payload. -/
def header (t : PacketType) (payloadLength : ℕ) : List Byte :=
  startByte::htons (BitVec.ofNat 16 payloadLength) ++ [t.toByte]

/-- A packet of the given type and fields. -/
def image (t : PacketType) (ws : List WireField) : List Byte :=
  header t (ws.flatMap (encode t)).length ++ ws.flatMap (encode t)

@[simp] theorem header_length (t : PacketType) (n : ℕ) : (header t n).length = 4 := rfl

@[simp] theorem image_length (t : PacketType) (ws : List WireField) :
    (image t ws).length = 4+(ws.flatMap (encode t)).length := by simp [image]

@[simp] theorem image_drop (t : PacketType) (ws : List WireField) :
    (image t ws).drop 4 = ws.flatMap (encode t) := rfl

theorem image_type (t : PacketType) (ws : List WireField) :
    (image t ws)[3]?.bind PacketType.ofByte = some t := by
  change PacketType.ofByte t.toByte = some t
  exact PacketType.ofByte_toByte t

/-- The packet object for a packet written on the wire. -/
def written (t : PacketType) (ws : List WireField) (bytes behind : List Byte) : Packet :=
  (layout t 4 ws).foldl Packet.storeField
    {data := bytes ++ behind, dataSize := bytes.length, kind := .empty t}

theorem scanned_of_payload {t : PacketType} {ws : List WireField}
    (h : ∀ w ∈ ws, w.WellFormed t) {bytes behind : List Byte}
    (hb : bytes.drop 4 = ws.flatMap (encode t)) :
    scanned t bytes behind = written t ws bytes behind := by
  unfold scanned written fieldsOf
  rw [hb,fieldsFrom_encode ws h _ _ (Nat.lt_succ_of_le (length_le_flatMap_encode t ws))]

theorem contained_of_payload {t : PacketType} {ws : List WireField}
    (h : ∀ w ∈ ws, w.WellFormed t) {bytes : List Byte} (hb : bytes.drop 4 = ws.flatMap (encode t))
    (ht : bytes[3]?.bind PacketType.ofByte = some t) : Contained bytes := by
  intro t' ht'
  obtain rfl : t = t' := by simpa [ht] using ht'
  rw [PayloadContained,hb]
  exact containedFrom_encode ws h _ _

end CodecServer.Ambe3K.Protocol
