import CodecServer.Parity
import CodecServer.Ambe3K.Protocol.Scan

/-! `Packet::parse` of a byte string, whatever lies behind it in memory: the packet returned is the
one its payload decodes to, and the call stays in the string exactly if the payload is contained. -/
namespace CodecServer.Ambe3K.Protocol
open CodecServer.Memory CodecServer.Memory.Access CodecServer.Parity

/-- A parity field or a channel field, with its pointer. -/
def Field.PointsTo (data : ℕ) (f : Field) : Prop :=
  f.checksumAt = some data ∨ f.channelAt = some data ∨ f.channelResponseAt = some data

theorem frontField_data {t : PacketType} {current : ℕ} {l : List Byte} {f : Field} {data : ℕ}
    (h : frontField t current l = some f) (hf : f.PointsTo data) : data = current := by
  cases l with
  | nil => simp [frontField] at h
  | cons opcode rest =>
    have h := (Option.filter_eq_some_iff.mp h).1
    cases t <;> simp only [shape,baseShape] at h <;> split_ifs at h <;>
      simp only [Option.bind_some,Option.bind_none,Shape.field,Option.map_eq_some_iff,
        Option.some.injEq,reduceCtorEq] at h <;> unfold Field.PointsTo Field.checksumAt Field.channelAt
          Field.channelResponseAt at hf <;> grind

/-- The kept parity and channel fields start at an index of the payload and lie in it. -/
theorem fieldsFrom_extent {t : PacketType} {f : Field} {data : ℕ}
    (hf : f.PointsTo data) (rounds current : ℕ) (l : List Byte)
    (h : f ∈ fieldsFrom t rounds current l) :
    current ≤ data ∧ data+f.getLength ≤ current+l.length := by
  induction rounds generalizing current l with
  | zero => simp [fieldsFrom] at h
  | succ rounds ih =>
    cases hfront : frontField t current l with
    | none => simp [fieldsFrom,hfront] at h
    | some g =>
      have hlen := frontField_length hfront
      simp only [fieldsFrom,hfront,List.mem_cons] at h
      rcases h with rfl | h
      · rw [frontField_data hfront hf]
        omega
      · have := ih _ _ h
        rw [List.length_drop] at this
        omega

namespace Packet

theorem storeField_checksum (p : Packet) (f : Field) :
    (p.storeField f).checksum = match f with | .checksum data => some data | _ => p.checksum := by
  rcases p with ⟨data,dataSize,checksum,channel,fields | speechD | chanD⟩ <;> cases f <;> rfl

theorem storeField_channel (p : Packet) (f : Field) :
    (p.storeField f).channel = match f with | .channel data => some data | _ => p.channel := by
  rcases p with ⟨data,dataSize,checksum,channel,fields | speechD | chanD⟩ <;> cases f <;> rfl

theorem storeField_channelResponse (p : Packet) (f : Field) (hp : p.kind.type = .control) :
    (p.storeField f).controlFields.channelResponse =
      match f with
      | .channelResponse data => some data
      | _ => p.controlFields.channelResponse := by
  rcases p with ⟨data,dataSize,checksum,channel,fields | speechD | chanD⟩
  · cases f <;> rfl
  · cases hp
  · cases hp

@[simp] theorem foldl_storeField_data (fs : List Field) (p : Packet) :
    (fs.foldl storeField p).data = p.data := by
  induction fs generalizing p with
  | nil => rfl
  | cons f fs ih => simp [ih]

@[simp] theorem foldl_storeField_dataSize (fs : List Field) (p : Packet) :
    (fs.foldl storeField p).dataSize = p.dataSize := by
  induction fs generalizing p with
  | nil => rfl
  | cons f fs ih => simp [ih]

@[simp] theorem foldl_storeField_type (fs : List Field) (p : Packet) :
    (fs.foldl storeField p).kind.type = p.kind.type := by
  induction fs generalizing p with
  | nil => rfl
  | cons f fs ih => simp [ih]

/-- A packet keeps the last parity field that the scan has met, and the same of the channels. -/
theorem foldl_storeField_checksum (fs : List Field) (p : Packet) :
    (fs.foldl storeField p).checksum = (lastAt Field.checksumAt fs).or p.checksum := by
  induction fs generalizing p with
  | nil => rfl
  | cons f fs ih =>
    rw [List.foldl_cons,ih,storeField_checksum,lastAt_cons,Option.or_assoc]
    cases f <;> rfl

theorem foldl_storeField_channel (fs : List Field) (p : Packet) :
    (fs.foldl storeField p).channel = (lastAt Field.channelAt fs).or p.channel := by
  induction fs generalizing p with
  | nil => rfl
  | cons f fs ih =>
    rw [List.foldl_cons,ih,storeField_channel,lastAt_cons,Option.or_assoc]
    cases f <;> rfl

theorem foldl_storeField_channelResponse (fs : List Field) (p : Packet)
    (hp : p.kind.type = .control) :
    (fs.foldl storeField p).controlFields.channelResponse =
      (lastAt Field.channelResponseAt fs).or p.controlFields.channelResponse := by
  induction fs generalizing p with
  | nil => rfl
  | cons f fs ih =>
    rw [List.foldl_cons,ih _ ((storeField_type p f).trans hp),storeField_channelResponse p f hp,
      lastAt_cons,Option.or_assoc]
    cases f <;> rfl

/-- The loop of `getChecksum` adds up the bytes behind index `i`. -/
theorem safe_checksumLoop (N : ℕ) (mem : List Byte) (rounds i : ℕ) (a v : Byte) :
    Safe N (checksumLoop mem rounds i a) v ↔
      v = a ^^^ parity ((mem.drop (i+1)).take rounds) ∧
        (rounds = 0 ∨ i+rounds < mem.length ∧ i+rounds < N) := by
  induction rounds generalizing i a with
  | zero => simp [checksumLoop,eq_comm]
  | succ rounds ih =>
    simp only [checksumLoop,safe_bind,safe_load,ih]
    constructor
    · rintro ⟨b,⟨hi,hb⟩,rfl,hr⟩
      obtain ⟨h,rfl⟩ := List.getElem?_eq_some_iff.mp hb
      refine ⟨?_,Or.inr (by omega)⟩
      rw [List.drop_eq_getElem_cons h,List.take_succ_cons,parity_cons,BitVec.xor_assoc]
    · rintro ⟨rfl,hr⟩
      have h : i+1 < mem.length := by omega
      refine ⟨mem[i+1],⟨by omega,List.getElem?_eq_getElem h⟩,?_,by omega⟩
      rw [List.drop_eq_getElem_cons h,List.take_succ_cons,parity_cons,BitVec.xor_assoc]

end Packet

/-- The exclusive-or of the bytes from index 1 on, the last one left out. -/
def checksumOf (bytes : List Byte) : Byte := parity ((bytes.drop 1).take (bytes.length-2))

/-- The packet object that the fields of the payload are stored in. -/
def scanned (t : PacketType) (bytes behind : List Byte) : Packet :=
  (fieldsOf t (bytes.drop 4)).foldl Packet.storeField
    {data := bytes ++ behind, dataSize := bytes.length, kind := .empty t}

/-- The parity field that was kept, if any, holds the parity of the packet. -/
def ParityHolds (bytes : List Byte) (p : Packet) : Prop :=
  ∀ data ∈ p.checksum, bytes[data+1]? = some (checksumOf bytes)

instance (bytes : List Byte) (p : Packet) : Decidable (ParityHolds bytes p) := by
  unfold ParityHolds; infer_instance

theorem parityHolds_of_none {bytes : List Byte} {p : Packet} (h : p.checksum = none) :
    ParityHolds bytes p := by simp [ParityHolds,h]

theorem parityHolds_iff {bytes : List Byte} {p : Packet} {data : ℕ} (h : p.checksum = some data) :
    ParityHolds bytes p ↔ bytes[data+1]? = some (checksumOf bytes) := by simp [ParityHolds,h]

/-- What the byte string says, without regard to where its fields are read from. -/
def decoded (bytes behind : List Byte) : Option Packet :=
  match bytes[3]?.bind PacketType.ofByte with
  | none => none
  | some t => if ParityHolds bytes (scanned t bytes behind) then some (scanned t bytes behind) else none

def Contained (bytes : List Byte) : Prop :=
  ∀ t ∈ bytes[3]?.bind PacketType.ofByte, PayloadContained t (bytes.drop 4)

instance (bytes : List Byte) : Decidable (Contained bytes) := by
  unfold Contained; infer_instance

section Parse
variable {bytes behind : List Byte} {N : ℕ}

@[simp] theorem scanned_dataSize (t : PacketType) :
    (scanned t bytes behind).dataSize = bytes.length := by simp [scanned]

@[simp] theorem scanned_data (t : PacketType) :
    (scanned t bytes behind).data = bytes ++ behind := by simp [scanned]

@[simp] theorem scanned_type (t : PacketType) : (scanned t bytes behind).kind.type = t := by
  simp [scanned]

theorem scanned_checksum (t : PacketType) :
    (scanned t bytes behind).checksum = lastAt Field.checksumAt (fieldsOf t (bytes.drop 4)) := by
  rw [scanned,Packet.foldl_storeField_checksum,Option.or_none]

theorem scanned_channel (t : PacketType) :
    (scanned t bytes behind).channel = lastAt Field.channelAt (fieldsOf t (bytes.drop 4)) := by
  rw [scanned,Packet.foldl_storeField_channel,Option.or_none]

theorem scanned_channelResponse :
    (scanned .control bytes behind).controlFields.channelResponse =
      lastAt Field.channelResponseAt (fieldsOf .control (bytes.drop 4)) := by
  rw [scanned,Packet.foldl_storeField_channelResponse _ _ rfl]
  exact Option.or_none

/-- The fields that a packet keeps lie in it. -/
theorem lastAt_lt {t : PacketType} {at? : Field → Option ℕ} (h4 : 4 ≤ bytes.length) {data : ℕ}
    (hat : ∀ f, at? f = some data → f.PointsTo data)
    (h : lastAt at? (fieldsOf t (bytes.drop 4)) = some data) :
    ∃ f, at? f = some data ∧ 4 ≤ data ∧ data+f.getLength ≤ bytes.length := by
  obtain ⟨f,hf,hdata⟩ := mem_of_lastAt h
  have := fieldsFrom_extent (hat f hdata) _ _ _ hf
  rw [List.length_drop] at this
  exact ⟨f,hdata,by omega,by omega⟩

theorem scanned_checksum_lt {t : PacketType} (h4 : 4 ≤ bytes.length) {data : ℕ}
    (h : (scanned t bytes behind).checksum = some data) : 4 ≤ data ∧ data+2 ≤ bytes.length := by
  rw [scanned_checksum] at h
  obtain ⟨f,hf,hlow,hhigh⟩ := lastAt_lt h4 (fun f hf => Or.inl hf) h
  cases f <;> cases hf
  exact ⟨hlow,hhigh⟩

theorem safe_getChecksum {p : Packet} (h4 : 4 ≤ bytes.length) (hN : bytes.length ≤ N)
    (hd : p.data = bytes ++ behind) (hs : p.dataSize = bytes.length) (v : Byte) :
    Safe N p.getChecksum v ↔ v = checksumOf bytes := by
  rw [Packet.getChecksum,Packet.safe_checksumLoop,hd,hs,BitVec.zero_xor,checksumOf,
    List.drop_append_of_le_length (by omega),List.take_append_of_le_length (by simp; omega),
    List.length_append]
  exact and_iff_left (by omega)

/-- The validity test of a scanned packet reads nothing but the packet. -/
theorem safe_isChecksumValid (t : PacketType) (h4 : 4 ≤ bytes.length) (hN : bytes.length ≤ N)
    (v : Bool) :
    Safe N (scanned t bytes behind).isChecksumValid v ↔
      v = decide (ParityHolds bytes (scanned t bytes behind)) := by
  rw [Packet.isChecksumValid]
  obtain hc | ⟨data,hc⟩ := Option.eq_none_or_eq_some (scanned t bytes behind).checksum
  · simp only [hc,safe_pure,parityHolds_of_none hc,decide_true,eq_comm]
  · have hlt := scanned_checksum_lt h4 hc
    have hi : data+1 < bytes.length := by omega
    simp only [hc,safe_bind,safe_getChecksum h4 hN (scanned_data t) (scanned_dataSize t),
      exists_eq_left,checksumIsCorrect,scanned_data,safe_load,safe_pure,parityHolds_iff hc,
      List.getElem?_append_left hi,List.getElem?_eq_getElem hi,Option.some.injEq]
    constructor
    · rintro ⟨b,⟨-,rfl⟩,rfl⟩; rfl
    · rintro rfl
      exact ⟨_,⟨by omega,rfl⟩,rfl⟩

theorem safe_scanFields_eq {t : PacketType} (h4 : 4 ≤ bytes.length) {q : Packet}
    (h : Safe N (Packet.scanFields
      {data := bytes ++ behind, dataSize := bytes.length, kind := .empty t}) q) :
    q = scanned t bytes behind := by
  simp only [Packet.scanFields,← List.length_drop (i := 4)] at h
  have := scanLoop_eq _ _ _ _ _ (List.drop_append_of_le_length h4) h
  rwa [Kind.type_empty] at this

theorem safe_scanFields_iff (t : PacketType) (h4 : 4 ≤ bytes.length) :
    Safe bytes.length (Packet.scanFields
      {data := bytes ++ behind, dataSize := bytes.length, kind := .empty t})
      (scanned t bytes behind) ↔ PayloadContained t (bytes.drop 4) := by
  have hiff := exists_scanLoop_iff ((bytes.drop 4).length+1)
    {data := bytes ++ behind, dataSize := bytes.length, kind := .empty t} 4 (bytes.drop 4)
    (List.drop_append_of_le_length h4) (Nat.lt_succ_self _)
  have hn : 4+(bytes.drop 4).length = bytes.length := by rw [List.length_drop]; omega
  rw [hn,Kind.type_empty] at hiff
  rw [PayloadContained,← hiff,List.length_drop]
  refine ⟨fun h => ⟨_,h⟩,?_⟩
  rintro ⟨q,hq⟩
  exact safe_scanFields_eq h4 hq ▸ hq

/-- `parse`, when it returns, returns what the byte string decodes to. -/
theorem parse_eq (h4 : 4 ≤ bytes.length) {r : Option Packet}
    (h : (Packet.parse (bytes ++ behind) bytes.length).result = .ok r) :
    r = decoded bytes behind := by
  obtain ⟨N,hN⟩ := exists_safe h
  replace hN := safe_mono (Nat.le_max_left N bytes.length) hN
  have h3 : 3 < bytes.length := by omega
  simp only [Packet.parse,safe_bind,safe_load,List.getElem?_append_left h3,
    List.getElem?_eq_getElem h3,Option.some.injEq] at hN
  obtain ⟨_,⟨-,rfl⟩,hN⟩ := hN
  simp only [decoded,List.getElem?_eq_getElem h3,Option.bind_some]
  cases ht : PacketType.ofByte bytes[3] with
  | none =>
    simp only [ht,safe_pure] at hN
    exact hN.symm
  | some t =>
    simp only [ht,Packet.new,safe_bind,safe_require,safe_pure] at hN
    obtain ⟨_,⟨_,-,rfl⟩,q,hq,v,hv,rfl⟩ := hN
    obtain rfl := safe_scanFields_eq h4 hq
    rw [safe_isChecksumValid t h4 (Nat.le_max_right _ _)] at hv
    simp [hv]

theorem parse_scanned (h4 : 4 ≤ bytes.length) {p : Packet}
    (h : (Packet.parse (bytes ++ behind) bytes.length).result = .ok (some p)) :
    ∃ t, bytes[3]?.bind PacketType.ofByte = some t ∧ p = scanned t bytes behind := by
  have hdecoded := parse_eq h4 h
  unfold decoded at hdecoded
  split at hdecoded
  · cases hdecoded
  · rename_i t ht
    split_ifs at hdecoded with hparity
    exact ⟨t,ht,Option.some.inj hdecoded⟩

theorem parse_data (h4 : 4 ≤ bytes.length) {p : Packet}
    (h : (Packet.parse (bytes ++ behind) bytes.length).result = .ok (some p)) :
    p.data = bytes ++ behind ∧ p.dataSize = bytes.length := by
  obtain ⟨t,-,rfl⟩ := parse_scanned h4 h
  exact ⟨scanned_data t,scanned_dataSize t⟩

/-- `parse` reads nothing behind the byte string and fails no assertion exactly if the string is
contained. -/
theorem safe_parse_iff (behind : List Byte) (h4 : 4 ≤ bytes.length) :
    Safe bytes.length (Packet.parse (bytes ++ behind) bytes.length) (decoded bytes behind) ↔
      Contained bytes := by
  have h3 : 3 < bytes.length := by omega
  simp only [Packet.parse,safe_bind,safe_load,List.getElem?_append_left h3,Contained,decoded,
    List.getElem?_eq_getElem h3,Option.some.injEq,Option.bind_some]
  constructor
  · rintro ⟨_,⟨-,rfl⟩,h⟩ t ht
    simp only [Option.mem_def.mp ht,Packet.new,safe_bind,safe_require,safe_pure] at h
    obtain ⟨_,⟨_,-,rfl⟩,q,hq,-⟩ := h
    obtain rfl := safe_scanFields_eq h4 hq
    exact (safe_scanFields_iff t h4).mp hq
  · intro h
    refine ⟨_,⟨h3,rfl⟩,?_⟩
    cases ht : PacketType.ofByte bytes[3] with
    | none => simp
    | some t =>
      simp only [Packet.new,safe_bind,safe_require,safe_pure]
      exact ⟨_,⟨(),h4,rfl⟩,_,(safe_scanFields_iff t h4).mpr (h t ht),_,
        (safe_isChecksumValid t h4 (Nat.le_refl _) _).mpr rfl,by simp⟩

end Parse
end CodecServer.Ambe3K.Protocol
