import CodecServer.Ambe3K.Protocol.Outgoing

/-! The frames that the server sends: start byte, length, type, the fields one behind the other and
a parity field over all of it. Every packet constructor, whatever its arguments, sends one. -/
namespace CodecServer.Ambe3K.Protocol
open CodecServer.Memory CodecServer.Memory.Access CodecServer.Parity

/-- A frame of the AMBE-3000 protocol with the given packet type and fields. -/
structure IsFrame (type : Byte) (fields : List (List Byte)) (bytes : List Byte) : Prop where
  start : bytes[0]? = some 0x61
  length : ∃ high low, bytes[1]? = some high ∧ bytes[2]? = some low ∧
    high.toNat*256+low.toNat+4 = bytes.length
  type : bytes[3]? = some type
  payload : ∃ checksum, bytes.drop 4 = fields.flatten ++ [0x2f,checksum] ∧
    checksum = parity ((bytes.drop 1).take (bytes.length-2))

/-- The bytes of a frame, its parity field being the last of them. -/
def frame (t : PacketType) (payload : List Byte) (checksum : Byte) : List Byte :=
  header t (payload.length+2) ++ (payload ++ [parityByte,checksum])

theorem frame_length (t : PacketType) (payload : List Byte) (checksum : Byte) :
    (frame t payload checksum).length = payload.length+6 := by
  simp only [frame,List.length_append,header_length,List.length_cons,List.length_nil]
  omega

/-- The checksum covers everything but the start byte and itself. -/
theorem checksumOf_frame (t : PacketType) (payload : List Byte) (a b : Byte) :
    checksumOf (frame t payload a) = checksumOf (frame t payload b) := by
  have h : ∀ c, ((frame t payload c).drop 1).take (payload.length+4) =
      (header t (payload.length+2)).drop 1 ++ (payload ++ [parityByte]) := by
    intro c
    have hsplit : (frame t payload c).drop 1 =
        ((header t (payload.length+2)).drop 1 ++ (payload ++ [parityByte])) ++ [c] := by
      simp [frame,header]
    rw [hsplit,List.take_left']
    simp only [List.length_append,List.length_drop,header_length,List.length_cons,List.length_nil]
    omega
  simp only [checksumOf,frame_length]
  rw [show payload.length+6-2 = payload.length+4 by omega,h,h]

theorem htons_toNat {n : ℕ} (h : n < 65536) :
    ((BitVec.ofNat 16 n).extractLsb' 8 8).toNat*256+((BitVec.ofNat 16 n).extractLsb' 0 8).toNat =
      n := by
  simp only [BitVec.extractLsb'_toNat,BitVec.toNat_ofNat,Nat.shiftRight_eq_div_pow]
  omega

theorem isFrame_frame {t : PacketType} {fields : List (List Byte)}
    (hlen : fields.flatten.length+2 < 65536) (b : Byte) :
    IsFrame t.toByte fields (frame t fields.flatten (checksumOf (frame t fields.flatten b))) where
  start := rfl
  length := by
    refine ⟨_,_,rfl,rfl,?_⟩
    rw [frame_length,htons_toNat hlen]
  type := rfl
  payload := ⟨_,rfl,checksumOf_frame t fields.flatten b _⟩

/-- What a constructor stores is the image, as far as it stores anything, in zeroed memory. -/
def FieldCtor.WritesAs (c : FieldCtor) (image : List Byte) : Prop :=
  c.bytes = .ok image ∧ ∀ data, (c.make data).getLength = image.length

namespace Packet

/-- Behind the header there is nothing but zeros at first. -/
theorem ofSize_eq (n : ℕ) (t : PacketType) :
    ofSize (n+4) t =
      .ok {data := header t n ++ List.replicate n 0, dataSize := n+4, kind := .empty t} := by
  have h0 : store (List.replicate (n+4) 0) 0 [startByte] =
      .ok (startByte::0::0::0::List.replicate n 0) :=
    store_append [] [0] (0::0::0::List.replicate n 0) _ rfl
  have h1 : store (startByte::0::0::0::List.replicate n 0) 1 (htons (BitVec.ofNat 16 n)) =
      .ok (startByte::htons (BitVec.ofNat 16 n) ++ 0::List.replicate n 0) :=
    store_append [startByte] [0,0] (0::List.replicate n 0) _ rfl
  have h3 : store (startByte::htons (BitVec.ofNat 16 n) ++ 0::List.replicate n 0) 3 [t.toByte] =
      .ok (header t n ++ List.replicate n 0) :=
    store_append (startByte::htons (BitVec.ofNat 16 n)) [0] (List.replicate n 0) _ rfl
  rw [ofSize,if_neg (by omega),Nat.add_sub_cancel,h0,ok_bind,h1,ok_bind,h3]
  rfl

/-- Fields laid out by a running offset follow each other without gap or overlap. -/
theorem layOut_append (cs ds : List FieldCtor) (images : List (List Byte)) (p : Packet)
    (offset : ℕ) (pre post : List Byte) (h : List.Forall₂ FieldCtor.WritesAs cs images)
    (hpre : pre.length = 4+offset)
    (hdata : p.data = pre ++ (List.replicate images.flatten.length 0 ++ post)) :
    ∃ q : Packet, q.data = pre ++ (images.flatten ++ post) ∧ q.dataSize = p.dataSize ∧
      q.kind.type = p.kind.type ∧
      p.layOut offset (cs ++ ds) = q.layOut (offset+images.flatten.length) ds := by
  induction h generalizing p offset pre with
  | nil => exact ⟨p,by simpa using hdata,rfl,rfl,rfl⟩
  | @cons c image cs images hc _ ih =>
    have hstore : store p.data (4+offset) image =
        .ok (pre ++ (image ++ (List.replicate images.flatten.length 0 ++ post))) := by
      rw [hdata,← hpre,List.flatten_cons,List.length_append,← List.replicate_append_replicate,
        List.append_assoc]
      exact store_append _ _ _ _ (by simp)
    obtain ⟨q,hq,hsize,htype,hrun⟩ := ih
      ({p with data := pre ++ (image ++ (List.replicate images.flatten.length 0 ++ post))}.storeField
        (c.make (4+offset))) (offset+image.length) (pre ++ image)
      (by simp only [List.length_append]; omega) (by simp)
    refine ⟨q,by simpa using hq,by simpa using hsize,by simpa using htype,?_⟩
    rw [List.flatten_cons,List.length_append,← Nat.add_assoc,← hrun,List.cons_append,layOut,hc.1]
    change (store p.data (4+offset) image >>= _) = _
    rw [hstore,← hc.2 (4+offset)]
    rfl

/-- The fields and the parity field fill a packet that is allocated with just enough room. -/
theorem layOut_frame {cs : List FieldCtor} {images : List (List Byte)} (t : PacketType)
    (h : List.Forall₂ FieldCtor.WritesAs cs images) :
    ∃ q : Packet, (ofSize (images.flatten.length+6) t >>= fun p =>
        p.layOut 0 (cs ++ [checksumField])) = .ok q ∧
      q.data = frame t images.flatten 0 ∧ q.dataSize = images.flatten.length+6 ∧
      q.checksum = some (images.flatten.length+4) := by
  have hsize := ofSize_eq (images.flatten.length+2) t
  obtain ⟨q,hq,hqsize,-,hrun⟩ := layOut_append cs [checksumField] images
    { data := header t (images.flatten.length+2) ++ List.replicate (images.flatten.length+2) 0
      dataSize := images.flatten.length+6
      kind := .empty t } 0
    (header t (images.flatten.length+2)) [0,0] h rfl (by
      rw [← List.replicate_append_replicate]; rfl)
  have hstore : store q.data (4+(0+images.flatten.length)) [parityByte] =
      .ok (frame t images.flatten 0) := by
    have := store_append (header t (images.flatten.length+2) ++ images.flatten) [0] [0]
      [parityByte] rfl
    rw [hq,← List.append_assoc]
    rw [List.length_append,header_length] at this
    simpa [frame] using this
  refine ⟨{q with data := frame t images.flatten 0}.storeField
    (.checksum (4+(0+images.flatten.length))),?_,by simp,by simpa using hqsize,?_⟩
  · rw [hsize]
    change Packet.layOut _ _ _ = _
    rw [hrun]
    change (store q.data _ _ >>= _) = _
    rw [hstore]
    rfl
  · rw [storeField_checksum]
    simp only [Option.some.injEq]
    omega

/-- Sending stores the parity of the frame, whatever was in its place before. -/
theorem writeTo_frame {p : Packet} {t : PacketType} {payload : List Byte} {b : Byte}
    (hdata : p.data = frame t payload b) (hsize : p.dataSize = payload.length+6)
    (hchecksum : p.checksum = some (payload.length+4)) :
    let bytes := frame t payload (checksumOf (frame t payload b))
    p.writeTo = .ok ({p with data := bytes},bytes) := by
  intro bytes
  have hparity : p.getChecksum.result = .ok (checksumOf (frame t payload b)) := by
    have hiff := safe_getChecksum (by rw [frame_length]; omega) (Nat.le_refl _)
      (hdata.trans (List.append_nil _).symm) (by rw [hsize,frame_length])
      (checksumOf (frame t payload b))
    exact (hiff.mpr rfl).2
  have hstore : store p.data (payload.length+4+1) [checksumOf (frame t payload b)] =
      .ok bytes := by
    have := store_append (header t (payload.length+2) ++ (payload ++ [parityByte])) [b] []
      [checksumOf (frame t payload b)] rfl
    rw [show (header t (payload.length+2) ++ (payload ++ [parityByte])).length =
      payload.length+4+1 by simp; omega] at this
    rw [hdata]
    simpa [frame,bytes] using this
  simp only [writeTo,updateChecksum,hchecksum,hparity]
  change (store p.data _ _ >>= _ >>= _) = _
  rw [hstore]
  change Except.ok (_,bytes.take p.dataSize) = _
  rw [hsize,← frame_length t payload (checksumOf (frame t payload b)),List.take_length]

end Packet

namespace Outgoing

theorem channelField_writesAs {c : Byte} (h : c ≤ 3) :
    (channelField c).WritesAs [0x40+c] := by
  refine ⟨?_,fun _ => rfl⟩
  rw [channelField,if_pos h]

theorem chanDRequestField_writesAs {channelData : List Byte} {bits : Byte}
    (h : (bits.toNat+7)/8 ≤ channelData.length) :
    (chanDRequestField channelData bits).WritesAs
      (0x01::bits::channelData.take ((bits.toNat+7)/8)) := by
  refine ⟨?_,fun _ => ?_⟩
  · rw [chanDRequestField,loadFrom,if_pos h]; rfl
  · simp only [chanDRequestField,Field.getLength,List.length_cons,List.length_take]
    omega

theorem speechDRequestField_writesAs {speechData : List Byte} {samples : Byte}
    (h : samples.toNat*2 ≤ speechData.length) :
    (speechDRequestField speechData samples).WritesAs
      (0x00::samples::speechData.take (samples.toNat*2)) := by
  refine ⟨?_,fun _ => ?_⟩
  · rw [speechDRequestField,loadFrom,if_pos h]; rfl
  · simp only [speechDRequestField,Field.getLength,List.length_cons,List.length_take]
    omega

theorem ratePRequestField_writesAs (cwds : Vector (BitVec 16) 6) :
    (ratePRequestField cwds).WritesAs (0x0a::cwds.toList.flatMap htons) := by
  refine ⟨rfl,fun _ => ?_⟩
  simp only [ratePRequestField,Field.getLength,List.length_cons,flatMap_htons_length,
    Vector.length_toList]

/-- Every constructor lays out its fields in a packet with room for them and the parity field. -/
theorem new_eq (o : Outgoing) (h : o.Admitted) :
    ∃ cs, List.Forall₂ FieldCtor.WritesAs cs o.fields ∧
      o.new = Packet.ofSize (o.fields.flatten.length+6) o.type >>= fun p =>
        p.layOut 0 (cs ++ [checksumField]) := by
  cases o with
  | reset => exact ⟨[resetField],.cons ⟨rfl,fun _ => rfl⟩ .nil,rfl⟩
  | prodIdRequest => exact ⟨[prodIdRequestField],.cons ⟨rfl,fun _ => rfl⟩ .nil,rfl⟩
  | versionStringRequest =>
    exact ⟨[versionStringRequestField],.cons ⟨rfl,fun _ => rfl⟩ .nil,rfl⟩
  | setupIndex c index direction =>
    refine ⟨[channelField c,rateTRequestField index,initRequestField direction],
      .cons (channelField_writesAs h) (.cons ⟨rfl,fun _ => rfl⟩ (.cons ⟨rfl,fun _ => rfl⟩ .nil)),?_⟩
    simp only [new,setupRequestIndex,if_pos (show c ≤ 3 from h)]
    rfl
  | setupRateP c cwds direction =>
    refine ⟨[channelField c,ratePRequestField cwds,initRequestField direction],
      .cons (channelField_writesAs h)
        (.cons (ratePRequestField_writesAs cwds) (.cons ⟨rfl,fun _ => rfl⟩ .nil)),?_⟩
    have hlen : (fields (.setupRateP c cwds direction)).flatten.length+6 = 22 := by
      simp [fields,htons]
    simp only [new,setupRequestRateP,if_pos (show c ≤ 3 from h),hlen]
    rfl
  | channel c channelData bits =>
    refine ⟨[channelField c,chanDRequestField channelData bits],
      .cons (channelField_writesAs h.1) (.cons (chanDRequestField_writesAs h.2) .nil),?_⟩
    have hlen : (fields (.channel c channelData bits)).flatten.length+6 =
        (bits.toNat+7)/8+9 := by
      have := h.2
      simp [fields]
      omega
    simp only [new,channelPacket,hlen]
    rfl
  | speech c speechData samples =>
    refine ⟨[channelField c,speechDRequestField speechData samples],
      .cons (channelField_writesAs h.1) (.cons (speechDRequestField_writesAs h.2) .nil),?_⟩
    have hlen : (fields (.speech c speechData samples)).flatten.length+6 =
        samples.toNat*2+9 := by
      have := h.2
      simp [fields]
      omega
    simp only [new,speechPacket,hlen]
    rfl

theorem fields_length_lt (o : Outgoing) : o.fields.flatten.length < 65000 := by
  cases o with
  | channel c channelData bits =>
    have := bits.isLt
    simp [fields]
    omega
  | speech c speechData samples =>
    have := samples.isLt
    simp [fields]
    omega
  | setupRateP c cwds direction => simp [fields,htons]
  | _ => simp [fields]

/-- The bytes that the packet puts on the wire. -/
def image (o : Outgoing) : List Byte :=
  frame o.type o.fields.flatten (checksumOf (frame o.type o.fields.flatten 0))

/-- The packet is built in a buffer of exactly its size, and sending it again changes nothing. -/
theorem new_writeTo (o : Outgoing) (h : o.Admitted) :
    ∃ p q, o.new = .ok p ∧ p.data.length = p.dataSize ∧ p.dataSize = o.image.length ∧
      p.writeTo = .ok (q,o.image) ∧ q.writeTo = .ok (q,o.image) := by
  obtain ⟨cs,hcs,hnew⟩ := new_eq o h
  obtain ⟨p,hp,hdata,hsize,hchecksum⟩ := Packet.layOut_frame o.type hcs
  have hfirst := Packet.writeTo_frame hdata hsize hchecksum
  have hsecond := Packet.writeTo_frame (p := {p with data := o.image}) rfl hsize hchecksum
  rw [checksumOf_frame o.type o.fields.flatten _ 0] at hsecond
  exact ⟨p,{p with data := o.image},hnew.trans hp,by rw [hdata,hsize,frame_length],
    by rw [hsize,image,frame_length],hfirst,hsecond⟩

/-- Every outgoing packet is a well-formed frame, each time it is sent. -/
theorem writeTo_isFrame (o : Outgoing) (h : o.Admitted) :
    ∃ p q bytes, o.new = .ok p ∧ p.data.length = p.dataSize ∧ p.dataSize = bytes.length ∧
      p.writeTo = .ok (q,bytes) ∧ q.writeTo = .ok (q,bytes) ∧
      IsFrame o.type.toByte o.fields bytes := by
  obtain ⟨p,q,hnew,hdata,hsize,hfirst,hsecond⟩ := new_writeTo o h
  have := fields_length_lt o
  exact ⟨p,q,o.image,hnew,hdata,hsize,hfirst,hsecond,isFrame_frame (by omega) 0⟩

theorem writeTo_isFrame_channel : ∃ p q bytes,
    (Outgoing.channel 2 [0x2f,0x40,0x01] 17).new = .ok p ∧ p.data.length = p.dataSize ∧
      p.dataSize = bytes.length ∧ p.writeTo = .ok (q,bytes) ∧ q.writeTo = .ok (q,bytes) ∧
      IsFrame 0x01 [[0x42],[0x01,17,0x2f,0x40,0x01]] bytes :=
  writeTo_isFrame (.channel 2 [0x2f,0x40,0x01] 17) (by decide)

end Outgoing
end CodecServer.Ambe3K.Protocol
