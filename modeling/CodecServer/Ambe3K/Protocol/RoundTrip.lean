import CodecServer.Ambe3K.Protocol.Wire

/-! Parsing recovers what was written: the packet type, which fields are there, and what each of
them says through the accessor of its class. -/
namespace CodecServer.Ambe3K.Protocol
open CodecServer.Memory CodecServer.Memory.Access

namespace Packet

/-- The field object that a packet holds for a kind of field. -/
def slot (p : Packet) : WireKind → Option Field
  | .ready => p.controlFields.ready.map .ready
  | .prodId => p.controlFields.prodid.map fun s => .prodIdResponse s.1 s.2
  | .version => p.controlFields.version.map .versionStringResponse
  | .rateT => p.controlFields.rateTResponse.map .rateTResponse
  | .rateP => p.controlFields.ratePResponse.map .ratePResponse
  | .init => p.controlFields.initResponse.map .initResponse
  | .channel =>
    match p.kind with
    | .control fields => fields.channelResponse.map .channelResponse
    | _ => p.channel.map .channel
  | .speechD =>
    match p.kind with
    | .speech speechD => speechD.map fun s => .speechD s.1 s.2
    | _ => none
  | .chanD =>
    match p.kind with
    | .channel chanD => chanD.map fun s => .chanD s.1 s.2
    | _ => none
  | .parity => p.checksum.map .checksum

/-- The `has` tests, and the null tests of the data fields that have none. -/
def has (p : Packet) : WireKind → Bool
  | .ready => p.hasReadyField
  | .prodId => p.hasProductId
  | .version => p.hasVersionString
  | .rateT => p.hasRateTResponse
  | .rateP => p.hasRatePResponse
  | .init => p.hasInitResponse
  | .channel => p.hasChannel
  | .speechD => match p.kind with | .speech speechD => speechD.isSome | _ => false
  | .chanD => match p.kind with | .channel chanD => chanD.isSome | _ => false
  | .parity => p.hasChecksum

theorem has_eq (p : Packet) (k : WireKind) : p.has k = (p.slot k).isSome := by
  rcases p with ⟨data,dataSize,checksum,channel,fields | speechD | chanD⟩ <;> cases k <;>
    simp [has,slot,hasReadyField,hasProductId,hasVersionString,hasRateTResponse,hasRatePResponse,
      hasInitResponse,hasChannel,hasChecksum,controlFields]

/-- Storing a field changes the slot of its own kind only. -/
theorem slot_storeField (p : Packet) (w : WireField) (h : w.WellFormed p.kind.type)
    (current : ℕ) (k : WireKind) :
    (p.storeField (w.field p.kind.type current)).slot k =
      if k = w.kind then some (w.field p.kind.type current) else p.slot k := by
  rcases p with ⟨data,dataSize,checksum,channel,fields | speechD | chanD⟩ <;> cases w <;>
    first | exact h.elim | cases k <;> rfl

theorem slot_layout_of_not_mem {t : PacketType} (ws : List WireField)
    (h : ∀ w ∈ ws, w.WellFormed t) (current : ℕ) (p : Packet) (hp : p.kind.type = t)
    (k : WireKind) (hk : k ∉ ws.map WireField.kind) :
    ((layout t current ws).foldl storeField p).slot k = p.slot k := by
  induction ws generalizing current p with
  | nil => rfl
  | cons w ws ih =>
    simp only [List.map_cons,List.mem_cons,not_or] at hk
    subst hp
    simp only [layout,List.foldl_cons]
    rw [ih (fun v hv => h v (by simp [hv])) _ _ (storeField_type p _) hk.2,
      slot_storeField p w (h w (by simp)),if_neg hk.1]

/-- Where the fields are of different kinds, each slot holds the field of its kind. -/
theorem slot_layout_of_mem {t : PacketType} (us ws : List WireField) (w : WireField)
    (h : ∀ v ∈ us ++ w::ws, v.WellFormed t) (hk : ((us ++ w::ws).map WireField.kind).Nodup)
    (current : ℕ) (p : Packet) (hp : p.kind.type = t) :
    ((layout t current (us ++ w::ws)).foldl storeField p).slot w.kind =
      some (w.field t (current+(us.flatMap (WireField.encode t)).length)) := by
  have hnot : w.kind ∉ ws.map WireField.kind := by
    rw [List.map_append,List.map_cons] at hk
    exact (List.nodup_cons.mp (List.nodup_append.mp hk).2.1).1
  have hlast : ∀ v ∈ ws, v.WellFormed t := fun v hv => h v (by simp [hv])
  rw [layout_append,List.foldl_append,layout,List.foldl_cons]
  rw [slot_layout_of_not_mem ws hlast _ _ (by simp [hp]) _ hnot]
  have htype : ((layout t current us).foldl storeField p).kind.type = t := by simp [hp]
  have := slot_storeField _ w (htype ▸ h w (by simp)) (current+(us.flatMap (WireField.encode t)).length)
    w.kind
  rwa [htype,if_pos rfl] at this

/-- The accessor of the field's class returns what the field says, and reads the packet only. -/
def Shows (n : ℕ) (p : Packet) : WireField → Prop
  | .ready => p.hasReadyField = true
  | .prodId id => p.hasProductId = true ∧ Safe n p.getProductId id
  | .version id => p.hasVersionString = true ∧ Safe n p.getVersionString id
  | .rateT => p.hasRateTResponse = true
  | .rateP => p.hasRatePResponse = true
  | .init => p.hasInitResponse = true
  | .channel c => p.hasChannel = true ∧ Safe n p.getChannel c
  | .speechD samples => Safe n p.getSpeechData (samples,2*samples.length)
  | .chanD _ data => Safe n p.getChannelData (data,data.length)
  | .parity _ => p.hasChecksum = true

end Packet

theorem safe_fieldSamples (n : ℕ) (mem rest : List Byte) (samples : List (BitVec 16)) (src : ℕ)
    (hm : mem.drop src = samples.flatMap htons ++ rest) (hn : src+2*samples.length ≤ n) :
    Safe n (fieldSamples mem src samples.length) samples := by
  induction samples generalizing src with
  | nil => simp [fieldSamples]
  | cons w samples ih =>
    simp only [List.flatMap_cons,List.length_cons,htons,List.cons_append,List.nil_append] at hm hn
    have hhigh := getElem?_of_drop (l := [_,_]) hm 0 (by simp)
    have hlow := getElem?_of_drop (l := [_,_]) hm 1 (by simp)
    have htail : mem.drop (src+2) = samples.flatMap htons ++ rest := by
      rw [← List.drop_drop,hm]; rfl
    simp only [List.length_cons,fieldSamples,safe_bind,safe_load,safe_pure]
    exact ⟨_,⟨by omega,hhigh⟩,_,⟨by omega,hlow⟩,samples,ih _ htail (by omega),
      by rw [List.getElem_cons_zero,List.getElem_cons_succ,List.getElem_cons_zero,ntohs_htons]⟩

/-- A field object says what its bytes in the packet say. -/
theorem shows_of_slot {p : Packet} {w : WireField} {n : ℕ} (current : ℕ) (rest : List Byte)
    (h : w.WellFormed p.kind.type) (hm : p.data.drop current = w.encode p.kind.type ++ rest)
    (hn : current+(w.encode p.kind.type).length ≤ n)
    (hs : p.slot w.kind = some (w.field p.kind.type current)) : p.Shows n w := by
  have hhas : p.has w.kind = true := by rw [Packet.has_eq,hs]; rfl
  have hat := getElem?_of_drop hm
  cases w with
  | ready => exact hhas
  | rateT => exact hhas
  | rateP => exact hhas
  | init => exact hhas
  | parity checksum => exact hhas
  | prodId id =>
    refine ⟨hhas,?_⟩
    simp only [Packet.slot,WireField.kind,WireField.field,Option.map_eq_some_iff,Prod.exists,
      Field.prodIdResponse.injEq] at hs
    obtain ⟨data,s,hs,rfl,rfl⟩ := hs
    simp [Packet.getProductId,hs]
  | version id =>
    refine ⟨hhas,?_⟩
    simp only [Packet.slot,WireField.kind,WireField.field,Option.map_eq_some_iff,
      Field.versionStringResponse.injEq,exists_eq_right] at hs
    cases ht : p.kind.type with
    | control =>
      simp only [ht,WireField.WellFormed] at h
      simp only [WireField.encode,List.length_cons] at hn
      simp only [Packet.getVersionString,hs,fieldVersionId,safe_loadBlock]
      refine ⟨?_,h,by omega⟩
      rw [← List.drop_drop,hm]
      simp [WireField.encode,← h]
    | speech => rw [ht] at h; exact h.elim
    | channel => rw [ht] at h; exact h.elim
  | channel c =>
    refine ⟨hhas,?_⟩
    have hb : p.data[current]? = some (0x40+c) := by
      rw [← Nat.add_zero current,← List.getElem?_drop,hm]
      simp only [WireField.encode]
      split_ifs <;> rfl
    have hlt : current < n := by
      have := encode_length_pos (t := p.kind.type) (w := .channel c)
      omega
    have hload : Safe n (fieldChannel p.data current) c := by
      simp only [fieldChannel,safe_bind,safe_load,safe_pure]
      exact ⟨_,⟨hlt,hb⟩,by rw [BitVec.add_comm,BitVec.add_sub_cancel]⟩
    rcases p with ⟨data,dataSize,checksum,channel,fields | speechD | chanD⟩
    · obtain ⟨d,hd,he⟩ := Option.map_eq_some_iff.mp hs
      obtain rfl : d = current := by simpa [WireField.field,Kind.type] using he
      simpa [Packet.getChannel,hd] using hload
    · obtain ⟨d,hd,he⟩ := Option.map_eq_some_iff.mp hs
      obtain rfl : d = current := by simpa [WireField.field,Kind.type] using he
      obtain rfl : channel = some d := hd
      exact hload
    · obtain ⟨d,hd,he⟩ := Option.map_eq_some_iff.mp hs
      obtain rfl : d = current := by simpa [WireField.field,Kind.type] using he
      obtain rfl : channel = some d := hd
      exact hload
  | speechD samples =>
    rcases p with ⟨data,dataSize,checksum,channel,fields | speechD | chanD⟩
    · exact h.elim
    · obtain ⟨⟨d,s⟩,hd,he⟩ := Option.map_eq_some_iff.mp hs
      simp only [WireField.field,Field.speechD.injEq] at he
      obtain ⟨rfl,rfl⟩ := he
      obtain rfl : speechD = some (d,samples.length) := hd
      simp only [WireField.encode,List.length_cons,flatMap_htons_length] at hn
      have hsamples : Safe n (fieldSamples data (d+2) samples.length) samples := by
        refine safe_fieldSamples n data rest samples (d+2) ?_ (by omega)
        rw [← List.drop_drop,hm]; rfl
      simp only [Packet.Shows,Packet.getSpeechData,fieldSpeechData,safe_bind,safe_pure]
      exact ⟨samples,hsamples,by rw [Nat.mul_comm]⟩
    · exact h.elim
  | chanD bits bytes =>
    rcases p with ⟨data,dataSize,checksum,channel,fields | speechD | chanD⟩
    · exact h.elim
    · exact h.elim
    · obtain ⟨⟨d,b⟩,hd,he⟩ := Option.map_eq_some_iff.mp hs
      simp only [WireField.field,Field.chanD.injEq] at he
      obtain ⟨rfl,rfl⟩ := he
      obtain rfl : chanD = some (d,bits.toNat) := hd
      simp only [Kind.type,WireField.WellFormed] at h
      simp only [WireField.encode,List.length_cons] at hn
      simp only [Packet.Shows,Packet.getChannelData,fieldChannelData,safe_bind,safe_pure,
        safe_loadBlock]
      refine ⟨bytes,⟨?_,h,by omega⟩,by rw [h]⟩
      rw [← List.drop_drop,hm]
      simp [WireField.encode,← h]

/-- A packet that holds exactly the given fields, and says through its accessors what they say. -/
structure Recovers (t : PacketType) (ws : List WireField) (n : ℕ) (p : Packet) : Prop where
  type : p.kind.type = t
  present : ∀ k, p.has k = true ↔ ∃ w ∈ ws, w.kind = k
  shown : ∀ w ∈ ws, p.Shows n w

theorem written_recovers {t : PacketType} {ws : List WireField} (h : ∀ w ∈ ws, w.WellFormed t)
    (hk : (ws.map WireField.kind).Nodup) {bytes : List Byte} (h4 : 4 ≤ bytes.length)
    (hb : bytes.drop 4 = ws.flatMap (WireField.encode t)) (behind : List Byte) :
    Recovers t ws bytes.length (written t ws bytes behind) := by
  have htype : (written t ws bytes behind).kind.type = t := by simp [written]
  refine ⟨htype,fun k => ?_,fun w hw => ?_⟩
  · rw [Packet.has_eq,Option.isSome_iff_ne_none]
    by_cases hmem : k ∈ ws.map WireField.kind
    · obtain ⟨w,hw,rfl⟩ := List.mem_map.mp hmem
      obtain ⟨us,vs,rfl⟩ := List.append_of_mem hw
      rw [written,Packet.slot_layout_of_mem us vs w h hk _ _ (Kind.type_empty t)]
      exact ⟨fun _ => ⟨w,hw,rfl⟩,fun _ => by simp⟩
    · rw [written,Packet.slot_layout_of_not_mem ws h _ _ (Kind.type_empty t) _ hmem]
      have : ¬ ∃ w ∈ ws, w.kind = k := by simpa using hmem
      simp only [this,iff_false,not_not]
      cases t <;> cases k <;> rfl
  · obtain ⟨us,vs,rfl⟩ := List.append_of_mem hw
    have hlen := congrArg List.length hb
    simp only [List.length_drop,List.flatMap_append,List.flatMap_cons,List.length_append] at hlen
    refine shows_of_slot (4+(us.flatMap (WireField.encode t)).length)
      (vs.flatMap (WireField.encode t) ++ behind) (by rw [htype]; exact h w hw) ?_
      (by rw [htype]; omega) ?_
    · rw [htype]
      simp only [written,Packet.foldl_storeField_data]
      rw [← List.drop_drop,List.drop_append_of_le_length h4,hb]
      simp
    · rw [htype,written,Packet.slot_layout_of_mem us vs w h hk _ _ (Kind.type_empty t)]

/-- `parse` of a byte string with a well-formed payload stays in the string. It returns the packet
as written if the parity field, should there be one, holds the parity of the string. -/
theorem safe_parse_payload {t : PacketType} {ws : List WireField} (h : ∀ w ∈ ws, w.WellFormed t)
    {bytes : List Byte} (h4 : 4 ≤ bytes.length) (ht : bytes[3]?.bind PacketType.ofByte = some t)
    (hb : bytes.drop 4 = ws.flatMap (WireField.encode t)) (behind : List Byte) :
    Safe bytes.length (Packet.parse (bytes ++ behind) bytes.length)
      (if ParityHolds bytes (written t ws bytes behind) then some (written t ws bytes behind)
        else none) := by
  have := (safe_parse_iff behind h4).mpr (contained_of_payload h hb ht)
  simpa only [decoded,ht,scanned_of_payload h hb] using this

theorem parityHolds_written_of_not_mem {t : PacketType} {ws : List WireField}
    (h : ∀ w ∈ ws, w.WellFormed t) (hp : .parity ∉ ws.map WireField.kind) (bytes behind : List Byte) :
    ParityHolds bytes (written t ws bytes behind) := by
  apply parityHolds_of_none
  have := Packet.slot_layout_of_not_mem ws h 4
    {data := bytes ++ behind, dataSize := bytes.length, kind := .empty t} (Kind.type_empty t) _ hp
  simpa [Packet.slot,written] using this

/-- A parity field at the end is compared with the parity of everything in front of it. -/
theorem parityHolds_written_iff {t : PacketType} {ws : List WireField} {checksum : Byte}
    {bytes : List Byte} (hb : bytes.drop 4 = (ws ++ [WireField.parity checksum]).flatMap (WireField.encode t))
    (behind : List Byte) :
    ParityHolds bytes (written t (ws ++ [.parity checksum]) bytes behind) ↔
      checksum = checksumOf bytes := by
  have hc : (written t (ws ++ [.parity checksum]) bytes behind).checksum =
      some (4+(ws.flatMap (WireField.encode t)).length) := by
    rw [written,layout_append,List.foldl_append]
    simp only [layout,List.foldl_cons,List.foldl_nil,Packet.storeField_checksum]
    rfl
  have hbyte : bytes[4+(ws.flatMap (WireField.encode t)).length+1]? = some checksum := by
    rw [Nat.add_assoc,← List.getElem?_drop,hb,List.flatMap_append,List.getElem?_append_right (by omega)]
    simp [WireField.encode]
  rw [parityHolds_iff hc,hbyte,Option.some.injEq]

theorem wellFormed_append_parity {t : PacketType} {ws : List WireField}
    (h : ∀ w ∈ ws, w.WellFormed t) (checksum : Byte) :
    ∀ w ∈ ws ++ [.parity checksum], w.WellFormed t := by
  intro w hw
  rcases List.mem_append.mp hw with hw | hw
  · exact h w hw
  · rw [List.mem_singleton.mp hw]
    cases t <;> trivial

theorem nodup_append_parity {ws : List WireField} (hk : (ws.map WireField.kind).Nodup)
    (hp : .parity ∉ ws.map WireField.kind) (checksum : Byte) :
    ((ws ++ [WireField.parity checksum]).map WireField.kind).Nodup := by
  rw [List.map_append]
  simpa [List.nodup_append,WireField.kind,hk] using hp

/-- Parsing recovers every well-formed packet, its fields in any order; a parity field at the end
is accepted if and only if it holds the parity of the bytes between it and the start byte. -/
theorem parse_recovers (t : PacketType) (ws : List WireField) (h : ∀ w ∈ ws, w.WellFormed t)
    (hk : (ws.map WireField.kind).Nodup) (hp : .parity ∉ ws.map WireField.kind) (behind : List Byte) :
    (∃ p, Safe (image t ws).length (Packet.parse (image t ws ++ behind) (image t ws).length)
        (some p) ∧ Recovers t ws (image t ws).length p) ∧
    ∀ checksum, let bytes := image t (ws ++ [.parity checksum])
      (checksum = checksumOf bytes →
        ∃ p, Safe bytes.length (Packet.parse (bytes ++ behind) bytes.length) (some p) ∧
          Recovers t (ws ++ [.parity checksum]) bytes.length p) ∧
      (checksum ≠ checksumOf bytes →
        Safe bytes.length (Packet.parse (bytes ++ behind) bytes.length) none) := by
  constructor
  · have h4 : 4 ≤ (image t ws).length := by rw [image_length]; omega
    have hs := safe_parse_payload h h4 (image_type t ws) (image_drop t ws) behind
    rw [if_pos (parityHolds_written_of_not_mem h hp _ _)] at hs
    exact ⟨_,hs,written_recovers h hk h4 (image_drop t ws) behind⟩
  · intro checksum
    have h' := wellFormed_append_parity h checksum
    have hk' := nodup_append_parity hk hp checksum
    have h4 : 4 ≤ (image t (ws ++ [.parity checksum])).length := by rw [image_length]; omega
    have hs := safe_parse_payload h' h4 (image_type t _) (image_drop t _) behind
    have hparity := parityHolds_written_iff (image_drop t (ws ++ [.parity checksum])) behind
    constructor
    · intro hc
      rw [if_pos (hparity.mpr hc)] at hs
      exact ⟨_,hs,written_recovers h' hk' h4 (image_drop t _) behind⟩
    · intro hc
      rwa [if_neg (fun hp => hc (hparity.mp hp))] at hs

theorem parse_recovers_prodId : let ws := [.prodId [0x41,0x2f,0x42],.channel 2,.ready]
    (∃ p, Safe 12 (Packet.parse (image .control ws) 12) (some p) ∧ Recovers .control ws 12 p) ∧
    ∀ checksum, let bytes := image .control (ws ++ [.parity checksum])
      (checksum = checksumOf bytes →
        ∃ p, Safe bytes.length (Packet.parse (bytes ++ []) bytes.length) (some p) ∧
          Recovers .control (ws ++ [.parity checksum]) bytes.length p) ∧
      (checksum ≠ checksumOf bytes →
        Safe bytes.length (Packet.parse (bytes ++ []) bytes.length) none) :=
  parse_recovers .control _ (by decide) (by decide) (by decide) []

end CodecServer.Ambe3K.Protocol
