import CodecServer.Ambe3K.Protocol.Loopback

/-! A frame with one byte changed. The parity field detects the change wherever the walk through the
payload still arrives at it; where the walk is led astray, the packet may pass without checking. -/
namespace CodecServer.Ambe3K.Protocol
open CodecServer.Memory CodecServer.Memory.Access CodecServer.Parity

/-- One byte changed behind the start byte, and the last byte is not the checksum any more. -/
theorem last_ne_checksumOf_set {bytes : List Byte} {i : ℕ} {b : Byte} (h1 : 1 ≤ i)
    (hi : i < bytes.length) (hb : bytes[i] ≠ b)
    (hlast : bytes[bytes.length-1]? = some (checksumOf bytes)) :
    (bytes.set i b)[bytes.length-1]? ≠ some (checksumOf (bytes.set i b)) := by
  have hspan : checksumOf (bytes.set i b) =
      parity (((bytes.drop 1).take (bytes.length-2)).set (i-1) b) := by
    rw [checksumOf,List.length_set,List.drop_set,if_neg (by omega),List.take_set]
  rw [hspan]
  by_cases hend : i = bytes.length-1
  · -- the parity byte itself: it does not count for the parity
    have hsame : parity (((bytes.drop 1).take (bytes.length-2)).set (i-1) b) =
        checksumOf bytes := by
      rw [List.set_eq_of_length_le (by simp; omega),checksumOf]
    rw [hsame,← hend,List.getElem?_set_self hi]
    rw [← hend,List.getElem?_eq_getElem hi] at hlast
    intro h
    exact hb (Option.some.inj (hlast.trans h.symm))
  · rw [List.getElem?_set_ne hend,hlast]
    intro h
    have hlt : i-1 < ((bytes.drop 1).take (bytes.length-2)).length := by simp; omega
    refine parity_set_ne _ (i-1) b hlt ?_ (Option.some.inj h).symm
    simpa [show i-1+1 = i by omega] using hb

/-- The payload of a speech or channel packet, up to its parity field. -/
inductive DataPayload : PacketType → List Byte → Prop
  | speech (c samples : Byte) (data : List Byte) (hc : c.toNat ≤ 2)
      (hdata : data.length = 2*samples.toNat) :
      DataPayload .speech ((0x40+c)::speechSpeechd::samples::data)
  | channel (c bits : Byte) (data : List Byte) (hc : c.toNat ≤ 2)
      (hdata : data.length = (bits.toNat+7)/8) :
      DataPayload .channel ((0x40+c)::channelChand::bits::data)

/-- Any even number of bytes is a sample list in network order. -/
theorem exists_samples (n : ℕ) (data : List Byte) (h : data.length = 2*n) :
    ∃ samples : List (BitVec 16), samples.length = n ∧ samples.flatMap htons = data := by
  induction n generalizing data with
  | zero => exact ⟨[],rfl,(List.length_eq_zero_iff.mp h).symm⟩
  | succ n ih =>
    obtain ⟨high,low,rest,rfl⟩ : ∃ high low rest, data = high::low::rest := by
      match data,h with
      | high::low::rest,_ => exact ⟨high,low,rest,rfl⟩
      | [_],h => simp at h; omega
    obtain ⟨samples,hlen,hdata⟩ := ih rest (by simp at h; omega)
    refine ⟨ntohs high low::samples,by rw [List.length_cons,hlen],?_⟩
    rw [List.flatMap_cons,hdata,htons_ntohs]
    rfl

namespace DataPayload
variable {t : PacketType} {payload : List Byte}

theorem length_pos (h : DataPayload t payload) : 0 < payload.length := by
  cases h <;> exact Nat.succ_pos _

theorem three_le_length (h : DataPayload t payload) : 3 ≤ payload.length := by
  cases h <;> simp

/-- Such a payload is written in wire fields, whatever its data. -/
theorem exists_wire (h : DataPayload t payload) :
    ∃ ws : List WireField, (∀ w ∈ ws, w.WellFormed t) ∧
      ws.flatMap (WireField.encode t) = payload := by
  cases h with
  | speech c samples data hc hdata =>
    obtain ⟨words,hlen,rfl⟩ := exists_samples samples.toNat data hdata
    refine ⟨[.channel c,.speechD words],?_,?_⟩
    · intro w hw
      rcases List.mem_pair.mp hw with rfl | rfl
      · exact hc
      · have := samples.isLt
        change words.length ≤ 255
        omega
    · have : BitVec.ofNat 8 words.length = samples := by rw [hlen]; simp
      simp [WireField.encode,this]
  | channel c bits data hc hdata =>
    refine ⟨[.channel c,.chanD bits data],?_,?_⟩
    · intro w hw
      rcases List.mem_pair.mp hw with rfl | rfl
      · exact hc
      · exact hdata
    · simp [WireField.encode]

/-- A change of the channel to another channel, or of the data, keeps the form of the payload. -/
theorem set (h : DataPayload t payload) {i : ℕ} {b : Byte}
    (hi : i = 0 ∧ IsChannelOpcode b ∨ 3 ≤ i) : DataPayload t (payload.set i b) := by
  rcases hi with ⟨rfl,hb⟩ | hi
  · obtain ⟨c,hc,rfl⟩ : ∃ c : Byte, c.toNat ≤ 2 ∧ b = 0x40+c := by
      rcases hb with rfl | rfl | rfl
      · exact ⟨0,by decide,rfl⟩
      · exact ⟨1,by decide,rfl⟩
      · exact ⟨2,by decide,rfl⟩
    cases h with
    | speech _ samples data _ hdata => exact .speech c samples data hc hdata
    | channel _ bits data _ hdata => exact .channel c bits data hc hdata
  · obtain ⟨j,rfl⟩ : ∃ j, i = j+3 := ⟨i-3,by omega⟩
    cases h with
    | speech c samples data hc hdata =>
      exact .speech c samples (data.set j b) hc (by rw [List.length_set,hdata])
    | channel c bits data hc hdata =>
      exact .channel c bits (data.set j b) hc (by rw [List.length_set,hdata])

/-- With such a payload and a parity field, the string is rejected unless the parity agrees. -/
theorem safe_parse_none (h : DataPayload t payload) {bytes : List Byte} {checksum : Byte}
    (ht : bytes[3]? = some t.toByte) (hb : bytes.drop 4 = payload ++ [parityByte,checksum])
    (hc : checksum ≠ checksumOf bytes) (behind : List Byte) :
    Safe bytes.length (Packet.parse (bytes ++ behind) bytes.length) none := by
  obtain ⟨ws,hws,rfl⟩ := h.exists_wire
  have h4 : 4 ≤ bytes.length := by
    have := (List.getElem?_eq_some_iff.mp ht).1
    omega
  have hdrop : bytes.drop 4 =
      (ws ++ [WireField.parity checksum]).flatMap (WireField.encode t) := by
    rw [hb,List.flatMap_append]
    rfl
  have hs := safe_parse_payload (wellFormed_append_parity hws checksum) h4
    (by rw [ht,Option.bind_some,PacketType.ofByte_toByte]) hdrop behind
  rwa [if_neg (fun hp => hc ((parityHolds_written_iff hdrop behind).mp hp))] at hs

end DataPayload

namespace Outgoing

/-- A speech or channel packet for one of the channels that a device can have. -/
def IsData : Outgoing → Prop
  | .channel c channelData bits => c.toNat ≤ 2 ∧ (bits.toNat+7)/8 ≤ channelData.length
  | .speech c speechData samples => c.toNat ≤ 2 ∧ samples.toNat*2 ≤ speechData.length
  | _ => False

instance : (o : Outgoing) → Decidable o.IsData
  | .channel c channelData bits =>
    inferInstanceAs (Decidable (c.toNat ≤ 2 ∧ (bits.toNat+7)/8 ≤ channelData.length))
  | .speech c speechData samples =>
    inferInstanceAs (Decidable (c.toNat ≤ 2 ∧ samples.toNat*2 ≤ speechData.length))
  | .reset | .prodIdRequest | .versionStringRequest => .isFalse id
  | .setupIndex _ _ _ | .setupRateP _ _ _ => .isFalse id

theorem IsData.admitted {o : Outgoing} (h : o.IsData) : o.Admitted := by
  cases o with
  | channel c channelData bits => exact ⟨BitVec.le_def.mpr (Nat.le_succ_of_le h.1),h.2⟩
  | speech c speechData samples => exact ⟨BitVec.le_def.mpr (Nat.le_succ_of_le h.1),h.2⟩
  | _ => exact h.elim

theorem IsData.dataPayload {o : Outgoing} (h : o.IsData) :
    DataPayload o.type o.fields.flatten := by
  cases o with
  | channel c channelData bits =>
    refine .channel c bits _ h.1 ?_
    have := h.2
    simp
    omega
  | speech c speechData samples =>
    refine .speech c samples _ h.1 ?_
    have := h.2
    simp
    omega
  | _ => exact h.elim

end Outgoing

/-- The data of a channel packet takes as many bytes with the other count. -/
def Outgoing.KeepsLength (b : Byte) : Outgoing → Prop
  | .channel _ _ bits => (b.toNat+7)/8 = (bits.toNat+7)/8
  | _ => False

instance (b : Byte) : (o : Outgoing) → Decidable (o.KeepsLength b)
  | .channel _ _ bits => inferInstanceAs (Decidable ((b.toNat+7)/8 = (bits.toNat+7)/8))
  | .speech _ _ _ => .isFalse id
  | .reset | .prodIdRequest | .versionStringRequest => .isFalse id
  | .setupIndex _ _ _ | .setupRateP _ _ _ => .isFalse id

/-- A changed byte that makes the type unknown, or leads the walk through a speech or channel
packet to its parity field all the same. -/
def Detectable (o : Outgoing) (i : ℕ) (b : Byte) : Prop :=
  i = 1 ∨ i = 2 ∨ (i = 3 ∧ PacketType.ofByte b = none) ∨ (i = 4 ∧ IsChannelOpcode b) ∨
    (i = 6 ∧ o.KeepsLength b) ∨ (7 ≤ i ∧ i+2 < o.image.length) ∨ i+1 = o.image.length

instance (o : Outgoing) (i : ℕ) (b : Byte) : Decidable (Detectable o i b) := by
  unfold Detectable; infer_instance

section Differs
variable {t : PacketType} {payload bytes bytes' : List Byte} {i : ℕ}

theorem length_of_drop {checksum : Byte}
    (hdrop : bytes.drop 4 = payload ++ [parityByte,checksum]) :
    bytes.length = payload.length+6 := by
  have := congrArg List.length hdrop
  simp only [List.length_drop,List.length_append,List.length_cons,List.length_nil] at this
  omega

theorem last_of_drop {checksum : Byte}
    (hdrop : bytes.drop 4 = payload ++ [parityByte,checksum]) :
    bytes[bytes.length-1]? = some checksum := by
  rw [length_of_drop hdrop,show payload.length+6-1 = 4+(payload.length+1) by omega,
    ← List.getElem?_drop,hdrop,List.getElem?_append_right (by omega)]
  simp

theorem last_ne_checksumOf (hdrop : bytes.drop 4 = payload ++ [parityByte,checksumOf bytes])
    (hd : DiffersAt bytes bytes' i) (h1 : 1 ≤ i) :
    bytes'[bytes.length-1]? ≠ some (checksumOf bytes') := by
  obtain ⟨hi,b,rfl,-,hb⟩ := hd.exists_set
  exact last_ne_checksumOf_set h1 hi hb (last_of_drop hdrop)

end Differs

namespace Outgoing
variable {o : Outgoing}

theorem IsData.keepsLength (h : o.IsData) {b : Byte} (hb : o.KeepsLength b) :
    DataPayload o.type (o.fields.flatten.set 2 b) := by
  cases o with
  | channel c channelData bits =>
    have hpayload := h.dataPayload
    change (b.toNat+7)/8 = (bits.toNat+7)/8 at hb
    refine .channel c b _ h.1 ?_
    have := h.2
    simp
    omega
  | _ => exact hb.elim

theorem image_drop (o : Outgoing) :
    o.image.drop 4 = o.fields.flatten ++ [parityByte,checksumOf o.image] := by
  rw [show checksumOf o.image = checksumOf (frame o.type o.fields.flatten 0) from
    checksumOf_frame o.type _ _ _]
  rfl

/-- A detectable change of a frame is detected. -/
theorem IsData.safe_parse_detectable (h : o.IsData) {bytes' : List Byte} {i : ℕ}
    (hd : DiffersAt o.image bytes' i) (h1 : 1 ≤ i) {b : Byte} (hb : bytes'[i]? = some b)
    (hdet : Detectable o i b) (behind : List Byte) :
    Safe bytes'.length (Packet.parse (bytes' ++ behind) bytes'.length) none := by
  have hp := h.dataPayload
  have hdrop := o.image_drop
  have hlen := length_of_drop hdrop
  have hlast := last_ne_checksumOf hdrop hd h1
  obtain ⟨hi,b',rfl,hb',-⟩ := hd.exists_set
  obtain rfl : b' = b := Option.some.inj (hb'.symm.trans hb)
  -- it is enough to find a payload of the same form in front of a parity field
  have hwalk : ∀ payload' checksum, i ≠ 3 → DataPayload o.type payload' →
      (o.image.set i b').drop 4 = payload' ++ [parityByte,checksum] →
      Safe (o.image.set i b').length
        (Packet.parse (o.image.set i b' ++ behind) (o.image.set i b').length) none := by
    intro payload' checksum h3 hp' hdrop'
    refine hp'.safe_parse_none (by rw [List.getElem?_set_ne h3]; rfl) hdrop' ?_ behind
    intro hc
    have := last_of_drop hdrop'
    rw [List.length_set,hc] at this
    exact hlast this
  have hset : 4 ≤ i → (o.image.set i b').drop 4 =
      (o.fields.flatten ++ [parityByte,checksumOf o.image]).set (i-4) b' := by
    intro h4
    rw [List.drop_set,if_neg (by omega),hdrop]
  have hpos := hp.three_le_length
  rcases hdet with rfl | rfl | ⟨rfl,htype⟩ | ⟨rfl,hopcode⟩ | ⟨rfl,hkeeps⟩ | hdata | hend
  · exact hwalk _ _ (by omega) hp (by rw [List.drop_set,if_pos (by omega),hdrop])
  · exact hwalk _ _ (by omega) hp (by rw [List.drop_set,if_pos (by omega),hdrop])
  · have h3 : (o.image.set 3 b')[3]? = some b' := List.getElem?_set_self hi
    have hnone : decoded (o.image.set 3 b') behind = none := by
      simp only [decoded,h3,Option.bind_some,htype]
    rw [← hnone,safe_parse_iff behind (by rw [List.length_set]; omega),Contained,h3,
      Option.bind_some,htype]
    intro t' ht'
    cases ht'
  · refine hwalk (o.fields.flatten.set 0 b') (checksumOf o.image) (by omega)
      (hp.set (Or.inl ⟨rfl,hopcode⟩)) ?_
    rw [hset (by omega)]
    exact List.set_append_left _ _ hp.length_pos
  · refine hwalk (o.fields.flatten.set 2 b') (checksumOf o.image) (by omega) (h.keepsLength hkeeps) ?_
    rw [hset (by omega)]
    exact List.set_append_left _ _ (by omega)
  · refine hwalk (o.fields.flatten.set (i-4) b') (checksumOf o.image) (by omega)
      (hp.set (Or.inr (by omega))) ?_
    rw [hset (by omega),List.set_append_left _ _ (by omega)]
  · apply hwalk _ b' (by omega) hp
    rw [hset (by omega),List.set_append_right _ _ (by omega),
      show i-4-o.fields.flatten.length = 1 by omega]
    rfl

end Outgoing

/-- A control packet whose first field is a channel with a status other than zero fails an
assertion. -/
theorem parse_status {bytes : List Byte} {opcode status : Byte} (h3 : bytes[3]? = some typeControl)
    (h4 : bytes[4]? = some opcode) (hopcode : IsChannelOpcode opcode) (h5 : bytes[5]? = some status)
    (hstatus : status ≠ 0) (behind : List Byte) :
    (Packet.parse (bytes ++ behind) bytes.length).result = .error .assertion := by
  have hlength : 5 < bytes.length := (List.getElem?_eq_some_iff.mp h5).1
  have hmem : ∀ i < bytes.length, (bytes ++ behind)[i]? = bytes[i]? :=
    fun i hi => List.getElem?_append_left hi
  have hnew : (Packet.new (bytes ++ behind) bytes.length .control).result =
      .ok {data := bytes ++ behind, dataSize := bytes.length, kind := .empty .control} := by
    rw [Packet.new,require,if_pos (by omega)]
    rfl
  have hbuild : (Packet.buildField .control (bytes ++ behind) 4).result = .error .assertion := by
    rw [Packet.buildField,bind_of_ok (load_of_getElem? ((hmem 4 (by omega)).trans h4))]
    have hfield : Packet.buildFieldControl (bytes ++ behind) 4 opcode =
        some <$> channelResponseField (bytes ++ behind) 4 := by
      rcases hopcode with rfl | rfl | rfl <;> rfl
    simp only [hfield]
    apply (result_map_error _ _ _).mpr
    rw [channelResponseField,statusField,
      bind_of_ok (load_of_getElem? ((hmem 5 (by omega)).trans h5))]
    apply bind_of_error
    rw [require,if_neg hstatus]
    rfl
  have hscan : (Packet.scanFields
      {data := bytes ++ behind, dataSize := bytes.length, kind := .empty .control}).result =
        .error .assertion := by
    simp only [Packet.scanFields,Packet.scanLoop]
    rw [if_neg (by omega)]
    exact bind_of_error hbuild
  rw [Packet.parse,bind_of_ok (load_of_getElem? ((hmem 3 (by omega)).trans h3))]
  change (Packet.new (bytes ++ behind) bytes.length .control >>= _).result = _
  rw [bind_of_ok hnew]
  exact bind_of_error hscan

/-- A channel packet that is taken for a control packet: the opcode of its data is the status of its
channel. -/
theorem Outgoing.IsData.parse_control {o : Outgoing} (h : o.IsData) (ht : o.type = .channel)
    (behind : List Byte) :
    (Packet.parse (o.image.set 3 typeControl ++ behind) (o.image.set 3 typeControl).length).result =
      .error .assertion := by
  cases o with
  | channel c channelData bits =>
    have hopcode : IsChannelOpcode (0x40+c) := by
      rcases channelOpcode h.1 with rfl | rfl | rfl <;> decide
    let bytes := (channel c channelData bits).image.set 3 typeControl
    have hfirst : bytes[4]? = some (0x40+c) := rfl
    have hsecond : bytes[5]? = some channelChand := rfl
    exact parse_status rfl hfirst hopcode hsecond (by decide) behind
  | speech c speechData samples => cases ht
  | _ => exact h.elim

/-- What becomes of a speech or channel packet with one byte changed. Where the change is
detectable it is rejected. A channel packet that becomes a control packet fails an assertion.
Otherwise, if `parse` returns, what it returns depends on the last parity field that the walk through
the changed payload meets: without one, the packet passes without checking; with one, it passes
exactly if that field agrees, which is never the one of the frame. -/
theorem parse_differsAt (o : Outgoing) (h : o.IsData) :
    ∃ p q, o.new = .ok p ∧ p.writeTo = .ok (q,o.image) ∧
      ∀ bytes' i b behind, DiffersAt o.image bytes' i → 1 ≤ i → bytes'[i]? = some b →
        (Detectable o i b →
          Safe bytes'.length (Packet.parse (bytes' ++ behind) bytes'.length) none) ∧
        (o.type = .channel → i = 3 → b = typeControl →
          (Packet.parse (bytes' ++ behind) bytes'.length).result = .error .assertion) ∧
        ∀ t, bytes'[3]?.bind PacketType.ofByte = some t →
          ∀ r, (Packet.parse (bytes' ++ behind) bytes'.length).result = .ok r →
            (r.isSome ↔ ∀ data, lastAt Field.checksumAt (fieldsOf t (bytes'.drop 4)) = some data →
              bytes'[data+1]? = some (checksumOf bytes')) ∧
            ∀ s ∈ r, ∀ data ∈ s.checksum,
              data+2 ≠ o.image.length ∧ bytes'[data+1]? = some (checksumOf bytes') := by
  obtain ⟨p,q,hnew,-,-,hwrite,-⟩ := o.new_writeTo h.admitted
  have hdrop := o.image_drop
  have hlen := length_of_drop hdrop
  refine ⟨p,q,hnew,hwrite,fun bytes' i b behind hd h1 hb => ⟨fun hdet => ?_,?_,?_⟩⟩
  · exact h.safe_parse_detectable hd h1 hb hdet behind
  · rintro ht rfl rfl
    obtain ⟨-,b',rfl,hb',-⟩ := hd.exists_set
    obtain rfl : b' = typeControl := Option.some.inj (hb'.symm.trans hb)
    exact h.parse_control ht behind
  · intro t ht r hr
    have hr := parse_eq (by rw [hd.1]; omega) hr
    simp only [decoded,ht] at hr
    refine ⟨?_,fun s hs data hdata => ?_⟩
    · rw [← (scanned_checksum t : (scanned t bytes' behind).checksum = _)]
      split_ifs at hr with hparity
      · exact hr ▸ iff_of_true rfl hparity
      · exact hr ▸ iff_of_false Bool.false_ne_true hparity
    · split_ifs at hr with hparity
      · obtain rfl := Option.some.inj (hs.symm.trans hr)
        have hholds := hparity data hdata
        refine ⟨fun hlast => last_ne_checksumOf hdrop hd h1 ?_,hholds⟩
        rw [← hlast]
        exact hholds
      · cases hs.symm.trans hr

/-- A parity opcode among the data, changed to the opcode of a channel. -/
theorem parse_differsAt_data :
    Safe 10 (Packet.parse ((Outgoing.channel 1 [0x2f] 8).image.set 7 0x40 ++ []) 10) none := by
  obtain ⟨p,q,-,-,h⟩ := parse_differsAt (.channel 1 [0x2f] 8) (by decide)
  exact (h _ 7 0x40 [] (differsAt_set (by decide) (by decide)) (by decide) (by decide)).1
    (by decide)

/-- A frame whose parity opcode is lost is accepted. -/
theorem not_parse_differsAt_none :
    ¬ ∀ o : Outgoing, o.IsData → ∀ p q bytes, o.new = .ok p → p.writeTo = .ok (q,bytes) →
      ∀ bytes' i behind, DiffersAt bytes bytes' i → 1 ≤ i →
        (Packet.parse (bytes' ++ behind) bytes'.length).result = .ok none := by
  intro h
  obtain ⟨p,q,hnew,-,-,hwrite,-⟩ := (Outgoing.channel 0 [] 0).new_writeTo (by decide)
  have hlost := h (.channel 0 [] 0) (by decide) p q _ hnew hwrite
    ((Outgoing.channel 0 [] 0).image.set 7 0x00) 7 [] (differsAt_set (by decide) (by decide))
    (by decide)
  revert hlost
  decide

end CodecServer.Ambe3K.Protocol
