import CodecServer.Ambe3K.Protocol.RoundTrip
import CodecServer.Ambe3K.Protocol.Frame

/-! A frame of the server that comes back from the wire: speech and channel packets are laid out the
same in both directions, so what their constructors write is what their accessors read. -/
namespace CodecServer.Ambe3K.Protocol
open CodecServer.Memory CodecServer.Memory.Access

/-- The frame around wire fields is the packet of these fields and a parity field. -/
theorem frame_eq_image (t : PacketType) (ws : List WireField) (checksum : Byte) :
    frame t (ws.flatMap (WireField.encode t)) checksum = image t (ws ++ [.parity checksum]) := by
  simp [frame,image,WireField.encode]

/-- A frame is accepted with its own checksum, and its packet says what the fields say. -/
theorem parse_frame {t : PacketType} {ws : List WireField} (h : ∀ w ∈ ws, w.WellFormed t)
    (hk : (ws.map WireField.kind).Nodup) (hp : .parity ∉ ws.map WireField.kind)
    (behind : List Byte) :
    let payload := ws.flatMap (WireField.encode t)
    let bytes := frame t payload (checksumOf (frame t payload 0))
    ∃ r, Safe bytes.length (Packet.parse (bytes ++ behind) bytes.length) (some r) ∧
      Safe bytes.length r.isChecksumValid true ∧
      ∃ checksum, Recovers t (ws ++ [.parity checksum]) bytes.length r := by
  intro payload bytes
  have hsum : checksumOf (frame t payload 0) = checksumOf bytes := checksumOf_frame t payload _ _
  have hbytes : bytes = image t (ws ++ [WireField.parity (checksumOf bytes)]) := by
    rw [← frame_eq_image,← hsum]
  have h4 : 4 ≤ bytes.length := by simp only [bytes,frame_length]; omega
  have hdrop : bytes.drop 4 =
      (ws ++ [WireField.parity (checksumOf bytes)]).flatMap (WireField.encode t) := by
    conv_lhs => rw [hbytes]
    exact image_drop t _
  have htype : bytes[3]?.bind PacketType.ofByte = some t := by
    rw [hbytes]
    exact image_type t _
  have h' := wellFormed_append_parity h (checksumOf bytes)
  have hholds := (parityHolds_written_iff hdrop behind).mpr rfl
  have hs := safe_parse_payload h' h4 htype hdrop behind
  rw [if_pos hholds] at hs
  refine ⟨_,hs,?_,_,written_recovers h' (nodup_append_parity hk hp _) h4 hdrop behind⟩
  rw [← scanned_of_payload h' hdrop] at hholds ⊢
  rw [safe_isChecksumValid t h4 (Nat.le_refl _),decide_eq_true hholds]

/-- Channel data survives: what a `ChannelPacket` puts on the wire is parsed as a `ChannelPacket`
with the same channel and the same bytes, whatever these bytes are. -/
theorem parse_channelPacket (c : Byte) (channelData : List Byte) (bits : Byte)
    (behind : List Byte) (hc : c.toNat ≤ 2) (hdata : (bits.toNat+7)/8 ≤ channelData.length) :
    ∃ p q bytes r, channelPacket c channelData bits = .ok p ∧ p.writeTo = .ok (q,bytes) ∧
      Safe bytes.length (Packet.parse (bytes ++ behind) bytes.length) (some r) ∧
      r.kind.type = .channel ∧ r.hasChecksum = true ∧ Safe bytes.length r.isChecksumValid true ∧
      r.hasChannel = true ∧ Safe bytes.length r.getChannel c ∧
      Safe bytes.length r.getChannelData
        (channelData.take ((bits.toNat+7)/8),(bits.toNat+7)/8) := by
  have hlen : (channelData.take ((bits.toNat+7)/8)).length = (bits.toNat+7)/8 := by
    rw [List.length_take]
    omega
  have hadmitted : (Outgoing.channel c channelData bits).Admitted :=
    ⟨BitVec.le_def.mpr (Nat.le_succ_of_le hc),hdata⟩
  obtain ⟨p,q,hnew,-,-,hwrite,-⟩ := Outgoing.new_writeTo _ hadmitted
  let ws : List WireField := [.channel c,.chanD bits (channelData.take ((bits.toNat+7)/8))]
  have hws : ∀ w ∈ ws, w.WellFormed .channel := by
    intro w hw
    rcases List.mem_pair.mp hw with rfl | rfl
    · exact hc
    · exact hlen
  obtain ⟨r,hr,hvalid,checksum,hrec⟩ := parse_frame hws (by simp [ws,WireField.kind])
    (by simp [ws,WireField.kind]) behind
  have hchannel := hrec.shown (.channel c) (by simp [ws])
  have hchanD := hrec.shown (.chanD bits (channelData.take ((bits.toNat+7)/8))) (by simp [ws])
  have hparity := hrec.shown (.parity checksum) (by simp [ws])
  simp only [Packet.Shows,hlen] at hchanD
  exact ⟨p,q,_,r,hnew,hwrite,hr,hrec.type,hparity,hvalid,hchannel.1,hchannel.2,hchanD⟩

/-- A channel opcode, a channel count and a parity opcode among the data do not disturb the scan. -/
theorem parse_channelPacket_opcodes : ∃ p q bytes r,
    channelPacket 2 [0x2f,0x40,0x01,0x2f] 25 = .ok p ∧ p.writeTo = .ok (q,bytes) ∧
      Safe bytes.length (Packet.parse (bytes ++ []) bytes.length) (some r) ∧
      r.kind.type = .channel ∧ r.hasChecksum = true ∧ Safe bytes.length r.isChecksumValid true ∧
      r.hasChannel = true ∧ Safe bytes.length r.getChannel 2 ∧
      Safe bytes.length r.getChannelData ([0x2f,0x40,0x01,0x2f],4) :=
  parse_channelPacket 2 [0x2f,0x40,0x01,0x2f] 25 [] (by decide) (by decide)

end CodecServer.Ambe3K.Protocol
