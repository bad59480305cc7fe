import CodecServer.Ambe3K.Channel
import CodecServer.Ambe3K.Protocol.Frame

/-! Data of a client on its way to the device. Its length is counted in bits or in samples by one
byte of the packet, and the packet carries as much of the data as that byte says. -/
namespace CodecServer.Ambe3K
open CodecServer.Ambe3K.Protocol

/-- The constructor of the packet fails, and nothing is sent. -/
def Refused (o : Outgoing) : Prop := ∃ e, o.new = .error e

/-- The packet goes on the wire as a frame with the given fields. -/
def Sends (o : Outgoing) (fields : List (List Byte)) : Prop :=
  ∃ p q bytes, o.new = .ok p ∧ p.writeTo = .ok (q,bytes) ∧ IsFrame o.type.toByte fields bytes

namespace Channel
variable {π : Type}

/-- `ChannelData` is refused, or sent as a `CHAND` field of all its bits and bytes. -/
def ChannelDataCarried (c : Channel π) (input : List Byte) : Prop :=
  Refused (c.decode input) ∨ ∃ bits : Byte, bits.toNat = 8*input.length ∧
    Sends (c.decode input) [[0x40+c.index],0x01::bits::input]

/-- `SpeechData` is refused, or sent as a `SPEECHD` field of all its samples and bytes. -/
def SpeechDataCarried (c : Channel π) (input : List Byte) : Prop :=
  Refused (c.encode input) ∨ ∃ samples : Byte, 2*samples.toNat = input.length ∧
    Sends (c.encode input) [[0x40+c.index],0x00::samples::input]

theorem not_refused {o : Outgoing} (h : o.Admitted) : ¬ Refused o := by
  rintro ⟨e,he⟩
  obtain ⟨p,q,hnew,-⟩ := Outgoing.new_writeTo o h
  rw [hnew] at he
  cases he

theorem sends_fields {o : Outgoing} (h : o.Admitted) : Sends o o.fields := by
  obtain ⟨p,q,bytes,hnew,-,-,hwrite,-,hframe⟩ := Outgoing.writeTo_isFrame o h
  exact ⟨p,q,bytes,hnew,hwrite,hframe⟩

/-- The assertion of the channel field comes first. -/
theorem layOut_refused {channel : Byte} (h : ¬ channel ≤ 3) (size : ℕ) (t : PacketType)
    (cs : List FieldCtor) :
    (Packet.ofSize (size+9) t >>= fun p => p.layOut 0 (channelField channel::cs)) =
      .error .assertion := by
  rw [show size+9 = size+5+4 by omega,Packet.ofSize_eq]
  change (channelField channel).bytes >>= _ = _
  rw [channelField,if_neg h]
  rfl

/-- Eight times the length, in a byte: so many bits stand for no more bytes than there are. -/
theorem bits_le (n : ℕ) : ((BitVec.ofNat 8 (n*8)).toNat+7)/8 ≤ n := by
  rw [BitVec.toNat_ofNat]
  omega

theorem samples_le (n : ℕ) : (BitVec.ofNat 8 (n/2)).toNat*2 ≤ n := by
  rw [BitVec.toNat_ofNat]
  omega

theorem channelDataCarried_iff (c : Channel π) (input : List Byte) :
    c.ChannelDataCarried input ↔ ¬ c.index ≤ 3 ∨ input.length < 32 := by
  by_cases hc : c.index ≤ 3
  · have hadmitted : (c.decode input).Admitted := ⟨hc,bits_le input.length⟩
    rw [ChannelDataCarried,or_iff_right (not_refused hadmitted),or_iff_right (not_not.mpr hc)]
    constructor
    · rintro ⟨bits,hbits,-⟩
      have := bits.isLt
      omega
    · intro hlen
      have hbits : (BitVec.ofNat 8 (input.length*8)).toNat = 8*input.length := by
        rw [BitVec.toNat_ofNat]
        omega
      refine ⟨_,hbits,?_⟩
      have hsends := sends_fields hadmitted
      have htake : input.take (((BitVec.ofNat 8 (input.length*8)).toNat+7)/8) = input :=
        List.take_of_length_le (by omega)
      rwa [decode,Outgoing.fields,htake] at hsends
  · exact iff_of_true (Or.inl ⟨_,layOut_refused hc _ _ _⟩) (Or.inl hc)

theorem speechDataCarried_iff (c : Channel π) (input : List Byte) :
    c.SpeechDataCarried input ↔
      ¬ c.index ≤ 3 ∨ (input.length%2 = 0 ∧ input.length < 512) := by
  by_cases hc : c.index ≤ 3
  · have hadmitted : (c.encode input).Admitted := ⟨hc,samples_le input.length⟩
    rw [SpeechDataCarried,or_iff_right (not_refused hadmitted),or_iff_right (not_not.mpr hc)]
    constructor
    · rintro ⟨samples,hsamples,-⟩
      have := samples.isLt
      omega
    · rintro ⟨heven,hlen⟩
      have hsamples : 2*(BitVec.ofNat 8 (input.length/2)).toNat = input.length := by
        rw [BitVec.toNat_ofNat]
        omega
      refine ⟨_,hsamples,?_⟩
      have hsends := sends_fields hadmitted
      have htake : input.take ((BitVec.ofNat 8 (input.length/2)).toNat*2) = input :=
        List.take_of_length_le (by omega)
      rwa [encode,Outgoing.fields,htake] at hsends
  · exact iff_of_true (Or.inl ⟨_,layOut_refused hc _ _ _⟩) (Or.inl hc)

/-- Data is carried whole exactly if its count fits the byte that it is counted in. -/
theorem dataCarried_iff (c : Channel π) (input : List Byte) :
    (c.ChannelDataCarried input ↔ ¬ c.index ≤ 3 ∨ input.length < 32) ∧
    (c.SpeechDataCarried input ↔
      ¬ c.index ≤ 3 ∨ (input.length%2 = 0 ∧ input.length < 512)) :=
  ⟨channelDataCarried_iff c input,speechDataCarried_iff c input⟩

/-- 32 bytes of channel data are sent as none. -/
theorem not_dataCarried_32 :
    ¬ ∀ (c : Channel Unit) (input : List Byte), c.ChannelDataCarried input ∧
      (input.length%2 = 0 → c.SpeechDataCarried input) := by
  intro h
  rcases (h {index := 0} (.replicate 32 0)).1 with ⟨e,he⟩ | ⟨bits,hbits,-⟩
  · have hnew : ((Channel.decode ({index := 0} : Channel Unit) (.replicate 32 0)).new).toOption ≠
        none := by decide
    rw [he] at hnew
    exact hnew rfl
  · have := bits.isLt
    rw [List.length_replicate] at hbits
    omega

end Channel
end CodecServer.Ambe3K
