import CodecServer.Ambe3K.Protocol.Recognition

/-! A frame with any bits changed, as long as the walk through it finds the same fields. It is accepted
exactly if each of the eight columns of its bytes has an even number of changes. -/
namespace CodecServer.Ambe3K.Protocol
open CodecServer.Memory.Access CodecServer.Parity

/-- The changes of a frame; its start byte is not looked at. -/
def errors (bytes bytes' : List Byte) : List Byte := (List.zipWith (·^^^·) bytes bytes').drop 1

/-- A bit of the frame is another one; the bits of a byte are sent from the lowest to the highest. -/
def Flipped (bytes bytes' : List Byte) (p : ℕ) : Prop :=
  ∃ b b', bytes[p/8]? = some b ∧ bytes'[p/8]? = some b' ∧ b.getLsbD (p%8) ≠ b'.getLsbD (p%8)

/-- Behind the start byte, something has changed within eight bits. -/
def Burst (bytes bytes' : List Byte) : Prop :=
  ∃ p, 8 ≤ p ∧ Flipped bytes bytes' p ∧ ∃ first, ∀ q, Flipped bytes bytes' q → first ≤ q ∧ q < first+8

/-- The type, the opcodes and the length of the data are as they were, and so is the length of the
frame; the channel may be another one. -/
structure KeepsForm (bytes bytes' : List Byte) : Prop where
  length : bytes'.length = bytes.length
  type : bytes'[3]? = bytes[3]?
  channel : ∃ b, bytes'[4]? = some b ∧ IsChannelOpcode b
  opcode : bytes'[5]? = bytes[5]?
  count : bytes'[6]? = bytes[6]?
  parity : bytes'[bytes.length-2]? = bytes[bytes.length-2]?

section
variable {t : PacketType} {payload payload' bytes bytes' : List Byte} {checksum : Byte}

theorem exists_cons_cons_cons {l : List Byte} (h : 3 ≤ l.length) :
    ∃ x y z rest, l = x::y::z::rest := by
  match l,h with
  | x::y::z::rest,_ => exact ⟨x,y,z,rest,rfl⟩

/-- The form of a payload is in its first three bytes and in its length. -/
theorem DataPayload.of_getElem? (h : DataPayload t payload) (hlength : payload'.length = payload.length)
    {b : Byte} (hchannel : payload'[0]? = some b) (hb : IsChannelOpcode b)
    (hopcode : payload'[1]? = payload[1]?) (hcount : payload'[2]? = payload[2]?) :
    DataPayload t payload' := by
  have h3 : 3 ≤ payload.length := by cases h <;> simp
  obtain ⟨x,y,z,data',rfl⟩ := exists_cons_cons_cons (hlength ▸ h3)
  obtain rfl := Option.some.inj hchannel
  obtain ⟨c',hc',rfl⟩ := exists_channel_of_isChannelOpcode hb
  cases h with
  | speech c samples data hc hdata =>
    obtain rfl := Option.some.inj hopcode
    obtain rfl := Option.some.inj hcount
    apply DataPayload.speech c' z data' hc'
    simpa [hdata] using hlength
  | channel c bits data hc hdata =>
    obtain rfl := Option.some.inj hopcode
    obtain rfl := Option.some.inj hcount
    apply DataPayload.channel c' z data' hc'
    simpa [hdata] using hlength

theorem KeepsForm.exists_payload (h : KeepsForm bytes bytes') (hp : DataPayload t payload)
    (hdrop : bytes.drop 4 = payload ++ [parityByte,checksum]) :
    ∃ payload' checksum', DataPayload t payload' ∧ bytes'.drop 4 = payload' ++ [parityByte,checksum'] := by
  have hlength := length_of_drop hdrop
  have h3 : 3 ≤ payload.length := by cases hp <;> simp
  have hat : ∀ i < payload.length, payload[i]? = bytes[4+i]? := by
    intro i hi
    rw [← List.getElem?_drop,hdrop,List.getElem?_append_left hi]
  have hat' : ∀ i < payload.length, ((bytes'.drop 4).take payload.length)[i]? = bytes'[4+i]? := by
    intro i hi
    rw [List.getElem?_take_of_lt hi,List.getElem?_drop]
  obtain ⟨b,hb,hchannel⟩ := h.channel
  obtain ⟨opcode,checksum',hlast⟩ : ∃ opcode checksum',
      (bytes'.drop 4).drop payload.length = [opcode,checksum'] := by
    apply List.length_eq_two.mp
    rw [List.length_drop,List.length_drop,h.length]
    omega
  have hparity : opcode = parityByte := by
    have hopcode := congrArg (fun l : List Byte => l[0]?) hlast
    have hold := congrArg (fun l : List Byte => l[payload.length]?) hdrop
    simp only [List.getElem?_drop,List.getElem?_append_right (Nat.le_refl _)] at hopcode hold
    have hkept := h.parity
    rw [show bytes.length-2 = 4+payload.length by omega,hold] at hkept
    rw [Nat.add_zero,hkept] at hopcode
    simpa using hopcode.symm
  refine ⟨(bytes'.drop 4).take payload.length,checksum',?_,?_⟩
  · apply hp.of_getElem? _ ((hat' 0 (by omega)).trans hb) hchannel
    · rw [hat' 1 (by omega),hat 1 (by omega)]
      exact h.opcode
    · rw [hat' 2 (by omega),hat 2 (by omega)]
      exact h.count
    · rw [List.length_take,List.length_drop,h.length]
      omega
  · rw [← hparity,← hlast,List.take_append_drop]

/-- With such a payload and a parity field, a packet is returned exactly if the parity agrees. -/
theorem DataPayload.safe_parse (h : DataPayload t payload) (ht : bytes[3]? = some t.toByte)
    (hb : bytes.drop 4 = payload ++ [parityByte,checksum]) (behind : List Byte) :
    ∃ r, Safe bytes.length (Packet.parse (bytes ++ behind) bytes.length) r ∧
      (r.isSome ↔ checksum = checksumOf bytes) := by
  obtain ⟨ws,hws,rfl⟩ := h.exists_wire
  have h4 : 4 ≤ bytes.length := by
    have := (List.getElem?_eq_some_iff.mp ht).1
    omega
  have hdrop : bytes.drop 4 =
      (ws ++ [WireField.parity checksum]).flatMap (WireField.encode t) := by
    rw [hb,List.flatMap_append]
    rfl
  refine ⟨_,safe_parse_payload (wellFormed_append_parity hws checksum) h4
    (by rw [ht,Option.bind_some,PacketType.ofByte_toByte]) hdrop behind,?_⟩
  rw [← parityHolds_written_iff hdrop behind]
  split_ifs with hholds
  · exact iff_of_true rfl hholds
  · exact iff_of_false nofun hholds

/-- The parity agrees exactly if the bytes behind the start byte amount to zero. -/
theorem checksum_eq_iff (hb : bytes.drop 4 = payload ++ [parityByte,checksum]) :
    checksum = checksumOf bytes ↔ parity (bytes.drop 1) = 0#8 := by
  have hlength := length_of_drop hb
  obtain ⟨hlt,hget⟩ := List.getElem?_eq_some_iff.mp (last_of_drop hb)
  have hend : (bytes.drop 1).drop (bytes.length-2) = [checksum] := by
    rw [List.drop_drop,show 1+(bytes.length-2) = bytes.length-1 by omega,
      List.drop_eq_getElem_cons hlt,hget,List.drop_eq_nil_of_le (by omega)]
  have hlast : bytes.drop 1 = (bytes.drop 1).take (bytes.length-2) ++ [checksum] := by
    rw [← hend,List.take_append_drop]
  rw [hlast,parity_append,parity_cons,parity_nil,BitVec.xor_zero,checksumOf]
  exact ⟨fun h => by rw [h,BitVec.xor_self],fun h => (BitVec.xor_eq_zero_iff.mp h).symm⟩

end

/-- One bit in one place is an odd number of bits. -/
theorem countP_eq_one {α : Type*} {P : α → Bool} {l : List α} {i : ℕ} {a : α} (ha : l[i]? = some a)
    (hP : P a = true) (hunique : ∀ j b, l[j]? = some b → P b = true → j = i) : l.countP P = 1 := by
  induction l generalizing i with
  | nil => cases ha
  | cons c l ih =>
    cases i with
    | zero =>
      obtain rfl := Option.some.inj ha
      have hrest : l.countP P = 0 := by
        apply List.countP_eq_zero.mpr
        intro b hb hPb
        obtain ⟨j,hj⟩ := List.mem_iff_getElem?.mp hb
        cases hunique (j+1) b hj hPb
      rw [List.countP_cons_of_pos hP,hrest]
    | succ i =>
      have hc : ¬ P c = true := by
        intro hPc
        cases hunique 0 c rfl hPc
      rw [List.countP_cons_of_neg hc]
      apply ih ha
      intro j b hb hPb
      exact Nat.succ_inj.mp (hunique (j+1) b hb hPb)

theorem getElem?_errors {bytes bytes' : List Byte} {i : ℕ} {e : Byte} :
    (errors bytes bytes')[i]? = some e ↔
      ∃ b b', bytes[i+1]? = some b ∧ bytes'[i+1]? = some b' ∧ b ^^^ b' = e := by
  rw [errors,List.getElem?_drop,Nat.add_comm 1 i,List.getElem?_zipWith_eq_some]

/-- A bit of the changes is a bit that is another one. -/
theorem flipped_of_errors {bytes bytes' : List Byte} {i c : ℕ} {e : Byte} (hc : c < 8)
    (he : (errors bytes bytes')[i]? = some e) (hbit : e.getLsbD c = true) :
    Flipped bytes bytes' (8*(i+1)+c) := by
  obtain ⟨b,b',hb,hb',rfl⟩ := getElem?_errors.mp he
  have hbyte : (8*(i+1)+c)/8 = i+1 := by omega
  have hcolumn : (8*(i+1)+c)%8 = c := by omega
  refine ⟨b,b',?_,?_,?_⟩
  · rw [hbyte,hb]
  · rw [hbyte,hb']
  · rw [hcolumn]
    intro heq
    rw [BitVec.getLsbD_xor,heq,Bool.xor_self] at hbit
    cases hbit

/-- Eight bits in a row are in eight columns. -/
theorem Burst.exists_odd {bytes bytes' : List Byte} (h : Burst bytes bytes') :
    ∃ c < 8, Odd ((errors bytes bytes').countP (·.getLsbD c)) := by
  obtain ⟨p,hp,hflipped,first,hall⟩ := h
  obtain ⟨b,b',hb,hb',hne⟩ := id hflipped
  have hbyte : p/8-1+1 = p/8 := by omega
  have hc : p%8 < 8 := by omega
  have herror : (errors bytes bytes')[p/8-1]? = some (b ^^^ b') := by
    apply getElem?_errors.mpr
    rw [hbyte]
    exact ⟨b,b',hb,hb',rfl⟩
  have hbit : (b ^^^ b').getLsbD (p%8) = true := by
    rw [BitVec.getLsbD_xor]
    exact bne_iff_ne.mpr hne
  have hone : (errors bytes bytes').countP (·.getLsbD (p%8)) = 1 := by
    apply countP_eq_one herror hbit
    intro j e he hbit'
    have hfirst := hall _ hflipped
    have hother := hall _ (flipped_of_errors hc he hbit')
    omega
  refine ⟨p%8,hc,?_⟩
  rw [hone]
  exact odd_one

/-- A speech or channel packet with any changes that keep its form is accepted exactly if in each
column an even number of bits has changed. So a burst of up to eight bits is always detected. -/
theorem parse_corrupted (o : Outgoing) (h : o.IsData) {bytes' : List Byte}
    (hform : KeepsForm o.image bytes') (behind : List Byte) :
    ∃ r, Safe bytes'.length (Packet.parse (bytes' ++ behind) bytes'.length) r ∧
      (r.isSome ↔ ∀ c < 8, Even ((errors o.image bytes').countP (·.getLsbD c))) ∧
      (Burst o.image bytes' → r = none) := by
  have hdrop : o.image.drop 4 = o.fields.flatten ++ [parityByte,checksumOf o.image] := by
    rw [show checksumOf o.image = checksumOf (frame o.type o.fields.flatten 0) from
      checksumOf_frame o.type _ _ _]
    rfl
  obtain ⟨payload',checksum',hp',hdrop'⟩ := hform.exists_payload h.dataPayload hdrop
  obtain ⟨r,hsafe,hr⟩ := hp'.safe_parse (hform.type.trans rfl) hdrop' behind
  have hzero : parity (o.image.drop 1) = 0#8 := (checksum_eq_iff hdrop).mp rfl
  have herrors : parity (errors o.image bytes') = parity (bytes'.drop 1) := by
    rw [errors,List.drop_zipWith,parity_zipWith (by simp [hform.length]),hzero,BitVec.zero_xor]
  have hiff : r.isSome ↔ ∀ c < 8, Even ((errors o.image bytes').countP (·.getLsbD c)) := by
    rw [hr,checksum_eq_iff hdrop',← herrors]
    exact parity_eq_zero_iff _
  refine ⟨r,hsafe,hiff,fun hburst => ?_⟩
  obtain ⟨c,hc,hodd⟩ := hburst.exists_odd
  apply Option.not_isSome_iff_eq_none.mp
  intro hsome
  exact Nat.not_even_iff_odd.mpr hodd (hiff.mp hsome c hc)

/-- The last two bits of a byte and the first two of the next one. -/
theorem parse_corrupted_burst :
    let bytes' := ((Outgoing.channel 1 [0x2f,0x51] 16).image.set 7 0xef).set 8 0x52
    ∃ r, Safe 11 (Packet.parse (bytes' ++ []) 11) r ∧ r = none := by
  intro bytes'
  have hform : KeepsForm (Outgoing.channel 1 [0x2f,0x51] 16).image bytes' :=
    ⟨rfl,rfl,⟨0x41,rfl,by decide⟩,rfl,rfl,rfl⟩
  obtain ⟨r,hsafe,hr,-⟩ := parse_corrupted (.channel 1 [0x2f,0x51] 16) (by decide) hform []
  refine ⟨r,hsafe,Option.not_isSome_iff_eq_none.mp fun hsome => ?_⟩
  exact absurd (hr.mp hsome 0 (by decide)) (by decide)

end CodecServer.Ambe3K.Protocol
