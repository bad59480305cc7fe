import CodecServer.Ambe3K.Device

/-! What a device sends, byte by byte as it pleases, from `Packet::parse` to `Device::receivePacket`:
which byte strings are taken without a read behind the packet, a failing assertion or a channel that
does not exist. -/
namespace CodecServer.Ambe3K
open CodecServer.Memory CodecServer.Memory.Access CodecServer.Ambe3K.Protocol

/-- The last parity field of the payload, if any, holds the parity of the byte string. -/
def Accepted (t : PacketType) (bytes : List Byte) : Prop :=
  ∀ data ∈ lastAt Field.checksumAt (fieldsOf t (bytes.drop 4)),
    bytes[data+1]? = some (checksumOf bytes)

/-- A speech or channel packet that is accepted is for one of the first `count` channels. -/
def ChannelFits (count : ℕ) (bytes : List Byte) : Prop :=
  ∀ t ∈ bytes[3]?.bind PacketType.ofByte, t ≠ .control → Accepted t bytes →
    ∀ data ∈ lastAt Field.channelAt (fieldsOf t (bytes.drop 4)), ∀ b ∈ bytes[data]?,
      (b-0x40).toNat < count

/-- The packet has gone to a channel of the device, or has been dropped. -/
def Device.Receipt.Proper {π : Type} (d : Device π) : Device.Receipt π → Prop
  | .delivered n _ => n < d.channels.length
  | .discarded => True

section
variable {π : Type} {bytes behind : List Byte} {d : Device π}

theorem parityHolds_scanned_iff (t : PacketType) :
    ParityHolds bytes (scanned t bytes behind) ↔ Accepted t bytes := by
  rw [ParityHolds,scanned_checksum,Accepted]

theorem decoded_eq_some {p : Packet} :
    decoded bytes behind = some p ↔
      ∃ t ∈ bytes[3]?.bind PacketType.ofByte, Accepted t bytes ∧ p = scanned t bytes behind := by
  unfold decoded
  cases ht : bytes[3]?.bind PacketType.ofByte with
  | none => simp
  | some t =>
    simp only [Option.mem_def,Option.some.injEq]
    constructor
    · intro h
      split_ifs at h with ha
      exact ⟨t,rfl,(parityHolds_scanned_iff t).mp ha,(Option.some.inj h).symm⟩
    · intro ⟨_,ht',ha,hp⟩
      subst ht' hp
      rw [if_pos ((parityHolds_scanned_iff t).mpr ha)]

theorem receivePacket_of_ne {p : Packet} (hp : p.kind.type ≠ .control) (item : π) :
    d.receivePacket p item = d.getChannelNumber p >>= fun n => d.deliver n item := by
  unfold Device.receivePacket
  cases hkind : p.kind with
  | control fields => exact absurd (by rw [hkind]; rfl) hp
  | _ => rfl

/-- The number of the channel, which is 0 for a packet without a channel field. -/
theorem getChannelNumber_of_ne {p : Packet} (hp : p.kind.type ≠ .control) :
    d.getChannelNumber p =
      match p.channel with
      | none => return 0
      | some data => do
        let channelNo ← fieldChannel p.data data
        require (channelNo.toNat < d.channels.length)
        return channelNo.toNat := by
  unfold Device.getChannelNumber Packet.hasChannel Packet.getChannel
  cases hkind : p.kind with
  | control fields => exact absurd (by rw [hkind]; rfl) hp
  | _ => cases p.channel <;> rfl

theorem safe_deliver_iff (N n : ℕ) (item : π) :
    (∃ q, Safe N (d.deliver n item) q ∧ q.Proper d) ↔ n < d.channels.length := by
  unfold Device.deliver
  by_cases hn : n < d.channels.length
  · simp [Device.Receipt.Proper,hn]
  · simp [hn]

/-- A packet whose channel field is at `data` is taken exactly if the device has that channel. -/
theorem safe_receivePacket_iff {t : PacketType} (ht : t ≠ .control) (h4 : 4 ≤ bytes.length)
    (hd : 0 < d.channels.length) (item : π) :
    (∃ q, Safe bytes.length (d.receivePacket (scanned t bytes behind) item) q ∧ q.Proper d) ↔
      ∀ data ∈ lastAt Field.channelAt (fieldsOf t (bytes.drop 4)), ∀ b ∈ bytes[data]?,
        (b-0x40).toNat < d.channels.length := by
  have htype : (scanned t bytes behind).kind.type ≠ .control := by rwa [scanned_type]
  simp only [receivePacket_of_ne htype,getChannelNumber_of_ne htype,scanned_channel,scanned_data]
  cases hlast : lastAt Field.channelAt (fieldsOf t (bytes.drop 4)) with
  | none =>
    simp only [safe_bind,safe_pure,exists_eq_left']
    simpa [safe_deliver_iff] using hd
  | some data =>
    obtain ⟨f,hf,-,hend⟩ := lastAt_lt h4 (fun f hf => Or.inr (Or.inl hf)) hlast
    have hlt : data < bytes.length := by
      have := f.getLength_pos
      omega
    have hat : (bytes ++ behind)[data]? = some bytes[data] := by
      rw [List.getElem?_append_left hlt,List.getElem?_eq_getElem hlt]
    simp only [fieldChannel,safe_bind,safe_load,safe_require,safe_pure,hat,Option.mem_def,
      Option.some.injEq,forall_eq',List.getElem?_eq_getElem hlt]
    constructor
    · rintro ⟨q,⟨n,⟨_,⟨b,⟨-,rfl⟩,rfl⟩,_,hlt',-⟩,-⟩,-⟩
      exact hlt'
    · intro hfits
      obtain ⟨q,hq,hproper⟩ := (safe_deliver_iff bytes.length _ item).mpr hfits
      exact ⟨q,⟨_,⟨_,⟨_,⟨hlt,rfl⟩,rfl⟩,(),hfits,rfl⟩,hq⟩,hproper⟩

/-- A control packet is always dropped. -/
theorem safe_receivePacket_control (h4 : 4 ≤ bytes.length) (item : π) :
    Safe bytes.length (d.receivePacket (scanned .control bytes behind) item) .discarded := by
  obtain ⟨fields,hkind⟩ : ∃ fields, (scanned .control bytes behind).kind = .control fields := by
    have htype : (scanned .control bytes behind).kind.type = .control := scanned_type .control
    cases hkind : (scanned .control bytes behind).kind with
    | control fields => exact ⟨fields,rfl⟩
    | _ => rw [hkind] at htype; cases htype
  have hresponse : fields.channelResponse =
      lastAt Field.channelResponseAt (fieldsOf .control (bytes.drop 4)) := by
    rw [← scanned_channelResponse,Packet.controlFields,hkind]
  simp only [Device.receivePacket,Packet.hasChannel,Packet.getChannel,hkind,hresponse]
  cases hlast : lastAt Field.channelResponseAt (fieldsOf .control (bytes.drop 4)) with
  | none => simp
  | some data =>
    obtain ⟨f,hf,-,hend⟩ := lastAt_lt h4 (fun f hf => Or.inr (Or.inr hf)) hlast
    have hlt : data < bytes.length := by
      have := f.getLength_pos
      omega
    simp only [Option.isSome_some,if_true,fieldChannel,safe_bind,safe_load,safe_pure,scanned_data]
    exact ⟨_,⟨_,⟨hlt,by rw [List.getElem?_append_left hlt,List.getElem?_eq_getElem hlt]⟩,rfl⟩,
      trivial⟩

end

/-- The device, sending `bytes`, brings nothing down: `parse` reads nothing behind them and fails no
assertion, and a packet it returns goes to a channel that exists or is dropped. -/
def Withstands (d : Device Packet) (bytes : List Byte) : Prop :=
  ∀ behind, ∃ r, Safe bytes.length (Packet.parse (bytes ++ behind) bytes.length) r ∧
    ∀ packet, r = some packet →
      ∃ q, Safe bytes.length (d.receivePacket packet packet) q ∧ q.Proper d

/-- The server withstands exactly the byte strings of unknown type and those in which every field
that the scan meets has its count, its status or its NUL in the packet, a status being zero, unless
they make up an accepted packet for a channel that the device does not have. -/
theorem withstands_iff (d : Device Packet) (hd : d.channels.length = 1 ∨ d.channels.length = 3)
    (bytes : List Byte) (h4 : 4 ≤ bytes.length) :
    Withstands d bytes ↔ Contained bytes ∧ ChannelFits d.channels.length bytes := by
  have hpos : 0 < d.channels.length := by omega
  constructor
  · intro h
    obtain ⟨r,hr,hreceive⟩ := h []
    obtain rfl := parse_eq h4 hr.2
    refine ⟨(safe_parse_iff [] h4).mp hr,fun t ht hne haccepted => ?_⟩
    have hsome : decoded bytes [] = some (scanned t bytes []) :=
      decoded_eq_some.mpr ⟨t,ht,haccepted,rfl⟩
    exact (safe_receivePacket_iff hne h4 hpos _).mp (hreceive _ hsome)
  · intro ⟨hcontained,hfits⟩ behind
    refine ⟨_,(safe_parse_iff behind h4).mpr hcontained,fun packet hpacket => ?_⟩
    obtain ⟨t,ht,haccepted,rfl⟩ := decoded_eq_some.mp hpacket
    by_cases hcontrol : t = .control
    · subst hcontrol
      exact ⟨_,safe_receivePacket_control h4 _,trivial⟩
    · exact (safe_receivePacket_iff hcontrol h4 hpos _).mpr (hfits t ht hcontrol haccepted)

/-- A channel packet for the second channel of a device that has one. -/
theorem withstands_iff_single :
    Withstands (Device.createChannels 1) [0x61,0x00,0x01,0x01,0x41] ↔
      Contained [0x61,0x00,0x01,0x01,0x41] ∧
        ChannelFits 1 [0x61,0x00,0x01,0x01,0x41] :=
  withstands_iff (Device.createChannels 1) (by decide) _ (by decide)

/-- A control packet whose channel field reports an error fails an assertion. -/
theorem not_withstands_status :
    ¬ ∀ d : Device Packet, d.channels.length = 1 ∨ d.channels.length = 3 →
      ∀ bytes : List Byte, 4 ≤ bytes.length → Withstands d bytes := by
  intro h
  obtain ⟨r,hr,-⟩ := h (Device.createChannels 1) (by decide) [0x61,0x00,0x02,0x00,0x40,0x01]
    (by decide) []
  obtain rfl := parse_eq (by decide) hr.2
  revert hr
  rw [safe_parse_iff [] (by decide)]
  decide

end CodecServer.Ambe3K
