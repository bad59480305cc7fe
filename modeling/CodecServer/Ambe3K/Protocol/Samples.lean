import CodecServer.Ambe3K.Protocol.Loopback

/-! Speech that comes back from the wire. The samples are sent in the byte order of the host, which
is a little-endian one, and are taken for network order when they are received. -/
namespace CodecServer.Ambe3K.Protocol
open CodecServer.Memory CodecServer.Memory.Access

/-- A sample in the memory of the host. -/
def hostOrder (w : BitVec 16) : List Byte := [w.extractLsb' 0 8,w.extractLsb' 8 8]

/-- The sample with its bytes exchanged. -/
def swapped (w : BitVec 16) : BitVec 16 := ntohs (w.extractLsb' 0 8) (w.extractLsb' 8 8)

/-- What a `SpeechPacket` puts on the wire is parsed as a `SpeechPacket` with the same channel and
the same samples. -/
def SpeechSurvives (c : Byte) (samples : List (BitVec 16)) (behind : List Byte) : Prop :=
  ∃ p q bytes r,
    speechPacket c (samples.flatMap hostOrder) (BitVec.ofNat 8 samples.length) = .ok p ∧
    p.writeTo = .ok (q,bytes) ∧
    Safe bytes.length (Packet.parse (bytes ++ behind) bytes.length) (some r) ∧
    r.kind.type = .speech ∧ r.hasChannel = true ∧ Safe bytes.length r.getChannel c ∧
    Safe bytes.length r.getSpeechData (samples,2*samples.length)

theorem htons_swapped (w : BitVec 16) : htons (swapped w) = hostOrder w := htons_ntohs _ _

theorem flatMap_htons_swapped (samples : List (BitVec 16)) :
    (samples.map swapped).flatMap htons = samples.flatMap hostOrder := by
  rw [List.flatMap_map]
  exact List.flatMap_congr fun w _ => htons_swapped w

/-- A sample is its own exchange exactly if its bytes are the same. -/
theorem swapped_eq_iff (w : BitVec 16) :
    swapped w = w ↔ w.extractLsb' 8 8 = w.extractLsb' 0 8 := by
  constructor
  · intro h
    have hbytes := htons_swapped w
    rw [h] at hbytes
    exact (List.cons.inj hbytes).1
  · intro h
    calc swapped w = ntohs (w.extractLsb' 8 8) (w.extractLsb' 0 8) := by rw [swapped,h]
      _ = w := ntohs_htons w

theorem map_swapped_eq_iff (samples : List (BitVec 16)) :
    samples.map swapped = samples ↔
      ∀ w ∈ samples, w.extractLsb' 8 8 = w.extractLsb' 0 8 := by
  induction samples with
  | nil => simp
  | cons w samples ih =>
    rw [List.map_cons,List.cons.injEq,swapped_eq_iff,ih,List.forall_mem_cons]

/-- The samples come back with their bytes exchanged. -/
theorem parse_speechPacket (c : Byte) (samples : List (BitVec 16)) (behind : List Byte)
    (hc : c.toNat ≤ 2) (hlen : samples.length ≤ 255) :
    ∃ p q bytes r,
      speechPacket c (samples.flatMap hostOrder) (BitVec.ofNat 8 samples.length) = .ok p ∧
      p.writeTo = .ok (q,bytes) ∧
      Safe bytes.length (Packet.parse (bytes ++ behind) bytes.length) (some r) ∧
      r.kind.type = .speech ∧ r.hasChannel = true ∧ Safe bytes.length r.getChannel c ∧
      Safe bytes.length r.getSpeechData (samples.map swapped,2*samples.length) := by
  have hcount : (BitVec.ofNat 8 samples.length).toNat = samples.length := by
    rw [BitVec.toNat_ofNat]
    omega
  have hbytes : (samples.flatMap hostOrder).length = samples.length*2 := by
    rw [← flatMap_htons_swapped,flatMap_htons_length,List.length_map]
    omega
  have hadmitted : (Outgoing.speech c (samples.flatMap hostOrder)
      (BitVec.ofNat 8 samples.length)).Admitted :=
    ⟨BitVec.le_def.mpr (Nat.le_succ_of_le hc),by omega⟩
  obtain ⟨p,q,hnew,-,-,hwrite,-⟩ := Outgoing.new_writeTo _ hadmitted
  let ws : List WireField := [.channel c,.speechD (samples.map swapped)]
  have hws : ∀ w ∈ ws, w.WellFormed .speech := by
    intro w hw
    rcases List.mem_pair.mp hw with rfl | rfl
    · exact hc
    · change (samples.map swapped).length ≤ 255
      rwa [List.length_map]
  obtain ⟨r,hr,-,checksum,hrec⟩ := parse_frame hws (by simp [ws,WireField.kind])
    (by simp [ws,WireField.kind]) behind
  have hpayload : ws.flatMap (WireField.encode .speech) =
      (Outgoing.speech c (samples.flatMap hostOrder)
        (BitVec.ofNat 8 samples.length)).fields.flatten := by
    have htake : (samples.flatMap hostOrder).take
        ((BitVec.ofNat 8 samples.length).toNat*2) = samples.flatMap hostOrder :=
      List.take_of_length_le (by omega)
    rw [Outgoing.fields,htake,← flatMap_htons_swapped,← List.length_map swapped]
    simp [ws,WireField.encode,speechSpeechd]
  rw [hpayload] at hr hrec
  have hchannel := hrec.shown (.channel c) (by simp [ws])
  have hspeech := hrec.shown (.speechD (samples.map swapped)) (by simp [ws])
  simp only [Packet.Shows,List.length_map] at hspeech
  exact ⟨p,q,_,r,hnew,hwrite,hr,hrec.type,hchannel.1,hchannel.2,hspeech⟩

/-- There is one packet, and one list of samples in it. -/
theorem SpeechSurvives.map_swapped {c : Byte} {samples : List (BitVec 16)} {behind : List Byte}
    (h : SpeechSurvives c samples behind) (hc : c.toNat ≤ 2) (hlen : samples.length ≤ 255) :
    samples.map swapped = samples := by
  obtain ⟨p,q,bytes,r,hnew,hwrite,hparse,-,-,-,hdata⟩ := parse_speechPacket c samples behind hc hlen
  obtain ⟨p',q',bytes',r',hnew',hwrite',hparse',-,-,-,hdata'⟩ := h
  obtain rfl := Except.ok.inj (hnew.symm.trans hnew')
  obtain ⟨rfl,rfl⟩ := Prod.mk.inj (Except.ok.inj (hwrite.symm.trans hwrite'))
  obtain rfl := Option.some.inj (Except.ok.inj (hparse.2.symm.trans hparse'.2))
  exact (Prod.mk.inj (Except.ok.inj (hdata.2.symm.trans hdata'.2))).1

/-- Speech survives exactly if the two bytes of every sample are the same. -/
theorem speechSurvives_iff (c : Byte) (samples : List (BitVec 16)) (behind : List Byte)
    (hc : c.toNat ≤ 2) (hlen : samples.length ≤ 255) :
    SpeechSurvives c samples behind ↔
      ∀ w ∈ samples, w.extractLsb' 8 8 = w.extractLsb' 0 8 := by
  rw [← map_swapped_eq_iff]
  constructor
  · intro h
    exact h.map_swapped hc hlen
  · intro hsame
    have h := parse_speechPacket c samples behind hc hlen
    rwa [hsame] at h

/-- Silence, and the loudest sample that has the same bytes. -/
theorem speechSurvives_iff_silence :
    SpeechSurvives 2 [0,0x7f7f] [] ↔
      ∀ w ∈ ([0,0x7f7f] : List (BitVec 16)), w.extractLsb' 8 8 = w.extractLsb' 0 8 :=
  speechSurvives_iff 2 [0,0x7f7f] [] (by decide) (by decide)

/-- The sample 1 comes back as 256. -/
theorem not_speechSurvives_one :
    ¬ ∀ (c : Byte) (samples : List (BitVec 16)) (behind : List Byte),
      c.toNat ≤ 2 → samples.length ≤ 255 → SpeechSurvives c samples behind := by
  intro h
  have hsame := (h 0 [1] [] (by decide) (by decide)).map_swapped (by decide) (by decide)
  exact absurd hsame (by decide)

end CodecServer.Ambe3K.Protocol
