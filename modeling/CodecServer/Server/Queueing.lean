import CodecServer.Ambe3K.ClientData
import CodecServer.Server.Admission

/-! What the messages of a client queue to the devices: packets for the channel of its session, which
set it up with the rate that the client asks for or carry the data that it sends. -/
namespace CodecServer.Ambe3K
open CodecServer.Ambe3K.Protocol

variable {π : Type}

theorem mem_applyRate {c : Channel π} {direction : Byte} {rate : Option Rate} {packet : Outgoing}
    (h : packet ∈ (c.applyRate direction rate).2) :
    ∃ r, rate = some r ∧ packet = r.setup c.index direction := by
  rcases rate with _ | ⟨index⟩ | ⟨cwds⟩
  · cases h
  · exact ⟨.index index,rfl,List.mem_singleton.mp h⟩
  · exact ⟨.ratep cwds,rfl,List.mem_singleton.mp h⟩

/-- Every channel has its position for an index, as `createChannels` has it. -/
def Device.Indexed (d : Device π) : Prop :=
  ∀ j c, d.channels[j]? = some c → c.index = BitVec.ofNat 8 j

namespace Device
variable {d d' : Device π}

theorem indexed_createChannels (count : ℕ) : (createChannels count : Device π).Indexed := by
  intro j c hc
  simp only [createChannels,List.getElem?_map] at hc
  obtain ⟨k,hk,rfl⟩ := Option.map_eq_some_iff.mp hc
  obtain ⟨hlt,hk⟩ := List.getElem?_eq_some_iff.mp hk
  rw [← hk,List.getElem_range]

theorem indexed_set (hd : d.Indexed) {j : ℕ} {c c' : Channel π} (hc : d.channels[j]? = some c)
    (hindex : c'.index = c.index) (hd' : d'.channels = d.channels.set j c') : d'.Indexed := by
  intro k ck hk
  rw [hd',List.getElem?_set] at hk
  split_ifs at hk with hjk hlt
  · obtain rfl := Option.some.inj hk
    rw [hindex,hd j c hc,hjk]
  · exact hd k ck hk

/-- The packets of a new session set up its channel with the rate of the settings. -/
theorem indexed_startSession (hd : d.Indexed) {settings : Settings} {fresh : RateP}
    {session : Option (ℕ × List Outgoing)}
    (h : d.startSession settings fresh = .ok (d',session)) :
    d'.Indexed ∧ ∀ j packets, session = some (j,packets) → ∀ packet ∈ packets,
      ∃ rate, settings.rate fresh = .ok (some rate) ∧
        packet = rate.setup (BitVec.ofNat 8 j) settings.direction := by
  rcases startSession_eq_ok settings fresh h with ⟨rfl,hnone⟩ | ⟨j,c,-,hc,-,hrest⟩
  · refine ⟨hd,?_⟩
    rw [hnone]
    nofun
  · rcases hrest with ⟨hnone,hd'⟩ | ⟨rate,hrate,hsome,hd'⟩
    · refine ⟨indexed_set hd hc (show c.reserve.release.index = c.index from rfl) hd',?_⟩
      rw [hnone]
      nofun
    · have hchannel := applyRate_channel c.reserve settings.direction rate
      refine ⟨indexed_set hd hc hchannel.1 hd',fun k packets hsession packet hpacket => ?_⟩
      rw [hsome] at hsession
      cases hsession
      obtain ⟨r,rfl,hr⟩ := mem_applyRate hpacket
      refine ⟨r,hrate,?_⟩
      rw [hr,← hd j c hc]
      rfl

end Device

end CodecServer.Ambe3K

namespace CodecServer.Server
open CodecServer.Numeral CodecServer.Ambe3K CodecServer.Ambe3K.Protocol

variable {π : Type}

/-- The packet is one that the message calls for, on a channel. -/
def Message.Calls : Message → Byte → Outgoing → Prop
  | .request _ settings,c,packet | .renegotiation settings,c,packet =>
    ∃ fresh rate, settings.rate fresh = .ok (some rate) ∧ packet = rate.setup c settings.direction
  | .channelData data,c,packet => packet = .channel c data (BitVec.ofNat 8 (data.length*8))
  | .speechData data,c,packet => packet = .speech c data (BitVec.ofNat 8 (data.length/2))
  | .check _,_,_ => False

namespace Message
variable {message : Message} {c : Byte} {packet : Outgoing}

theorem channelNo_of_calls (h : message.Calls c packet) : packet.channelNo = c := by
  cases message with
  | request codec settings =>
    obtain ⟨fresh,rate,-,rfl⟩ := h
    cases rate <;> rfl
  | renegotiation settings =>
    obtain ⟨fresh,rate,-,rfl⟩ := h
    cases rate <;> rfl
  | channelData data | speechData data => exact congrArg Outgoing.channelNo h
  | check codec => cases h

/-- The worker can send what a message calls for. -/
theorem sends_of_calls (h : message.Calls c packet) (hc : c ≤ 3) :
    Sends packet packet.fields := by
  apply Channel.sends_fields
  cases message with
  | request codec settings =>
    obtain ⟨fresh,rate,-,rfl⟩ := h
    cases rate <;> exact hc
  | renegotiation settings =>
    obtain ⟨fresh,rate,-,rfl⟩ := h
    cases rate <;> exact hc
  | channelData data =>
    rw [show packet = _ from h]
    exact ⟨hc,Channel.bits_le data.length⟩
  | speechData data =>
    rw [show packet = _ from h]
    exact ⟨hc,Channel.samples_le data.length⟩
  | check codec => cases h

end Message

namespace State
variable {s t : State π} {settings : Settings} {fresh : RateP} {devices ds : List (Device π)}

def Indexed (devices : List (Device π)) : Prop := ∀ d ∈ devices, d.Indexed

theorem Indexed.channelAt (h : Indexed devices) {i j : ℕ} {c : Channel π}
    (hc : State.channelAt devices i j = some c) : c.index = BitVec.ofNat 8 j := by
  obtain ⟨d,hd,hj⟩ := Option.bind_eq_some_iff.mp hc
  exact h d (List.mem_of_getElem? hd) j c hj

theorem indexed_modifyChannel (h : Indexed devices) (i j : ℕ) {f : Channel π → Channel π}
    (hf : ∀ c, State.channelAt devices i j = some c → (f c).index = c.index) :
    Indexed (modifyChannel devices i j f) := by
  intro d hd k c hc
  obtain ⟨i',hi'⟩ := List.mem_iff_getElem?.mp hd
  have hat : State.channelAt (modifyChannel devices i j f) i' k = some c := by
    rw [State.channelAt,hi']
    exact hc
  rw [channelAt_modifyChannel] at hat
  split_ifs at hat with hk
  · obtain ⟨c',hc',rfl⟩ := Option.map_eq_some_iff.mp hat
    rw [hf c' hc',h.channelAt hc',hk.2]
  · exact h.channelAt hat

theorem indexed_stopSession (h : Indexed s.devices) (conn : ℕ) :
    Indexed (s.stopSession conn).devices := by
  unfold stopSession
  split
  · exact h
  · exact indexed_modifyChannel h _ _ fun _ _ => rfl

theorem indexed_requestSession {session : Option (ℕ × ℕ × List Outgoing)} (hindexed : Indexed devices)
    (h : requestSession settings fresh devices = .ok (ds,session)) :
    Indexed ds ∧ ∀ i j packets, session = some (i,j,packets) → ∀ packet ∈ packets,
      ∃ rate, settings.rate fresh = .ok (some rate) ∧
        packet = rate.setup (BitVec.ofNat 8 j) settings.direction := by
  induction devices generalizing ds session with
  | nil =>
    cases h
    exact ⟨hindexed,nofun⟩
  | cons d devices ih =>
    have hd := hindexed d (by simp)
    have hdevices : Indexed devices := fun d hd => hindexed d (by simp [hd])
    rcases requestSession_cons h with ⟨d',j,packets,hstart,rfl,rfl⟩ |
      ⟨d',ds',session',hstart,hrest,rfl,rfl⟩
    · obtain ⟨hd',hpackets⟩ := Device.indexed_startSession hd hstart
      refine ⟨List.forall_mem_cons.mpr ⟨hd',hdevices⟩,fun i' j' packets' heq => ?_⟩
      cases heq
      exact hpackets _ _ rfl
    · obtain ⟨hds',hpackets⟩ := ih hdevices hrest
      obtain ⟨hd',-⟩ := Device.indexed_startSession hd hstart
      refine ⟨List.forall_mem_cons.mpr ⟨hd',hds'⟩,fun i' j' packets' heq => ?_⟩
      obtain ⟨⟨i,j,packets⟩,rfl,hmap⟩ := Option.map_eq_some_iff.mp heq
      cases hmap
      exact hpackets _ _ _ rfl

end State

/-- The packets that a message has queued, with their devices. -/
def Outcome.queued : Outcome π → List (ℕ × Outgoing)
  | .answered _ queued _ => queued
  | .unanswered queued _ => queued
  | _ => []

namespace State
variable {s t : State π}

theorem indexed_processRequest (hindexed : Indexed s.devices) {conn : ℕ} {codec : Text}
    {settings : Settings} {fresh : RateP}
    (h : (s.processRequest conn codec settings fresh).next = some t) :
    Indexed t.devices ∧
      ∀ i packet, (i,packet) ∈ (s.processRequest conn codec settings fresh).queued →
        ∃ j, t.sessions conn = some (i,j) ∧
          (Message.request codec settings).Calls (BitVec.ofNat 8 j) packet := by
  have hstop := indexed_stopSession hindexed conn
  unfold processRequest at h ⊢
  simp only at h ⊢
  split_ifs at h ⊢ with hcodec
  · cases hfound : requestSession settings fresh (s.stopSession conn).devices with
    | error e =>
      rw [hfound] at h
      cases h
    | ok r =>
      obtain ⟨hds,hpackets⟩ := indexed_requestSession hstop hfound
      obtain ⟨ds,_ | ⟨i,j,packets⟩⟩ := r
      · simp only [hfound] at h ⊢
        obtain rfl := Option.some.inj h
        exact ⟨hds,nofun⟩
      · simp only [hfound] at h ⊢
        obtain rfl := Option.some.inj h
        refine ⟨hds,fun i' packet hmem => ?_⟩
        obtain ⟨packet,hpacket,heq⟩ := List.mem_map.mp hmem
        cases heq
        obtain ⟨rate,hrate,hsetup⟩ := hpackets i j packets rfl packet hpacket
        exact ⟨j,if_pos rfl,fresh,rate,hrate,hsetup⟩
  · obtain rfl := Option.some.inj h
    exact ⟨hstop,nofun⟩

theorem indexed_processRenegotiation (hs : s.Valid) (hindexed : Indexed s.devices) {conn : ℕ}
    {settings : Settings} {fresh : RateP}
    (h : (s.processRenegotiation conn settings fresh).next = some t) :
    Indexed t.devices ∧
      ∀ i packet, (i,packet) ∈ (s.processRenegotiation conn settings fresh).queued →
        ∃ j, t.sessions conn = some (i,j) ∧
          (Message.renegotiation settings).Calls (BitVec.ofNat 8 j) packet := by
  cases hconn : s.sessions conn with
  | none =>
    rw [processRenegotiation,hconn] at h
    cases h
  | some session =>
    obtain ⟨i,j⟩ := session
    obtain ⟨c,hc,hreneg⟩ := processRenegotiation_of_session settings fresh hs hconn
    rw [hreneg] at h ⊢
    cases hrate : settings.rate fresh with
    | error e =>
      simp only [hrate] at h ⊢
      obtain rfl := Option.some.inj h
      exact ⟨hindexed,fun _ _ hmem => absurd hmem List.not_mem_nil⟩
    | ok rate =>
      simp only [hrate] at h ⊢
      obtain rfl := Option.some.inj h
      refine ⟨indexed_modifyChannel hindexed i j fun c' hc' => ?_,fun i' packet hmem => ?_⟩
      · obtain rfl := Option.some.inj (hc.symm.trans hc')
        exact (applyRate_channel c settings.direction rate).1
      · obtain ⟨packet,hpacket,heq⟩ := List.mem_map.mp hmem
        cases heq
        obtain ⟨r,rfl,hsetup⟩ := mem_applyRate hpacket
        exact ⟨j,hconn,fresh,r,hrate,by rw [hsetup,hindexed.channelAt hc]⟩

theorem queued_processData (hs : s.Valid) (hindexed : Indexed s.devices) {conn i : ℕ}
    {packet : Channel π → Outgoing} {p : Outgoing} (hmem : (i,p) ∈ (s.processData conn packet).queued) :
    ∃ j c, s.sessions conn = some (i,j) ∧ c.index = BitVec.ofNat 8 j ∧ p = packet c := by
  unfold processData at hmem
  cases hconn : s.sessions conn with
  | none =>
    simp only [hconn] at hmem
    cases hmem
  | some session =>
    obtain ⟨i',j⟩ := session
    obtain ⟨c,hc⟩ := Option.isSome_iff_exists.mp (hs conn i' j hconn)
    simp only [hconn,hc] at hmem
    cases List.mem_singleton.mp hmem
    exact ⟨j,c,rfl,hindexed.channelAt hc,rfl⟩

/-- What a message queues is for the device and the channel of the session that the client has
then. -/
theorem indexed_processMessage (hs : s.Valid) (hindexed : Indexed s.devices) {conn : ℕ}
    {fresh : RateP} {message : Message}
    (h : (s.processMessage conn fresh message).next = some t) :
    Indexed t.devices ∧ ∀ i packet, (i,packet) ∈ (s.processMessage conn fresh message).queued →
      ∃ j, t.sessions conn = some (i,j) ∧ message.Calls (BitVec.ofNat 8 j) packet := by
  cases message with
  | request codec settings => exact indexed_processRequest hindexed h
  | renegotiation settings => exact indexed_processRenegotiation hs hindexed h
  | check codec =>
    obtain rfl := next_processCheck h
    refine ⟨hindexed,fun i packet hmem => ?_⟩
    simp only [processMessage,processCheck] at hmem
    split_ifs at hmem <;> cases hmem
  | channelData data =>
    obtain rfl := next_processData h
    refine ⟨hindexed,fun i packet hmem => ?_⟩
    obtain ⟨j,c,hconn,hindex,rfl⟩ := queued_processData hs hindexed hmem
    exact ⟨j,hconn,by rw [← hindex]; rfl⟩
  | speechData data =>
    obtain rfl := next_processData h
    refine ⟨hindexed,fun i packet hmem => ?_⟩
    obtain ⟨j,c,hconn,hindex,rfl⟩ := queued_processData hs hindexed hmem
    exact ⟨j,hconn,by rw [← hindex]; rfl⟩

end State
end CodecServer.Server
