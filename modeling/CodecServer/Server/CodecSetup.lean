import CodecServer.Server.Queueing

/-! The server keeps for each channel how its codec is set up; that is what the packets that are queued
for the channel make of it. -/
namespace CodecServer.Ambe3K
open CodecServer.Ambe3K.Protocol

variable {π : Type}

/-- How the codec of a channel is set up: by the index of a rate, or by control words. -/
abbrev Codec := Byte × Option RateP

def Channel.codec (c : Channel π) : Codec := (c.codecIndex,c.ratep)

/-- What a packet makes of the codec of the channel that it is for. -/
def tell (codec : Codec) : Outgoing → Codec
  | .setupIndex _ index _ => (index,none)
  | .setupRateP _ cwds _ => (0,some cwds)
  | _ => codec

/-- What packets for several channels make of the codec of one of them. -/
def told (i : ℕ) (n : Byte) (queued : List (ℕ × Outgoing)) (codec : Codec) : Codec :=
  ((queued.filter fun q => q.1 = i ∧ q.2.channelNo = n).map Prod.snd).foldl tell codec

theorem told_append (i : ℕ) (n : Byte) (queued queued' : List (ℕ × Outgoing)) (codec : Codec) :
    told i n (queued ++ queued') codec = told i n queued' (told i n queued codec) := by
  rw [told,List.filter_append,List.map_append,List.foldl_append]
  rfl

/-- Packets for one channel tell nothing to another. -/
theorem told_map (i i' : ℕ) {n n' : Byte} {packets : List Outgoing}
    (hpackets : ∀ packet ∈ packets, packet.channelNo = n) (codec : Codec) :
    told i' n' (packets.map fun packet => (i,packet)) codec =
      if i' = i ∧ n' = n then packets.foldl tell codec else codec := by
  induction packets generalizing codec with
  | nil => simp [told]
  | cons packet packets ih =>
    have hpacket := hpackets packet (by simp)
    have hrest := fun codec => ih (fun packet h => hpackets packet (by simp [h])) codec
    rw [List.map_cons,← List.singleton_append,told_append,hrest]
    by_cases heq : i' = i ∧ n' = n
    · obtain ⟨rfl,rfl⟩ := heq
      simp [told,hpacket]
    · have hne : ¬ (i = i' ∧ packet.channelNo = n') := by
        rintro ⟨rfl,rfl⟩
        exact heq ⟨rfl,hpacket⟩
      rw [if_neg heq,if_neg heq]
      simp [told,hne]

theorem codec_applyRate (c : Channel π) (direction : Byte) (rate : Option Rate) :
    (c.applyRate direction rate).1.codec = (c.applyRate direction rate).2.foldl tell c.codec := by
  rcases rate with _ | ⟨index⟩ | ⟨cwds⟩ <;> rfl

namespace Device
variable {d d' : Device π}

def codecAt (d : Device π) (k : ℕ) : Option Codec := d.channels[k]?.map Channel.codec

/-- What the packets of a new session make of the codec of a channel. -/
def toldBy (session : Option (ℕ × List Outgoing)) (k : ℕ) (codec : Codec) : Codec :=
  match session with
  | none => codec
  | some (j,packets) => if k = j then packets.foldl tell codec else codec

theorem codecAt_set {j : ℕ} {c : Channel π} (hlt : j < d.channels.length)
    (hd' : d'.channels = d.channels.set j c) (k : ℕ) :
    d'.codecAt k = if k = j then some c.codec else d.codecAt k := by
  unfold codecAt
  rw [hd',List.getElem?_set]
  by_cases hk : k = j
  · subst hk
    rw [if_pos rfl,if_pos hlt,if_pos rfl]
    rfl
  · rw [if_neg (Ne.symm hk),if_neg hk]

theorem codecAt_startSession {settings : Settings} {fresh : RateP}
    {session : Option (ℕ × List Outgoing)} (h : d.startSession settings fresh = .ok (d',session))
    (k : ℕ) : d'.codecAt k = (d.codecAt k).map (toldBy session k) := by
  have hid : (d.codecAt k).map id = d.codecAt k := Option.map_id_apply
  rcases startSession_eq_ok settings fresh h with ⟨rfl,rfl⟩ | ⟨j,c,-,hc,-,hrest⟩
  · exact hid.symm
  · have hlt := (List.getElem?_eq_some_iff.mp hc).1
    have hcodec : d.codecAt j = some c.codec := congrArg (Option.map Channel.codec) hc
    rcases hrest with ⟨rfl,hd'⟩ | ⟨rate,-,rfl,hd'⟩
    · rw [codecAt_set hlt hd' k]
      split_ifs with hk
      · subst hk
        rw [hcodec]
        rfl
      · exact hid.symm
    · rw [codecAt_set hlt hd' k]
      split_ifs with hk
      · subst hk
        rw [hcodec,Option.map_some,toldBy,if_pos rfl,codec_applyRate]
        rfl
      · rw [← hid,Option.map_map]
        congr 1
        funext codec
        exact (if_neg hk).symm

end Device
end CodecServer.Ambe3K

namespace CodecServer.Server
open CodecServer.Numeral CodecServer.Ambe3K CodecServer.Ambe3K.Protocol

variable {π : Type}

namespace State
variable {s t : State π} {settings : Settings} {fresh : RateP} {devices ds : List (Device π)}

def codecAt (devices : List (Device π)) (i j : ℕ) : Option Codec :=
  (channelAt devices i j).map Channel.codec

theorem codecAt_stopSession (s : State π) (conn i j : ℕ) :
    codecAt (s.stopSession conn).devices i j = codecAt s.devices i j := by
  unfold stopSession
  split
  · rfl
  · rename_i i' j' _
    rw [codecAt,channelAt_modifyChannel]
    split_ifs with hk
    · rw [hk.1,hk.2,Option.map_map]
      rfl
    · rfl

/-- What the packets of a new session make of the codec of a channel. -/
def toldBy (session : Option (ℕ × ℕ × List Outgoing)) (i' j' : ℕ) (codec : Codec) : Codec :=
  match session with
  | none => codec
  | some (i,j,packets) => if i' = i ∧ j' = j then packets.foldl tell codec else codec

theorem codecAt_requestSession {session : Option (ℕ × ℕ × List Outgoing)}
    (h : requestSession settings fresh devices = .ok (ds,session)) (i j : ℕ) :
    codecAt ds i j = (codecAt devices i j).map (toldBy session i j) := by
  have hid : ∀ devices : List (Device π), (codecAt devices i j).map id = codecAt devices i j :=
    fun _ => Option.map_id_apply
  induction devices generalizing ds session i with
  | nil =>
    cases h
    rfl
  | cons d devices ih =>
    rcases requestSession_cons h with ⟨d',j',packets,hstart,rfl,rfl⟩ |
      ⟨d',ds',session',hstart,hrest,rfl,rfl⟩
    · have hd := Device.codecAt_startSession hstart j
      cases i with
      | zero =>
        refine hd.trans (congrArg (Option.map · _) (funext fun codec => ?_))
        simp [Device.toldBy,toldBy]
      | succ i =>
        refine (hid (d::devices)).symm.trans (congrArg (Option.map · _) (funext fun codec => ?_))
        simp [toldBy]
    · cases i with
      | zero =>
        have hd := Device.codecAt_startSession hstart j
        refine hd.trans (congrArg (Option.map · _) (funext fun codec => ?_))
        cases session' <;> simp [Device.toldBy,toldBy]
      | succ i =>
        refine (ih hrest i fun _ => Option.map_id_apply).trans
          (congrArg (Option.map · _) (funext fun codec => ?_))
        cases session' <;> simp [toldBy]

/-- The packets of a message, all for one channel, make of its codec what the server says. -/
def Tells (s : State π) (queued : List (ℕ × Outgoing)) (t : State π) : Prop :=
  ∀ i j, j < 4 →
    codecAt t.devices i j = (codecAt s.devices i j).map (told i (BitVec.ofNat 8 j) queued)

theorem tells_nil (h : ∀ i j, codecAt t.devices i j = codecAt s.devices i j) : Tells s [] t :=
  fun i j _ => (h i j).trans Option.map_id_apply.symm

theorem tells_map {i j : ℕ} {packets : List Outgoing} (hj : j < 4)
    (hpackets : ∀ packet ∈ packets, packet.channelNo = BitVec.ofNat 8 j)
    (h : ∀ i' j', codecAt t.devices i' j' =
      (codecAt s.devices i' j').map (toldBy (some (i,j,packets)) i' j')) :
    Tells s (packets.map fun packet => (i,packet)) t := by
  intro i' j' hj'
  refine (h i' j').trans (congrArg (Option.map · _) (funext fun codec => ?_))
  rw [told_map i i' hpackets codec,toldBy]
  have heq : BitVec.ofNat 8 j' = BitVec.ofNat 8 j ↔ j' = j := by
    constructor
    · intro heq
      have := congrArg BitVec.toNat heq
      rw [BitVec.toNat_ofNat,BitVec.toNat_ofNat] at this
      omega
    · rintro rfl
      rfl
  simp only [heq]

theorem tells_processRequest (hindexed : Indexed s.devices) {conn : ℕ} {codec : Text}
    (hfew : ∀ i j, t.sessions conn = some (i,j) → j < 4)
    (h : (s.processRequest conn codec settings fresh).next = some t) :
    Tells s (s.processRequest conn codec settings fresh).queued t := by
  have hindexed' := indexed_stopSession hindexed conn
  have hstop := codecAt_stopSession s conn
  unfold processRequest at h ⊢
  simp only at h ⊢
  split_ifs at h ⊢ with hcodec
  · cases hfound : requestSession settings fresh (s.stopSession conn).devices with
    | error e =>
      rw [hfound] at h
      cases h
    | ok r =>
      obtain ⟨-,hpackets⟩ := indexed_requestSession hindexed' hfound
      have hcodecs := codecAt_requestSession hfound
      obtain ⟨ds,_ | ⟨i,j,packets⟩⟩ := r
      · simp only [hfound] at h ⊢
        obtain rfl := Option.some.inj h
        exact tells_nil fun i j => (hcodecs i j).trans (Option.map_id_apply.trans (hstop i j))
      · simp only [hfound] at h ⊢
        obtain rfl := Option.some.inj h
        refine tells_map (hfew i j (if_pos rfl)) (fun packet hpacket => ?_) fun i' j' => ?_
        · obtain ⟨rate,-,rfl⟩ := hpackets i j packets rfl packet hpacket
          cases rate <;> rfl
        · rw [← hstop]
          exact hcodecs i' j'
  · obtain rfl := Option.some.inj h
    exact tells_nil hstop

theorem tells_processRenegotiation (hs : s.Valid) (hindexed : Indexed s.devices) {conn : ℕ}
    (hfew : ∀ i j, t.sessions conn = some (i,j) → j < 4)
    (h : (s.processRenegotiation conn settings fresh).next = some t) :
    Tells s (s.processRenegotiation conn settings fresh).queued t := by
  cases hconn : s.sessions conn with
  | none =>
    rw [processRenegotiation,hconn] at h
    cases h
  | some session =>
    obtain ⟨i,j⟩ := session
    obtain ⟨c,hc,hreneg⟩ := processRenegotiation_of_session settings fresh hs hconn
    rw [hreneg] at h ⊢
    cases hrate : settings.rate fresh with
    | error e =>
      simp only [hrate] at h ⊢
      obtain rfl := Option.some.inj h
      exact tells_nil fun _ _ => rfl
    | ok rate =>
      simp only [hrate] at h ⊢
      obtain rfl := Option.some.inj h
      refine tells_map (hfew i j hconn) (fun packet hpacket => ?_) fun i' j' => ?_
      · obtain ⟨r,rfl,hsetup⟩ := mem_applyRate hpacket
        rw [hsetup,← hindexed.channelAt hc]
        cases r <;> rfl
      · rw [codecAt,channelAt_modifyChannel]
        split_ifs with hk
        · obtain ⟨rfl,rfl⟩ := hk
          rw [codecAt,hc,Option.map_some,Option.map_some,Option.map_some,codec_applyRate]
          exact congrArg some (if_pos ⟨rfl,rfl⟩).symm
        · refine Option.map_id_apply.symm.trans (congrArg (Option.map · _) (funext fun codec => ?_))
          exact (if_neg hk).symm

theorem tells_processData (s : State π) (conn : ℕ) {packet : Channel π → Outgoing}
    (hpacket : ∀ c codec, tell codec (packet c) = codec) :
    Tells s (s.processData conn packet).queued s := by
  have hall : ∀ i n codec, told i n (s.processData conn packet).queued codec = codec := by
    intro i n codec
    unfold processData
    split
    · rfl
    · split
      · rfl
      · rename_i c _
        simp only [Outcome.queued,told,List.filter_cons]
        split_ifs
        · exact hpacket c codec
        · rfl
  intro i j _
  refine Option.map_id_apply.symm.trans (congrArg (Option.map · _) (funext fun codec => ?_))
  exact (hall i _ codec).symm

/-- Whatever a message does to the codec of a channel, the device is told. -/
theorem tells_processMessage (hs : s.Valid) (hindexed : Indexed s.devices) {conn : ℕ}
    {message : Message} (hfew : ∀ i j, t.sessions conn = some (i,j) → j < 4)
    (h : (s.processMessage conn fresh message).next = some t) :
    Tells s (s.processMessage conn fresh message).queued t := by
  cases message with
  | request codec settings => exact tells_processRequest hindexed hfew h
  | renegotiation settings => exact tells_processRenegotiation hs hindexed hfew h
  | check codec =>
    obtain rfl := next_processCheck h
    have hnone : (t.processMessage conn fresh (.check codec)).queued = [] := by
      simp only [processMessage,processCheck]
      split_ifs <;> rfl
    rw [hnone]
    exact tells_nil fun _ _ => rfl
  | channelData data =>
    obtain rfl := next_processData h
    exact tells_processData t conn fun _ _ => rfl
  | speechData data =>
    obtain rfl := next_processData h
    exact tells_processData t conn fun _ _ => rfl

end State
end CodecServer.Server
