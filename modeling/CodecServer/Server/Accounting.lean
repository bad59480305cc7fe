import CodecServer.Ownership
import CodecServer.Server.Service

/-! Every channel that is busy has exactly one session, whatever the clients do. -/
namespace CodecServer.Ambe3K.Device
open CodecServer.Ambe3K.Protocol
variable {π : Type} (settings : Settings) (fresh : RateP)

/-- A channel of the device is busy. -/
def Busy (d : Device π) (j : ℕ) : Prop := ∃ c, d.channels[j]? = some c ∧ c.busy = true

theorem not_busy_of {d : Device π} {j : ℕ} {c : Channel π} (h : d.channels[j]? = some c)
    (hc : c.busy = false) : ¬ d.Busy j := by
  intro ⟨c',h',hc'⟩
  obtain rfl := Option.some.inj (h.symm.trans h')
  rw [hc] at hc'
  cases hc'

theorem busy_set {d : Device π} {j : ℕ} {c : Channel π} (h : (d.channels[j]?).isSome) (k : ℕ) :
    Device.Busy ⟨d.channels.set j c⟩ k ↔ (k = j ∧ c.busy = true) ∨ (k ≠ j ∧ d.Busy k) := by
  obtain ⟨old,hold⟩ := Option.isSome_iff_exists.mp h
  obtain ⟨hlt,-⟩ := List.getElem?_eq_some_iff.mp hold
  unfold Busy
  by_cases hk : k = j
  · subst hk
    simp [List.getElem?_set_self hlt]
  · simp [List.getElem?_set_ne (Ne.symm hk),hk]

theorem busy_applyRate (c : Channel π) (direction : Byte) (rate : Option Rate) :
    (c.applyRate direction rate).1.busy = c.busy :=
  (applyRate_channel c direction rate).2.1

/-- A session makes one channel busy, which was not; without a session none is. -/
theorem startSession_busy {d d' : Device π} {session : Option (ℕ × List Outgoing)}
    (h : d.startSession settings fresh = .ok (d',session)) :
    (session = none ∧ ∀ k, d'.Busy k ↔ d.Busy k) ∨
    ∃ j packets, session = some (j,packets) ∧ ¬ d.Busy j ∧ ∀ k, d'.Busy k ↔ k = j ∨ d.Busy k := by
  rcases startSession_eq_ok settings fresh h with ⟨rfl,rfl⟩ | ⟨j,c,-,hat,hfree,hrest⟩
  · exact Or.inl ⟨rfl,fun k => Iff.rfl⟩
  have hnot := not_busy_of hat hfree
  have hset := fun c' : Channel π => busy_set (c := c') (by rw [hat]; rfl : (d.channels[j]?).isSome)
  rcases hrest with ⟨rfl,hd⟩ | ⟨rate,-,rfl,hd⟩
  · refine Or.inl ⟨rfl,fun k => ?_⟩
    obtain rfl : d' = ⟨_⟩ := congrArg Device.mk hd
    rw [hset]
    constructor
    · rintro (⟨-,hbusy⟩ | ⟨-,hk⟩)
      · cases hbusy
      · exact hk
    · intro hk
      exact Or.inr ⟨fun hkj => hnot (hkj ▸ hk),hk⟩
  · refine Or.inr ⟨j,_,rfl,hnot,fun k => ?_⟩
    obtain rfl : d' = ⟨_⟩ := congrArg Device.mk hd
    rw [hset,busy_applyRate]
    constructor
    · rintro (⟨hk,-⟩ | ⟨-,hk⟩)
      · exact Or.inl hk
      · exact Or.inr hk
    · intro hk
      by_cases hkj : k = j
      · exact Or.inl ⟨hkj,rfl⟩
      · exact Or.inr ⟨hkj,hk.resolve_left hkj⟩

end CodecServer.Ambe3K.Device

namespace CodecServer.Server
open Function CodecServer.Ownership CodecServer.Transition CodecServer.Numeral CodecServer.Ambe3K
open CodecServer.Ambe3K.Protocol
variable {π : Type}

namespace State

/-- A channel of a device is busy. -/
def Busy (devices : List (Device π)) (k : ℕ × ℕ) : Prop :=
  ∃ c, channelAt devices k.1 k.2 = some c ∧ c.busy = true

/-- The channels that are busy are those of the sessions, each of one connection. -/
def Accounted (s : State π) : Prop := Balanced (Busy s.devices) s.sessions

theorem busy_cons_zero (d : Device π) (ds : List (Device π)) (j : ℕ) :
    Busy (d::ds) (0,j) ↔ d.Busy j := Iff.rfl

theorem busy_cons_succ (d : Device π) (ds : List (Device π)) (i j : ℕ) :
    Busy (d::ds) (i+1,j) ↔ Busy ds (i,j) := Iff.rfl

theorem busy_modifyChannel (devices : List (Device π)) (i j : ℕ) (f : Channel π → Channel π)
    (k : ℕ × ℕ) :
    Busy (modifyChannel devices i j f) k ↔
      (k = (i,j) ∧ ∃ c, channelAt devices i j = some c ∧ (f c).busy = true) ∨
      (k ≠ (i,j) ∧ Busy devices k) := by
  unfold Busy
  rw [channelAt_modifyChannel]
  by_cases hk : k = (i,j)
  · subst hk
    simp
  · rw [if_neg (fun h => hk (Prod.ext h.1 h.2))]
    simp [hk]

theorem setSession_eq (s : State π) (conn : ℕ) (session : Option (ℕ × ℕ)) :
    s.setSession conn session = update s.sessions conn session := by
  funext k
  rw [setSession,update_apply]

/-- What `stopSession` gives back is the channel of the session. -/
theorem busy_stopSession (s : State π) (conn : ℕ) (k : ℕ × ℕ) :
    Busy (s.stopSession conn).devices k ↔ Busy s.devices k ∧ s.sessions conn ≠ some k := by
  unfold stopSession
  split
  · rename_i hnone
    simp [hnone]
  · rename_i i j hsome
    rw [busy_modifyChannel,hsome]
    constructor
    · rintro (⟨-,c,-,hc⟩ | ⟨hk,hbusy⟩)
      · cases hc
      · exact ⟨hbusy,fun h => hk (Option.some.inj h).symm⟩
    · intro ⟨hbusy,hk⟩
      exact Or.inr ⟨fun h => hk (congrArg some h).symm,hbusy⟩

theorem sessions_stopSession_eq (s : State π) (conn : ℕ) :
    (s.stopSession conn).sessions = update s.sessions conn none := by
  unfold stopSession
  split
  · rename_i hnone
    rw [← hnone,update_eq_self]
  · exact setSession_eq s conn none

theorem accounted_stopSession {s : State π} (hs : s.Accounted) (conn : ℕ) :
    (s.stopSession conn).Accounted := by
  unfold Accounted
  rw [sessions_stopSession_eq]
  exact (hs.release conn).congr (busy_stopSession s conn)

theorem requestSession_busy {settings : Settings} {fresh : RateP} {devices ds : List (Device π)}
    {session : Option (ℕ × ℕ × List Outgoing)}
    (h : requestSession settings fresh devices = .ok (ds,session)) :
    (session = none ∧ ∀ k, Busy ds k ↔ Busy devices k) ∨
    ∃ i j packets, session = some (i,j,packets) ∧ ¬ Busy devices (i,j) ∧
      ∀ k, Busy ds k ↔ k = (i,j) ∨ Busy devices k := by
  induction devices generalizing ds session with
  | nil =>
    cases h
    exact Or.inl ⟨rfl,fun k => Iff.rfl⟩
  | cons d devices ih =>
    rw [requestSession] at h
    cases hstart : d.startSession settings fresh with
    | error e =>
      rw [hstart] at h
      cases h
    | ok r =>
      obtain ⟨d',session'⟩ := r
      rw [hstart] at h
      rcases Device.startSession_busy settings fresh hstart with
        ⟨rfl,hd⟩ | ⟨j,packets,rfl,hfree,hd⟩
      · cases hrest : requestSession settings fresh devices with
        | error e =>
          simp only [hrest] at h
          cases h
        | ok r =>
          obtain ⟨ds',session'⟩ := r
          simp only [hrest] at h
          cases h
          rcases ih hrest with ⟨rfl,hds⟩ | ⟨i,j,packets,rfl,hfree,hds⟩
          · refine Or.inl ⟨rfl,fun k => ?_⟩
            obtain ⟨i,j⟩ := k
            cases i with
            | zero => exact hd j
            | succ i => exact hds (i,j)
          · refine Or.inr ⟨i+1,j,packets,rfl,hfree,fun k => ?_⟩
            obtain ⟨i',j'⟩ := k
            cases i' with
            | zero => simp [busy_cons_zero,hd j']
            | succ i' => simpa [busy_cons_succ] using hds (i',j')
      · cases h
        refine Or.inr ⟨0,j,packets,rfl,hfree,fun k => ?_⟩
        obtain ⟨i',j'⟩ := k
        cases i' with
        | zero => simpa [busy_cons_zero] using hd j'
        | succ i' => simp [busy_cons_succ]

section
variable {s t : State π}

theorem Accounted.valid (hs : s.Accounted) : s.Valid := by
  intro conn i j h
  obtain ⟨c,hc,-⟩ := hs.taken_of_holds h
  rw [hc]
  rfl

theorem accounted_processRequest (hs : s.Accounted) {conn : ℕ} {codec : Text}
    {settings : Settings} {fresh : RateP}
    (h : (s.processRequest conn codec settings fresh).next = some t) : t.Accounted := by
  have hstop := accounted_stopSession hs conn
  have hnone : (s.stopSession conn).sessions conn = none := by
    rw [sessions_stopSession_eq,update_self]
  unfold processRequest at h
  simp only at h
  split_ifs at h with hcodec
  · cases hfound : requestSession settings fresh (s.stopSession conn).devices with
    | error e =>
      rw [hfound] at h
      cases h
    | ok r =>
      obtain ⟨ds,session⟩ := r
      rw [hfound] at h
      rcases requestSession_busy hfound with ⟨rfl,hds⟩ | ⟨i,j,packets,rfl,hfree,hds⟩
      · obtain rfl := Option.some.inj h
        exact Balanced.congr hstop hds
      · obtain rfl := Option.some.inj h
        unfold Accounted
        rw [setSession_eq]
        exact (Balanced.acquire hstop hfree hnone).congr hds
  · obtain rfl := Option.some.inj h
    exact hstop

theorem accounted_processRenegotiation (hs : s.Accounted) {conn : ℕ} {settings : Settings}
    {fresh : RateP} (h : (s.processRenegotiation conn settings fresh).next = some t) :
    t.Accounted ∧ t.sessions = s.sessions := by
  cases hconn : s.sessions conn with
  | none =>
    rw [processRenegotiation,hconn] at h
    cases h
  | some session =>
    obtain ⟨i,j⟩ := session
    obtain ⟨c,hc,hreneg⟩ := processRenegotiation_of_session settings fresh hs.valid hconn
    have hbusy : c.busy = true := by
      obtain ⟨c',hc',hbusy⟩ := hs.taken_of_holds hconn
      exact Option.some.inj (hc.symm.trans hc') ▸ hbusy
    rw [hreneg] at h
    cases hrate : settings.rate fresh with
    | error e =>
      rw [hrate] at h
      obtain rfl := Option.some.inj h
      exact ⟨hs,rfl⟩
    | ok rate =>
      rw [hrate] at h
      obtain rfl := Option.some.inj h
      refine ⟨Balanced.congr hs fun k => ?_,rfl⟩
      rw [busy_modifyChannel]
      by_cases hk : k = (i,j)
      · subst hk
        simp [hc,Device.busy_applyRate,hbusy,hs.taken_of_holds hconn]
      · simp [hk]

theorem next_processCheck {codec : Text} (h : (s.processCheck codec).next = some t) : t = s := by
  unfold processCheck at h
  split_ifs at h <;> exact (Option.some.inj h).symm

theorem sessions_processRequest {conn k : ℕ} {codec : Text} {settings : Settings} {fresh : RateP}
    (h : (s.processRequest conn codec settings fresh).next = some t) (hk : k ≠ conn) :
    t.sessions k = s.sessions k := by
  have hstop : (s.stopSession conn).sessions k = s.sessions k := by
    rw [sessions_stopSession_eq,update_of_ne hk]
  unfold processRequest at h
  simp only at h
  split at h
  · cases h
  · exact Option.some.inj h ▸ hstop
  · obtain rfl := Option.some.inj h
    rw [← hstop]
    exact if_neg hk

theorem accounted_processMessage (hs : s.Accounted) {conn : ℕ} {fresh : RateP} {message : Message}
    (h : (s.processMessage conn fresh message).next = some t) :
    t.Accounted ∧ ∀ k ≠ conn, t.sessions k = s.sessions k := by
  cases message with
  | request codec settings =>
    exact ⟨accounted_processRequest hs h,fun k hk => sessions_processRequest h hk⟩
  | check codec =>
    obtain rfl := next_processCheck h
    exact ⟨hs,fun _ _ => rfl⟩
  | channelData data =>
    obtain rfl := next_processData h
    exact ⟨hs,fun _ _ => rfl⟩
  | speechData data =>
    obtain rfl := next_processData h
    exact ⟨hs,fun _ _ => rfl⟩
  | renegotiation settings =>
    obtain ⟨ht,hsessions⟩ := accounted_processRenegotiation hs h
    exact ⟨ht,fun _ _ => by rw [hsessions]⟩

end
end State

namespace Service

/-- The channels are accounted for, and only clients that are served have a session. -/
structure Sound (s : Service π) : Prop where
  accounted : s.server.Accounted
  serving : ∀ conn k, s.server.sessions conn = some k → s.phase conn = .serving

section
variable {s t : Service π}

theorem sound_start (counts : List ℕ) : Sound (start counts : Service π) where
  accounted := by
    apply Balanced.init
    intro k ⟨c,hc,hbusy⟩
    obtain ⟨d,hd,hj⟩ := Option.bind_eq_some_iff.mp hc
    obtain ⟨count,-,rfl⟩ := List.mem_map.mp (List.mem_of_getElem? hd)
    obtain ⟨i,-,rfl⟩ := List.mem_map.mp (List.mem_of_getElem? hj)
    cases hbusy
  serving := nofun

/-- Whatever the record says, and whichever flags are cleared. -/
theorem Sound.of_eq (hs : s.Sound) (hserver : t.server = s.server) (hphase : t.phase = s.phase) :
    t.Sound where
  accounted := by
    rw [hserver]
    exact hs.accounted
  serving conn k h := by
    rw [hphase]
    rw [hserver] at h
    exact hs.serving conn k h

theorem sound_record (hs : s.Sound) (conn : ℕ) (entry : Entry π) : (s.record conn entry).Sound :=
  hs.of_eq rfl rfl

theorem sound_stopSession (hs : s.Sound) (conn : ℕ) :
    Sound {s with server := s.server.stopSession conn} where
  accounted := State.accounted_stopSession hs.accounted conn
  serving k session h := hs.serving k session (State.sessions_stopSession h)

theorem sound_destroy (hs : s.Sound) (conn : ℕ) : (s.destroy conn).Sound where
  accounted := State.accounted_stopSession hs.accounted conn
  serving k session h := by
    rw [destroy,State.sessions_stopSession_eq] at h
    obtain ⟨hk,hold⟩ := of_update_none h
    change update s.phase conn .gone k = .serving
    rw [update_of_ne hk]
    exact hs.serving k session hold

theorem sound_leave (hs : s.Sound) (conn : ℕ) : (s.leave conn).Sound :=
  sound_destroy (sound_stopSession hs conn) conn

theorem sound_resume (hs : s.Sound) (conn : ℕ) : (s.resume conn).Sound := by
  unfold resume
  split_ifs
  · exact hs
  · exact sound_leave hs conn

/-- A message leaves the sessions of other clients as they are. -/
theorem sound_handled (hs : s.Sound) {conn : ℕ} {fresh : RateP} {message : Message}
    {server : State π} (hphase : s.phase conn = .serving)
    (h : (s.server.processMessage conn fresh message).next = some server) :
    (s.handled conn message server).Sound := by
  obtain ⟨haccounted,hothers⟩ := State.accounted_processMessage hs.accounted h
  refine ⟨haccounted,fun k session hk => ?_⟩
  by_cases hconn : k = conn
  · exact hconn ▸ hphase
  · exact hs.serving k session ((hothers k hconn).symm.trans hk)

theorem sound_receive (hs : s.Sound) {conn : ℕ} {fresh : RateP} {message : Message} {sent : Bool}
    (hphase : s.phase conn = .serving) (h : s.receive conn fresh message sent = some t) :
    t.Sound := by
  unfold receive at h
  split at h
  · rename_i response queued server hout
    have hserver : (s.handled conn message server).Sound :=
      sound_handled hs hphase (by rw [hout]; rfl)
    split_ifs at h
    · obtain rfl := Option.some.inj h
      exact sound_resume (sound_record hserver conn _) conn
    · obtain rfl := Option.some.inj h
      exact sound_destroy hserver conn
  · rename_i queued server hout
    have hserver : (s.handled conn message server).Sound :=
      sound_handled hs hphase (by rw [hout]; rfl)
    obtain rfl := Option.some.inj h
    exact sound_resume (sound_record hserver conn _) conn
  · cases h
  · cases h

theorem sound_step (s : Service π) (e : Event) (t : Service π) (hs : s.Sound)
    (h : s.step e = some t) : t.Sound := by
  cases e with
  | accept conn sent =>
    simp only [step] at h
    split at h
    · obtain rfl := Option.some.inj h
      split_ifs
      · refine ⟨hs.accounted,fun k session hk => ?_⟩
        change update s.phase conn .serving k = .serving
        rw [update_apply,hs.serving k session hk,ite_self]
      · exact sound_destroy hs conn
    · exact Option.some.inj h ▸ hs
  | message conn fresh message sent =>
    simp only [step] at h
    split at h
    · rename_i hphase
      exact sound_receive hs hphase h
    · exact Option.some.inj h ▸ hs
  | readerEnds conn =>
    simp only [step] at h
    split at h
    · exact Option.some.inj h ▸ hs
    · obtain rfl := Option.some.inj h
      exact hs.of_eq rfl rfl
  | disconnect conn =>
    simp only [step] at h
    split at h
    · obtain rfl := Option.some.inj h
      exact sound_leave hs conn
    · exact Option.some.inj h ▸ hs

/-- A device with a free channel starts a session with the settings. -/
def Accepted (π : Type) (settings : Settings) (fresh : RateP) : Prop :=
  ∀ d : Device π, d.HasFree →
    ∃ d' session, d.startSession settings fresh = .ok (d',some session)

theorem rate_of_startSession {settings : Settings} {fresh : RateP} {d d' : Device π}
    {session : ℕ × List Outgoing} (h : d.startSession settings fresh = .ok (d',some session)) :
    ∃ rate, settings.rate fresh = .ok rate := by
  rcases Device.startSession_eq_ok settings fresh h with ⟨-,hnone⟩ | ⟨_,_,-,-,-,hrest⟩
  · cases hnone
  · rcases hrest with ⟨hnone,-⟩ | ⟨rate,hrate,-⟩
    · cases hnone
    · exact ⟨rate,hrate⟩

theorem answered_ok_of_accepted {s : State π} (hs : s.Valid) (conn : ℕ) {codec : Text}
    {settings : Settings} {fresh : RateP} (haccepted : Accepted π settings fresh)
    (hfree : ∃ d ∈ s.findDevices codec, d.HasFree) :
    ∃ framing queued t, s.processMessage conn fresh (.request codec settings) =
      .answered {result := .ok, framing := framing} queued t := by
  obtain ⟨d,hd,hdfree⟩ := hfree
  unfold State.findDevices at hd
  split_ifs at hd with hcodec
  · subst hcodec
    obtain ⟨d',session,hstart⟩ := haccepted d hdfree
    obtain ⟨rate,hrate⟩ := rate_of_startSession hstart
    have havail : s.Available conn := Or.inl ⟨d,hd,hdfree⟩
    obtain ⟨i,j,c,ds,hreq,-⟩ := State.processRequest_of_rate settings fresh hs havail hrate
    exact ⟨_,_,_,hreq⟩
  · cases hd

/-- In every state that the server gets to, a channel is busy if and only if exactly one client that
is served has its session; so a request that can be accepted is answered with `OK` whenever there is
a free channel, and all channels are free once no client is served. -/
theorem run_accounted (counts : List ℕ) (es : List Event) (t : Service π)
    (h : Transition.run step (start counts) es = some t) :
    (∀ i j c, State.channelAt t.server.devices i j = some c →
      (c.busy = true ↔ ∃! conn, t.phase conn = .serving ∧ t.server.sessions conn = some (i,j))) ∧
    (∀ conn codec settings fresh, Accepted π settings fresh →
      (∃ d ∈ t.server.findDevices codec, d.HasFree) →
      ∃ framing queued u, t.server.processMessage conn fresh (.request codec settings) =
        .answered {result := .ok, framing := framing} queued u) ∧
    ((∀ conn, t.phase conn ≠ .serving) →
      ∀ i j c, State.channelAt t.server.devices i j = some c → c.busy = false) := by
  have hsound := run_invariant sound_step (sound_start counts) h
  have hbusy : ∀ i j c, State.channelAt t.server.devices i j = some c →
      (c.busy = true ↔ State.Busy t.server.devices (i,j)) := by
    intro i j c hc
    unfold State.Busy
    rw [hc]
    simp
  refine ⟨fun i j c hc => ?_,fun conn codec settings fresh => ?_,fun hgone i j c hc => ?_⟩
  · rw [hbusy i j c hc,hsound.accounted.taken_iff_existsUnique]
    apply existsUnique_congr
    intro conn
    exact ⟨fun hconn => ⟨hsound.serving conn _ hconn,hconn⟩,And.right⟩
  · exact answered_ok_of_accepted hsound.accounted.valid conn
  · rw [Bool.eq_false_iff]
    intro htrue
    obtain ⟨conn,hconn⟩ := (hsound.accounted.taken_iff _).mp ((hbusy i j c hc).mp htrue)
    exact hgone conn (hsound.serving conn _ hconn)

/-- A client that gets a session and disconnects. -/
def visitor : List Event :=
  [.accept 0 true,.message 0 (.replicate 6 0) (.request State.ambe {}) true,.disconnect 0]

/-- The channel of the visitor is free again, nobody has it, and it could be had. -/
theorem run_accounted_visitor : ∃ t : Service Packet,
    Transition.run step (start [1]) visitor = some t ∧
      (∀ i j c, State.channelAt t.server.devices i j = some c → c.busy = false) ∧
      (∀ i j c, State.channelAt t.server.devices i j = some c →
        ¬ ∃! conn, t.phase conn = .serving ∧ t.server.sessions conn = some (i,j)) ∧
      ∃ framing queued u, t.server.processMessage 1 (.replicate 6 0) (.request State.ambe {}) =
        .answered {result := .ok, framing := framing} queued u := by
  obtain ⟨hbusy,haccepted,hfree⟩ :=
    run_accounted [1] visitor (_ : Service Packet) rfl
  have hfree := hfree fun conn => by cases conn <;> nofun
  refine ⟨_,rfl,hfree,fun i j c hc hone => ?_,?_⟩
  · have htrue := (hbusy i j c hc).mpr hone
    rw [hfree i j c hc] at htrue
    cases htrue
  · refine haccepted 1 State.ambe {} (.replicate 6 0) (fun d hd => ?_) ?_
    · have hrate : Settings.rate {} (.replicate 6 0) = .ok none := rfl
      obtain ⟨_,_,d',hstart,-⟩ := Device.startSession_of_rate {} (.replicate 6 0) hd hrate
      exact ⟨d',_,hstart⟩
    · exact ⟨_,List.mem_cons_self,_,List.mem_cons_self,rfl⟩

end
end Service
end CodecServer.Server
