import CodecServer.Server.Accounting

/-! Who gets a session, and where. There are as many sessions as the devices have channels, no client
that asks for one is turned down before they are used up, and the first channel that is left is the
one that it gets. -/
namespace CodecServer.Server
open Function CodecServer.Ownership CodecServer.Transition CodecServer.Ambe3K

/-- The channels of the devices, device by device. -/
def slots : List ℕ → List (ℕ × ℕ)
  | [] => []
  | n::counts => (List.range n).map (Prod.mk 0) ++ (slots counts).map (Prod.map (·+1) id)

theorem length_slots (counts : List ℕ) : (slots counts).length = counts.sum := by
  induction counts with
  | nil => rfl
  | cons n counts ih => simp [slots,ih]

theorem mem_slots_iff (counts : List ℕ) (i j : ℕ) :
    (i,j) ∈ slots counts ↔ ∃ n, counts[i]? = some n ∧ j < n := by
  induction counts generalizing i with
  | nil => simp [slots]
  | cons n counts ih =>
    cases i with
    | zero => simp [slots]
    | succ i => simp [slots,ih]

theorem nodup_slots (counts : List ℕ) : (slots counts).Nodup := by
  induction counts with
  | nil => exact List.nodup_nil
  | cons n counts ih =>
    refine List.nodup_append.mpr ⟨?_,?_,?_⟩
    · exact List.nodup_range.map (Prod.mk_right_injective 0)
    · exact ih.map (Prod.map_injective.mpr ⟨Nat.succ_injective,injective_id⟩)
    · intro k hk k' hk' heq
      obtain ⟨j,-,rfl⟩ := List.mem_map.mp hk
      obtain ⟨k,-,rfl⟩ := List.mem_map.mp hk'
      cases congrArg Prod.fst heq

theorem exists_range_split {n j : ℕ} (h : j < n) :
    ∃ post, List.range n = List.range j ++ j::post := by
  obtain ⟨m,rfl⟩ := Nat.exists_eq_add_of_lt h
  rw [Nat.add_assoc,List.range_add,List.range_succ_eq_map,List.map_cons,Nat.add_zero]
  exact ⟨_,rfl⟩

variable {π : Type}

namespace State
variable {settings : Settings} {fresh : RateP} {devices ds : List (Device π)}

/-- The first channel that is not busy is the one of the session. -/
theorem first_startSession {d d' : Device π} {j : ℕ} {packets : List Protocol.Outgoing}
    (h : d.startSession settings fresh = .ok (d',some (j,packets))) :
    j < d.channels.length ∧ ∀ k < j, d.Busy k := by
  rcases Device.startSession_eq_ok settings fresh h with ⟨-,hnone⟩ | ⟨i,c,hfirst,-,-,hrest⟩
  · cases hnone
  · have hij : i = j := by
      rcases hrest with ⟨hnone,-⟩ | ⟨rate,-,hsome,-⟩
      · cases hnone
      · exact (congrArg Prod.fst (Option.some.inj hsome)).symm
    subst hij
    obtain ⟨hlt,-,hbusy⟩ := List.findIdx?_eq_some_iff_getElem.mp hfirst
    refine ⟨hlt,fun k hk => ?_⟩
    have hk' : k < d.channels.length := by omega
    refine ⟨d.channels[k],List.getElem?_eq_getElem hk',?_⟩
    simpa using hbusy k hk

theorem length_startSession {d d' : Device π} {session : Option (ℕ × List Protocol.Outgoing)}
    (h : d.startSession settings fresh = .ok (d',session)) :
    d'.channels.length = d.channels.length := by
  rcases Device.startSession_eq_ok settings fresh h with ⟨rfl,-⟩ | ⟨j,c,-,-,-,⟨-,hd⟩ | ⟨rate,-,-,hd⟩⟩
  · rfl
  · rw [hd,List.length_set]
  · rw [hd,List.length_set]

/-- The first device starts the session, or the others are asked. -/
theorem requestSession_cons {d : Device π} {session : Option (ℕ × ℕ × List Protocol.Outgoing)}
    (h : requestSession settings fresh (d::devices) = .ok (ds,session)) :
    (∃ d' j packets, d.startSession settings fresh = .ok (d',some (j,packets)) ∧ ds = d'::devices ∧
      session = some (0,j,packets)) ∨
    ∃ d' ds' session', d.startSession settings fresh = .ok (d',none) ∧
      requestSession settings fresh devices = .ok (ds',session') ∧ ds = d'::ds' ∧
      session = session'.map fun s => (s.1+1,s.2) := by
  rw [requestSession] at h
  cases hstart : d.startSession settings fresh with
  | error e =>
    rw [hstart] at h
    cases h
  | ok r =>
    obtain ⟨d',_ | ⟨j,packets⟩⟩ := r
    · rw [hstart] at h
      cases hrest : requestSession settings fresh devices with
      | error e =>
        simp only [hrest] at h
        cases h
      | ok r =>
        simp only [hrest] at h
        cases h
        exact Or.inr ⟨_,_,_,rfl,rfl,rfl,rfl⟩
    · rw [hstart] at h
      cases h
      exact Or.inl ⟨_,_,_,rfl,rfl,rfl⟩

/-- Devices have as many channels as before, whatever comes of a request. -/
theorem shape_requestSession {session : Option (ℕ × ℕ × List Protocol.Outgoing)}
    (h : requestSession settings fresh devices = .ok (ds,session)) : shape ds = shape devices := by
  induction devices generalizing ds session with
  | nil =>
    cases h
    rfl
  | cons d devices ih =>
    rcases requestSession_cons h with ⟨d',j,packets,hstart,rfl,-⟩ | ⟨d',ds',session',hstart,hrest,rfl,-⟩
    · simp only [shape,List.map_cons,length_startSession hstart]
    · have hshape := ih hrest
      simp only [shape,List.map_cons,length_startSession hstart] at hshape ⊢
      rw [hshape]

/-- All channels in front of the one of the session are busy. -/
theorem first_requestSession {rate : Option Rate} (hrate : settings.rate fresh = .ok rate) {i j : ℕ}
    {packets : List Protocol.Outgoing}
    (h : requestSession settings fresh devices = .ok (ds,some (i,j,packets))) :
    ∃ pre post, slots (shape devices) = pre ++ (i,j)::post ∧ ∀ k ∈ pre, Busy devices k := by
  induction devices generalizing ds i with
  | nil => cases h
  | cons d devices ih =>
    simp only [shape,List.map_cons,slots]
    rcases requestSession_cons h with ⟨d',j',packets',hstart,-,heq⟩ | ⟨d',ds',session',hstart,hrest,-,heq⟩
    · cases heq
      obtain ⟨hlt,hbusy⟩ := first_startSession hstart
      obtain ⟨post,hrange⟩ := exists_range_split hlt
      refine ⟨(List.range j).map (Prod.mk 0),
        post.map (Prod.mk 0) ++ (slots (shape devices)).map (Prod.map (·+1) id),?_,?_⟩
      · rw [hrange,List.map_append,List.map_cons,List.append_assoc,List.cons_append]
        rfl
      · intro k hk
        obtain ⟨j',hj',rfl⟩ := List.mem_map.mp hk
        exact hbusy j' (List.mem_range.mp hj')
    · obtain ⟨⟨i',j',packets'⟩,rfl,hmap⟩ := Option.map_eq_some_iff.mp heq.symm
      cases hmap
      obtain ⟨pre,post,hslots,hpre⟩ := ih hrest
      have hfull : ¬ d.HasFree := by
        intro hfree
        obtain ⟨_,_,_,hsome,-⟩ := Device.startSession_of_rate settings fresh hfree hrate
        cases hsome.symm.trans hstart
      refine ⟨(List.range d.channels.length).map (Prod.mk 0) ++ pre.map (Prod.map (·+1) id),
        post.map (Prod.map (·+1) id),?_,?_⟩
      · simp only [shape] at hslots
        rw [hslots]
        simp
      · intro k hk
        rcases List.mem_append.mp hk with hk | hk
        · obtain ⟨j',hj',rfl⟩ := List.mem_map.mp hk
          have hlt := List.mem_range.mp hj'
          refine ⟨d.channels[j'],List.getElem?_eq_getElem hlt,?_⟩
          by_contra hfree
          exact hfull ⟨_,List.getElem_mem hlt,Bool.eq_false_iff.mpr hfree⟩
        · obtain ⟨k',hk',rfl⟩ := List.mem_map.mp hk
          exact hpre k' hk'

theorem shape_processMessage {s t : State π} (hs : s.Accounted) {conn : ℕ} {message : Message}
    (h : (s.processMessage conn fresh message).next = some t) : shape t.devices = shape s.devices := by
  cases message with
  | request codec settings =>
    simp only [processMessage,processRequest] at h
    split_ifs at h with hcodec
    · cases hfound : requestSession settings fresh (s.stopSession conn).devices with
      | error e =>
        simp only [hfound] at h
        cases h
      | ok r =>
        obtain ⟨ds,_ | ⟨i,j,packets⟩⟩ := r
        all_goals
          simp only [hfound] at h
          obtain rfl := Option.some.inj h
          exact (shape_requestSession hfound).trans (shape_stopSession s conn)
    · obtain rfl := Option.some.inj h
      exact shape_stopSession s conn
  | check codec =>
    obtain rfl := next_processCheck h
    rfl
  | channelData data | speechData data =>
    obtain rfl := next_processData h
    rfl
  | renegotiation settings =>
    simp only [processMessage] at h
    cases hconn : s.sessions conn with
    | none =>
      rw [processRenegotiation,hconn] at h
      cases h
    | some session =>
      obtain ⟨i,j⟩ := session
      obtain ⟨c,-,hreneg⟩ := processRenegotiation_of_session settings fresh hs.valid hconn
      rw [hreneg] at h
      cases hrate : settings.rate fresh with
      | error e =>
        simp only [hrate] at h
        obtain rfl := Option.some.inj h
        rfl
      | ok rate =>
        simp only [hrate] at h
        obtain rfl := Option.some.inj h
        exact shape_modifyChannel ..

end State

namespace Service

theorem shape_leave (s : Service π) (conn : ℕ) :
    State.shape (s.leave conn).server.devices = State.shape s.server.devices :=
  (State.shape_stopSession _ conn).trans (State.shape_stopSession s.server conn)

theorem shape_resume (s : Service π) (conn : ℕ) :
    State.shape (s.resume conn).server.devices = State.shape s.server.devices := by
  unfold resume
  split_ifs
  · rfl
  · exact shape_leave s conn

/-- The devices have as many channels as in the beginning. -/
structure Shaped (counts : List ℕ) (s : Service π) : Prop where
  sound : s.Sound
  shape : State.shape s.server.devices = counts

theorem shaped_step (counts : List ℕ) (s : Service π) (e : Event) (t : Service π)
    (hs : s.Shaped counts) (h : s.step e = some t) : t.Shaped counts := by
  refine ⟨sound_step s e t hs.sound h,?_⟩
  rw [← hs.shape]
  cases e with
  | accept conn sent =>
    simp only [step] at h
    split at h
    · obtain rfl := Option.some.inj h
      split_ifs
      · rfl
      · exact State.shape_stopSession s.server conn
    · exact Option.some.inj h ▸ rfl
  | message conn fresh message sent =>
    simp only [step] at h
    split at h
    · unfold receive at h
      split at h
      · rename_i response queued server hout
        have hserver := State.shape_processMessage hs.sound.accounted (congrArg Outcome.next hout)
        split_ifs at h
        · obtain rfl := Option.some.inj h
          exact (shape_resume _ conn).trans hserver
        · obtain rfl := Option.some.inj h
          exact (State.shape_stopSession _ conn).trans hserver
      · rename_i queued server hout
        have hserver := State.shape_processMessage hs.sound.accounted (congrArg Outcome.next hout)
        obtain rfl := Option.some.inj h
        exact (shape_resume _ conn).trans hserver
      · cases h
      · cases h
    · exact Option.some.inj h ▸ rfl
  | readerEnds conn =>
    simp only [step] at h
    split at h
    · exact Option.some.inj h ▸ rfl
    · obtain rfl := Option.some.inj h
      rfl
  | disconnect conn =>
    simp only [step] at h
    split at h
    · obtain rfl := Option.some.inj h
      exact shape_leave s conn
    · exact Option.some.inj h ▸ rfl

theorem shaped_start (counts : List ℕ) : Shaped counts (start counts : Service π) where
  sound := sound_start counts
  shape := by
    have hlength : ∀ n, (Device.createChannels n : Device π).channels.length = n := by
      intro n
      simp [Device.createChannels]
    simp [start,State.shape,comp_def,hlength]

/-- The other clients that have a session. -/
def others (s : Service π) (conn : ℕ) : Set ℕ := {p | p ≠ conn ∧ (s.server.sessions p).isSome}

section
variable {counts : List ℕ} {s : Service π}

theorem holders_stopSession (s : Service π) (conn : ℕ) :
    {p | ((s.server.stopSession conn).sessions p).isSome} = s.others conn := by
  ext p
  rw [State.sessions_stopSession_eq]
  by_cases hp : p = conn
  · simp [others,hp]
  · simp [others,hp]

/-- There is a channel for a client exactly if the others have not got all of them. -/
theorem available_iff (hs : s.Shaped counts) (conn : ℕ) :
    s.server.Available conn ↔ (s.others conn).ncard < counts.sum := by
  have hstop := State.accounted_stopSession hs.sound.accounted conn
  have hshape : State.shape (s.server.stopSession conn).devices = counts :=
    (State.shape_stopSession s.server conn).trans hs.shape
  have hmem : ∀ i j, (i,j) ∈ (slots counts).toFinset ↔
      (State.channelAt (s.server.stopSession conn).devices i j).isSome := by
    intro i j
    rw [List.mem_toFinset,mem_slots_iff,State.isSome_channelAt_iff,hshape]
  have hfree := hstop.exists_free_iff (slots counts).toFinset (by
    rintro ⟨i,j⟩ ⟨c,hc,-⟩
    rw [hmem,hc]
    rfl)
  rw [holders_stopSession,List.toFinset_card_of_nodup (nodup_slots counts),length_slots] at hfree
  rw [← hfree,← State.hasFree_stopSession hs.sound.accounted.valid conn,State.hasFree_iff]
  constructor
  · rintro ⟨i,j,c,hc,hidle⟩
    refine ⟨(i,j),(hmem i j).mpr (by rw [hc]; rfl),?_⟩
    rintro ⟨c',hc',hbusy⟩
    obtain rfl := Option.some.inj (hc.symm.trans hc')
    rw [hidle] at hbusy
    cases hbusy
  · rintro ⟨⟨i,j⟩,hk,hidle⟩
    obtain ⟨c,hc⟩ := Option.isSome_iff_exists.mp ((hmem i j).mp hk)
    exact ⟨i,j,c,hc,Bool.eq_false_iff.mpr fun hbusy => hidle ⟨c,hc,hbusy⟩⟩

end

/-- In every state that the server gets to, a request for the codec with good settings is answered with
`OK` exactly if fewer other clients have a session than there are channels, and the client gets the
first channel that none of them has. Without a channel, or with an index that is no number, it is
turned down and has no session; an index that is out of range ends the server if there is a channel, and
is turned down if there is none. -/
theorem run_admits (counts : List ℕ) (es : List Event) (s : Service π)
    (h : Transition.run step (start counts) es = some s) (conn : ℕ) (settings : Settings)
    (fresh : RateP) :
    match settings.rate fresh with
    | .ok _ =>
      if (s.others conn).ncard < counts.sum then
        ∃ pre k post framing queued t, slots counts = pre ++ k::post ∧
          (∀ k' ∈ pre, ∃ p ≠ conn, s.server.sessions p = some k') ∧
          (∀ p ≠ conn, s.server.sessions p ≠ some k) ∧
          s.server.processMessage conn fresh (.request State.ambe settings) =
            .answered {result := .ok, framing := framing} queued t ∧
          t.sessions = update s.server.sessions conn (some k)
      else
        ∃ t, s.server.processMessage conn fresh (.request State.ambe settings) =
            .answered {result := .error, message := "no device available"} [] t ∧
          t.sessions = update s.server.sessions conn none
    | .error .invalidArgument =>
      ∃ t, s.server.processMessage conn fresh (.request State.ambe settings) =
          .answered {result := .error, message := "no device available"} [] t ∧
        t.sessions = update s.server.sessions conn none
    | .error .outOfRange =>
      if (s.others conn).ncard < counts.sum then
        s.server.processMessage conn fresh (.request State.ambe settings) = .terminated
      else
        ∃ t, s.server.processMessage conn fresh (.request State.ambe settings) =
            .answered {result := .error, message := "no device available"} [] t ∧
          t.sessions = update s.server.sessions conn none := by
  have hs := run_invariant (shaped_step counts) (shaped_start counts) h
  have havailable := available_iff hs conn
  have hvalid := hs.sound.accounted.valid
  have hdenied : ¬ (s.others conn).ncard < counts.sum →
      s.server.processMessage conn fresh (.request State.ambe settings) =
        .answered {result := .error, message := "no device available"} []
          (s.server.stopSession conn) := fun hfull =>
    State.processRequest_of_not_available settings fresh hvalid (Or.inr (mt havailable.mp hfull))
  cases hrate : settings.rate fresh with
  | ok rate =>
    dsimp only
    split_ifs with hroom
    · have hfree := (State.hasFree_stopSession hvalid conn).mpr (havailable.mpr hroom)
      have hstop := State.accounted_stopSession hs.sound.accounted conn
      obtain ⟨i,j,c,ds,hfound,hat,-⟩ := State.requestSession_of_rate settings fresh hfree hrate
      obtain ⟨pre,post,hslots,hpre⟩ := State.first_requestSession hrate hfound
      rw [State.shape_stopSession,hs.shape] at hslots
      refine ⟨pre,(i,j),post,_,_,_,hslots,fun k hk => ?_,fun p hp hheld => ?_,
        by simp only [State.processMessage,State.processRequest,if_true,hfound]; rfl,?_⟩
      · obtain ⟨p,hp⟩ := (hstop.taken_iff k).mp (hpre k hk)
        rw [State.sessions_stopSession_eq] at hp
        exact ⟨p,of_update_none hp⟩
      · rcases State.requestSession_busy hfound with ⟨hnone,-⟩ | ⟨i',j',packets,hsome,hidle,-⟩
        · cases hnone
        · cases hsome
          refine hidle ((State.busy_stopSession s.server conn (i,j)).mpr ⟨?_,?_⟩)
          · exact hs.sound.accounted.taken_of_holds hheld
          · exact fun hconn => hp (hs.sound.accounted.unique hheld hconn)
      · rw [State.setSession_eq,State.sessions_stopSession_eq,update_idem]
    · exact ⟨_,hdenied hroom,State.sessions_stopSession_eq s.server conn⟩
  | error e =>
    cases e with
    | invalidArgument =>
      obtain ⟨ds,hrequest,-⟩ := State.processRequest_invalid settings fresh s.server conn hrate
      exact ⟨_,hrequest,State.sessions_stopSession_eq s.server conn⟩
    | outOfRange =>
      dsimp only
      split_ifs with hroom
      · exact State.processRequest_outOfRange settings fresh hvalid (havailable.mpr hroom) hrate
      · exact ⟨_,hdenied hroom,State.sessions_stopSession_eq s.server conn⟩

/-- A device with one channel and one with three; the first two clients have got a session. -/
def guests : List Event :=
  [.accept 0 true,.message 0 (.replicate 6 0) (.request State.ambe {}) true,
    .accept 1 true,.message 1 (.replicate 6 0) (.request State.ambe {}) true,.accept 2 true]

/-- The third one gets a session, too. -/
theorem run_admits_guests : ∃ s : Service Protocol.Packet,
    Transition.run step (start [1,3]) guests = some s ∧
    ∃ pre k post framing queued t, slots [1,3] = pre ++ k::post ∧
      (∀ k' ∈ pre, ∃ p ≠ 2, s.server.sessions p = some k') ∧
      (∀ p ≠ 2, s.server.sessions p ≠ some k) ∧
      s.server.processMessage 2 (.replicate 6 0) (.request State.ambe {}) =
        .answered {result := .ok, framing := framing} queued t ∧
      t.sessions = update s.server.sessions 2 (some k) := by
  refine ⟨_,rfl,?_⟩
  have hadmits := run_admits [1,3] guests (_ : Service Protocol.Packet) rfl 2 {} (.replicate 6 0)
  rw [show Settings.rate {} (.replicate 6 0) = .ok none from rfl] at hadmits
  refine (if_pos ?_).mp hadmits
  refine Nat.lt_of_le_of_lt (Set.ncard_le_ncard (t := {0,1}) ?_ (Set.toFinite _)) ?_
  · rintro p ⟨hp,hsession⟩
    match p with
    | 0 | 1 => simp
    | p+2 => cases hsession
  · exact Nat.lt_of_le_of_lt (Set.ncard_insert_le 0 {1}) (by simp)

end Service

end CodecServer.Server
