import CodecServer.Transition
import CodecServer.Ambe3K.Session

/-! The connections of the server and the devices that they share: what each message of a client
does, from one message to the next. -/
namespace CodecServer.Server
open CodecServer.Transition CodecServer.Numeral CodecServer.Ambe3K CodecServer.Ambe3K.Protocol

inductive Status
  | ok
  | error
  deriving Repr, DecidableEq

structure Response where
  result : Status
  message : String := ""
  framing : Option FramingHint := none
  deriving DecidableEq

/-- The messages that `ClientConnection::loop` accepts. -/
inductive Message
  | request (codec : Text) (settings : Settings)
  | check (codec : Text)
  | channelData (data : List Byte)
  | speechData (data : List Byte)
  | renegotiation (settings : Settings)
  deriving DecidableEq

/-- The registered devices, and the session of each connection, by its device and channel. -/
structure State (π : Type) where
  devices : List (Device π)
  sessions : ℕ → Option (ℕ × ℕ) := fun _ => none

/-- What becomes of a message. A request or a check is answered, possibly after packets have been
queued to a device; data is passed on or dropped. An exception that is not caught ends the server,
and so does the use of a session that is not there. -/
inductive Outcome (π : Type)
  | answered (response : Response) (queued : List (ℕ × Outgoing)) (s : State π)
  | unanswered (queued : List (ℕ × Outgoing)) (s : State π)
  | terminated
  | crashed

/-- The state that a message leaves behind, as long as the server goes on. -/
def Outcome.next {π : Type} : Outcome π → Option (State π)
  | .answered _ _ s => some s
  | .unanswered _ s => some s
  | _ => none

namespace State
variable {π : Type}

/-- The codec `ambe`, for which every device is registered. -/
def ambe : Text := [0x61,0x6d,0x62,0x65]

/-- `Registry::findDevices`. -/
def findDevices (s : State π) (codec : Text) : List (Device π) :=
  if codec = ambe then s.devices else []

def channelAt (devices : List (Device π)) (i j : ℕ) : Option (Channel π) :=
  devices[i]?.bind fun d => d.channels[j]?

def modifyChannel (devices : List (Device π)) (i j : ℕ) (f : Channel π → Channel π) :
    List (Device π) :=
  devices.modify i fun d => {d with channels := d.channels.modify j f}

def setSession (s : State π) (conn : ℕ) (session : Option (ℕ × ℕ)) : ℕ → Option (ℕ × ℕ) :=
  fun k => if k = conn then session else s.sessions k

/-- `ClientConnection::stopSession`, once it has joined the reader of the session. (Whether it does is a
question of `Attended` and of `ReaderLoop.Threads`.) -/
def stopSession (s : State π) (conn : ℕ) : State π :=
  match s.sessions conn with
  | none => s
  | some (i,j) =>
    { devices := modifyChannel s.devices i j Channel.release
      sessions := s.setSession conn none }

/-- The loop over the devices of a codec, until one of them starts a session. -/
def requestSession (settings : Settings) (fresh : RateP) : List (Device π) →
    Except StoiError (List (Device π) × Option (ℕ × ℕ × List Outgoing))
  | [] => return ([],none)
  | d::ds => do
    let (d,session) ← d.startSession settings fresh
    match session with
    | some (j,packets) => return (d::ds,some (0,j,packets))
    | none => do
      let (ds,session) ← requestSession settings fresh ds
      return (d::ds,session.map fun s => (s.1+1,s.2))

/-- `ClientConnection::processMessage(Request*)`. -/
def processRequest (s : State π) (conn : ℕ) (codec : Text) (settings : Settings)
    (fresh : RateP) : Outcome π :=
  let s := s.stopSession conn
  let found :=
    if codec = ambe then requestSession settings fresh s.devices else .ok (s.devices,none)
  match found with
  | .error _ => .terminated
  | .ok (devices,none) =>
    .answered {result := .error, message := "no device available"} [] {s with devices := devices}
  | .ok (devices,some (i,j,packets)) =>
    .answered {result := .ok, framing := (channelAt devices i j).bind Channel.getFraming}
      (packets.map fun packet => (i,packet))
      {devices := devices, sessions := s.setSession conn (some (i,j))}

/-- `ClientConnection::processMessage(Renegotiation*)`. -/
def processRenegotiation (s : State π) (conn : ℕ) (settings : Settings) (fresh : RateP) :
    Outcome π :=
  match (s.sessions conn).bind fun (i,j) => (channelAt s.devices i j).map fun c => (i,j,c) with
  | none => .crashed
  | some (i,j,c) =>
    match c.renegotiate settings fresh with
    | .error _ => .answered {result := .error} [] s
    | .ok (c,packets) =>
      .answered {result := .ok, framing := c.getFraming} (packets.map fun packet => (i,packet))
        {s with devices := modifyChannel s.devices i j fun _ => c}

/-- `ClientConnection::processMessage(Check*)`. -/
def processCheck (s : State π) (codec : Text) : Outcome π :=
  if s.findDevices codec = [] then
    .answered {result := .error, message := "no device available"} [] s
  else .answered {result := .ok} [] s

/-- `processMessage` for channel or speech data, which the session decodes or encodes. -/
def processData (s : State π) (conn : ℕ) (packet : Channel π → Outgoing) : Outcome π :=
  match s.sessions conn with
  | none => .unanswered [] s
  | some (i,j) =>
    match channelAt s.devices i j with
    | none => .crashed
    | some c => .unanswered [(i,packet c)] s

def processMessage (s : State π) (conn : ℕ) (fresh : RateP) : Message → Outcome π
  | .request codec settings => s.processRequest conn codec settings fresh
  | .check codec => s.processCheck codec
  | .channelData data => s.processData conn fun c => c.decode data
  | .speechData data => s.processData conn fun c => c.encode data
  | .renegotiation settings => s.processRenegotiation conn settings fresh

/-- A message on a connection, with what `malloc` finds while it is processed, or the end of the
connection. -/
inductive Event
  | message (conn : ℕ) (fresh : RateP) (message : Message)
  | close (conn : ℕ)

def step (s : State π) : Event → Option (State π)
  | .message conn fresh message => (s.processMessage conn fresh message).next
  | .close conn => some (s.stopSession conn)

/-- The number of channels of each device. -/
def shape (devices : List (Device π)) : List ℕ := devices.map fun d => d.channels.length

/-- A channel of a device is free. -/
def HasFree (devices : List (Device π)) : Prop := ∃ d ∈ devices, d.HasFree

theorem hasFree_cons (d : Device π) (ds : List (Device π)) :
    HasFree (d::ds) ↔ d.HasFree ∨ HasFree ds := by
  simp [HasFree]

theorem isSome_channelAt_iff (devices : List (Device π)) (i j : ℕ) :
    (channelAt devices i j).isSome ↔ ∃ n, (shape devices)[i]? = some n ∧ j < n := by
  unfold channelAt shape
  rw [List.getElem?_map]
  cases devices[i]? <;> simp

theorem channelAt_modifyChannel (devices : List (Device π)) (i j i' j' : ℕ)
    (f : Channel π → Channel π) :
    channelAt (modifyChannel devices i j f) i' j' =
      if i' = i ∧ j' = j then (channelAt devices i j).map f else channelAt devices i' j' := by
  unfold channelAt modifyChannel
  rw [List.getElem?_modify]
  by_cases hi : i = i'
  · subst hi
    cases devices[i]? with
    | none => simp
    | some d =>
      by_cases hj : j = j'
      · subst hj
        simp
      · simp [hj,Ne.symm hj]
  · simp [hi,Ne.symm hi]

theorem shape_modifyChannel (devices : List (Device π)) (i j : ℕ) (f : Channel π → Channel π) :
    shape (modifyChannel devices i j f) = shape devices := by
  apply List.ext_getElem?
  intro k
  unfold shape modifyChannel
  rw [List.getElem?_map,List.getElem?_map,List.getElem?_modify]
  by_cases hi : i = k
  · subst hi
    cases devices[i]? <;> simp
  · simp [hi]

theorem hasFree_iff (devices : List (Device π)) :
    HasFree devices ↔ ∃ i j c, channelAt devices i j = some c ∧ c.busy = false := by
  constructor
  · intro ⟨d,hd,c,hc,hfree⟩
    obtain ⟨i,hi⟩ := List.mem_iff_getElem?.mp hd
    obtain ⟨j,hj⟩ := List.mem_iff_getElem?.mp hc
    exact ⟨i,j,c,by rw [channelAt,hi,Option.bind_some,hj],hfree⟩
  · intro ⟨i,j,c,hat,hfree⟩
    obtain ⟨d,hi,hj⟩ := Option.bind_eq_some_iff.mp hat
    exact ⟨d,List.mem_iff_getElem?.mpr ⟨i,hi⟩,c,List.mem_iff_getElem?.mpr ⟨j,hj⟩,hfree⟩

/-- Every session is on a channel that exists. -/
def Valid (s : State π) : Prop :=
  ∀ conn i j, s.sessions conn = some (i,j) → (channelAt s.devices i j).isSome

/-- There is a channel for a new session, be it the one that the old session gives back. -/
def Available (s : State π) (conn : ℕ) : Prop := HasFree s.devices ∨ (s.sessions conn).isSome

theorem shape_stopSession (s : State π) (conn : ℕ) :
    shape (s.stopSession conn).devices = shape s.devices := by
  unfold stopSession
  split
  · rfl
  · exact shape_modifyChannel _ _ _ _

theorem hasFree_stopSession {s : State π} (hs : s.Valid) (conn : ℕ) :
    HasFree (s.stopSession conn).devices ↔ s.Available conn := by
  unfold stopSession Available
  cases hconn : s.sessions conn with
  | none => simp
  | some session =>
    obtain ⟨i,j⟩ := session
    obtain ⟨c,hc⟩ := Option.isSome_iff_exists.mp (hs conn i j hconn)
    have hat := channelAt_modifyChannel s.devices i j i j Channel.release
    rw [if_pos ⟨rfl,rfl⟩,hc,Option.map_some] at hat
    have hfree : HasFree (modifyChannel s.devices i j Channel.release) :=
      (hasFree_iff _).mpr ⟨i,j,c.release,hat,rfl⟩
    simp [hfree]

section
variable (settings : Settings) (fresh : RateP) {devices : List (Device π)}

theorem requestSession_of_busy (h : ¬ HasFree devices) :
    requestSession settings fresh devices = .ok (devices,none) := by
  induction devices with
  | nil => rfl
  | cons d ds ih =>
    obtain ⟨hd,hds⟩ := not_or.mp (mt (hasFree_cons d ds).mpr h)
    rw [requestSession,Device.startSession_of_busy settings fresh hd,ih hds]
    rfl

/-- The first device with a free channel sets it up at the rate of the settings. -/
theorem requestSession_of_rate {rate : Option Rate} (h : HasFree devices)
    (hrate : settings.rate fresh = .ok rate) :
    ∃ (i j : ℕ) (c : Channel π) (ds : List (Device π)),
      requestSession settings fresh devices =
        .ok (ds,some (i,j,(c.applyRate settings.direction rate).2)) ∧
      channelAt ds i j = some (c.applyRate settings.direction rate).1 ∧
      shape ds = shape devices := by
  induction devices with
  | nil =>
    obtain ⟨d,hd,-⟩ := h
    cases hd
  | cons d ds ih =>
    by_cases hd : d.HasFree
    · obtain ⟨j,c,d',hstart,hc,hlen⟩ := Device.startSession_of_rate settings fresh hd hrate
      refine ⟨0,j,c,d'::ds,?_,hc,?_⟩
      · rw [requestSession,hstart]
        rfl
      · simp only [shape,List.map_cons,hlen]
    · have hds : HasFree ds := ((hasFree_cons d ds).mp h).resolve_left hd
      obtain ⟨i,j,c,ds',hstart,hc,hshape⟩ := ih hds
      refine ⟨i+1,j,c,d::ds',?_,hc,?_⟩
      · rw [requestSession,Device.startSession_of_busy settings fresh hd,hstart]
        rfl
      · simp only [shape,List.map_cons] at hshape ⊢
        rw [hshape]

theorem requestSession_invalid (devices : List (Device π))
    (h : settings.rate fresh = .error .invalidArgument) :
    ∃ ds : List (Device π), requestSession settings fresh devices = .ok (ds,none) ∧
      shape ds = shape devices := by
  induction devices with
  | nil => exact ⟨[],rfl,rfl⟩
  | cons d ds ih =>
    obtain ⟨d',hstart,hlen⟩ := Device.startSession_invalid settings fresh (d := d) h
    obtain ⟨ds',hrest,hshape⟩ := ih
    refine ⟨d'::ds',?_,?_⟩
    · rw [requestSession,hstart,hrest]
      rfl
    · simp only [shape,List.map_cons,hlen] at hshape ⊢
      rw [hshape]

theorem requestSession_outOfRange (h : HasFree devices)
    (hrate : settings.rate fresh = .error .outOfRange) :
    requestSession settings fresh devices = .error .outOfRange := by
  induction devices with
  | nil =>
    obtain ⟨d,hd,-⟩ := h
    cases hd
  | cons d ds ih =>
    by_cases hd : d.HasFree
    · rw [requestSession,Device.startSession_outOfRange settings fresh hd hrate]
      rfl
    · have hds : HasFree ds := ((hasFree_cons d ds).mp h).resolve_left hd
      rw [requestSession,Device.startSession_of_busy settings fresh hd,ih hds]
      rfl

variable {s : State π} {conn : ℕ} {codec : Text}

theorem processRequest_of_not_available (hs : s.Valid) (h : codec ≠ ambe ∨ ¬ s.Available conn) :
    s.processRequest conn codec settings fresh =
      .answered {result := .error, message := "no device available"} [] (s.stopSession conn) := by
  unfold processRequest
  by_cases hcodec : codec = ambe
  · have hbusy := mt (hasFree_stopSession hs conn).mp (h.resolve_left (fun h => h hcodec))
    simp only [hcodec,if_true,requestSession_of_busy settings fresh hbusy]
  · simp only [hcodec,if_false]

theorem processRequest_of_rate {rate : Option Rate} (hs : s.Valid) (h : s.Available conn)
    (hrate : settings.rate fresh = .ok rate) :
    ∃ (i j : ℕ) (c : Channel π) (ds : List (Device π)),
      s.processRequest conn ambe settings fresh =
        .answered
          { result := .ok
            framing := (c.applyRate settings.direction rate).1.getFraming }
          ((c.applyRate settings.direction rate).2.map fun packet => (i,packet))
          { devices := ds
            sessions := (s.stopSession conn).setSession conn (some (i,j)) } ∧
      channelAt ds i j = some (c.applyRate settings.direction rate).1 ∧
      shape ds = shape s.devices := by
  have hfree := (hasFree_stopSession hs conn).mpr h
  obtain ⟨i,j,c,ds,hfound,hat,hshape⟩ := requestSession_of_rate settings fresh hfree hrate
  refine ⟨i,j,c,ds,?_,hat,hshape.trans (shape_stopSession s conn)⟩
  simp only [processRequest,if_true,hfound,hat,Option.bind_some]

theorem processRequest_invalid (s : State π) (conn : ℕ)
    (h : settings.rate fresh = .error .invalidArgument) :
    ∃ ds : List (Device π),
      s.processRequest conn ambe settings fresh =
        .answered {result := .error, message := "no device available"} []
          {s.stopSession conn with devices := ds} ∧
      shape ds = shape s.devices := by
  obtain ⟨ds,hfound,hshape⟩ :=
    requestSession_invalid settings fresh (s.stopSession conn).devices h
  refine ⟨ds,?_,hshape.trans (shape_stopSession s conn)⟩
  simp only [processRequest,if_true,hfound]

theorem processRequest_outOfRange (hs : s.Valid) (h : s.Available conn)
    (hrate : settings.rate fresh = .error .outOfRange) :
    s.processRequest conn ambe settings fresh = .terminated := by
  have hfree := (hasFree_stopSession hs conn).mpr h
  simp only [processRequest,if_true,requestSession_outOfRange settings fresh hfree hrate]

theorem processRenegotiation_of_session (hs : s.Valid) {i j : ℕ}
    (h : s.sessions conn = some (i,j)) :
    ∃ c, channelAt s.devices i j = some c ∧
      s.processRenegotiation conn settings fresh =
        match settings.rate fresh with
        | .error _ => .answered {result := .error} [] s
        | .ok rate =>
          .answered
            { result := .ok
              framing := (c.applyRate settings.direction rate).1.getFraming }
            ((c.applyRate settings.direction rate).2.map fun packet => (i,packet))
            { s with
              devices := modifyChannel s.devices i j fun _ =>
                (c.applyRate settings.direction rate).1 } := by
  obtain ⟨c,hc⟩ := Option.isSome_iff_exists.mp (hs conn i j h)
  refine ⟨c,hc,?_⟩
  unfold processRenegotiation
  simp only [h,hc,Option.bind_some,Option.map_some,renegotiate_eq]
  cases settings.rate fresh <;> rfl

end

section
variable {s t : State π}

theorem valid_init (devices : List (Device π)) : Valid {devices := devices} := nofun

/-- The sessions stay valid as long as new ones are on a channel that exists. -/
theorem Valid.of_shape (hs : s.Valid) (hshape : shape t.devices = shape s.devices)
    (h : ∀ conn i j, t.sessions conn = some (i,j) →
      s.sessions conn = some (i,j) ∨ (channelAt t.devices i j).isSome) : t.Valid := by
  intro conn i j hconn
  rcases h conn i j hconn with hold | hnew
  · have := (isSome_channelAt_iff s.devices i j).mp (hs conn i j hold)
    rwa [← hshape,← isSome_channelAt_iff] at this
  · exact hnew

theorem sessions_stopSession {conn k : ℕ} {session : ℕ × ℕ}
    (h : (s.stopSession conn).sessions k = some session) : s.sessions k = some session := by
  unfold stopSession at h
  split at h
  · exact h
  · simp only [setSession] at h
    split_ifs at h
    exact h

theorem valid_stopSession (hs : s.Valid) (conn : ℕ) : (s.stopSession conn).Valid :=
  hs.of_shape (shape_stopSession s conn) fun _ _ _ h => Or.inl (sessions_stopSession h)

theorem valid_processRequest (hs : s.Valid) {conn : ℕ} {codec : Text} {settings : Settings}
    {fresh : RateP} (h : (s.processRequest conn codec settings fresh).next = some t) :
    t.Valid := by
  by_cases hoff : codec ≠ ambe ∨ ¬ s.Available conn
  · rw [processRequest_of_not_available settings fresh hs hoff] at h
    obtain rfl := Option.some.inj h
    exact valid_stopSession hs conn
  obtain ⟨hcodec,havail⟩ := not_or.mp hoff
  rw [not_not] at hcodec havail
  subst hcodec
  cases hrate : settings.rate fresh with
  | ok rate =>
    obtain ⟨i,j,c,ds,hreq,hat,hshape⟩ :=
      processRequest_of_rate settings fresh hs havail hrate
    rw [hreq] at h
    obtain rfl := Option.some.inj h
    refine hs.of_shape hshape fun k i' j' hk => ?_
    simp only [setSession] at hk
    split_ifs at hk with hkc
    · cases hk
      exact Or.inr (by rw [hat]; rfl)
    · exact Or.inl (sessions_stopSession hk)
  | error e =>
    cases e with
    | invalidArgument =>
      obtain ⟨ds,hreq,hshape⟩ := processRequest_invalid settings fresh s conn hrate
      rw [hreq] at h
      obtain rfl := Option.some.inj h
      exact hs.of_shape hshape fun _ _ _ hk => Or.inl (sessions_stopSession hk)
    | outOfRange =>
      rw [processRequest_outOfRange settings fresh hs havail hrate] at h
      cases h

theorem valid_processRenegotiation (hs : s.Valid) {conn : ℕ} {settings : Settings}
    {fresh : RateP} (h : (s.processRenegotiation conn settings fresh).next = some t) :
    t.Valid := by
  cases hconn : s.sessions conn with
  | none =>
    rw [processRenegotiation,hconn] at h
    cases h
  | some session =>
    obtain ⟨i,j⟩ := session
    obtain ⟨c,-,hreneg⟩ := processRenegotiation_of_session settings fresh hs hconn
    rw [hreneg] at h
    cases hrate : settings.rate fresh with
    | error e =>
      rw [hrate] at h
      obtain rfl := Option.some.inj h
      exact hs
    | ok rate =>
      rw [hrate] at h
      obtain rfl := Option.some.inj h
      exact hs.of_shape (shape_modifyChannel _ _ _ _) fun _ _ _ hk => Or.inl hk

theorem next_processData {conn : ℕ} {packet : Channel π → Outgoing}
    (h : (s.processData conn packet).next = some t) : t = s := by
  unfold processData at h
  split at h
  · exact (Option.some.inj h).symm
  · split at h
    · cases h
    · exact (Option.some.inj h).symm

theorem valid_step (s : State π) (e : Event) (t : State π) (hs : s.Valid)
    (h : step s e = some t) : t.Valid := by
  cases e with
  | close conn =>
    obtain rfl := Option.some.inj h
    exact valid_stopSession hs conn
  | message conn fresh message =>
    cases message with
    | request codec settings => exact valid_processRequest hs h
    | renegotiation settings => exact valid_processRenegotiation hs h
    | check codec =>
      simp only [step,processMessage,processCheck] at h
      split_ifs at h <;> exact Option.some.inj h ▸ hs
    | channelData data => exact next_processData h ▸ hs
    | speechData data => exact next_processData h ▸ hs

end
end State
end CodecServer.Server
