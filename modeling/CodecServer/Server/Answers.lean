import CodecServer.Ambe3K.ControlWords
import CodecServer.Server.ClientConnection

/-! What an answer of the server means: a setup of the codec as it was asked for, or an error. -/
namespace CodecServer.Server
open CodecServer.Transition CodecServer.Numeral CodecServer.Ambe3K CodecServer.Ambe3K.Protocol

/-- The rate index that settings name: a number as a whole text, from 0 to 255. -/
def usableIndex (settings : Settings) : Option Byte :=
  settings.index.bind fun text => (numeral text).bind fun v =>
    if 0 ≤ v ∧ v ≤ 255 then some (BitVec.ofInt 8 v) else none

/-- The control words that settings name: six groups of four hexadecimal digits, with colons. -/
def usableRateP (settings : Settings) : Option RateP :=
  settings.ratep.bind fun text => ((parts text).mapM hexWord).bind toRateP

/-- The settings name a usable index or a usable `ratep`. -/
def Usable (settings : Settings) : Prop :=
  (usableIndex settings).isSome ∨ (usableRateP settings).isSome

/-- The request that sets up a channel exactly as one of the arguments says. -/
def Asks (settings : Settings) (channel : Byte) (packet : Outgoing) : Prop :=
  (∃ index, usableIndex settings = some index ∧
    packet = .setupIndex channel index settings.direction) ∨
  (∃ cwds, usableRateP settings = some cwds ∧
    packet = .setupRateP channel cwds settings.direction)

/-- The framing of a channel set up in a way. -/
def framingOf : Rate → Option FramingHint
  | .index index => ({index := 0, codecIndex := index} : Channel Unit).getFraming
  | .ratep cwds => ({index := 0, ratep := some cwds} : Channel Unit).getFraming

/-- The framing that settings lead to, whatever there was before them. -/
def framing (settings : Settings) : Option FramingHint :=
  match usableIndex settings with
  | some index => framingOf (.index index)
  | none => (usableRateP settings).bind fun cwds => framingOf (.ratep cwds)

/-- An answer to settings on a connection keeps what it promises. `OK` means that the channel of the
session was sent the setup that was asked for, and the framing is that of the settings; settings
without a usable argument are answered with `ERROR`. -/
def Honest {π : Type} (settings : Settings) (conn : ℕ) : Outcome π → Prop
  | .answered response queued s =>
    (response.result = .ok →
      (∃ i j c packet, s.sessions conn = some (i,j) ∧ State.channelAt s.devices i j = some c ∧
        queued = [(i,packet)] ∧ Asks settings c.index packet) ∧
      response.framing = framing settings) ∧
    (¬ Usable settings → response.result = .error)
  | _ => Usable settings

/-- Settings that are set up for what they are: a usable index, or without an index a usable `ratep`
with words that fit a `short`. -/
def Settable (settings : Settings) : Prop :=
  (usableIndex settings).isSome ∨
    (settings.index = none ∧ ∃ cwds, usableRateP settings = some cwds ∧
      ∀ w ∈ cwds.toList, w.toNat < 2^15)

/-- The text of the index is turned down by `stoi` with an error. -/
def Rejected (settings : Settings) (e : StoiError) : Prop :=
  ∃ text, settings.index = some text ∧ stoi text = .error e

section Rate
variable {settings : Settings} {fresh : RateP}

theorem rate_error_iff (fresh : RateP) {e : StoiError} :
    settings.rate fresh = .error e ↔ Rejected settings e := by
  unfold Settings.rate Rejected
  cases settings.index with
  | none => simp
  | some text =>
    simp only [Option.some.injEq,exists_eq_left']
    cases stoi text <;> simp [Except.map]

theorem not_rejected {rate : Option Rate} (h : settings.rate fresh = .ok rate) (e : StoiError) :
    ¬ Rejected settings e := by
  intro he
  rw [← rate_error_iff fresh,h] at he
  cases he

theorem rate_of_usableIndex {index : Byte} (h : usableIndex settings = some index) :
    settings.rate fresh = .ok (some (.index index)) := by
  unfold usableIndex at h
  obtain ⟨text,htext,h⟩ := Option.bind_eq_some_iff.mp h
  obtain ⟨v,hv,h⟩ := Option.bind_eq_some_iff.mp h
  split_ifs at h with hrange
  obtain rfl := Option.some.inj h
  rw [Settings.rate,htext]
  simp only
  rw [stoi_of_numeral hv (by omega) (by omega)]
  rfl

theorem usableIndex_of_none (h : settings.index = none) : usableIndex settings = none := by
  rw [usableIndex,h,Option.bind_none]

theorem Settable.usable (h : Settable settings) : Usable settings := by
  rcases h with h | ⟨-,cwds,h,-⟩
  · exact Or.inl h
  · exact Or.inr (by rw [h]; rfl)

theorem not_settable_of_error {e : StoiError} (h : settings.rate fresh = .error e) :
    ¬ Settable settings := by
  intro hset
  rcases hset with hset | ⟨hnone,-⟩
  · obtain ⟨index,hindex⟩ := Option.isSome_iff_exists.mp hset
    rw [rate_of_usableIndex hindex] at h
    cases h
  · obtain ⟨text,htext,-⟩ := (rate_error_iff fresh).mp h
    rw [hnone] at htext
    cases htext

theorem rate_eq_of_index_none (h : settings.index = none) :
    settings.rate fresh =
      .ok (settings.ratep.bind fun s => (parseRatePString fresh s).map .ratep) := by
  rw [Settings.rate,h]

/-- Only settings without an index lead to control words. -/
theorem index_eq_none_of_rate {cwds : RateP}
    (h : settings.rate fresh = .ok (some (.ratep cwds))) : settings.index = none := by
  unfold Settings.rate at h
  cases hindex : settings.index with
  | none => rfl
  | some text =>
    simp only [hindex] at h
    cases hread : stoi text with
    | error e => simp [hread,Except.map] at h
    | ok v => simp [hread,Except.map] at h

/-- Settings that can be set up lead to the rate that they ask for. -/
theorem rate_of_settable (fresh : RateP) (h : Settable settings) :
    ∃ r, settings.rate fresh = .ok (some r) ∧ framing settings = framingOf r ∧
      ∀ channel, Asks settings channel (r.setup channel settings.direction) := by
  rcases h with h | ⟨hnone,cwds,husable,hfits⟩
  · obtain ⟨index,hindex⟩ := Option.isSome_iff_exists.mp h
    refine ⟨_,rate_of_usableIndex hindex,?_,fun channel => Or.inl ⟨index,hindex,rfl⟩⟩
    rw [framing,hindex]
  · have hratep := husable
    unfold usableRateP at hratep
    obtain ⟨text,htext,hwords⟩ := Option.bind_eq_some_iff.mp hratep
    obtain ⟨read,hread,heq⟩ := parseRatePString_of_usable fresh hwords
    obtain rfl := heq.mpr hfits
    refine ⟨.ratep read,?_,?_,fun channel => Or.inr ⟨read,husable,rfl⟩⟩
    · rw [rate_eq_of_index_none hnone,htext,Option.bind_some,hread]
      rfl
    · rw [framing,usableIndex_of_none hnone,husable]
      rfl

/-- A rate that is the one asked for comes from settings that can be set up. -/
theorem settable_of_asks {r : Rate} (channel : Byte)
    (h : settings.rate fresh = .ok (some r))
    (hasks : Asks settings channel (r.setup channel settings.direction)) :
    Settable settings := by
  rcases hasks with ⟨index,hindex,-⟩ | ⟨cwds,husable,hpacket⟩
  · exact Or.inl (by rw [hindex]; rfl)
  · cases r with
    | index index => cases hpacket
    | ratep read =>
      obtain ⟨-,rfl,-⟩ := Outgoing.setupRateP.inj hpacket
      have hnone := index_eq_none_of_rate h
      refine Or.inr ⟨hnone,read,husable,?_⟩
      unfold usableRateP at husable
      obtain ⟨text,htext,hwords⟩ := Option.bind_eq_some_iff.mp husable
      obtain ⟨other,hother,heq⟩ := parseRatePString_of_usable fresh hwords
      rw [rate_eq_of_index_none hnone,htext,Option.bind_some,hother] at h
      simp only [Option.map_some,Except.ok.injEq,Option.some.injEq,Rate.ratep.injEq] at h
      exact heq.mp h

theorem usable_of_error {e : StoiError} (h : settings.rate fresh = .error e) :
    Usable settings ↔ (usableRateP settings).isSome := by
  apply or_iff_right
  intro hindex
  exact not_settable_of_error h (Or.inl hindex)

end Rate

/-- Requests with an honest answer: no channel is there to be had, or the settings can be set up, or
their index is no number, or it is out of range and a usable `ratep` is named, too. -/
def RequestFine {π : Type} (s : State π) (conn : ℕ) (codec : Text) (settings : Settings) : Prop :=
  codec ≠ State.ambe ∨ ¬ s.Available conn ∨ Settable settings ∨
    Rejected settings .invalidArgument ∨
    (Rejected settings .outOfRange ∧ (usableRateP settings).isSome)

/-- Renegotiations with an honest answer: the settings can be set up or their index is rejected; or
there is no session, and the settings are usable. -/
def RenegotiationFine {π : Type} (s : State π) (conn : ℕ) (settings : Settings) : Prop :=
  match s.sessions conn with
  | none => Usable settings
  | some _ => Settable settings ∨ ∃ e, Rejected settings e

section
variable {π : Type} {s t : State π} {conn : ℕ} {settings : Settings} {fresh : RateP}

/-- An error is always an honest answer. -/
theorem honest_error (message : String) :
    Honest settings conn (.answered {result := .error, message := message} [] s) :=
  ⟨nofun,fun _ => rfl⟩

/-- `OK` from the channel of the session is honest exactly for settings that can be set up. -/
theorem honest_ok_iff {i j : ℕ} {c : Channel π} {rate : Option Rate}
    (hrate : settings.rate fresh = .ok rate) (hconn : t.sessions conn = some (i,j))
    (hat : State.channelAt t.devices i j = some (c.applyRate settings.direction rate).1) :
    Honest settings conn
      (.answered
        { result := .ok
          framing := (c.applyRate settings.direction rate).1.getFraming }
        ((c.applyRate settings.direction rate).2.map fun packet => (i,packet)) t) ↔
      Settable settings := by
  constructor
  · intro honest
    obtain ⟨⟨i',j',c',packet,hconn',hat',hqueued,hasks⟩,-⟩ := honest.1 rfl
    rw [hconn] at hconn'
    cases hconn'
    rw [hat] at hat'
    cases hat'
    cases rate with
    | none => cases hqueued
    | some r =>
      apply settable_of_asks c.index hrate
      cases r with
      | index index =>
        cases hqueued
        exact hasks
      | ratep cwds =>
        cases hqueued
        exact hasks
  · intro hset
    obtain ⟨r,hr,hframing,hasks⟩ := rate_of_settable fresh hset
    rw [hrate] at hr
    cases hr
    refine ⟨fun _ => ⟨?_,?_⟩,fun h => absurd hset.usable h⟩
    · cases r with
      | index index => exact ⟨i,j,_,_,hconn,hat,rfl,hasks c.index⟩
      | ratep cwds => exact ⟨i,j,_,_,hconn,hat,rfl,hasks c.index⟩
    · rw [hframing]
      cases r <;> rfl

theorem honest_request_iff (hs : s.Valid) (codec : Text) (fresh : RateP) :
    Honest settings conn (s.processMessage conn fresh (.request codec settings)) ↔
      RequestFine s conn codec settings := by
  change Honest settings conn (s.processRequest conn codec settings fresh) ↔ _
  by_cases hoff : codec ≠ State.ambe ∨ ¬ s.Available conn
  · rw [State.processRequest_of_not_available settings fresh hs hoff]
    apply iff_of_true (honest_error _)
    exact hoff.imp_right Or.inl
  obtain ⟨hcodec,havail⟩ := not_or.mp hoff
  rw [not_not] at hcodec havail
  subst hcodec
  have hfine : RequestFine s conn State.ambe settings ↔ Settable settings ∨
      Rejected settings .invalidArgument ∨
      (Rejected settings .outOfRange ∧ (usableRateP settings).isSome) := by
    simp [RequestFine,havail]
  rw [hfine]
  cases hrate : settings.rate fresh with
  | ok rate =>
    obtain ⟨i,j,c,ds,hreq,hat,-⟩ :=
      State.processRequest_of_rate settings fresh hs havail hrate
    rw [hreq,honest_ok_iff hrate (by simp [State.setSession]) hat]
    simp [not_rejected hrate]
  | error e =>
    cases e with
    | invalidArgument =>
      obtain ⟨ds,hreq,-⟩ := State.processRequest_invalid settings fresh s conn hrate
      rw [hreq]
      apply iff_of_true (honest_error _)
      exact Or.inr (Or.inl ((rate_error_iff fresh).mp hrate))
    | outOfRange =>
      rw [State.processRequest_outOfRange settings fresh hs havail hrate]
      change Usable settings ↔ _
      have hsome : Rejected settings .outOfRange := (rate_error_iff fresh).mp hrate
      have hnone : ¬ Rejected settings .invalidArgument := by
        intro hinvalid
        have := hrate.symm.trans ((rate_error_iff fresh).mpr hinvalid)
        cases this
      rw [usable_of_error hrate]
      simp [not_settable_of_error hrate,hsome,hnone]

theorem honest_renegotiation_iff (hs : s.Valid) (fresh : RateP) :
    Honest settings conn (s.processMessage conn fresh (.renegotiation settings)) ↔
      RenegotiationFine s conn settings := by
  change Honest settings conn (s.processRenegotiation conn settings fresh) ↔ _
  unfold RenegotiationFine
  cases hconn : s.sessions conn with
  | none =>
    rw [State.processRenegotiation,hconn]
    rfl
  | some session =>
    obtain ⟨i,j⟩ := session
    obtain ⟨c,hc,hreneg⟩ := State.processRenegotiation_of_session settings fresh hs hconn
    rw [hreneg]
    cases hrate : settings.rate fresh with
    | error e =>
      refine iff_of_true (honest_error _) (Or.inr ⟨e,(rate_error_iff fresh).mp hrate⟩)
    | ok rate =>
      have hat := State.channelAt_modifyChannel s.devices i j i j fun _ =>
        (c.applyRate settings.direction rate).1
      rw [if_pos ⟨rfl,rfl⟩,hc,Option.map_some] at hat
      refine Iff.trans (honest_ok_iff hrate hconn hat) ?_
      simp [not_rejected hrate]

end

/-- After every history of the server, exactly the requests and the renegotiations that are fine are
answered honestly. -/
theorem run_honest_iff {π : Type} (devices : List (Device π)) (es : List State.Event) (s : State π)
    (h : run State.step {devices := devices} es = some s) (conn : ℕ) (fresh : RateP)
    (settings : Settings) :
    (∀ codec, Honest settings conn (s.processMessage conn fresh (.request codec settings)) ↔
      RequestFine s conn codec settings) ∧
    (Honest settings conn (s.processMessage conn fresh (.renegotiation settings)) ↔
      RenegotiationFine s conn settings) :=
  have hs := run_invariant State.valid_step (State.valid_init devices) h
  ⟨fun codec => honest_request_iff hs codec fresh,honest_renegotiation_iff hs fresh⟩

/-- A client that asks for the rate with index 33 and goes. -/
def visit : List State.Event :=
  [.message 0 (.replicate 6 0) (.request State.ambe {args := [(Settings.indexName,[0x33,0x33])]}),
    .close 0]

/-- Another client asks for the same, later. -/
theorem run_honest_iff_visit : ∃ s : State Packet,
    run State.step {devices := [.createChannels 1]} visit = some s ∧
      (Honest {args := [(Settings.indexName,[0x33,0x33])]} 1
          (s.processMessage 1 (.replicate 6 0)
            (.request State.ambe {args := [(Settings.indexName,[0x33,0x33])]})) ↔
        RequestFine s 1 State.ambe {args := [(Settings.indexName,[0x33,0x33])]}) :=
  ⟨_,rfl,(run_honest_iff [.createChannels 1] visit _ rfl 1 (.replicate 6 0)
    {args := [(Settings.indexName,[0x33,0x33])]}).1 State.ambe⟩

/-- After that client, a request that names nothing is answered with `OK`, though nothing is queued
to the device, and gets the framing of index 33. -/
theorem not_honest_empty :
    ¬ ∀ (devices : List (Device Packet)) (es : List State.Event) (s : State Packet),
      run State.step {devices := devices} es = some s →
        ∀ (conn : ℕ) (fresh : RateP) (codec : Text) (settings : Settings),
          Honest settings conn (s.processMessage conn fresh (.request codec settings)) := by
  intro h
  have honest := h [.createChannels 1] visit _ rfl 1 (.replicate 6 0) State.ambe {}
  obtain ⟨⟨i,j,c,packet,-,-,hqueued,-⟩,-⟩ := honest.1 rfl
  cases hqueued

end CodecServer.Server
