import CodecServer.Server.Transmission

/-! The server and its devices agree on the codec of each channel, over all sessions: what the server
keeps for a channel, and tells its clients of it, is what the last packet that sets it up has said. -/
namespace CodecServer.Server
open CodecServer.Transition CodecServer.Ambe3K CodecServer.Ambe3K.Protocol

variable {π ρ : Type}

/-- The framing of a channel with the codec. -/
def hintOf (codec : Codec) : Option FramingHint :=
  Channel.getFraming ({index := 0, codecIndex := codec.1, ratep := codec.2} : Channel Unit)

theorem getFraming_eq (c : Channel π) : c.getFraming = hintOf c.codec := rfl

/-- The messages that set up the codec of a session. -/
def Message.setsUp : Message → Bool
  | .request _ _ => true
  | .renegotiation _ => true
  | _ => false

namespace State
variable {s t : State π} {conn : ℕ} {fresh : RateP} {message : Message} {response : Response}
  {queued : List (ℕ × Outgoing)}

/-- The hint of an `OK` is that of the channel of the session. -/
theorem framing_of_answered (hs : s.Accounted) (hmessage : message.setsUp = true)
    (h : s.processMessage conn fresh message = .answered response queued t)
    (hok : response.result = .ok) :
    ∃ i j c, t.sessions conn = some (i,j) ∧ channelAt t.devices i j = some c ∧
      response.framing = c.getFraming := by
  have hnext : (s.processMessage conn fresh message).next = some t := congrArg Outcome.next h
  have hvalid := (accounted_processMessage hs hnext).1.valid
  cases message with
  | request codec settings =>
    simp only [processMessage,processRequest] at h
    split at h
    · cases h
    · cases h
      cases hok
    · rename_i ds i j packets _
      cases h
      have hsession : (s.stopSession conn).setSession conn (some (i,j)) conn = some (i,j) := if_pos rfl
      obtain ⟨c,hc⟩ := Option.isSome_iff_exists.mp (hvalid conn i j hsession)
      exact ⟨i,j,c,hsession,hc,congrArg (Option.bind · Channel.getFraming) hc⟩
  | renegotiation settings =>
    simp only [processMessage] at h
    cases hconn : s.sessions conn with
    | none =>
      rw [processRenegotiation,hconn] at h
      cases h
    | some session =>
      obtain ⟨i,j⟩ := session
      obtain ⟨c,hc,hreneg⟩ := processRenegotiation_of_session settings fresh hs.valid hconn
      rw [hreneg] at h
      cases hrate : settings.rate fresh with
      | error e =>
        simp only [hrate] at h
        cases h
        cases hok
      | ok rate =>
        simp only [hrate] at h
        cases h
        refine ⟨i,j,_,hconn,?_,rfl⟩
        rw [channelAt_modifyChannel,if_pos ⟨rfl,rfl⟩,hc]
        rfl
  | check codec | channelData data | speechData data => cases hmessage

end State

namespace Transmission
variable {s : State π ρ}

/-- The packets that were written to a device. -/
def State.wired (s : State π ρ) (i : ℕ) : List (ℕ × Outgoing) :=
  (s.worker i).written.map fun job => (job.key.1,job.work.packet)

/-- The packets for other devices do not matter. -/
theorem told_jobsFor (s : State π ρ) (i : ℕ) (n : Byte) (codec : Codec) :
    told i n ((s.jobsFor i).map fun job => (job.key.1,job.work.packet)) codec = told i n s.queued codec := by
  unfold told State.queued State.jobsFor
  rw [List.filter_map,List.filter_map,List.filter_filter]
  congr 4
  funext job
  by_cases hi : job.key.1 = i <;> simp [hi]

/-- In every run: what the server keeps for a channel is what the packets queued so far make of its
codec, and once all of them are written, it is what the device has been told. The hint of an `OK` to a
request or a renegotiation is that of the codec that the device is told with the packets of the
message. -/
theorem run_synchronized (counts : List ℕ) (hcounts : ∀ n ∈ counts, n ≤ 4) (es : List (Event ρ))
    (s : State π ρ) (h : Transition.run State.step (State.start counts) es = some s) :
    (∀ i j c, Server.State.channelAt s.service.server.devices i j = some c →
      c.codec = told i (BitVec.ofNat 8 j) s.queued (0,none) ∧
      ((s.worker i).dorun = true → (s.worker i).queue.run = true →
        QueueWorker.inHand (s.worker i) = [] → (s.worker i).queue.items = [] →
        c.codec = told i (BitVec.ofNat 8 j) (s.wired i) (0,none))) ∧
    (∀ conn fresh message response queued t, message.setsUp = true →
      s.service.server.processMessage conn fresh message = .answered response queued t →
      response.result = .ok →
      ∃ i j, t.sessions conn = some (i,j) ∧
        response.framing = hintOf (told i (BitVec.ofNat 8 j) (s.queued ++ queued) (0,none))) := by
  have hs := run_invariant (inv_step hcounts) (inv_start counts) h
  have haccounted := hs.shaped.sound.accounted
  constructor
  · intro i j c hc
    have hj : j < 4 := by
      obtain ⟨n,hn,hj⟩ := (Server.State.isSome_channelAt_iff ..).mp (by rw [hc]; rfl)
      rw [hs.shaped.shape] at hn
      exact Nat.lt_of_lt_of_le hj (hcounts n (List.mem_of_getElem? hn))
    have hcodec := hs.codecs i j hj c.codec (congrArg (Option.map Channel.codec) hc)
    refine ⟨hcodec,fun hdorun hrun hhand hitems => ?_⟩
    have hgiven := hs.given i
    have hpc : (s.worker i).pc ≠ .stopped := by
      intro hstopped
      cases hdorun.symm.trans (hgiven.inv.stopped hstopped)
    have hwritten : (s.worker i).written = s.jobsFor i := by
      rw [← hgiven.all hrun,hgiven.inv.kept hpc,hhand,hitems]
      simp
    rw [hcodec,State.wired,hwritten,told_jobsFor]
  · intro conn fresh message response queued t hmessage hanswer hok
    have hnext : (s.service.server.processMessage conn fresh message).next = some t :=
      congrArg Outcome.next hanswer
    have hserver := (Server.State.accounted_processMessage haccounted hnext).1
    have hshape := (Server.State.shape_processMessage haccounted hnext).trans hs.shaped.shape
    have hfew : ∀ i j, t.sessions conn = some (i,j) → j < 4 := fun i j =>
      lt_of_session hcounts hserver hshape
    obtain ⟨i,j,c,hsession,hc,hframing⟩ :=
      Server.State.framing_of_answered haccounted hmessage hanswer hok
    have htells := Server.State.tells_processMessage haccounted.valid hs.indexed hfew hnext i j
      (hfew i j hsession)
    have hcodec : Server.State.codecAt t.devices i j = some c.codec :=
      congrArg (Option.map Channel.codec) hc
    rw [hcodec,hanswer] at htells
    obtain ⟨codec,hold,htold⟩ := Option.map_eq_some_iff.mp htells.symm
    refine ⟨i,j,hsession,?_⟩
    rw [hframing,getFraming_eq,← htold,told_append,hs.codecs i j (hfew i j hsession) codec hold]
    rfl

/-- The second client has asked for the index 4. -/
theorem run_synchronized_pair : ∃ s : State Packet Unit,
    Transition.run State.step (State.start [3]) pair = some s ∧
      told 0 (BitVec.ofNat 8 1) s.queued (0,none) = (4,none) := by
  refine ⟨_,rfl,?_⟩
  have hagree := (run_synchronized [3] (by decide) pair (_ : State Packet Unit) rfl).1 0 1
  exact (hagree {index := 1,busy := true,codecIndex := 4,outQueue := some (.new 10)} rfl).1.symm

end Transmission
end CodecServer.Server
