import CodecServer.Server.Accounting

/-! Requests of several clients at a time. No lock is taken between the test whether a channel is
busy and its reservation, so that other clients may get there in between. -/
namespace CodecServer.Server.Reservation
open Function CodecServer.Ownership CodecServer.Transition CodecServer.Ambe3K
open CodecServer.Ambe3K.Protocol CodecServer.Server.State

/-- Where the thread of a client is in `startSession`: before the test of channel `j` of device `i`,
its reservation, the creation of the session or its setup; or there is a session, or none. -/
inductive Pc
  | idle
  | test (settings : Settings) (i j : ℕ)
  | reserve (settings : Settings) (i j : ℕ)
  | create (settings : Settings) (i j : ℕ)
  | renegotiate (settings : Settings) (i j : ℕ)
  | holding (i j : ℕ)

namespace Pc

/-- The channel of the session object. -/
def session : Pc → Option (ℕ × ℕ)
  | .renegotiate _ i j => some (i,j)
  | .holding i j => some (i,j)
  | _ => none

/-- The channel that was reserved and not released yet. -/
def owns : Pc → Option (ℕ × ℕ)
  | .create _ i j => some (i,j)
  | pc => pc.session

end Pc

structure State (π : Type) where
  devices : List (Device π)
  pcs : ℕ → Pc := fun _ => .idle

/-- A client asks for a session; its thread takes the next step; its session ends. -/
inductive Event
  | request (conn : ℕ) (settings : Settings)
  | next (conn : ℕ) (fresh : RateP)
  | stop (conn : ℕ)

namespace State
variable {π : Type}

def start (counts : List ℕ) : State π := {devices := counts.map .createChannels}

def goto (s : State π) (conn : ℕ) (pc : Pc) : State π := {s with pcs := update s.pcs conn pc}

/-- The channel changes, and the thread goes on. -/
def modify (s : State π) (conn i j : ℕ) (f : Channel π → Channel π) (pc : Pc) : State π :=
  { devices := modifyChannel s.devices i j f
    pcs := update s.pcs conn pc }

/-- The next step of the loop over the devices, and of `Device::startSession` in it. -/
def next (s : State π) (conn : ℕ) (fresh : RateP) : Option (State π) :=
  match s.pcs conn with
  | .test settings i j =>
    match s.devices[i]? with
    | none => some (s.goto conn .idle)
    | some d =>
      match d.channels[j]? with
      | none => some (s.goto conn (.test settings (i+1) 0))
      | some c =>
        some (s.goto conn (if c.busy then .test settings i (j+1) else .reserve settings i j))
  | .reserve settings i j => some (s.modify conn i j Channel.reserve (.create settings i j))
  | .create settings i j => some (s.goto conn (.renegotiate settings i j))
  | .renegotiate settings i j =>
    match channelAt s.devices i j with
    | none => none
    | some c =>
      match c.renegotiate settings fresh with
      | .ok (c,_) => some (s.modify conn i j (fun _ => c) (.holding i j))
      | .error .invalidArgument =>
        some (s.modify conn i j Channel.release (.test settings (i+1) 0))
      | .error .outOfRange => none
  | _ => none

def step (s : State π) : Event → Option (State π)
  | .request conn settings =>
    match s.pcs conn with
    | .idle => some (s.goto conn (.test settings 0 0))
    | _ => none
  | .next conn fresh => s.next conn fresh
  | .stop conn =>
    match s.pcs conn with
    | .holding i j => some (s.modify conn i j Channel.release .idle)
    | _ => none

end State

section
variable {π : Type} {s t : State π}

/-- No two sessions are on one channel. -/
def Exclusive (s : State π) : Prop :=
  ∀ p q k, (s.pcs p).session = some k → (s.pcs q).session = some k → p = q

/-- A channel that is about to be reserved is still not busy. -/
def Fine (s : State π) : Event → Prop
  | .next conn _ => ∀ settings i j, s.pcs conn = .reserve settings i j → ¬ Busy s.devices (i,j)
  | _ => True

/-- The channels that are busy are those that a thread has reserved, and what a thread is about to
reserve is there. -/
structure Sound (s : State π) : Prop where
  balanced : Balanced (Busy s.devices) (Pc.owns ∘ s.pcs)
  reserve : ∀ conn settings i j, s.pcs conn = .reserve settings i j →
    (channelAt s.devices i j).isSome

theorem owns_of_session {pc : Pc} {k : ℕ × ℕ} (h : pc.session = some k) : pc.owns = some k := by
  cases pc with
  | renegotiate settings i j => exact h
  | holding i j => exact h
  | _ => cases h

theorem Sound.exclusive (hs : Sound s) : Exclusive s :=
  fun _ _ _ hp hq => hs.balanced.unique (owns_of_session hp) (owns_of_session hq)

theorem sound_start (counts : List ℕ) : Sound (State.start counts : State π) where
  balanced := (Service.sound_start counts).accounted
  reserve := nofun

/-- A thread goes on with what it has. -/
theorem sound_goto (hs : Sound s) {conn : ℕ} {pc : Pc} (howns : pc.owns = (s.pcs conn).owns)
    (hreserve : ∀ settings i j, pc = .reserve settings i j → (channelAt s.devices i j).isSome) :
    Sound (s.goto conn pc) where
  balanced := by
    change Balanced _ (Pc.owns ∘ update s.pcs conn pc)
    rw [comp_update,howns]
    exact (update_eq_self conn (Pc.owns ∘ s.pcs)).symm ▸ hs.balanced
  reserve k settings i j h := by
    change update s.pcs conn pc k = _ at h
    rw [update_apply] at h
    split_ifs at h
    · exact hreserve settings i j h
    · exact hs.reserve k settings i j h

/-- A thread changes a channel, and goes on to where it does not reserve one. -/
theorem sound_modify (hs : Sound s) {conn i j : ℕ} {f : Channel π → Channel π} {pc : Pc}
    (hpc : ∀ settings i j, pc ≠ .reserve settings i j)
    (hbalanced : Balanced (Busy (modifyChannel s.devices i j f))
      (update (Pc.owns ∘ s.pcs) conn pc.owns)) :
    Sound (s.modify conn i j f pc) where
  balanced := by
    change Balanced _ (Pc.owns ∘ update s.pcs conn pc)
    rw [comp_update]
    exact hbalanced
  reserve k settings i' j' h := by
    change update s.pcs conn pc k = _ at h
    rw [update_apply] at h
    split_ifs at h
    · exact absurd h (hpc settings i' j')
    · have := hs.reserve k settings i' j' h
      rw [isSome_channelAt_iff] at this
      change (channelAt (modifyChannel s.devices i j f) i' j').isSome
      rwa [isSome_channelAt_iff,shape_modifyChannel]

/-- The channel of a thread is given back. -/
theorem sound_release (hs : Sound s) {conn i j : ℕ} {pc : Pc} (howns : (s.pcs conn).owns = some (i,j))
    (hpc : ∀ settings i j, pc ≠ .reserve settings i j) (hnone : pc.owns = none) :
    Sound (s.modify conn i j Channel.release pc) := by
  apply sound_modify hs hpc
  rw [hnone]
  refine (hs.balanced.release conn).congr fun k => ?_
  rw [busy_modifyChannel,comp_apply,howns]
  constructor
  · rintro (⟨-,c,-,hc⟩ | ⟨hk,hbusy⟩)
    · cases hc
    · exact ⟨hbusy,fun h => hk (Option.some.inj h).symm⟩
  · intro ⟨hbusy,hk⟩
    exact Or.inr ⟨fun h => hk (congrArg some h).symm,hbusy⟩

theorem sound_next (hs : Sound s) {conn : ℕ} {fresh : RateP} (hfine : Fine s (.next conn fresh))
    (h : s.next conn fresh = some t) : Sound t := by
  unfold State.next at h
  cases hpc : s.pcs conn with
  | idle =>
    simp only [hpc] at h
    cases h
  | holding i j =>
    simp only [hpc] at h
    cases h
  | test settings i j =>
    simp only [hpc] at h
    split at h
    · obtain rfl := Option.some.inj h
      exact sound_goto hs (by rw [hpc]; rfl) (by simp)
    · rename_i d hd
      split at h
      · obtain rfl := Option.some.inj h
        exact sound_goto hs (by rw [hpc]; rfl) (by simp)
      · rename_i c hc
        obtain rfl := Option.some.inj h
        split_ifs
        · exact sound_goto hs (by rw [hpc]; rfl) (by simp)
        · refine sound_goto hs (by rw [hpc]; rfl) fun settings' i' j' heq => ?_
          obtain ⟨-,rfl,rfl⟩ := Pc.reserve.inj heq
          rw [channelAt,hd,Option.bind_some,hc]
          rfl
  | reserve settings i j =>
    simp only [hpc] at h
    obtain rfl := Option.some.inj h
    obtain ⟨c,hc⟩ := Option.isSome_iff_exists.mp (hs.reserve conn settings i j hpc)
    have howns : (Pc.owns ∘ s.pcs) conn = none := by
      rw [comp_apply,hpc]
      rfl
    refine sound_modify hs ?_ ?_
    · simp
    · refine (hs.balanced.acquire (hfine settings i j hpc) howns).congr fun k => ?_
      rw [busy_modifyChannel]
      by_cases hk : k = (i,j)
      · simp [hk,hc,Channel.reserve]
      · simp [hk]
  | create settings i j =>
    simp only [hpc] at h
    obtain rfl := Option.some.inj h
    exact sound_goto hs (by rw [hpc]; rfl) (by simp)
  | renegotiate settings i j =>
    simp only [hpc] at h
    have howns : (Pc.owns ∘ s.pcs) conn = some (i,j) := by
      rw [comp_apply,hpc]
      rfl
    obtain ⟨c,hc,hbusy⟩ := hs.balanced.taken_of_holds howns
    simp only at hc
    simp only [hc,renegotiate_eq] at h
    cases hrate : settings.rate fresh with
    | ok rate =>
      simp only [hrate,Except.map] at h
      obtain rfl := Option.some.inj h
      refine sound_modify hs ?_ ?_
      · simp
      · change Balanced _ (update _ conn (some (i,j)))
        rw [← howns,update_eq_self]
        refine hs.balanced.congr fun k => ?_
        rw [busy_modifyChannel]
        by_cases hk : k = (i,j)
        · simp [hk,hc,Device.busy_applyRate,hbusy,hs.balanced.taken_of_holds howns]
        · simp [hk]
    | error e =>
      cases e with
      | invalidArgument =>
        simp only [hrate,Except.map] at h
        obtain rfl := Option.some.inj h
        exact sound_release hs howns (by simp) rfl
      | outOfRange =>
        simp only [hrate,Except.map] at h
        cases h

theorem sound_step (s : State π) (e : Event) (t : State π) (hs : Sound s) (hfine : Fine s e)
    (h : s.step e = some t) : Sound t := by
  cases e with
  | request conn settings =>
    simp only [State.step] at h
    split at h
    · rename_i hpc
      obtain rfl := Option.some.inj h
      exact sound_goto hs (by rw [hpc]; rfl) nofun
    · cases h
  | next conn fresh => exact sound_next hs hfine h
  | stop conn =>
    simp only [State.step] at h
    split at h
    · rename_i i j hpc
      obtain rfl := Option.some.inj h
      exact sound_release hs (by rw [hpc]; rfl) nofun rfl
    · cases h

theorem not_exclusive_goto {p conn : ℕ} {settings : Settings} {i j : ℕ}
    (hp : (s.pcs p).session = some (i,j)) (hne : p ≠ conn) :
    ¬ Exclusive (s.goto conn (.renegotiate settings i j)) := by
  intro h
  apply hne
  apply h p conn (i,j)
  · change (update s.pcs conn _ p).session = _
    rw [update_of_ne hne,hp]
  · change (update s.pcs conn _ conn).session = _
    rw [update_self]
    rfl

theorem next_of_create {conn : ℕ} {settings : Settings} {i j : ℕ} (fresh : RateP)
    (h : s.pcs conn = .create settings i j) :
    s.step (.next conn fresh) = some (s.goto conn (.renegotiate settings i j)) := by
  rw [State.step,State.next,h]

/-- A channel that is reserved although it is busy may get two sessions. -/
theorem not_exclusive_of_not_fine (hs : Sound s) {e : Event} (hfine : ¬ Fine s e) :
    ∃ es t, run State.step s (e::es) = some t ∧ ¬ Exclusive t := by
  cases e with
  | request conn settings => exact absurd trivial hfine
  | stop conn => exact absurd trivial hfine
  | next conn fresh =>
    simp only [Fine,not_forall,not_not] at hfine
    obtain ⟨settings,i,j,hpc,hbusy⟩ := hfine
    obtain ⟨p,hp⟩ := (hs.balanced.taken_iff _).mp hbusy
    have hne : p ≠ conn := by
      intro hconn
      rw [hconn,comp_apply,hpc] at hp
      cases hp
    have hreserve : s.step (.next conn fresh) =
        some (s.modify conn i j Channel.reserve (.create settings i j)) := by
      rw [State.step,State.next,hpc]
    have hconn : (s.modify conn i j Channel.reserve (.create settings i j)).pcs conn =
        .create settings i j := update_self conn _ _
    have hother : (s.modify conn i j Channel.reserve (.create settings i j)).pcs p = s.pcs p :=
      update_of_ne hne _ _
    generalize s.modify conn i j Channel.reserve (.create settings i j) = u at *
    cases hcreate : s.pcs p with
    | create settings' i' j' =>
      rw [comp_apply,hcreate] at hp
      obtain ⟨rfl,rfl⟩ := Prod.mk.inj (Option.some.inj hp)
      -- The other thread gets to its session first.
      have hnext := next_of_create fresh (hother.trans hcreate)
      have hconn' : (u.goto p (.renegotiate settings' i' j')).pcs conn =
          .create settings i' j' := (update_of_ne (Ne.symm hne) _ _).trans hconn
      have hp' : ((u.goto p (.renegotiate settings' i' j')).pcs p).session = some (i',j') := by
        change (update u.pcs p _ p).session = _
        rw [update_self]
        rfl
      exact ⟨[.next p fresh,.next conn fresh],_,(run_cons _ _ _ _).mpr ⟨_,hreserve,
        (run_cons _ _ _ _).mpr ⟨_,hnext,(run_cons _ _ _ _).mpr
          ⟨_,next_of_create fresh hconn',rfl⟩⟩⟩,not_exclusive_goto hp' hne⟩
    | _ =>
      have hp' : (u.pcs p).session = some (i,j) := by
        rw [comp_apply,hcreate] at hp
        rw [hother,hcreate]
        exact hp
      exact ⟨[.next conn fresh],_,(run_cons _ _ _ _).mpr ⟨_,hreserve,(run_cons _ _ _ _).mpr
        ⟨_,next_of_create fresh hconn,rfl⟩⟩,not_exclusive_goto hp' hne⟩

end

/-- As long as no channel is reserved that has become busy after its test, no two sessions are on
one channel; once that happens, there may be two of them. -/
theorem run_exclusive {π : Type} (counts : List ℕ) (es : List Event) (s : State π)
    (h : run State.step (State.start counts) es = some s)
    (hfine : Meets State.step Fine (State.start counts : State π) es) :
    Exclusive s ∧
    ∀ e, ¬ Fine s e → ∃ es' t, run State.step s (e::es') = some t ∧ ¬ Exclusive t :=
  have hs := run_invariant_of_meets sound_step (sound_start counts) hfine h
  ⟨hs.exclusive,fun _ => not_exclusive_of_not_fine hs⟩

/-- A step of a client's thread. -/
def go (conn : ℕ) : Event := .next conn (.replicate 6 0)

/-- Two clients, the second one after the first. -/
def turns : List Event :=
  [.request 0 {},go 0,go 0,go 0,go 0,.request 1 {},go 1,go 1,go 1,go 1,go 1]

/-- Each of them has a channel of its own. -/
theorem run_exclusive_turns : ∃ s : State Packet,
    run State.step (State.start [2]) turns = some s ∧ (s.pcs 0).session = some (0,0) ∧
      (s.pcs 1).session = some (0,1) ∧ Exclusive s := by
  refine ⟨_,rfl,rfl,rfl,(run_exclusive [2] turns _ rfl ?_).1⟩
  refine meets_cons trivial rfl (meets_cons nofun rfl (meets_cons ?_ rfl ?_))
  · rintro settings i j hpc ⟨c,hc,hbusy⟩
    obtain ⟨-,rfl,rfl⟩ := Pc.reserve.inj hpc
    obtain rfl := Option.some.inj hc
    cases hbusy
  refine meets_cons nofun rfl (meets_cons nofun rfl (meets_cons trivial rfl ?_))
  refine meets_cons nofun rfl (meets_cons nofun rfl (meets_cons ?_ rfl ?_))
  · rintro settings i j hpc ⟨c,hc,hbusy⟩
    obtain ⟨-,rfl,rfl⟩ := Pc.reserve.inj hpc
    obtain rfl := Option.some.inj hc
    cases hbusy
  exact meets_cons nofun rfl (meets_cons nofun rfl trivial)

/-- Two clients test the only channel before one of them reserves it. -/
theorem not_exclusive_together :
    ¬ ∀ (counts : List ℕ) (es : List Event) (s : State Packet),
      run State.step (State.start counts) es = some s → Exclusive s := by
  intro h
  have exclusive := h [1]
    [.request 0 {},.request 1 {},go 0,go 1,go 0,go 1,go 0,go 1,go 0,go 1] _ rfl
  cases exclusive 0 1 (0,0) rfl rfl

end CodecServer.Server.Reservation
