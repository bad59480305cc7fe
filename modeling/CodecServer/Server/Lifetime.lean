import Mathlib.Logic.Function.Basic
import CodecServer.Ambe3K.Hotplug
import CodecServer.Ownership
import CodecServer.Server.ClientConnection

/-! Sessions and the devices that they point to, with devices that may be destroyed at any time. -/
namespace CodecServer.Server.Lifetime
open Function CodecServer.Numeral CodecServer.Transition CodecServer.Ownership CodecServer.Ambe3K
open CodecServer.Ambe3K.Protocol

/-- Both registries; what is, or was, in memory at each device; the sessions, by device and channel;
and the requests that are being processed, with the devices that are still to be tried. -/
structure State (π : Type) where
  system : System := {}
  memory : ℕ → Device π := fun _ => ⟨[]⟩
  sessions : ℕ → Option (ℕ × ℕ) := fun _ => none
  requests : ℕ → Option (Settings × List ℕ) := fun _ => none

/-- The devices change, where a new one has a number of channels; a device is unregistered; a request
arrives, and tries the next device; the session is set up again, or used, or its client goes. -/
inductive Event
  | system (e : Hotplug.Event) (count : ℕ)
  | unregisterDevice (device : ℕ)
  | request (conn : ℕ) (codec : Text) (settings : Settings)
  | next (conn : ℕ) (fresh : RateP)
  | renegotiation (conn : ℕ) (settings : Settings) (fresh : RateP)
  | data (conn : ℕ)
  | disconnect (conn : ℕ)

namespace State
variable {π : Type}

def modifyChannel (s : State π) (d j : ℕ) (f : Channel π → Channel π) : State π :=
  {s with memory := update s.memory d ⟨(s.memory d).channels.modify j f⟩}

/-- `ClientConnection::stopSession`. -/
def stopSession (s : State π) (conn : ℕ) : State π :=
  match s.sessions conn with
  | none => s
  | some (d,j) => {s.modifyChannel d j Channel.release with sessions := update s.sessions conn none}

/-- The loop over the devices has the pointers that `findDevices` has copied. -/
def next (s : State π) (conn : ℕ) (fresh : RateP) : Option (State π) :=
  match s.requests conn with
  | none => none
  | some (_,[]) => some {s with requests := update s.requests conn none}
  | some (settings,d::ds) =>
    match (s.memory d).startSession settings fresh with
    | .error _ => none
    | .ok (device,none) =>
      some
        { s with
          memory := update s.memory d device
          requests := update s.requests conn (some (settings,ds)) }
    | .ok (device,some (j,_)) =>
      some
        { s with
          memory := update s.memory d device
          sessions := update s.sessions conn (some (d,j))
          requests := update s.requests conn none }

def renegotiation (s : State π) (conn : ℕ) (settings : Settings) (fresh : RateP) :
    Option (State π) :=
  match s.sessions conn with
  | none => none
  | some (d,j) =>
    match (s.memory d).channels[j]? with
    | none => none
    | some c =>
      match c.renegotiate settings fresh with
      | .error _ => some s
      | .ok (c,_) => some (s.modifyChannel d j fun _ => c)

/-- What happens next, as long as no exception ends the server. Memory that is not used anymore keeps
its contents. -/
def step (s : State π) : Event → Option (State π)
  | .system e count =>
    (Hotplug.step s.system e).map fun system =>
      { s with
        system := system
        memory :=
          if s.system.fresh < system.fresh then
            update s.memory s.system.fresh (.createChannels count)
          else s.memory }
  | .unregisterDevice device => some {s with system := Hotplug.unregister s.system device}
  | .request conn codec settings =>
    match s.requests conn with
    | some _ => none
    | none =>
      let s := s.stopSession conn
      let (found,core) := s.system.core.findDevices codec
      some
        { s with
          system := {s.system with core := core}
          requests := update s.requests conn (some (settings,found)) }
  | .next conn fresh => s.next conn fresh
  | .renegotiation conn settings fresh =>
    match s.requests conn with
    | some _ => none
    | none => s.renegotiation conn settings fresh
  | .data conn =>
    match s.requests conn with
    | some _ => none
    | none => some s
  | .disconnect conn =>
    match s.requests conn with
    | some _ => none
    | none => some (s.stopSession conn)

end State

section
variable {π : Type} {s t : State π}

/-- Every session is on a channel of a device that has not been destroyed. -/
def Live (s : State π) : Prop :=
  ∀ conn d j, s.sessions conn = some (d,j) →
    d ∉ s.system.core.destroyed ∧ ∃ c, (s.memory d).channels[j]? = some c

/-- A registered device has no session when it is unregistered. -/
def Spared (s : State π) : Event → Prop
  | .system e _ => ∀ d, Hotplug.unregistered s.system e = some d → s.system.core.Registered d →
    ∀ conn j, s.sessions conn ≠ some (d,j)
  | .unregisterDevice d => s.system.core.Registered d → ∀ conn j, s.sessions conn ≠ some (d,j)
  | _ => True

/-- Nor does a registration of the driver go on to hold it: its address may become that of another
device. And no request tries a device that has been destroyed since it was found. -/
def Fine (s : State π) : Event → Prop
  | .system e count => Spared s (.system e count) ∧ Hotplug.Fine s.system e
  | .unregisterDevice d => Spared s (.unregisterDevice d) ∧
    (s.system.core.Registered d → ∀ node, Hotplug.removed s.system node ≠ some d)
  | .next conn _ => ∀ settings d ds, s.requests conn = some (settings,d::ds) →
    d ∉ s.system.core.destroyed
  | _ => True

/-- The devices that somebody knows have been built, and so have the channels of the sessions. -/
structure Sound (s : State π) : Prop where
  system : Hotplug.Sound s.system
  registered : ∀ d, s.system.core.Registered d → d < s.system.fresh
  requests : ∀ conn settings ds, s.requests conn = some (settings,ds) →
    ∀ d ∈ ds, d < s.system.fresh
  sessions : ∀ conn d j, s.sessions conn = some (d,j) →
    d < s.system.fresh ∧ j < (s.memory d).channels.length

theorem live_iff (hs : Sound s) :
    Live s ↔ ∀ conn d j, s.sessions conn = some (d,j) → d ∉ s.system.core.destroyed := by
  constructor
  · intro h conn d j hconn
    exact (h conn d j hconn).1
  · intro h conn d j hconn
    exact ⟨h conn d j hconn,_,List.getElem?_eq_getElem (hs.sessions conn d j hconn).2⟩

theorem sound_init : Sound ({} : State π) where
  system := Hotplug.sound_init
  registered := nofun
  requests := nofun
  sessions := nofun

/-- The sessions keep their channels as long as no device that they know is built again. -/
theorem sound_of {t : State π} (hs : Sound s) (hsystem : Hotplug.Sound t.system)
    (heffect : s.system.fresh ≤ t.system.fresh)
    (hregistered : ∀ d, t.system.core.Registered d → d < t.system.fresh)
    (hrequests : ∀ conn settings ds, t.requests conn = some (settings,ds) →
      ∀ d ∈ ds, d < t.system.fresh)
    (hlength : ∀ d < s.system.fresh,
      (t.memory d).channels.length = (s.memory d).channels.length)
    (hsessions : ∀ conn d j, t.sessions conn = some (d,j) → s.sessions conn = some (d,j) ∨
      (d < t.system.fresh ∧ j < (t.memory d).channels.length)) : Sound t where
  system := hsystem
  registered := hregistered
  requests := hrequests
  sessions conn d j h := by
    rcases hsessions conn d j h with hold | hnew
    · obtain ⟨hd,hj⟩ := hs.sessions conn d j hold
      exact ⟨Nat.lt_of_lt_of_le hd heffect,by rwa [hlength d hd]⟩
    · exact hnew

theorem length_update (memory : ℕ → Device π) (d : ℕ) {device : Device π}
    (h : device.channels.length = (memory d).channels.length) (d' : ℕ) :
    (update memory d device d').channels.length = (memory d').channels.length := by
  by_cases hd : d' = d
  · rw [hd,update_self,h]
  · rw [update_of_ne hd]

theorem length_modify (s : State π) (d j : ℕ) (f : Channel π → Channel π) (d' : ℕ) :
    ((s.modifyChannel d j f).memory d').channels.length = (s.memory d').channels.length :=
  length_update s.memory d (List.length_modify _ _ _) d'

theorem sessions_stopSession {conn k : ℕ} {session : ℕ × ℕ}
    (h : (s.stopSession conn).sessions k = some session) : s.sessions k = some session := by
  unfold State.stopSession at h
  split at h
  · exact h
  · exact (of_update_none h).2

theorem stopSession_frame (s : State π) (conn : ℕ) :
    (s.stopSession conn).system = s.system ∧ (s.stopSession conn).requests = s.requests ∧
      ∀ d, ((s.stopSession conn).memory d).channels.length = (s.memory d).channels.length := by
  unfold State.stopSession
  split
  · exact ⟨rfl,rfl,fun _ => rfl⟩
  · exact ⟨rfl,rfl,length_modify s _ _ _⟩

theorem sound_stopSession (hs : Sound s) (conn : ℕ) : Sound (s.stopSession conn) := by
  obtain ⟨hsystem,hrequests,hlength⟩ := stopSession_frame s conn
  refine sound_of hs ?_ ?_ ?_ ?_ (fun d _ => hlength d) fun _ _ _ h =>
    Or.inl (sessions_stopSession h)
  · rw [hsystem]
    exact hs.system
  · rw [hsystem]
  · rw [hsystem]
    exact hs.registered
  · rw [hsystem,hrequests]
    exact hs.requests

/-- Sessions that go, or stay as they are, are as live as they were. -/
theorem live_of_sub (hlive : Live s) (ht : Sound t)
    (hdestroyed : ∀ d, d ∈ t.system.core.destroyed → d ∈ s.system.core.destroyed)
    (hsessions : ∀ conn d j, t.sessions conn = some (d,j) → s.sessions conn = some (d,j)) :
    Live t := by
  rw [live_iff ht]
  intro conn d j h hd
  exact (hlive conn d j (hsessions conn d j h)).1 (hdestroyed d hd)

theorem sound_effect {system : System} {unregistered : Option ℕ} {memory : ℕ → Device π}
    (hs : Sound s) (hsystem : Hotplug.Sound system)
    (heffect : Hotplug.Effect s.system system unregistered)
    (hmemory : ∀ d < s.system.fresh, memory d = s.memory d) :
    Sound {s with system := system, memory := memory} := by
  refine sound_of hs hsystem heffect.fresh (fun d hd => ?_) (fun conn settings ds h d hd => ?_)
    (fun d hd => congrArg (·.channels.length) (hmemory d hd)) fun _ _ _ h => Or.inl h
  · rcases heffect.registered d hd with hold | ⟨rfl,hnew⟩
    · exact Nat.lt_of_lt_of_le (hs.registered d hold) heffect.fresh
    · exact hnew
  · exact Nat.lt_of_lt_of_le (hs.requests conn settings ds h d hd) heffect.fresh

/-- Only a device that has a session leaves a session behind when it is destroyed. -/
theorem live_effect_iff {unregistered : Option ℕ} (hlive : Live s) (ht : Sound t)
    (hsessions : t.sessions = s.sessions)
    (heffect : Hotplug.Effect s.system t.system unregistered) :
    Live t ↔ ∀ d, unregistered = some d → s.system.core.Registered d →
      ∀ conn j, s.sessions conn ≠ some (d,j) := by
  rw [live_iff ht,hsessions]
  constructor
  · intro h d hd hregistered conn j hconn
    exact h conn d j hconn ((heffect.destroyed d).mpr (Or.inr ⟨hd,hregistered⟩))
  · intro h conn d j hconn hdestroyed
    rcases (heffect.destroyed d).mp hdestroyed with hold | ⟨hd,hregistered⟩
    · exact (hlive conn d j hconn).1 hold
    · exact h d hd hregistered conn j hconn

/-- A client asks for another session: the old one ends, and the devices are looked up. -/
theorem sound_request (hs : Sound s) (conn : ℕ) (codec : Text) (settings : Settings) :
    Sound
      { s.stopSession conn with
        system :=
          { (s.stopSession conn).system with
            core := ((s.stopSession conn).system.core.findDevices codec).2 }
        requests := update (s.stopSession conn).requests conn
          (some (settings,((s.stopSession conn).system.core.findDevices codec).1)) } := by
  have hstop := sound_stopSession hs conn
  generalize s.stopSession conn = u at hstop ⊢
  have hregistered : ∀ d, (u.system.core.findDevices codec).2.Registered d → d < u.system.fresh :=
    fun d hd => hstop.registered d ((Registry.registered_findDevices _ d codec).mp hd)
  refine sound_of hstop (Hotplug.sound_findDevices hstop.system codec) (Nat.le_refl _) hregistered
    (fun k settings' ds hk d hd => ?_)
    (fun _ _ => rfl) fun _ _ _ => Or.inl
  cases of_update_some hk with
  | inl hk =>
    cases hk.2
    exact hstop.registered d ⟨codec,hd⟩
  | inr hk => exact hstop.requests k settings' ds hk.2 d hd

theorem startSession_length {device d' : Device π} {settings : Settings} {fresh : RateP}
    {session : Option (ℕ × List Outgoing)}
    (h : device.startSession settings fresh = .ok (d',session)) :
    d'.channels.length = device.channels.length ∧
      ∀ j packets, session = some (j,packets) → j < device.channels.length := by
  rcases Device.startSession_eq_ok settings fresh h with ⟨rfl,rfl⟩ | ⟨j,c,-,hat,-,hrest⟩
  · exact ⟨rfl,nofun⟩
  · obtain ⟨hj,-⟩ := List.getElem?_eq_some_iff.mp hat
    rcases hrest with ⟨rfl,hd⟩ | ⟨rate,-,rfl,hd⟩
    · exact ⟨by rw [hd,List.length_set],nofun⟩
    · refine ⟨by rw [hd,List.length_set],fun j' packets hsome => ?_⟩
      cases hsome
      exact hj

/-- The requests that are being processed only know devices that were known before. -/
theorem requests_update {conn : ℕ} {settings : Settings} {ds : List ℕ} (hs : Sound s)
    (hds : ∀ d ∈ ds, d < s.system.fresh) (k : ℕ) (settings' : Settings) (ds' : List ℕ)
    (h : update s.requests conn (some (settings,ds)) k = some (settings',ds')) :
    ∀ d ∈ ds', d < s.system.fresh := by
  cases of_update_some h with
  | inl h =>
    cases h.2
    exact hds
  | inr h => exact hs.requests k settings' ds' h.2

theorem requests_done {conn : ℕ} (hs : Sound s) (k : ℕ) (settings : Settings) (ds : List ℕ)
    (h : update s.requests conn none k = some (settings,ds)) : ∀ d ∈ ds, d < s.system.fresh := by
  exact hs.requests k settings ds (of_update_none h).2

theorem sound_next {conn : ℕ} {fresh : RateP} (hs : Sound s) (h : s.next conn fresh = some t) :
    Sound t := by
  unfold State.next at h
  split at h
  · cases h
  · obtain rfl := Option.some.inj h
    exact sound_of hs hs.system (Nat.le_refl _) hs.registered (requests_done hs) (fun _ _ => rfl)
      fun _ _ _ => Or.inl
  · rename_i settings d ds hrequest
    have hds := hs.requests conn settings (d::ds) hrequest
    split at h
    · cases h
    · rename_i device hstart
      obtain rfl := Option.some.inj h
      obtain ⟨hlength,-⟩ := startSession_length hstart
      exact sound_of hs hs.system (Nat.le_refl _) hs.registered
        (requests_update hs fun d hd => hds d (List.mem_cons_of_mem _ hd))
        (fun d' _ => length_update s.memory d hlength d') fun _ _ _ => Or.inl
    · rename_i device j packets hstart
      obtain rfl := Option.some.inj h
      obtain ⟨hlength,hj⟩ := startSession_length hstart
      refine sound_of hs hs.system (Nat.le_refl _) hs.registered (requests_done hs)
        (fun d' _ => length_update s.memory d hlength d') fun k d' j' hk => ?_
      cases of_update_some hk with
      | inl hk =>
        cases hk.2
        refine Or.inr ⟨hds d List.mem_cons_self,?_⟩
        rw [length_update s.memory d hlength]
        exact hj j packets rfl
      | inr hk => exact Or.inl hk.2

/-- A session is started on a device that has not been destroyed. -/
theorem live_next {conn : ℕ} {fresh : RateP} (hlive : Live s) (ht : Sound t)
    (hfine : Fine s (.next conn fresh)) (h : s.next conn fresh = some t) : Live t := by
  unfold State.next at h
  split at h
  · cases h
  · obtain rfl := Option.some.inj h
    exact live_of_sub hlive ht (fun _ => id) fun _ _ _ => id
  · rename_i settings d ds hrequest
    split at h
    · cases h
    · obtain rfl := Option.some.inj h
      exact live_of_sub hlive ht (fun _ => id) fun _ _ _ => id
    · rename_i device j packets hstart
      obtain rfl := Option.some.inj h
      rw [live_iff ht]
      intro k d' j' hk
      cases of_update_some hk with
      | inl hk =>
        cases hk.2
        exact hfine settings d ds hrequest
      | inr hk => exact (hlive k d' j' hk.2).1

theorem next_system {conn : ℕ} {fresh : RateP} (h : s.next conn fresh = some t) :
    t.system = s.system := by
  unfold State.next at h
  split at h
  · cases h
  · exact Option.some.inj h ▸ rfl
  · split at h
    · cases h
    · exact Option.some.inj h ▸ rfl
    · exact Option.some.inj h ▸ rfl

theorem sound_renegotiation {conn : ℕ} {settings : Settings} {fresh : RateP} (hs : Sound s)
    (h : s.renegotiation conn settings fresh = some t) : Sound t ∧ t.system = s.system ∧
      t.sessions = s.sessions := by
  unfold State.renegotiation at h
  split at h
  · cases h
  · split at h
    · cases h
    · split at h
      · obtain rfl := Option.some.inj h
        exact ⟨hs,rfl,rfl⟩
      · obtain rfl := Option.some.inj h
        refine ⟨?_,rfl,rfl⟩
        exact sound_of hs hs.system (Nat.le_refl _) hs.registered hs.requests
          (fun d _ => length_modify s _ _ _ d) fun _ _ _ => Or.inl

theorem sound_step (s : State π) (e : Event) (t : State π) (hs : Sound s)
    (h : s.step e = some t) : Sound t := by
  cases e with
  | system e count =>
    obtain ⟨system,hstep,rfl⟩ := Option.map_eq_some_iff.mp h
    refine sound_effect hs (Hotplug.sound_step _ _ _ hs.system hstep)
      (Hotplug.effect_step hstep) fun d hd => ?_
    split_ifs
    · exact update_of_ne (Nat.ne_of_lt hd) _ _
    · rfl
  | unregisterDevice device =>
    obtain rfl := Option.some.inj h
    exact sound_effect hs (Hotplug.sound_unregister hs.system (hs.registered device))
      (Hotplug.effect_unregister rfl rfl) fun _ _ => rfl
  | next conn fresh => exact sound_next hs h
  | request conn codec settings =>
    simp only [State.step] at h
    split at h
    · cases h
    · exact Option.some.inj h ▸ sound_request hs conn codec settings
  | renegotiation conn settings fresh =>
    simp only [State.step] at h
    split at h
    · cases h
    · exact (sound_renegotiation hs h).1
  | data conn =>
    simp only [State.step] at h
    split at h
    · cases h
    · exact Option.some.inj h ▸ hs
  | disconnect conn =>
    simp only [State.step] at h
    split at h
    · cases h
    · exact Option.some.inj h ▸ sound_stopSession hs conn

/-- The sessions are live, and what the driver knows about its nodes is true. -/
def Safe (s : State π) : Prop := Live s ∧ Hotplug.Coherent s.system

/-- A step that touches the sessions only in that one may go. -/
theorem safe_of_sub (hsafe : Safe s) (ht : Sound t) (hsystem : t.system = s.system)
    (hsessions : ∀ conn d j, t.sessions conn = some (d,j) → s.sessions conn = some (d,j)) :
    Safe t := by
  refine ⟨live_of_sub hsafe.1 ht (fun d hd => ?_) hsessions,?_⟩
  · rwa [hsystem] at hd
  · rw [hsystem]
    exact hsafe.2

theorem safe_step (s : State π) (e : Event) (t : State π) (hs : Sound s) (hsafe : Safe s)
    (hfine : Fine s e) (h : s.step e = some t) : Safe t := by
  have ht := sound_step s e t hs h
  cases e with
  | system e count =>
    obtain ⟨system,hstep,rfl⟩ := Option.map_eq_some_iff.mp h
    refine ⟨(live_effect_iff hsafe.1 ht rfl (Hotplug.effect_step hstep)).mpr hfine.1,?_⟩
    exact (Hotplug.coherent_step_iff _ _ _ hs.system hsafe.2 hstep).mpr hfine.2
  | unregisterDevice device =>
    obtain rfl := Option.some.inj h
    refine ⟨(live_effect_iff hsafe.1 ht rfl (Hotplug.effect_unregister rfl rfl)).mpr ?_,
      Hotplug.coherent_unregister hsafe.2 hfine.2⟩
    exact fun d hd => Option.some.inj hd ▸ hfine.1
  | next conn fresh =>
    exact ⟨live_next hsafe.1 ht hfine h,(next_system h).symm ▸ hsafe.2⟩
  | request conn codec settings =>
    simp only [State.step] at h
    split at h
    · cases h
    · obtain rfl := Option.some.inj h
      have hsystem := (stopSession_frame s conn).1
      refine ⟨live_of_sub hsafe.1 ht (fun d hd => ?_) fun _ _ _ h => sessions_stopSession h,?_⟩
      · change d ∈ (s.stopSession conn).system.core.destroyed at hd
        rwa [hsystem] at hd
      · simp only [hsystem]
        exact Hotplug.coherent_findDevices hsafe.2 codec
  | renegotiation conn settings fresh =>
    simp only [State.step] at h
    split at h
    · cases h
    · obtain ⟨-,hsystem,hsessions⟩ := sound_renegotiation hs h
      refine safe_of_sub hsafe ht hsystem ?_
      rw [hsessions]
      exact fun _ _ _ => id
  | data conn =>
    simp only [State.step] at h
    split at h
    · cases h
    · exact Option.some.inj h ▸ hsafe
  | disconnect conn =>
    simp only [State.step] at h
    split at h
    · cases h
    · obtain rfl := Option.some.inj h
      exact safe_of_sub hsafe ht (stopSession_frame s conn).1 fun _ _ _ h => sessions_stopSession h

/-- A device that is destroyed while it has a session leaves that session behind. -/
theorem spared_of_live (s : State π) (e : Event) (t : State π) (h : s.step e = some t)
    (ht : Live t) : Spared s e := by
  cases e with
  | system e count =>
    obtain ⟨system,hstep,rfl⟩ := Option.map_eq_some_iff.mp h
    intro d hd hregistered conn j hconn
    exact (ht conn d j hconn).1
      (((Hotplug.effect_step hstep).destroyed d).mpr (Or.inr ⟨hd,hregistered⟩))
  | unregisterDevice device =>
    obtain rfl := Option.some.inj h
    intro hregistered conn j hconn
    exact (ht conn device j hconn).1
      ((Registry.mem_destroyed_unregisterDevice _ _ _).mpr (Or.inr ⟨rfl,hregistered⟩))
  | _ => trivial

end

/-- Every session has a live channel throughout, and every registration a live device or none, if no
device is destroyed while it has a session or a registration that goes on to hold it, and no request
tries one that has been destroyed. No session survives its device. -/
theorem always_live {π : Type} (es : List Event)
    (h : (run State.step ({} : State π) es).isSome) :
    (Meets State.step Fine ({} : State π) es → Always State.step Safe ({} : State π) es) ∧
    (Always State.step Live ({} : State π) es → Meets State.step Spared ({} : State π) es) := by
  constructor
  · intro hfine
    have hinit : Sound ({} : State π) ∧ Safe ({} : State π) :=
      ⟨sound_init,nofun,Hotplug.coherent_iff.mpr nofun⟩
    refine (always_of_meets (P := fun s => Sound s ∧ Safe s) (fun s e t hs hfine hstep => ?_) hinit
      hfine).imp fun _ => And.right
    exact ⟨sound_step s e t hs.1 hstep,safe_step s e t hs.1 hs.2 hfine hstep⟩
  · intro halways
    exact meets_of_always (fun s e t _ _ => spared_of_live s e t)
      (meets_of_forall (fun _ _ => trivial) _ es) halways h

/-- A device is there, a client gets a session, and goes before the device does. -/
def visit : List Event :=
  [.system (.loadDeviceFromConfig Hotplug.section115200 true) 1,.request 0 State.ambe {},
    .next 0 (.replicate 6 0),.disconnect 0,.system (.udevRemove [0x74]) 0]

theorem always_live_visit : Always State.step Safe ({} : State Packet) visit := by
  refine (always_live visit rfl).1 ?_
  refine meets_cons ⟨nofun,trivial⟩ rfl (meets_cons trivial rfl (meets_cons ?_ rfl ?_))
  · intro settings d ds _
    exact nofun
  · refine meets_cons trivial rfl (meets_cons ⟨?_,trivial⟩ rfl trivial)
    intro d _ _ conn j hconn
    cases conn <;> cases hconn

/-- A device that is unplugged while a client has a session on it. -/
theorem not_always_live_unplugged :
    ¬ ∀ es : List Event, (run State.step ({} : State Packet) es).isSome →
      Always State.step Live ({} : State Packet) es := by
  intro h
  have live := h [.system (.loadDeviceFromConfig Hotplug.section115200 true) 1,
    .request 0 State.ambe {},.next 0 (.replicate 6 0),.system (.udevRemove [0x74]) 0] rfl
  exact ((live.last rfl) 0 0 0 rfl).1 (by decide)

end CodecServer.Server.Lifetime
