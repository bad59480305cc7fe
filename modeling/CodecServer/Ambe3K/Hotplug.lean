import CodecServer.Transition
import CodecServer.Ambe3K.Driver

/-! Devices that come and go: what the driver knows about the device of a node, and whether there
still is one. -/
namespace CodecServer.Ambe3K.Hotplug
open CodecServer.Numeral CodecServer.Transition

/-- A section is loaded; the worker of a device reports an error; udev reports that a node is there,
or is gone. A device that is built works, or does not. -/
inductive Event
  | loadDeviceFromConfig (config : Section) (works : Bool)
  | onQueueError (device : ℕ)
  | udevAdd (node : Text) (works : Bool)
  | udevRemove (node : Text)

/-- `Registry::findByNode` of the driver. -/
def findByNode (s : System) (node : Text) : Option Registration := s.devices.lookup node

def unregister (s : System) (device : ℕ) : System :=
  {s with core := s.core.unregisterDevice device}

def load (s : System) (config : Section) (works : Bool) : Option System :=
  match s.loadDeviceFromConfig config works with
  | (s,.ok ()) => some s
  | (_,.error _) => none

/-- The device that a remove event hands over to `unregisterDevice`. -/
def removed (s : System) (node : Text) : Option ℕ := (findByNode s node).bind Registration.device

/-- What happens next, unless an exception ends the server. Only a device that exists has a worker. -/
def step (s : System) : Event → Option System
  | .loadDeviceFromConfig config works => load s config works
  | .onQueueError device =>
    if device < s.fresh ∧ device ∉ s.core.destroyed then some (unregister s device) else none
  | .udevAdd node works =>
    match findByNode s node with
    | none => some s
    | some registration =>
      if registration.device = none then load s registration.config works else some s
  | .udevRemove node =>
    match findByNode s node with
    | none => some s
    | some registration =>
      match registration.device with
      | none => some s
      | some device =>
        some
          { unregister s device with
            devices := s.devices.insert node {registration with device := none} }

/-- A device that is registered, and not destroyed. -/
def Live (s : System) (device : ℕ) : Prop :=
  s.core.Registered device ∧ device ∉ s.core.destroyed

/-- The driver knows a device for a node exactly if it is live. So a node without a live device gets
a new one when it is added, and no device that is destroyed is unregistered. -/
structure Coherent (s : System) : Prop where
  live : ∀ node registration, findByNode s node = some registration →
    (registration.device ≠ none ↔ ∃ device, registration.device = some device ∧ Live s device)
  add : ∀ node registration works, findByNode s node = some registration →
    (∀ device, registration.device = some device → ¬ Live s device) →
    step s (.udevAdd node works) = load s registration.config works
  remove : ∀ node device, removed s node = some device → device ∉ s.core.destroyed

/-- The queue error is that of a device that the driver does not know anymore. -/
def Fine (s : System) : Event → Prop
  | .onQueueError device => ∀ node, removed s node ≠ some device
  | _ => True

/-- No two nodes have one device, and the numbers of devices are given out in order. -/
structure Sound (s : System) : Prop where
  unique : ∀ {node node' device}, removed s node = some device → removed s node' = some device →
    node = node'
  older : ∀ node device, removed s node = some device → device < s.fresh
  destroyed : ∀ device ∈ s.core.destroyed, device < s.fresh

section
variable {s t : System}

/-- What a node stands for once another registration is made for a node. -/
theorem removed_insert (s : System) (core : Registry Text ℕ) (fresh : ℕ) (tty node : Text)
    (registration : Registration) :
    removed ⟨core,s.devices.insert tty registration,fresh⟩ node =
      if node = tty then registration.device else removed s node := by
  unfold removed findByNode
  split_ifs with hnode
  · rw [hnode,AList.lookup_insert]
    rfl
  · rw [AList.lookup_insert_ne hnode]

theorem coherent_iff : Coherent s ↔ ∀ node device, removed s node = some device → Live s device := by
  constructor
  · intro hs node device hremoved
    obtain ⟨registration,hfind,hdevice⟩ := Option.bind_eq_some_iff.mp hremoved
    obtain ⟨device',hdevice',hlive⟩ := (hs.live node registration hfind).mp (by rw [hdevice]; nofun)
    exact Option.some.inj (hdevice.symm.trans hdevice') ▸ hlive
  · intro hlive
    have hremoved : ∀ {node registration device}, findByNode s node = some registration →
        registration.device = some device → Live s device := by
      intro node registration device hfind hdevice
      exact hlive node device (by rw [removed,hfind,Option.bind_some,hdevice])
    refine ⟨fun node registration hfind => ?_,fun node registration works hfind hdead => ?_,
      fun node device h => (hlive node device h).2⟩
    · constructor
      · intro hne
        obtain ⟨device,hdevice⟩ := Option.ne_none_iff_exists'.mp hne
        exact ⟨device,hdevice,hremoved hfind hdevice⟩
      · intro ⟨device,hdevice,_⟩
        rw [hdevice]
        nofun
    · have hnone : registration.device = none := by
        by_contra hne
        obtain ⟨device,hdevice⟩ := Option.ne_none_iff_exists'.mp hne
        exact hdead device hdevice (hremoved hfind hdevice)
      simp only [step,hfind,hnone,if_true]

theorem live_unregister {device device' : ℕ} (hne : device' ≠ device) :
    Live (unregister s device) device' ↔ Live s device' := by
  unfold Live unregister
  rw [Registry.registered_unregisterDevice _ _ hne,Registry.mem_destroyed_unregisterDevice]
  simp [hne]

/-- A device that is live is destroyed when it is unregistered. -/
theorem not_live_unregister {device : ℕ} (h : Live s device) :
    ¬ Live (unregister s device) device :=
  fun hlive => hlive.2 ((Registry.mem_destroyed_unregisterDevice _ _ _).mpr (Or.inr ⟨rfl,h.1⟩))

/-- A device that no registration holds is unregistered, or one that is not registered anymore. -/
theorem coherent_unregister (hs : Coherent s) {device : ℕ}
    (h : s.core.Registered device → ∀ node, removed s node ≠ some device) :
    Coherent (unregister s device) := by
  rw [coherent_iff] at hs ⊢
  intro node device' hnode
  have hlive := hs node device' hnode
  have hne : device' ≠ device := by
    rintro rfl
    exact h hlive.1 node hnode
  exact (live_unregister hne).mpr hlive

/-- A list of devices that is looked up, and left behind empty, changes nothing for a device. -/
theorem coherent_findDevices (hs : Coherent s) (codec : Text) :
    Coherent {s with core := (s.core.findDevices codec).2} := by
  rw [coherent_iff] at hs ⊢
  intro node device hnode
  obtain ⟨hregistered,hdestroyed⟩ := hs node device hnode
  exact ⟨(Registry.registered_findDevices _ _ _).mpr hregistered,hdestroyed⟩

theorem sound_insert (hs : Sound s) {core : Registry Text ℕ} {fresh : ℕ} {tty : Text}
    {registration : Registration} (hfresh : s.fresh ≤ fresh)
    (hdevice : ∀ device, registration.device = some device →
      device < fresh ∧ ∀ node, removed s node ≠ some device)
    (hdestroyed : ∀ device ∈ core.destroyed, device < fresh) :
    Sound ⟨core,s.devices.insert tty registration,fresh⟩ where
  unique := by
    intro node node' device h h'
    rw [removed_insert] at h h'
    split_ifs at h with hnode
    · split_ifs at h' with hnode'
      · rw [hnode,hnode']
      · exact absurd h' ((hdevice device h).2 node')
    · split_ifs at h' with hnode'
      · exact absurd h ((hdevice device h').2 node)
      · exact hs.unique h h'
  older node device h := by
    rw [removed_insert] at h
    split_ifs at h
    · exact (hdevice device h).1
    · exact Nat.lt_of_lt_of_le (hs.older node device h) hfresh
  destroyed := hdestroyed

theorem sound_unregister (hs : Sound s) {device : ℕ}
    (hdevice : s.core.Registered device → device < s.fresh) :
    Sound (unregister s device) where
  unique := hs.unique
  older := hs.older
  destroyed device' h := by
    rcases (Registry.mem_destroyed_unregisterDevice _ _ _).mp h with h | ⟨rfl,hregistered⟩
    · exact hs.destroyed device' h
    · exact hdevice hregistered

theorem sound_findDevices (hs : Sound s) (codec : Text) :
    Sound {s with core := (s.core.findDevices codec).2} where
  unique := hs.unique
  older := hs.older
  destroyed := hs.destroyed

/-- A section that is loaded may replace the registration of a node, and brings a new device, or
none. -/
theorem load_spec {config : Section} {works : Bool} (hs : Sound s)
    (h : load s config works = some t) : Sound t ∧ (Coherent s → Coherent t) := by
  have hload := s.loadDeviceFromConfig_eq config works
  unfold load at h
  cases hout : System.loadOf config works with
  | skipped =>
    rw [hout] at hload
    simp only [hload] at h
    obtain rfl := Option.some.inj h
    exact ⟨hs,id⟩
  | raised e =>
    rw [hout] at hload
    split at h
    · rename_i heq
      rw [heq] at hload
      cases hload
    · cases h
  | failed tty =>
    rw [hout] at hload
    simp only [hload] at h
    obtain rfl := Option.some.inj h
    refine ⟨sound_insert hs (Nat.le_refl _) nofun hs.destroyed,fun hcoherent => ?_⟩
    rw [coherent_iff] at hcoherent ⊢
    intro node device hdevice
    rw [removed_insert] at hdevice
    split_ifs at hdevice
    exact hcoherent node device hdevice
  | loaded tty =>
    rw [hout] at hload
    simp only [hload] at h
    obtain rfl := Option.some.inj h
    refine ⟨sound_insert hs (Nat.le_succ _) ?_ ?_,fun hcoherent => ?_⟩
    · intro device hdevice
      obtain rfl := Option.some.inj hdevice
      exact ⟨Nat.lt_succ_self _,fun node hnode => Nat.lt_irrefl _ (hs.older node _ hnode)⟩
    · exact fun device hdevice => Nat.lt_succ_of_lt (hs.destroyed device hdevice)
    · rw [coherent_iff] at hcoherent ⊢
      intro node device hdevice
      rw [removed_insert] at hdevice
      unfold Live
      rw [Registry.registered_registerDevice]
      split_ifs at hdevice
      · obtain rfl := Option.some.inj hdevice
        exact ⟨Or.inr ⟨rfl,nofun⟩,fun h => Nat.lt_irrefl _ (hs.destroyed _ h)⟩
      · obtain ⟨hregistered,hdestroyed⟩ := hcoherent node device hdevice
        exact ⟨Or.inl hregistered,hdestroyed⟩

/-- The device that an event unregisters. -/
def unregistered (s : System) : Event → Option ℕ
  | .onQueueError device => some device
  | .udevRemove node => removed s node
  | _ => none

/-- From one state to another, one device may be built, and one that was registered is destroyed when
it is unregistered. -/
structure Effect (s t : System) (unregistered : Option ℕ) : Prop where
  fresh : s.fresh ≤ t.fresh
  registered : ∀ device, t.core.Registered device → s.core.Registered device ∨
    (device = s.fresh ∧ s.fresh < t.fresh)
  destroyed : ∀ device, device ∈ t.core.destroyed ↔ device ∈ s.core.destroyed ∨
    (unregistered = some device ∧ s.core.Registered device)

theorem effect_refl (s : System) : Effect s s none :=
  ⟨Nat.le_refl _,fun _ => Or.inl,by simp⟩

theorem effect_unregister {device : ℕ} (hcore : t.core = s.core.unregisterDevice device)
    (hfresh : t.fresh = s.fresh) : Effect s t (some device) where
  fresh := Nat.le_of_eq hfresh.symm
  registered device' h := by
    rw [hcore] at h
    exact Or.inl (Registry.registered_of_unregisterDevice _ _ h)
  destroyed device' := by
    rw [hcore,Registry.mem_destroyed_unregisterDevice,Option.some.injEq]
    apply or_congr_right
    constructor
    · rintro ⟨rfl,h⟩
      exact ⟨rfl,h⟩
    · rintro ⟨rfl,h⟩
      exact ⟨rfl,h⟩

theorem effect_load {config : Section} {works : Bool} (h : load s config works = some t) :
    Effect s t none := by
  have hload := s.loadDeviceFromConfig_eq config works
  unfold load at h
  cases hout : System.loadOf config works with
  | skipped =>
    rw [hout] at hload
    simp only [hload] at h
    exact Option.some.inj h ▸ effect_refl s
  | raised e =>
    rw [hout] at hload
    split at h
    · rename_i heq
      rw [heq] at hload
      cases hload
    · cases h
  | failed tty =>
    rw [hout] at hload
    simp only [hload] at h
    obtain rfl := Option.some.inj h
    exact ⟨Nat.le_refl _,fun _ => Or.inl,by simp⟩
  | loaded tty =>
    rw [hout] at hload
    simp only [hload] at h
    obtain rfl := Option.some.inj h
    refine ⟨Nat.le_succ _,fun device hdevice => ?_,fun device => by simp [Registry.registerDevice]⟩
    rcases (Registry.registered_registerDevice _ _).mp hdevice with hold | ⟨hnew,-⟩
    · exact Or.inl hold
    · exact Or.inr ⟨hnew,Nat.lt_succ_self _⟩

theorem effect_step {e : Event} (h : step s e = some t) : Effect s t (unregistered s e) := by
  cases e with
  | loadDeviceFromConfig config works => exact effect_load h
  | onQueueError device =>
    simp only [step] at h
    split_ifs at h
    obtain rfl := Option.some.inj h
    exact effect_unregister rfl rfl
  | udevAdd node works =>
    simp only [step] at h
    split at h
    · exact Option.some.inj h ▸ effect_refl s
    · split_ifs at h
      · exact effect_load h
      · exact Option.some.inj h ▸ effect_refl s
  | udevRemove node =>
    simp only [step] at h
    rw [unregistered,removed]
    split at h
    · rename_i hfind
      rw [hfind]
      exact Option.some.inj h ▸ effect_refl s
    · rename_i registration hfind
      rw [hfind,Option.bind_some]
      split at h
      · rename_i hdevice
        rw [hdevice]
        exact Option.some.inj h ▸ effect_refl s
      · rename_i device hdevice
        obtain rfl := Option.some.inj h
        rw [hdevice]
        exact effect_unregister rfl rfl

theorem sound_step (s : System) (e : Event) (t : System) (hs : Sound s) (h : step s e = some t) :
    Sound t := by
  cases e with
  | loadDeviceFromConfig config works => exact (load_spec hs h).1
  | onQueueError device =>
    simp only [step] at h
    split_ifs at h with hdevice
    obtain rfl := Option.some.inj h
    exact sound_unregister hs fun _ => hdevice.1
  | udevAdd node works =>
    simp only [step] at h
    split at h
    · exact Option.some.inj h ▸ hs
    · split_ifs at h
      · exact (load_spec hs h).1
      · exact Option.some.inj h ▸ hs
  | udevRemove node =>
    simp only [step] at h
    split at h
    · exact Option.some.inj h ▸ hs
    · rename_i registration hfind
      split at h
      · exact Option.some.inj h ▸ hs
      · rename_i device hdevice
        obtain rfl := Option.some.inj h
        have hlt : device < s.fresh :=
          hs.older node device (by rw [removed,hfind,Option.bind_some,hdevice])
        have hunregister := sound_unregister hs fun _ => hlt
        exact sound_insert hunregister (Nat.le_refl _) nofun hunregister.destroyed

/-- Only the queue error of a device that the driver knows leaves the driver behind. -/
theorem coherent_step_iff (s : System) (e : Event) (t : System) (hs : Sound s)
    (hcoherent : Coherent s) (h : step s e = some t) : Coherent t ↔ Fine s e := by
  cases e with
  | loadDeviceFromConfig config works =>
    exact iff_of_true ((load_spec hs h).2 hcoherent) trivial
  | udevAdd node works =>
    simp only [step] at h
    split at h
    · exact iff_of_true (Option.some.inj h ▸ hcoherent) trivial
    · split_ifs at h
      · exact iff_of_true ((load_spec hs h).2 hcoherent) trivial
      · exact iff_of_true (Option.some.inj h ▸ hcoherent) trivial
  | onQueueError device =>
    simp only [step] at h
    split_ifs at h
    obtain rfl := Option.some.inj h
    refine ⟨fun ht node hnode => ?_,fun hfine => coherent_unregister hcoherent fun _ => hfine⟩
    rw [coherent_iff] at hcoherent ht
    exact not_live_unregister (hcoherent node device hnode) (ht node device hnode)
  | udevRemove node =>
    simp only [step] at h
    split at h
    · exact iff_of_true (Option.some.inj h ▸ hcoherent) trivial
    · rename_i registration hfind
      split at h
      · exact iff_of_true (Option.some.inj h ▸ hcoherent) trivial
      · rename_i device hdevice
        obtain rfl := Option.some.inj h
        have hremoved : removed s node = some device := by
          rw [removed,hfind,Option.bind_some,hdevice]
        refine iff_of_true ?_ trivial
        rw [coherent_iff] at hcoherent ⊢
        intro node' device' hnode'
        rw [removed_insert] at hnode'
        split_ifs at hnode' with hne
        have hother : device' ≠ device := by
          rintro rfl
          exact hne (hs.unique hnode' hremoved)
        exact (live_unregister hother).mpr (hcoherent node' device' hnode')

theorem sound_init : Sound {} where
  unique := nofun
  older := nofun
  destroyed := nofun

end

/-- What the driver knows about its nodes is true throughout exactly if no device fails that it knows
of. -/
theorem hotplug_coherent_iff (es : List Event) (h : (run step {} es).isSome) :
    Always step Coherent {} es ↔ Meets step Fine {} es :=
  always_iff_meets sound_step coherent_step_iff sound_init (coherent_iff.mpr nofun) h

/-- A section for a device at the tty `t`. -/
def section115200 : Section :=
  ((AList.singleton driverKey identifier).insert ttyKey [0x74]).insert baudrateKey
    [0x31,0x31,0x35,0x32,0x30,0x30]

/-- A device is plugged out and in again, and does not answer for the first time. -/
def replug : List Event :=
  [.loadDeviceFromConfig section115200 true,.udevRemove [0x74],.udevAdd [0x74] false,
    .udevAdd [0x74] true]

theorem hotplug_coherent_iff_replug : Always step Coherent {} replug := by
  refine (hotplug_coherent_iff replug rfl).mpr ?_
  refine meets_cons trivial rfl (meets_cons trivial rfl ?_)
  exact meets_cons trivial rfl (meets_cons trivial rfl trivial)

/-- The worker of a device reports an error: the device is destroyed, and the driver still has it. -/
theorem not_hotplug_coherent_error :
    ¬ ∀ es : List Event, (run step {} es).isSome → Always step Coherent {} es := by
  intro h
  have coherent := h [.loadDeviceFromConfig section115200 true,.onQueueError 0] rfl
  exact (coherent.last rfl).remove [0x74] 0 rfl (by decide)

end CodecServer.Ambe3K.Hotplug
