import CodecServer.Ambe3K.Hotplug

/-! A device that is plugged out and in again. The driver never forgets a node that it has had a
section for, so that the node gets a new device, whatever has become of the old one. -/
namespace CodecServer.Ambe3K.Hotplug
open CodecServer.Numeral CodecServer.Transition

/-- What a section is for does not depend on whether its device works. -/
theorem loadOf_cases (config : Section) :
    (∃ tty, ∀ works, System.loadOf config works = if works then .loaded tty else .failed tty) ∨
    ∀ works tty, System.loadOf config works ≠ .loaded tty ∧ System.loadOf config works ≠ .failed tty := by
  unfold System.loadOf
  by_cases hdriver : config.lookup driverKey = some identifier
  · simp only [hdriver,if_true]
    cases config.lookup ttyKey with
    | none => exact Or.inr (by simp)
    | some tty =>
      cases config.lookup baudrateKey with
      | none => exact Or.inr (by simp)
      | some baudrate =>
        simp only
        rcases stoul baudrate with e | v
        · cases e <;> exact Or.inr (by simp)
        · by_cases hbaud : (v.setWidth 32).toNat ∈ baudrates
          · simp only [hbaud,if_true]
            exact Or.inl ⟨tty,fun _ => rfl⟩
          · simp only [hbaud,if_false]
            exact Or.inr (by simp)
  · simp only [hdriver,if_false]
    exact Or.inr (by simp)

/-- A section that is not skipped is one for the node that it is registered for. -/
theorem loadOf_true {config : Section} {works : Bool} {node : Text}
    (h : System.loadOf config works = .loaded node ∨ System.loadOf config works = .failed node) :
    System.loadOf config true = .loaded node := by
  rcases loadOf_cases config with ⟨tty,hload⟩ | hnone
  · rw [hload] at h ⊢
    cases works <;> rcases h with h | h <;> cases h <;> rfl
  · exact absurd h (not_or.mpr ⟨(hnone works node).1,(hnone works node).2⟩)

/-- Every registration has the section of its node. -/
def Known (s : System) : Prop :=
  ∀ node registration, findByNode s node = some registration →
    System.loadOf registration.config true = .loaded node

section
variable {s t : System} {node : Text}

theorem findByNode_insert (s : System) (core : Registry Text ℕ) (fresh : ℕ) (tty node : Text)
    (registration : Registration) :
    findByNode ⟨core,s.devices.insert tty registration,fresh⟩ node =
      if node = tty then some registration else findByNode s node := by
  unfold findByNode
  split_ifs with hnode
  · rw [hnode,AList.lookup_insert]
  · rw [AList.lookup_insert_ne hnode]

theorem known_insert (hs : Known s) {core : Registry Text ℕ} {fresh : ℕ} {tty : Text}
    {registration : Registration} (h : System.loadOf registration.config true = .loaded tty) :
    Known ⟨core,s.devices.insert tty registration,fresh⟩ := by
  intro node registration' hfind
  rw [findByNode_insert] at hfind
  split_ifs at hfind with hnode
  · obtain rfl := Option.some.inj hfind
    rw [hnode]
    exact h
  · exact hs node registration' hfind

/-- No node is forgotten. -/
theorem isSome_insert {core : Registry Text ℕ} {fresh : ℕ} {tty : Text} {registration : Registration}
    (h : (findByNode s node).isSome) :
    (findByNode ⟨core,s.devices.insert tty registration,fresh⟩ node).isSome := by
  rw [findByNode_insert]
  split_ifs
  · rfl
  · exact h

/-- A section that is loaded makes its node known, and the driver keeps what it knows. -/
theorem known_load {config : Section} {works : Bool} (hs : Known s)
    (h : load s config works = some t) : Known t ∧
      (∀ node, (findByNode s node).isSome → (findByNode t node).isSome) ∧
      ∀ node, System.loadOf config true = .loaded node → (findByNode t node).isSome := by
  have hload := s.loadDeviceFromConfig_eq config works
  have hnot : ∀ node, System.loadOf config true = .loaded node →
      System.loadOf config works = if works then .loaded node else .failed node := by
    intro node hnode
    rcases loadOf_cases config with ⟨tty,hcases⟩ | hnone
    · rw [hcases] at hnode
      cases hnode
      exact hcases works
    · exact absurd hnode (hnone true node).1
  unfold load at h
  cases hout : System.loadOf config works with
  | skipped =>
    rw [hout] at hload
    simp only [hload] at h
    obtain rfl := Option.some.inj h
    refine ⟨hs,fun _ => id,fun node hnode => ?_⟩
    have := (hnot node hnode).symm.trans hout
    cases works <;> cases this
  | raised e =>
    rw [hout] at hload
    split at h
    · rename_i heq
      rw [heq] at hload
      cases hload
    · cases h
  | failed tty =>
    rw [hout] at hload
    simp only [hload] at h
    obtain rfl := Option.some.inj h
    have htrue := loadOf_true (Or.inr hout)
    refine ⟨known_insert hs htrue,fun node => isSome_insert,fun node hnode => ?_⟩
    cases htrue.symm.trans hnode
    rw [findByNode_insert,if_pos rfl]
    rfl
  | loaded tty =>
    rw [hout] at hload
    simp only [hload] at h
    obtain rfl := Option.some.inj h
    have htrue := loadOf_true (Or.inl hout)
    refine ⟨known_insert hs htrue,fun node => isSome_insert,fun node hnode => ?_⟩
    cases htrue.symm.trans hnode
    rw [findByNode_insert,if_pos rfl]
    rfl

theorem known_step {e : Event} (hs : Known s) (h : step s e = some t) : Known t ∧
    ∀ node, (findByNode s node).isSome → (findByNode t node).isSome := by
  cases e with
  | loadDeviceFromConfig config works => exact ⟨(known_load hs h).1,(known_load hs h).2.1⟩
  | onQueueError device =>
    simp only [step] at h
    split_ifs at h
    obtain rfl := Option.some.inj h
    exact ⟨hs,fun _ => id⟩
  | udevAdd node works =>
    simp only [step] at h
    split at h
    · exact Option.some.inj h ▸ ⟨hs,fun _ => id⟩
    · split_ifs at h
      · exact ⟨(known_load hs h).1,(known_load hs h).2.1⟩
      · exact Option.some.inj h ▸ ⟨hs,fun _ => id⟩
  | udevRemove node =>
    simp only [step] at h
    split at h
    · exact Option.some.inj h ▸ ⟨hs,fun _ => id⟩
    · rename_i registration hfind
      split at h
      · exact Option.some.inj h ▸ ⟨hs,fun _ => id⟩
      · obtain rfl := Option.some.inj h
        exact ⟨known_insert hs (hs node registration hfind),fun _ => isSome_insert⟩

end

/-- A step where the device that is built, if there is one, is at an address of which only that is
known that no registered device has it. -/
def stepAt (s : System) : ℕ × Event → Option System
  | (_,.onQueueError device) =>
    if s.core.Registered device then some (unregister s device) else none
  | (_,.udevRemove node) => step s (.udevRemove node)
  | (address,e) => if s.core.Registered address then none else step {s with fresh := address} e

/-- Every registration has the section of its node, and no list has a device twice. -/
structure Orderly (s : System) : Prop where
  known : Known s
  nodup : ∀ codec, (s.core.findDevices codec).1.Nodup

section
variable {s t : System} {node : Text}

theorem nodup_unregister (hs : Orderly s) (device : ℕ) (codec : Text) :
    ((s.core.unregisterDevice device).findDevices codec).1.Nodup := by
  rw [Registry.findDevices_unregisterDevice]
  exact (hs.nodup codec).erase device

theorem nodup_load {config : Section} {works : Bool} (hs : Orderly s)
    (hfree : ¬ s.core.Registered s.fresh) (h : load s config works = some t) (codec : Text) :
    (t.core.findDevices codec).1.Nodup := by
  have hload := s.loadDeviceFromConfig_eq config works
  unfold load at h
  cases hout : System.loadOf config works with
  | skipped =>
    rw [hout] at hload
    simp only [hload] at h
    obtain rfl := Option.some.inj h
    exact hs.nodup codec
  | raised e =>
    rw [hout] at hload
    split at h
    · rename_i heq
      rw [heq] at hload
      cases hload
    · cases h
  | failed tty =>
    rw [hout] at hload
    simp only [hload] at h
    obtain rfl := Option.some.inj h
    exact hs.nodup codec
  | loaded tty =>
    rw [hout] at hload
    simp only [hload] at h
    obtain rfl := Option.some.inj h
    exact Registry.nodup_registerDevice _ _ hs.nodup hfree (List.nodup_singleton _) codec

theorem orderly_stepAt (s : System) (e : ℕ × Event) (t : System) (hs : Orderly s)
    (h : stepAt s e = some t) : Orderly t := by
  obtain ⟨address,e⟩ := e
  cases e with
  | onQueueError device =>
    simp only [stepAt] at h
    split_ifs at h
    obtain rfl := Option.some.inj h
    exact ⟨hs.known,nodup_unregister hs device⟩
  | udevRemove node =>
    refine ⟨(known_step (e := .udevRemove node) hs.known h).1,?_⟩
    simp only [stepAt,step] at h
    split at h
    · exact Option.some.inj h ▸ hs.nodup
    · split at h
      · exact Option.some.inj h ▸ hs.nodup
      · obtain rfl := Option.some.inj h
        exact nodup_unregister hs _
  | loadDeviceFromConfig config works =>
    simp only [stepAt] at h
    split_ifs at h with hfree
    have hs' : Orderly {s with fresh := address} := ⟨hs.known,hs.nodup⟩
    exact ⟨(known_step hs'.known h).1,nodup_load hs' hfree h⟩
  | udevAdd node works =>
    simp only [stepAt] at h
    split_ifs at h with hfree
    have hs' : Orderly {s with fresh := address} := ⟨hs.known,hs.nodup⟩
    refine ⟨(known_step hs'.known h).1,?_⟩
    simp only [step] at h
    split at h
    · exact Option.some.inj h ▸ hs'.nodup
    · split_ifs at h
      · exact nodup_load hs' hfree h
      · exact Option.some.inj h ▸ hs'.nodup

/-- The driver keeps what it knows, and a section that is loaded makes its node known. -/
theorem known_stepAt {e : ℕ × Event} (hs : Known s) (h : stepAt s e = some t) :
    (∀ node, (findByNode s node).isSome → (findByNode t node).isSome) ∧
    ∀ config works node, e.2 = .loadDeviceFromConfig config works →
      System.loadOf config true = .loaded node → (findByNode t node).isSome := by
  obtain ⟨address,e⟩ := e
  cases e with
  | onQueueError device =>
    simp only [stepAt] at h
    split_ifs at h
    obtain rfl := Option.some.inj h
    exact ⟨fun _ => id,nofun⟩
  | udevRemove node => exact ⟨(known_step (e := .udevRemove node) hs h).2,nofun⟩
  | loadDeviceFromConfig config works =>
    simp only [stepAt] at h
    split_ifs at h
    have hs' : Known {s with fresh := address} := hs
    refine ⟨(known_step hs' h).2,?_⟩
    rintro _ _ node ⟨⟩ hconfig
    exact (known_load hs' h).2.2 node hconfig
  | udevAdd node works =>
    simp only [stepAt] at h
    split_ifs at h
    have hs' : Known {s with fresh := address} := hs
    exact ⟨(known_step hs' h).2,nofun⟩

/-- A node is known from the moment on that a section is loaded for it. -/
theorem run_known {es : List (ℕ × Event)} (hs : Orderly s) (h : run stepAt s es = some t) :
    ∀ node, ((findByNode s node).isSome ∨ ∃ address config works,
      (address,.loadDeviceFromConfig config works) ∈ es ∧
        System.loadOf config true = .loaded node) → (findByNode t node).isSome := by
  induction es generalizing s with
  | nil =>
    obtain rfl := Option.some.inj h
    refine fun node hnode => hnode.elim id ?_
    rintro ⟨address,config,works,hmem,-⟩
    cases hmem
  | cons e es ih =>
    obtain ⟨u,hu,hrun⟩ := (run_cons ..).mp h
    obtain ⟨hkept,hloaded⟩ := known_stepAt hs.known hu
    refine fun node hnode => ih (orderly_stepAt s e u hs hu) hrun node ?_
    rcases hnode with hnode | ⟨address,config,works,hmem,hconfig⟩
    · exact Or.inl (hkept node hnode)
    · rcases List.mem_cons.mp hmem with rfl | hmem
      · exact Or.inl (hloaded config works node rfl hconfig)
      · exact Or.inr ⟨address,config,works,hmem,hconfig⟩

end

/-- The devices that are left when the device of a node is unregistered, if it has one. -/
def left (s : System) (node : Text) (codec : Text) : List ℕ :=
  match removed s node with
  | none => (s.core.findDevices codec).1
  | some device => (s.core.findDevices codec).1.erase device

theorem mem_left {s : System} (hs : Orderly s) (node codec : Text) (device : ℕ) :
    device ∈ left s node codec ↔
      device ∈ (s.core.findDevices codec).1 ∧ removed s node ≠ some device := by
  unfold left
  cases hremoved : removed s node with
  | none => exact (and_iff_left nofun).symm
  | some old =>
    rw [(hs.nodup codec).mem_erase_iff,and_comm]
    exact and_congr_right fun _ => not_congr ⟨fun h => congrArg some h.symm,fun h =>
      (Option.some.inj h).symm⟩

/-- What a remove event leaves behind. -/
theorem remove_spec {s : System} {node : Text} {registration : Registration}
    (hfind : findByNode s node = some registration) : ∃ t, step s (.udevRemove node) = some t ∧
    findByNode t node = some {registration with device := none} ∧
    (∀ node' ≠ node, findByNode t node' = findByNode s node') ∧
    ∀ codec, (t.core.findDevices codec).1 = left s node codec := by
  have hremoved : removed s node = registration.device := by rw [removed,hfind,Option.bind_some]
  cases hdevice : registration.device with
  | none =>
    refine ⟨s,by simp only [step,hfind,hdevice],?_,fun _ _ => rfl,fun codec => ?_⟩
    · rw [hfind,← hdevice]
    · rw [left,hremoved,hdevice]
  | some device =>
    have hstep : step s (.udevRemove node) = some
        { unregister s device with
          devices := s.devices.insert node {registration with device := none} } := by
      simp only [step,hfind,hdevice]
    refine ⟨_,hstep,?_,fun node' hne => ?_,fun codec => ?_⟩
    · rw [findByNode_insert,if_pos rfl]
    · exact (findByNode_insert ..).trans (if_neg hne)
    · rw [left,hremoved,hdevice]
      exact Registry.findDevices_unregisterDevice _ _ codec

/-- What an add event does for a node without a device. -/
theorem add_spec {s : System} {node : Text} {registration : Registration}
    (hfind : findByNode s node = some registration) (hdevice : registration.device = none)
    (hconfig : System.loadOf registration.config true = .loaded node) :
    step s (.udevAdd node true) = some
      { core := s.core.registerDevice s.fresh getCodecs
        devices := s.devices.insert node {config := registration.config, device := some s.fresh}
        fresh := s.fresh+1 } := by
  have hload := s.loadDeviceFromConfig_eq registration.config true
  rw [hconfig] at hload
  simp only [step,hfind,hdevice,if_true,load,hload]

/-- Once a section has been loaded for a node, whether its device has worked or not, and whatever has
happened since: when the device of the node is plugged out and in again and works, the node has a new
device in the core registry, and the other nodes are registered as before. One device only goes, the
one whose address the registration of the node has held: it may be another node's by then. -/
theorem run_replug {es : List (ℕ × Event)} {s : System} (h : run stepAt {} es = some s)
    {address device : ℕ} {config : Section} {works : Bool} {node : Text}
    (hload : (address,.loadDeviceFromConfig config works) ∈ es)
    (hconfig : System.loadOf config true = .loaded node)
    (hfree : s.core.Registered device → removed s node = some device) : ∃ t,
    run stepAt s [(device,.udevRemove node),(device,.udevAdd node true)] = some t ∧
    removed t node = some device ∧
    (∀ node' ≠ node, findByNode t node' = findByNode s node') ∧
    (∀ codec, (t.core.findDevices codec).1 =
      left s node codec ++ if codec ∈ getCodecs then [device] else []) ∧
    ∀ device', t.core.Registered device' ↔
      device' = device ∨ (s.core.Registered device' ∧ removed s node ≠ some device') := by
  have hinit : Orderly {} := ⟨nofun,fun codec => List.nodup_nil⟩
  have hs := run_invariant orderly_stepAt hinit h
  obtain ⟨registration,hfind⟩ := Option.isSome_iff_exists.mp
    (run_known hinit h node (Or.inr ⟨address,config,works,hload,hconfig⟩))
  obtain ⟨u,hu,hnone,hother,hleft⟩ := remove_spec hfind
  have hregistered (device' : ℕ) : u.core.Registered device' ↔
      s.core.Registered device' ∧ removed s node ≠ some device' := by
    unfold Registry.Registered
    simp only [hleft,mem_left hs,exists_and_right]
  have hadd := add_spec (s := {u with fresh := device}) hnone rfl (hs.known node registration hfind)
  have hstep : stepAt u (device,.udevAdd node true) = step {u with fresh := device}
      (.udevAdd node true) := if_neg fun hdevice => ((hregistered device).mp hdevice).2
        (hfree ((hregistered device).mp hdevice).1)
  refine ⟨_,(run_cons ..).mpr ⟨u,hu,(run_cons ..).mpr ⟨_,hstep.trans hadd,rfl⟩⟩,?_,
    fun node' hne => ?_,fun codec => ?_,fun device' => ?_⟩
  · rw [removed_insert,if_pos rfl]
  · rw [findByNode_insert,if_neg hne]
    exact hother node' hne
  · rw [← hleft codec]
    refine (Registry.findDevices_registerDevice _ _ getCodecs codec).trans (congrArg _ ?_)
    by_cases hcodec : codec ∈ getCodecs
    · rw [if_pos hcodec,List.mem_singleton.mp hcodec]
      rfl
    · simp [List.count_eq_zero,hcodec]
  · refine (Registry.registered_registerDevice _ _).trans (or_comm.trans ?_)
    exact or_congr (and_iff_left (List.cons_ne_nil _ _)) (hregistered device')

/-- The worker of a device has reported an error, and the device has been destroyed; the new one is
where the old one was. -/
theorem run_replug_error : ∃ s t,
    run stepAt {} [(5,.loadDeviceFromConfig section115200 true),(5,.onQueueError 5)] = some s ∧
    run stepAt s [(5,.udevRemove [0x74]),(5,.udevAdd [0x74] true)] = some t ∧
    removed t [0x74] = some 5 ∧ t.core.Registered 5 := by
  obtain ⟨t,ht,hremoved,-,-,hregistered⟩ := run_replug
    (show run stepAt {} [(5,.loadDeviceFromConfig section115200 true),(5,.onQueueError 5)] = some _
      from rfl) List.mem_cons_self rfl (fun _ => (rfl : removed _ [0x74] = some 5))
  exact ⟨_,t,rfl,ht,hremoved,(hregistered 5).mpr (Or.inl rfl)⟩

end CodecServer.Ambe3K.Hotplug
