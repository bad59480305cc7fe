import CodecServer.Dictionary
import CodecServer.Transition

/-! The registry of the devices, by the codecs that they are for, and what it should be: the devices
that were registered and not unregistered yet. -/
namespace CodecServer
open List CodecServer.Transition

/-- `Registry`, and the devices that were deleted, once for each `delete`. -/
structure Registry (κ δ : Type*) where
  devices : Dictionary κ (List δ) := ∅
  destroyed : List δ := []

namespace Registry
variable {κ δ : Type*} [DecidableEq κ] [DecidableEq δ]

/-- `Registry::registerDevice`. -/
def registerDevice (r : Registry κ δ) (device : δ) (codecs : List κ) : Registry κ δ :=
  {r with devices := codecs.foldl (fun devices codec => devices.push codec device) r.devices}

/-- `Registry::unregisterDevice`: the first entry of every list is erased, and the device deleted
there. -/
def unregisterDevice (r : Registry κ δ) (device : δ) : Registry κ δ :=
  { devices := Dictionary.mapValues (fun vec => vec.erase device) r.devices
    destroyed := r.destroyed ++
      replicate (Dictionary.countValues (fun vec => decide (device ∈ vec)) r.devices) device }

/-- `Registry::findDevices`, which leaves an empty list for a codec that is not there. -/
def findDevices (r : Registry κ δ) (identifier : κ) : List δ × Registry κ δ :=
  let vec := Dictionary.listAt r.devices identifier
  (vec,{r with devices := AList.insert identifier vec r.devices})

section
variable (r : Registry κ δ) (device : δ)

omit [DecidableEq δ] in
theorem findDevices_registerDevice (codecs : List κ) (codec : κ) :
    ((r.registerDevice device codecs).findDevices codec).1 =
      (r.findDevices codec).1 ++ replicate (codecs.count codec) device := by
  simp only [findDevices,registerDevice]
  generalize r.devices = devices
  induction codecs generalizing devices with
  | nil => simp
  | cons c codecs ih =>
    rw [foldl_cons,ih,Dictionary.listAt_push,append_assoc,count_cons]
    by_cases hc : codec = c
    · simp [hc,replicate_succ]
    · simp [hc,Ne.symm hc]

theorem findDevices_unregisterDevice (codec : κ) :
    ((r.unregisterDevice device).findDevices codec).1 = (r.findDevices codec).1.erase device :=
  Dictionary.listAt_mapValues rfl _ _

omit [DecidableEq δ] in
theorem findDevices_findDevices (identifier codec : κ) :
    ((r.findDevices identifier).2.findDevices codec).1 = (r.findDevices codec).1 := by
  simp only [findDevices,Dictionary.listAt_insert]
  split_ifs with hcodec
  · rw [hcodec]
  · rfl

/-- A device that is in the list of a codec. -/
def Registered (r : Registry κ δ) (device : δ) : Prop := ∃ codec, device ∈ (r.findDevices codec).1

theorem countValues_pos_iff_registered :
    0 < Dictionary.countValues (fun vec => decide (device ∈ vec)) r.devices ↔
      r.Registered device := by
  rw [Dictionary.countValues_pos_iff]
  apply exists_congr
  intro codec
  simp only [findDevices,Dictionary.listAt]
  cases AList.lookup codec r.devices <;> simp

instance : Decidable (r.Registered device) :=
  decidable_of_iff _ (r.countValues_pos_iff_registered device)

theorem mem_destroyed_unregisterDevice (device' : δ) :
    device' ∈ (r.unregisterDevice device).destroyed ↔
      device' ∈ r.destroyed ∨ (device' = device ∧ r.Registered device) := by
  rw [unregisterDevice,mem_append,mem_replicate,← countValues_pos_iff_registered,
    Nat.pos_iff_ne_zero,and_comm]

theorem registered_unregisterDevice {device' : δ} (h : device' ≠ device) :
    (r.unregisterDevice device).Registered device' ↔ r.Registered device' := by
  apply exists_congr
  intro codec
  rw [findDevices_unregisterDevice,mem_erase_of_ne h]

omit [DecidableEq δ] in
theorem registered_findDevices (identifier : κ) :
    (r.findDevices identifier).2.Registered device ↔ r.Registered device := by
  unfold Registered
  simp only [findDevices_findDevices]

theorem registered_of_unregisterDevice {device' : δ}
    (h : (r.unregisterDevice device).Registered device') : r.Registered device' := by
  obtain ⟨codec,hcodec⟩ := h
  rw [findDevices_unregisterDevice] at hcodec
  exact ⟨codec,mem_of_mem_erase hcodec⟩

omit [DecidableEq δ] in
theorem registered_registerDevice {codecs : List κ} {device' : δ} :
    (r.registerDevice device codecs).Registered device' ↔
      r.Registered device' ∨ (device' = device ∧ codecs ≠ []) := by
  unfold Registered
  simp only [findDevices_registerDevice,mem_append,mem_replicate,exists_or]
  apply or_congr_right
  constructor
  · intro ⟨codec,hcount,hdevice⟩
    exact ⟨hdevice,fun hnil => hcount (by rw [hnil,count_nil])⟩
  · intro ⟨hdevice,hne⟩
    obtain ⟨codec,hcodec⟩ := exists_mem_of_ne_nil codecs hne
    exact ⟨codec,Nat.pos_iff_ne_zero.mp (count_pos_iff.mpr hcodec),hdevice⟩

omit [DecidableEq δ] in
/-- A device that is registered for the first time, and not twice for a codec, is in no list twice. -/
theorem nodup_registerDevice {codecs : List κ} (h : ∀ codec, (r.findDevices codec).1.Nodup)
    (hnew : ¬ r.Registered device) (hcodecs : codecs.Nodup) (codec : κ) :
    ((r.registerDevice device codecs).findDevices codec).1.Nodup := by
  rw [findDevices_registerDevice]
  refine Nodup.append (h codec) (nodup_replicate.mpr (nodup_iff_count_le_one.mp hcodecs codec)) ?_
  intro device' hold hdevice
  obtain rfl := eq_of_mem_replicate hdevice
  exact hnew ⟨codec,hold⟩

/-- A device that is in the list of one codec only is deleted once. -/
theorem countValues_eq_one_iff :
    Dictionary.countValues (fun vec => decide (device ∈ vec)) r.devices = 1 ↔
      ∃! codec, device ∈ (r.findDevices codec).1 := by
  rw [Dictionary.countValues_eq_one_iff]
  apply existsUnique_congr
  intro codec
  simp only [findDevices,Dictionary.listAt]
  cases AList.lookup codec r.devices <;> simp

end

/-- The registry, the devices that are registered, in the order of their registration, and those that
were unregistered. -/
structure History (κ δ : Type*) where
  registry : Registry κ δ := {}
  registered : List δ := []
  unregistered : List δ := []

inductive Call (κ δ : Type*)
  | registerDevice (device : δ)
  | unregisterDevice (device : δ)
  | findDevices (identifier : κ)

section
variable (getCodecs : δ → List κ)

/-- A call, with a device that was not deleted. -/
def step (h : History κ δ) : Call κ δ → Option (History κ δ)
  | .registerDevice device =>
    if device ∈ h.registry.destroyed then none
    else some
      { h with
        registry := h.registry.registerDevice device (getCodecs device)
        registered := h.registered ++ [device] }
  | .unregisterDevice device =>
    if device ∈ h.registry.destroyed then none
    else some
      { registry := h.registry.unregisterDevice device
        registered := h.registered.filter (· ≠ device)
        unregistered := h.unregistered ++ [device] }
  | .findDevices identifier => some {h with registry := (h.registry.findDevices identifier).2}

/-- The devices of a codec: those that are registered, as often as they name it. -/
def devicesFor (registered : List δ) (codec : κ) : List δ :=
  registered.flatMap fun device => replicate ((getCodecs device).count codec) device

/-- What is found is what is registered, and what was unregistered is deleted, exactly once. -/
structure Coherent (h : History κ δ) : Prop where
  found : ∀ codec, (h.registry.findDevices codec).1 = devicesFor getCodecs h.registered codec
  once : ∀ device ∈ h.unregistered, h.registry.destroyed.count device = 1
  alive : ∀ device, device ∉ h.unregistered → device ∉ h.registry.destroyed

/-- A device that is unregistered has been registered once, for one codec. -/
def Fine (h : History κ δ) : Call κ δ → Prop
  | .unregisterDevice device => h.registered.count device = 1 ∧ (getCodecs device).length = 1
  | _ => True

section
variable {getCodecs : δ → List κ} {h t : History κ δ}

theorem coherent_init : Coherent getCodecs ({} : History κ δ) where
  found _ := rfl
  once := nofun
  alive _ _ := nofun

omit [DecidableEq δ] in
theorem devicesFor_cons (d : δ) (registered : List δ) (codec : κ) :
    devicesFor getCodecs (d::registered) codec =
      replicate ((getCodecs d).count codec) d ++ devicesFor getCodecs registered codec :=
  flatMap_cons

theorem count_devicesFor (registered : List δ) (codec : κ) (device : δ) :
    (devicesFor getCodecs registered codec).count device =
      registered.count device*(getCodecs device).count codec := by
  induction registered with
  | nil => simp [devicesFor]
  | cons d registered ih =>
    rw [devicesFor_cons,count_append,ih,count_cons,count_replicate]
    by_cases hd : d = device
    · simp [hd,Nat.add_mul,Nat.add_comm]
    · simp [hd]

theorem filter_devicesFor (registered : List δ) (codec : κ) (device : δ) :
    (devicesFor getCodecs registered codec).filter (· ≠ device) =
      devicesFor getCodecs (registered.filter (· ≠ device)) codec := by
  induction registered with
  | nil => rfl
  | cons d registered ih =>
    rw [devicesFor_cons,filter_append,ih]
    by_cases hd : d = device
    · rw [filter_cons_of_neg (by simpa using hd)]
      simp [hd]
    · rw [filter_cons_of_pos (by simpa using hd),devicesFor_cons]
      simp [hd]

theorem erase_eq_filter {l : List δ} {device : δ} (hcount : l.count device ≤ 1) :
    l.erase device = l.filter (· ≠ device) := by
  induction l with
  | nil => rfl
  | cons d l ih =>
    rw [count_cons] at hcount
    by_cases hd : d = device
    · subst hd
      have hnone : l.count d = 0 := by simpa using hcount
      have hself : l.filter (· ≠ d) = l := by
        rw [filter_eq_self]
        intro a ha
        simpa using fun had : a = d => count_eq_zero.mp hnone (had ▸ ha)
      rw [erase_cons_head,filter_cons_of_neg (by simp),hself]
    · rw [erase_cons_tail (by simpa using hd),filter_cons_of_pos (by simpa using hd),
        ih (Nat.le_trans (Nat.le_add_right _ _) hcount)]

theorem coherent_registerDevice (hh : Coherent getCodecs h) {device : δ}
    (hstep : step getCodecs h (.registerDevice device) = some t) : Coherent getCodecs t := by
  simp only [step] at hstep
  split_ifs at hstep
  obtain rfl := Option.some.inj hstep
  refine ⟨fun codec => ?_,hh.once,hh.alive⟩
  rw [findDevices_registerDevice,hh.found,devicesFor,devicesFor,flatMap_append,flatMap_singleton]

theorem coherent_unregisterDevice_iff (hh : Coherent getCodecs h) {device : δ}
    (hstep : step getCodecs h (.unregisterDevice device) = some t) :
    Coherent getCodecs t ↔ Fine getCodecs h (.unregisterDevice device) := by
  simp only [step] at hstep
  split_ifs at hstep with hdestroyed
  obtain rfl := Option.some.inj hstep
  have hzero : h.registry.destroyed.count device = 0 := count_eq_zero.mpr hdestroyed
  have hcount : ∀ codec, (h.registry.findDevices codec).1.count device =
      h.registered.count device*(getCodecs device).count codec := by
    intro codec
    rw [hh.found,count_devicesFor]
  constructor
  · intro ht
    -- The device is in one list, once, and this is all that it was registered for.
    have honce := ht.once device (by simp)
    simp only [unregisterDevice] at honce
    rw [count_append,hzero,count_replicate_self,Nat.zero_add,countValues_eq_one_iff] at honce
    obtain ⟨codec,hmem,hunique⟩ := honce
    have hgone : (h.registry.findDevices codec).1.count device ≤ 1 := by
      have hfound := congrArg (count device) (ht.found codec)
      rw [findDevices_unregisterDevice,count_erase_self,count_devicesFor] at hfound
      have hnot : (h.registered.filter (· ≠ device)).count device = 0 :=
        count_eq_zero.mpr (by simp)
      rw [hnot,Nat.zero_mul] at hfound
      omega
    have hprod : h.registered.count device*(getCodecs device).count codec = 1 := by
      rw [← hcount]
      have := count_pos_iff.mpr hmem
      omega
    have hregistered := Nat.eq_one_of_mul_eq_one_right hprod
    have hcodec := Nat.eq_one_of_mul_eq_one_left hprod
    refine ⟨hregistered,?_⟩
    rw [← hcodec]
    refine (count_eq_length.mpr fun codec' hcodec' => (hunique codec' ?_).symm).symm
    apply count_pos_iff.mp
    rw [hcount,hregistered,Nat.one_mul]
    exact count_pos_iff.mpr hcodec'
  · intro ⟨hregistered,hlength⟩
    obtain ⟨codec,hcodecs⟩ := length_eq_one_iff.mp hlength
    have hone : ∀ codec', (h.registry.findDevices codec').1.count device ≤ 1 := by
      intro codec'
      rw [hcount,hregistered,hcodecs,Nat.one_mul]
      exact count_le_length
    have hdeleted : Dictionary.countValues (fun vec => decide (device ∈ vec)) h.registry.devices =
        1 := by
      rw [countValues_eq_one_iff]
      refine ⟨codec,?_,fun codec' hmem => ?_⟩
      · apply count_pos_iff.mp
        rw [hcount,hregistered,hcodecs]
        simp
      · have hpos := count_pos_iff.mpr hmem
        rw [hcount,hregistered,hcodecs,Nat.one_mul] at hpos
        exact mem_singleton.mp (count_pos_iff.mp hpos)
    refine ⟨fun codec' => ?_,fun device' hdevice' => ?_,fun device' hdevice' => ?_⟩
    · rw [findDevices_unregisterDevice,erase_eq_filter (hone codec'),hh.found,filter_devicesFor]
    · simp only [unregisterDevice,hdeleted,count_append,replicate_one]
      rcases mem_append.mp hdevice' with hold | hnew
      · have hne : device' ≠ device := by
          rintro rfl
          have := hh.once device' hold
          omega
        rw [hh.once device' hold,count_eq_zero.mpr (by simpa using hne)]
      · rw [mem_singleton.mp hnew,hzero,count_singleton_self]
    · simp only [unregisterDevice,hdeleted,replicate_one]
      rw [mem_append,not_or] at hdevice' ⊢
      exact ⟨hh.alive device' hdevice'.1,hdevice'.2⟩

theorem coherent_step_iff (hh : Coherent getCodecs h) {call : Call κ δ}
    (hstep : step getCodecs h call = some t) :
    Coherent getCodecs t ↔ Fine getCodecs h call := by
  cases call with
  | registerDevice device => exact iff_of_true (coherent_registerDevice hh hstep) trivial
  | unregisterDevice device => exact coherent_unregisterDevice_iff hh hstep
  | findDevices identifier =>
    obtain rfl := Option.some.inj hstep
    refine iff_of_true ⟨fun codec => ?_,hh.once,hh.alive⟩ trivial
    rw [findDevices_findDevices,hh.found]

end

/-- The registry is coherent throughout a sequence of calls exactly if every device that is
unregistered has been registered once, for one codec. -/
theorem always_coherent_iff (calls : List (Call κ δ)) (h : (run (step getCodecs) {} calls).isSome) :
    Always (step getCodecs) (Coherent getCodecs) {} calls ↔
      Meets (step getCodecs) (Fine getCodecs) {} calls :=
  always_iff_meets (I := fun _ => True) (fun _ _ _ _ _ => trivial)
    (fun _ _ _ _ hh hstep => coherent_step_iff hh hstep) trivial coherent_init h

/-- A device for one codec that is registered, found and unregistered. -/
def plain : List (Call ℕ ℕ) := [.registerDevice 1,.findDevices 0,.unregisterDevice 1]

theorem always_coherent_iff_plain :
    Always (step fun _ => [0]) (Coherent fun _ => [0]) {} plain := by
  refine (always_coherent_iff (fun _ => [0]) plain rfl).mpr ?_
  exact meets_cons trivial rfl (meets_cons trivial rfl (meets_cons ⟨rfl,rfl⟩ rfl trivial))

/-- A device for two codecs is deleted twice. -/
theorem not_always_coherent_two :
    ¬ ∀ (getCodecs : ℕ → List ℕ) (calls : List (Call ℕ ℕ)),
      (run (step getCodecs) {} calls).isSome →
        Always (step getCodecs) (Coherent getCodecs) {} calls := by
  intro h
  have coherent := h (fun _ => [0,1]) plain rfl
  have := (coherent.last rfl).once 1 (by decide)
  revert this
  decide

end
end Registry
end CodecServer
