import Mathlib.Logic.Function.Basic
import CodecServer.Transition

/-! Monitors: data behind a mutex, and condition variables on which a thread waits until the data is
as it needs it. Any number of threads call the methods, and each of them can be stopped between any
two operations on the mutex, the data and the condition variables. A monitor may be shut down by
somebody who does not take the mutex. -/
namespace CodecServer
open CodecServer.Transition Function

/-- The methods of a monitor: when a call has to wait and on which condition variable, what it does
and returns once it need not wait, and which condition variables it then notifies; what a shutdown
does to the data, and which condition variables it notifies. -/
structure Monitor (μ δ κ ρ : Type*) where
  waits : μ → δ → Bool
  condition : μ → κ
  effect : μ → δ → δ × ρ
  notifies : μ → δ → List κ
  shut : δ → Bool
  shutDown : δ → δ
  announces : List κ

namespace Monitor

/-- Who need not wait any longer is notified, and nobody waits after a shutdown. -/
structure Lawful {μ δ κ ρ : Type*} (M : Monitor μ δ κ ρ) : Prop where
  notified : ∀ m m' d, M.waits m' d = true → M.waits m' (M.effect m d).1 = false →
    M.condition m' ∈ M.notifies m d
  announced : ∀ m, M.condition m ∈ M.announces
  shut_shutDown : ∀ d, M.shut (M.shutDown d) = true
  shut_effect : ∀ m d, M.shut (M.effect m d).1 = M.shut d
  waits_shut : ∀ m d, M.shut d = true → M.waits m d = false

/-- Where a thread is: outside, before it takes the mutex, at the test, before the wait, in the wait,
before the effect, or at the notifications that are left and the return. -/
inductive Pc (μ κ ρ : Type*)
  | idle
  | entering (m : μ)
  | testing (m : μ)
  | waiting (m : μ)
  | asleep (m : μ)
  | acting (m : μ)
  | notifying (m : μ) (left : List κ) (result : ρ)

/-- The thread has the mutex. -/
def Pc.inside {μ κ ρ : Type*} : Pc μ κ ρ → Bool
  | testing _ | waiting _ | acting _ | notifying _ _ _ => true
  | _ => false

/-- What happens at once for somebody who looks at the data only. -/
inductive Act (ι μ : Type*)
  | perform (i : ι) (m : μ)
  | shutDown

/-- The data, the owner of the mutex, the threads and the notifications that are left of a shutdown;
the acts that there have been and what they have returned, and the calls that have returned. -/
structure State (ι μ δ κ ρ : Type*) where
  data : δ
  owner : Option ι := none
  threads : ι → Pc μ κ ρ := fun _ => .idle
  closing : Option (List κ) := none
  acts : List (Act ι μ) := []
  results : List (ι × μ × ρ) := []
  returned : List (ι × μ × ρ) := []

/-- A call; a step of a thread in a call; a thread that wakes up although it was not notified; the
beginning of a shutdown, and its next notification. -/
inductive Event (ι μ : Type*)
  | call (i : ι) (m : μ)
  | work (i : ι)
  | awake (i : ι)
  | shutDown
  | announce

variable {ι μ δ κ ρ : Type*} (M : Monitor μ δ κ ρ)

/-- The monitor without mutex and condition variables: a call that has to wait cannot happen. -/
def act (d : δ × List (ι × μ × ρ)) : Act ι μ → Option (δ × List (ι × μ × ρ))
  | .perform i m =>
    if M.waits m d.1 then none
    else some ((M.effect m d.1).1,d.2 ++ [(i,m,(M.effect m d.1).2)])
  | .shutDown => some (M.shutDown d.1,d.2)

/-- Only one thread has the mutex; what it has found at its test holds until it acts, but for a
shutdown. -/
structure Guarded (s : State ι μ δ κ ρ) : Prop where
  inside : ∀ i, (s.threads i).inside = true ↔ s.owner = some i
  waiting : ∀ i m, s.threads i = .waiting m → s.closing = none → M.waits m s.data = true
  acting : ∀ i m, s.threads i = .acting m → M.waits m s.data = false
  shut : M.shut s.data = s.closing.isSome

/-- A notification of the condition variable is still to come. -/
def State.Due (s : State ι μ δ κ ρ) (c : κ) : Prop :=
  (∃ i m left r, s.threads i = .notifying m left r ∧ c ∈ left) ∨
    ∃ left, s.closing = some left ∧ c ∈ left

/-- Nobody is left in a wait without need. -/
def Roused (s : State ι μ δ κ ρ) : Prop :=
  ∀ i m, s.threads i = .asleep m → M.waits m s.data = true ∨ s.Due (M.condition m)

/-- No thread starts to wait when its condition variable has been notified of a shutdown. -/
def Fine (s : State ι μ δ κ ρ) : Event ι μ → Prop
  | .work i =>
    ∀ m left, s.threads i = .waiting m → s.closing = some left → M.condition m ∈ left
  | _ => True

section
variable {M} {s : State ι μ δ κ ρ} {pc : Pc μ κ ρ}

theorem guarded_init (d : δ) (hd : M.shut d = false) :
    M.Guarded ({data := d} : State ι μ δ κ ρ) where
  inside := fun _ => iff_of_false Bool.false_ne_true nofun
  waiting := nofun
  acting := nofun
  shut := hd

theorem Guarded.owner (hs : M.Guarded s) {i : ι} (h : s.threads i = pc) (hpc : pc.inside = true) :
    s.owner = some i := (hs.inside i).mp (h ▸ hpc)

/-- Nobody else is about to notify while a thread has the mutex. -/
theorem Guarded.not_notifying (hs : M.Guarded s) {i : ι} (hi : s.threads i = pc)
    (hpc : pc.inside = true) (hne : ∀ m left r, pc ≠ .notifying m left r) (j : ι) (m : μ)
    (left : List κ) (r : ρ) : s.threads j ≠ .notifying m left r := by
  intro hj
  have hji : j = i := Option.some.inj ((hs.owner hj rfl).symm.trans (hs.owner hi hpc))
  rw [hji,hi] at hj
  exact hne m left r hj

/-- What the others do without the mutex does no harm. -/
theorem Guarded.outside (hs : M.Guarded s) {threads : ι → Pc μ κ ρ}
    (h : ∀ j, (threads j).inside = (s.threads j).inside)
    (heq : ∀ j, (threads j).inside = true → threads j = s.threads j) :
    M.Guarded {s with threads := threads} := by
  refine ⟨fun j => (h j).symm ▸ hs.inside j,?_,?_,hs.shut⟩
  · intro j m hj
    have hj : threads j = .waiting m := hj
    exact hs.waiting j m ((heq j (hj ▸ rfl)).symm.trans hj)
  · intro j m hj
    have hj : threads j = .acting m := hj
    exact hs.acting j m ((heq j (hj ▸ rfl)).symm.trans hj)

end

section
variable {M} [DecidableEq ι] {s t : State ι μ δ κ ρ} {i : ι} {pc : Pc μ κ ρ}

def State.goto (s : State ι μ δ κ ρ) (i : ι) (pc : Pc μ κ ρ) : State ι μ δ κ ρ :=
  {s with threads := update s.threads i pc}

@[simp] theorem goto_self : (s.goto i pc).threads i = pc := update_self ..

@[simp] theorem goto_results : (s.goto i pc).results = s.results := rfl

@[simp] theorem goto_returned : (s.goto i pc).returned = s.returned := rfl

theorem goto_of_ne {j : ι} (h : j ≠ i) (pc : Pc μ κ ρ) : (s.goto i pc).threads j = s.threads j :=
  update_of_ne h ..

theorem due_goto (pc : Pc μ κ ρ) {c : κ} (hi : ∀ m left r, s.threads i = .notifying m left r → c ∉ left)
    (h : s.Due c) : (s.goto i pc).Due c := by
  rcases h with ⟨j,m,left,r,hj,hc⟩ | h
  · left
    have hne : j ≠ i := by
      rintro rfl
      exact hi m left r hj hc
    exact ⟨j,m,left,r,(goto_of_ne hne pc).trans hj,hc⟩
  · exact Or.inr h

theorem asleep_goto (pc : Pc μ κ ρ) {j : ι} {m : μ} (hpc : pc ≠ .asleep m)
    (h : (s.goto i pc).threads j = .asleep m) : s.threads j = .asleep m := by
  by_cases hj : j = i
  · rw [hj,goto_self] at h
    exact absurd h hpc
  · exact (goto_of_ne hj pc).symm.trans h

/-- A thread outside stays outside. -/
theorem Guarded.goto_outside (hs : M.Guarded s) (h : (s.threads i).inside = false)
    (hpc : pc.inside = false) : M.Guarded (s.goto i pc) := by
  apply hs.outside
  · intro j
    by_cases hj : j = i
    · rw [hj,update_self,hpc,h]
    · rw [update_of_ne hj]
  · intro j hj'
    by_cases hj : j = i
    · rw [hj,update_self,hpc] at hj'
      cases hj'
    · rw [update_of_ne hj]

/-- A step of a thread that may have the mutex. -/
theorem Guarded.inside_step (hs : M.Guarded s) (hfree : s.owner = none ∨ s.owner = some i)
    (hthreads : t.threads = update s.threads i pc)
    (howner : t.owner = if pc.inside then some i else none) (hclosing : t.closing = s.closing)
    (hshut : M.shut t.data = M.shut s.data)
    (hwaiting : ∀ m, pc = .waiting m → s.closing = none → M.waits m t.data = true)
    (hacting : ∀ m, pc = .acting m → M.waits m t.data = false) : M.Guarded t := by
  have hother : ∀ j, j ≠ i → s.owner ≠ some j := by
    intro j hj hj'
    rcases hfree with h | h
    · rw [h] at hj'
      cases hj'
    · exact hj (Option.some.inj (hj'.symm.trans h))
  have hsame : ∀ j pc', t.threads j = pc' → pc'.inside = true → pc = pc' := by
    intro j pc' hj hinside
    rw [hthreads] at hj
    by_cases hji : j = i
    · rwa [hji,update_self] at hj
    · rw [update_of_ne hji] at hj
      exact absurd (hs.owner hj hinside) (hother j hji)
  refine ⟨?_,?_,?_,?_⟩
  · intro j
    rw [hthreads,howner]
    by_cases hj : j = i
    · rw [hj,update_self]
      split_ifs with h
      · simp [h]
      · simp [h]
    · rw [update_of_ne hj]
      refine iff_of_false (mt (hs.inside j).mp (hother j hj)) ?_
      split_ifs
      · simpa using Ne.symm hj
      · nofun
  · intro j m hj hclosing'
    exact hwaiting m (hsame j _ hj rfl) (hclosing ▸ hclosing')
  · intro j m hj
    exact hacting m (hsame j _ hj rfl)
  · rw [hshut,hs.shut,hclosing]

theorem Roused.goto (hr : M.Roused s) (hpc : ∀ m, pc ≠ .asleep m)
    (hi : ∀ m left r, s.threads i ≠ .notifying m left r) : M.Roused (s.goto i pc) := by
  intro j m hj
  rcases hr j m (asleep_goto pc (hpc m) hj) with hwaits | hdue
  · exact Or.inl hwaits
  · exact Or.inr (due_goto pc (fun m left r h => absurd h (hi m left r)) hdue)

/-- Going to sleep is the one step that matters. -/
theorem roused_wait_iff (hM : M.Lawful) (hs : M.Guarded s) (hr : M.Roused s)
    {m : μ} (hi : s.threads i = .waiting m) :
    M.Roused {s.goto i (.asleep m) with owner := none} ↔ M.Fine s (.work i) := by
  have hnotifying : ∀ j m' left r, (s.goto i (.asleep m)).threads j ≠ .notifying m' left r := by
    intro j m' left r hj
    by_cases hji : j = i
    · rw [hji,goto_self] at hj
      cases hj
    · rw [goto_of_ne hji] at hj
      exact hs.not_notifying hi rfl nofun j m' left r hj
  constructor
  · intro ht m' left hi' hclosing
    obtain rfl := Pc.waiting.inj (hi.symm.trans hi')
    have hshut : M.shut s.data = true := by rw [hs.shut,hclosing]; rfl
    rcases ht i m goto_self with hwaits | ⟨j,m',left',r,hj,-⟩ | ⟨left',hleft,hc⟩
    · cases (hM.waits_shut m s.data hshut).symm.trans hwaits
    · exact absurd hj (hnotifying j m' left' r)
    · obtain rfl := Option.some.inj (hclosing.symm.trans hleft)
      exact hc
  · intro hfine j m' hj
    have hj : (s.goto i (.asleep m)).threads j = .asleep m' := hj
    by_cases hji : j = i
    · rw [hji,goto_self] at hj
      obtain rfl := Pc.asleep.inj hj
      cases hclosing : s.closing with
      | none => exact Or.inl (hs.waiting i m hi hclosing)
      | some left => exact Or.inr (Or.inr ⟨left,hclosing,hfine m left hi hclosing⟩)
    · rw [goto_of_ne hji] at hj
      rcases hr j m' hj with hwaits | hdue
      · exact Or.inl hwaits
      · refine Or.inr (due_goto (.asleep m) ?_ hdue)
        intro m' left r h
        rw [hi] at h
        cases h

theorem roused_return {m : μ} {r : ρ} {returned : List (ι × μ × ρ)} (hr : M.Roused s)
    (hi : s.threads i = .notifying m [] r) :
    M.Roused {s.goto i .idle with owner := none, returned := returned} := by
  intro j m' hj
  rcases hr j m' (asleep_goto .idle nofun hj) with hwaits | hdue
  · exact Or.inl hwaits
  · refine Or.inr (due_goto .idle ?_ hdue)
    intro m'' left r' h
    rw [hi] at h
    obtain ⟨rfl,rfl,rfl⟩ := Pc.notifying.inj h
    exact List.not_mem_nil

theorem roused_act {m : μ} (hM : M.Lawful) (hr : M.Roused s) (hi : s.threads i = .acting m)
    {acts : List (Act ι μ)} {results : List (ι × μ × ρ)} :
    M.Roused
      { s.goto i (.notifying m (M.notifies m s.data) (M.effect m s.data).2) with
        data := (M.effect m s.data).1
        acts := acts
        results := results } := by
  intro j m' hj
  have hcases := hr j m' (asleep_goto (.notifying m _ _) nofun hj)
  cases hafter : M.waits m' (M.effect m s.data).1 with
  | true => exact Or.inl rfl
  | false =>
    right
    rcases hcases with hwaits | hdue
    · have hmem := hM.notified m m' s.data hwaits hafter
      exact Or.inl ⟨i,m,_,_,goto_self,hmem⟩
    · refine due_goto (.notifying m _ _) ?_ hdue
      intro m'' left r h
      rw [hi] at h
      cases h

end

/-- The call of a thread that has acted and not returned yet. -/
def pending (i : ι) : Pc μ κ ρ → List (ι × μ × ρ)
  | .notifying m _ r => [(i,m,r)]
  | _ => []

/-- The acts are a run of the monitor without mutex and condition variables, and each thread returns
what its acts have come to. -/
structure Recorded [DecidableEq ι] (d : δ) (s : State ι μ δ κ ρ) : Prop where
  acts : run M.act (d,[]) s.acts = some (s.data,s.results)
  returned : ∀ i, s.results.filter (·.1 = i) =
    s.returned.filter (·.1 = i) ++ pending i (s.threads i)

section
variable {M} [DecidableEq ι] {s t : State ι μ δ κ ρ} {i : ι} {d : δ}

theorem recorded_init (d : δ) : M.Recorded d ({data := d} : State ι μ δ κ ρ) where
  acts := rfl
  returned := fun _ => rfl

/-- Threads move, none of them to an act or a return. -/
theorem Recorded.move (hs : M.Recorded d s) {threads : ι → Pc μ κ ρ} {owner : Option ι}
    {closing : Option (List κ)} (h : ∀ j, pending j (threads j) = pending j (s.threads j)) :
    M.Recorded d {s with threads := threads, owner := owner, closing := closing} where
  acts := hs.acts
  returned := fun j => (hs.returned j).trans (by rw [← h j])

theorem Recorded.goto (hs : M.Recorded d s) {pc : Pc μ κ ρ} {owner : Option ι}
    (h : pending i pc = pending i (s.threads i)) :
    M.Recorded d {s.goto i pc with owner := owner} := by
  apply hs.move
  intro j
  by_cases hj : j = i
  · rw [hj,goto_self,h]
  · rw [goto_of_ne hj]

theorem recorded_act (hs : M.Recorded d s) {m : μ} (hi : s.threads i = .acting m)
    (hwaits : M.waits m s.data = false) :
    M.Recorded d
      { s.goto i (.notifying m (M.notifies m s.data) (M.effect m s.data).2) with
        data := (M.effect m s.data).1
        acts := s.acts ++ [.perform i m]
        results := s.results ++ [(i,m,(M.effect m s.data).2)] } where
  acts := by
    refine run_append hs.acts ?_
    rw [run_cons]
    exact ⟨_,by rw [act,hwaits]; rfl,rfl⟩
  returned := by
    intro j
    have hj := hs.returned j
    by_cases hji : j = i
    · rw [hji] at hj ⊢
      rw [hi] at hj
      simp [hj,pending]
    · have hthread := goto_of_ne (s := s) hji (.notifying m (M.notifies m s.data)
        (M.effect m s.data).2)
      simp only [hthread,List.filter_append,hj]
      simp [Ne.symm hji]

theorem recorded_return (hs : M.Recorded d s) {m : μ} {r : ρ} (hi : s.threads i = .notifying m [] r) :
    M.Recorded d {s.goto i .idle with owner := none, returned := s.returned ++ [(i,m,r)]} where
  acts := hs.acts
  returned := by
    intro j
    have hj := hs.returned j
    by_cases hji : j = i
    · rw [hji] at hj ⊢
      rw [hi] at hj
      simp [hj,pending]
    · have hthread := goto_of_ne (s := s) hji .idle
      simp only [hthread,List.filter_append]
      refine hj.trans ?_
      simp [Ne.symm hji]

end

variable [DecidableEq κ]

/-- Who waits on the condition variable is woken up, and needs the mutex again. -/
def wake (c : κ) : Pc μ κ ρ → Pc μ κ ρ
  | .asleep m => if M.condition m = c then .entering m else .asleep m
  | pc => pc

def notifyAll (s : State ι μ δ κ ρ) (c : κ) : State ι μ δ κ ρ :=
  {s with threads := fun j => M.wake c (s.threads j)}

section
variable {s : State ι μ δ κ ρ} {pc : Pc μ κ ρ} {c : κ}

theorem wake_inside (c : κ) (pc : Pc μ κ ρ) : (M.wake c pc).inside = pc.inside := by
  unfold wake
  split
  · split_ifs <;> rfl
  · rfl

theorem wake_of_inside (h : pc.inside = true) : M.wake c pc = pc := by
  cases pc with
  | asleep m => cases h
  | _ => rfl

/-- Who still waits after a notification waits for another one. -/
theorem asleep_notifyAll {j : ι} {m : μ} (h : (M.notifyAll s c).threads j = .asleep m) :
    s.threads j = .asleep m ∧ M.condition m ≠ c := by
  have h : M.wake c (s.threads j) = .asleep m := h
  unfold wake at h
  split at h
  · rename_i m' hj
    split_ifs at h with hc
    obtain rfl := Pc.asleep.inj h
    exact ⟨hj,hc⟩
  · rename_i hne
    exact absurd h (hne m)

theorem Guarded.notifyAll {M : Monitor μ δ κ ρ} (hs : M.Guarded s) (c : κ) :
    M.Guarded (M.notifyAll s c) := by
  apply hs.outside
  · exact fun j => M.wake_inside c (s.threads j)
  · exact fun j hj => M.wake_of_inside ((M.wake_inside c (s.threads j)).symm.trans hj)

end

variable [DecidableEq ι]

/-- The next step of a thread, if it can make one. -/
def work (s : State ι μ δ κ ρ) (i : ι) : Option (State ι μ δ κ ρ) :=
  match s.threads i with
  | .idle => none
  | .entering m =>
    match s.owner with
    | none => some {s.goto i (.testing m) with owner := some i}
    | some _ => none
  | .testing m => some (s.goto i (if M.waits m s.data then .waiting m else .acting m))
  | .waiting m => some {s.goto i (.asleep m) with owner := none}
  | .asleep _ => none
  | .acting m =>
    some
      { s.goto i (.notifying m (M.notifies m s.data) (M.effect m s.data).2) with
        data := (M.effect m s.data).1
        acts := s.acts ++ [.perform i m]
        results := s.results ++ [(i,m,(M.effect m s.data).2)] }
  | .notifying m (c::cs) r => some ((M.notifyAll s c).goto i (.notifying m cs r))
  | .notifying m [] r =>
    some {s.goto i .idle with owner := none, returned := s.returned ++ [(i,m,r)]}

def step (s : State ι μ δ κ ρ) : Event ι μ → Option (State ι μ δ κ ρ)
  | .call i m =>
    match s.threads i with
    | .idle => some (s.goto i (.entering m))
    | _ => none
  | .work i => M.work s i
  | .awake i =>
    match s.threads i with
    | .asleep m => some (s.goto i (.entering m))
    | _ => none
  | .shutDown =>
    match s.closing with
    | none =>
      some
        { s with
          data := M.shutDown s.data
          closing := some M.announces
          acts := s.acts ++ [.shutDown] }
    | some _ => none
  | .announce =>
    match s.closing with
    | some (c::cs) => some {M.notifyAll s c with closing := some cs}
    | _ => none

section
variable {M} {s t : State ι μ δ κ ρ} {i : ι}

theorem guarded_work (hM : M.Lawful) (hs : M.Guarded s) (h : M.work s i = some t) :
    M.Guarded t := by
  unfold work at h
  cases hi : s.threads i with
  | idle => simp [hi] at h
  | entering m =>
    simp only [hi] at h
    split at h
    · rename_i howner
      obtain rfl := Option.some.inj h
      exact hs.inside_step (Or.inl howner) rfl rfl rfl rfl nofun nofun
    · cases h
  | testing m =>
    simp only [hi] at h
    obtain rfl := Option.some.inj h
    have howner := hs.owner hi rfl
    cases hwaits : M.waits m s.data with
    | true =>
      refine hs.inside_step (Or.inr howner) rfl howner rfl rfl ?_ nofun
      rintro _ h -
      obtain rfl := Pc.waiting.inj h
      exact hwaits
    | false =>
      refine hs.inside_step (Or.inr howner) rfl howner rfl rfl nofun ?_
      intro _ h
      obtain rfl := Pc.acting.inj h
      exact hwaits
  | waiting m =>
    simp only [hi] at h
    obtain rfl := Option.some.inj h
    exact hs.inside_step (Or.inr (hs.owner hi rfl)) rfl rfl rfl rfl nofun nofun
  | asleep m => simp [hi] at h
  | acting m =>
    simp only [hi] at h
    obtain rfl := Option.some.inj h
    have howner := hs.owner hi rfl
    exact hs.inside_step (Or.inr howner) rfl howner rfl (hM.shut_effect m s.data) nofun nofun
  | notifying m left r =>
    have howner := hs.owner hi rfl
    simp only [hi] at h
    cases left with
    | nil =>
      obtain rfl := Option.some.inj h
      exact hs.inside_step (Or.inr howner) rfl rfl rfl rfl nofun nofun
    | cons c cs =>
      obtain rfl := Option.some.inj h
      exact (hs.notifyAll c).inside_step (Or.inr howner) rfl howner rfl rfl nofun nofun

theorem guarded_step (hM : M.Lawful) (s : State ι μ δ κ ρ) (e : Event ι μ) (t : State ι μ δ κ ρ)
    (hs : M.Guarded s) (h : M.step s e = some t) : M.Guarded t := by
  cases e with
  | call i m =>
    simp only [step] at h
    split at h
    · rename_i hi
      obtain rfl := Option.some.inj h
      exact hs.goto_outside (hi ▸ rfl) rfl
    · cases h
  | work i => exact guarded_work hM hs h
  | awake i =>
    simp only [step] at h
    split at h
    · rename_i m hi
      obtain rfl := Option.some.inj h
      exact hs.goto_outside (hi ▸ rfl) rfl
    · cases h
  | shutDown =>
    simp only [step] at h
    split at h
    · obtain rfl := Option.some.inj h
      have hshut := hM.shut_shutDown s.data
      exact ⟨hs.inside,nofun,fun _ m _ => hM.waits_shut m _ hshut,hshut⟩
    · cases h
  | announce =>
    simp only [step] at h
    split at h
    · rename_i c cs hclosing
      obtain rfl := Option.some.inj h
      have hnext := hs.notifyAll c
      have hshut : M.shut s.data = true := by rw [hs.shut,hclosing]; rfl
      exact ⟨hnext.inside,nofun,hnext.acting,hshut⟩
    · cases h

end

section
variable {M} {s t : State ι μ δ κ ρ} {i : ι} {m : μ} {c : κ} {pc : Pc μ κ ρ}

theorem roused_notify {left : List κ} {r : ρ} (hr : M.Roused s)
    (hi : s.threads i = .notifying m (c::left) r) :
    M.Roused ((M.notifyAll s c).goto i (.notifying m left r)) := by
  intro j m' hj
  obtain ⟨hj,hc⟩ := M.asleep_notifyAll (asleep_goto (.notifying m left r) nofun hj)
  rcases hr j m' hj with hwaits | ⟨j',m'',left',r',hj',hmem⟩ | hclosing
  · exact Or.inl hwaits
  · right
    left
    by_cases hji : j' = i
    · rw [hji,hi] at hj'
      obtain ⟨rfl,rfl,rfl⟩ := Pc.notifying.inj hj'
      exact ⟨i,m,left,r,goto_self,(List.mem_cons.mp hmem).resolve_left hc⟩
    · exact ⟨j',m'',left',r',(goto_of_ne hji _).trans (congrArg (M.wake c) hj'),hmem⟩
  · exact Or.inr (Or.inr hclosing)

theorem roused_work_iff (hM : M.Lawful) (hs : M.Guarded s) (hr : M.Roused s)
    (h : M.work s i = some t) : M.Roused t ↔ M.Fine s (.work i) := by
  have hfine : (∀ m, s.threads i ≠ .waiting m) → M.Fine s (.work i) :=
    fun hne m left hi => absurd hi (hne m)
  unfold work at h
  cases hi : s.threads i with
  | idle => simp [hi] at h
  | entering m =>
    simp only [hi] at h
    split at h
    · obtain rfl := Option.some.inj h
      exact iff_of_true (hr.goto nofun (by simp [hi])) (hfine (by simp [hi]))
    · cases h
  | testing m =>
    simp only [hi] at h
    obtain rfl := Option.some.inj h
    refine iff_of_true (hr.goto ?_ (by simp [hi])) (hfine (by simp [hi]))
    intro m'
    split_ifs <;> nofun
  | waiting m =>
    simp only [hi] at h
    obtain rfl := Option.some.inj h
    exact roused_wait_iff hM hs hr hi
  | asleep m => simp [hi] at h
  | acting m =>
    simp only [hi] at h
    obtain rfl := Option.some.inj h
    exact iff_of_true (roused_act hM hr hi) (hfine (by simp [hi]))
  | notifying m left r =>
    simp only [hi] at h
    cases left with
    | nil =>
      obtain rfl := Option.some.inj h
      exact iff_of_true (roused_return hr hi) (hfine (by simp [hi]))
    | cons c left =>
      obtain rfl := Option.some.inj h
      exact iff_of_true (roused_notify hr hi) (hfine (by simp [hi]))

theorem roused_step_iff (hM : M.Lawful) (s : State ι μ δ κ ρ) (e : Event ι μ) (t : State ι μ δ κ ρ)
    (hs : M.Guarded s) (hr : M.Roused s) (h : M.step s e = some t) :
    M.Roused t ↔ M.Fine s e := by
  cases e with
  | call i m =>
    simp only [step] at h
    split at h
    · rename_i hi
      obtain rfl := Option.some.inj h
      exact iff_of_true (hr.goto nofun (by simp [hi])) trivial
    · cases h
  | work i => exact roused_work_iff hM hs hr h
  | awake i =>
    simp only [step] at h
    split at h
    · rename_i m hi
      obtain rfl := Option.some.inj h
      exact iff_of_true (hr.goto nofun (by simp [hi])) trivial
    · cases h
  | shutDown =>
    simp only [step] at h
    split at h
    · obtain rfl := Option.some.inj h
      exact iff_of_true (fun j m _ => Or.inr (Or.inr ⟨_,rfl,hM.announced m⟩)) trivial
    · cases h
  | announce =>
    simp only [step] at h
    split at h
    · rename_i c left hclosing
      obtain rfl := Option.some.inj h
      refine iff_of_true ?_ trivial
      intro j m hj
      obtain ⟨hj,hc⟩ := M.asleep_notifyAll hj
      rcases hr j m hj with hwaits | ⟨j',m',left',r',hj',hmem⟩ | ⟨left',hleft,hmem⟩
      · exact Or.inl hwaits
      · exact Or.inr (Or.inl ⟨j',m',left',r',congrArg (M.wake c) hj',hmem⟩)
      · obtain rfl := Option.some.inj (hclosing.symm.trans hleft)
        exact Or.inr (Or.inr ⟨left,rfl,(List.mem_cons.mp hmem).resolve_left hc⟩)
    · cases h

end

/-- Nothing happens anymore unless somebody calls, or wakes up by chance. -/
def Quiet (s : State ι μ δ κ ρ) : Prop := (∀ i, M.work s i = none) ∧ M.step s .announce = none

section
variable {M} {s t : State ι μ δ κ ρ} {i : ι} {d : δ}

/-- In a quiet state, a thread that is in a call has to wait. -/
theorem Quiet.asleep (hq : M.Quiet s) (hs : M.Guarded s) (hr : M.Roused s) (i : ι) :
    s.threads i = .idle ∨ ∃ m, s.threads i = .asleep m ∧ M.waits m s.data = true := by
  have hclosing : ∀ left, s.closing = some left → left = [] := by
    intro left hleft
    cases left with
    | nil => rfl
    | cons c left =>
      have h := hq.2
      simp only [step,hleft] at h
      cases h
  have houtside : ∀ j, (s.threads j).inside = false := by
    intro j
    have h := hq.1 j
    unfold work at h
    cases hj : s.threads j with
    | notifying m left r => cases left <;> simp [hj] at h
    | idle => rfl
    | entering m => rfl
    | asleep m => rfl
    | testing m => simp [hj] at h
    | waiting m => simp [hj] at h
    | acting m => simp [hj] at h
  have howner : s.owner = none := by
    rw [Option.eq_none_iff_forall_not_mem]
    intro j hj
    have hinside := (hs.inside j).mpr hj
    rw [houtside j] at hinside
    cases hinside
  have hwork := hq.1 i
  have hi := houtside i
  unfold work at hwork
  cases hpc : s.threads i with
  | idle => exact Or.inl rfl
  | entering m => simp [hpc,howner] at hwork
  | asleep m =>
    right
    refine ⟨m,rfl,?_⟩
    rcases hr i m hpc with hwaits | ⟨j,m',left,r,hj,-⟩ | ⟨left,hleft,hmem⟩
    · exact hwaits
    · have hj' := houtside j
      rw [hj] at hj'
      cases hj'
    · rw [hclosing left hleft] at hmem
      cases hmem
  | testing m => simp [hpc,Pc.inside] at hi
  | waiting m => simp [hpc,Pc.inside] at hi
  | acting m => simp [hpc,Pc.inside] at hi
  | notifying m left r => simp [hpc,Pc.inside] at hi

theorem Recorded.notifyAll (hs : M.Recorded d s) (c : κ) {closing : Option (List κ)} :
    M.Recorded d {M.notifyAll s c with closing := closing} := by
  apply hs.move
  intro j
  change pending j (M.wake c (s.threads j)) = _
  cases s.threads j with
  | asleep m =>
    simp only [wake]
    split_ifs <;> rfl
  | _ => rfl

theorem recorded_work (hs : M.Guarded s) (hd : M.Recorded d s) (h : M.work s i = some t) :
    M.Recorded d t := by
  unfold work at h
  cases hi : s.threads i with
  | idle => simp [hi] at h
  | entering m =>
    simp only [hi] at h
    split at h
    · obtain rfl := Option.some.inj h
      exact hd.goto (hi ▸ rfl)
    · cases h
  | testing m =>
    simp only [hi] at h
    obtain rfl := Option.some.inj h
    refine hd.goto ?_
    rw [hi]
    split_ifs <;> rfl
  | waiting m =>
    simp only [hi] at h
    obtain rfl := Option.some.inj h
    exact hd.goto (hi ▸ rfl)
  | asleep m => simp [hi] at h
  | acting m =>
    simp only [hi] at h
    obtain rfl := Option.some.inj h
    exact recorded_act hd hi (hs.acting i m hi)
  | notifying m left r =>
    simp only [hi] at h
    cases left with
    | nil =>
      obtain rfl := Option.some.inj h
      exact recorded_return hd hi
    | cons c left =>
      obtain rfl := Option.some.inj h
      have hthread : (M.notifyAll s c).threads i = .notifying m (c::left) r := congrArg (M.wake c) hi
      exact (hd.notifyAll c).goto (hthread ▸ rfl)

theorem recorded_step {e : Event ι μ} (hs : M.Guarded s) (hd : M.Recorded d s)
    (h : M.step s e = some t) : M.Recorded d t := by
  cases e with
  | call i m =>
    simp only [step] at h
    split at h
    · rename_i hi
      obtain rfl := Option.some.inj h
      exact hd.goto (hi ▸ rfl)
    · cases h
  | work i => exact recorded_work hs hd h
  | awake i =>
    simp only [step] at h
    split at h
    · rename_i m hi
      obtain rfl := Option.some.inj h
      exact hd.goto (hi ▸ rfl)
    · cases h
  | shutDown =>
    simp only [step] at h
    split at h
    · obtain rfl := Option.some.inj h
      refine ⟨run_append hd.acts ?_,hd.returned⟩
      rw [run_cons]
      exact ⟨_,rfl,rfl⟩
    · cases h
  | announce =>
    simp only [step] at h
    split at h
    · obtain rfl := Option.some.inj h
      exact hd.notifyAll _
    · cases h

/-- Whatever the threads do, the calls behave as if each of them happened at once, when it did not
have to wait; and each thread gets the results of its own calls, in order. -/
theorem run_recorded (hM : M.Lawful) (hd : M.shut d = false) {es : List (Event ι μ)}
    (h : run M.step {data := d} es = some s) : M.Recorded d s := by
  have hinv : M.Guarded s ∧ M.Recorded d s :=
    run_invariant (I := fun s => M.Guarded s ∧ M.Recorded d s)
      (fun s e t hs hstep => ⟨guarded_step hM s e t hs.1 hstep,recorded_step hs.1 hs.2 hstep⟩)
      ⟨guarded_init d hd,recorded_init d⟩ h
  exact hinv.2

theorem run_guarded (hM : M.Lawful) (hd : M.shut d = false) {es : List (Event ι μ)}
    (h : run M.step {data := d} es = some s) : M.Guarded s :=
  run_invariant (guarded_step hM) (guarded_init d hd) h

/-- Nobody is ever left in a wait without need exactly if no thread starts to wait when its condition
variable has been notified of a shutdown. -/
theorem always_roused_iff_meets (hM : M.Lawful) (hd : M.shut d = false) {es : List (Event ι μ)}
    (hrun : (run M.step ({data := d} : State ι μ δ κ ρ) es).isSome) :
    Always M.step M.Roused ({data := d} : State ι μ δ κ ρ) es ↔
      Meets M.step M.Fine ({data := d} : State ι μ δ κ ρ) es :=
  always_iff_meets (guarded_step hM) (roused_step_iff hM) (guarded_init d hd) nofun hrun

theorem closing_work (h : M.work s i = some t) : t.closing = s.closing := by
  unfold work at h
  cases hi : s.threads i with
  | idle => simp [hi] at h
  | asleep m => simp [hi] at h
  | entering m =>
    simp only [hi] at h
    split at h
    · exact Option.some.inj h ▸ rfl
    · cases h
  | notifying m left r =>
    simp only [hi] at h
    cases left <;> exact Option.some.inj h ▸ rfl
  | _ =>
    simp only [hi] at h
    exact Option.some.inj h ▸ rfl

theorem closing_step {e : Event ι μ} (he : e ≠ .shutDown) (hs : s.closing = none)
    (h : M.step s e = some t) : t.closing = none := by
  cases e with
  | shutDown => exact absurd rfl he
  | work i => exact (closing_work h).trans hs
  | announce =>
    simp only [step,hs] at h
    cases h
  | call i m =>
    simp only [step] at h
    split at h
    · exact Option.some.inj h ▸ hs
    · cases h
  | awake i =>
    simp only [step] at h
    split at h
    · exact Option.some.inj h ▸ hs
    · cases h

/-- Without a shutdown, nobody is left in a wait without need. -/
theorem run_roused (hM : M.Lawful) (hs : M.Guarded s) (hr : M.Roused s) (hclosing : s.closing = none)
    {es : List (Event ι μ)} (hes : ∀ e ∈ es, e ≠ .shutDown) (h : run M.step s es = some t) :
    M.Roused t := by
  induction es generalizing s with
  | nil => exact Option.some.inj h ▸ hr
  | cons e es ih =>
    obtain ⟨u,hu,hrun⟩ := (run_cons ..).mp h
    obtain ⟨he,hrest⟩ := List.forall_mem_cons.mp hes
    have hfine : M.Fine s e := by
      cases e with
      | work i =>
        intro m left _ hleft
        rw [hclosing] at hleft
        cases hleft
      | _ => trivial
    exact ih (guarded_step hM s e u hs hu) ((roused_step_iff hM s e u hs hr hu).mpr hfine)
      (closing_step he hclosing hu) hrest hrun

end

end Monitor
end CodecServer
