import Mathlib.Logic.Function.Basic
import CodecServer.Transition

/-! A raw pointer that threads share, to an object that any of them may delete. Between the test of a
thread and what it does then, and while it is in a call of the object, the others go on. -/
namespace CodecServer.Pointer
open Function CodecServer.Transition

/-- Where a thread is: it has found that there is an object, and will call it; it is in a call; it will
delete the object; the destructor has run and the memory is still to be freed; the pointer is still to
be cleared. -/
inductive Phase
  | outside
  | calling
  | inside (object : ℕ)
  | deleting
  | destroyed (object : ℕ)
  | clearing
  deriving DecidableEq

/-- The pointer; the objects there have been, and those whose memory has been freed; the threads. -/
structure State (ι : Type*) where
  pointer : Option ℕ := none
  fresh : ℕ := 0
  freed : ℕ → Bool := fun _ => false
  phase : ι → Phase := fun _ => .outside

/-- A new object is assigned to the pointer. A thread tests the pointer, in order to call the object or
to delete it; it calls the object, and the call returns or leads to a deletion; the destructor runs,
the memory is freed, and the pointer is cleared. -/
inductive Event (ι : Type*)
  | assign
  | test (i : ι) (delete : Bool)
  | call (i : ι)
  | leave (i : ι)
  | refuse (i : ι)
  | destroy (i : ι)
  | free (i : ι)
  | clear (i : ι)

variable {ι : Type*}

namespace State

/-- A thread in the phase will use a null pointer, or memory that has been freed. To delete a null
pointer does no harm. -/
def Dangerous (s : State ι) : Phase → Prop
  | .calling => ∀ q, s.pointer = some q → s.freed q = true
  | .inside q | .destroyed q => s.freed q = true
  | .deleting => ∃ q, s.pointer = some q ∧ s.freed q = true
  | .outside | .clearing => False

/-- The pointer is null, or its object is there. -/
def Valid (s : State ι) : Prop := ∀ q, s.pointer = some q → s.freed q = false

/-- What a thread does with an object that is still there. -/
def use (s : State ι) (q : ℕ) (t : State ι) : Option (State ι) := if s.freed q then none else some t

variable [DecidableEq ι]

def goto (s : State ι) (i : ι) (p : Phase) : State ι := {s with phase := update s.phase i p}

/-- Nothing is said of what follows where a null pointer or freed memory is used. -/
def step (s : State ι) : Event ι → Option (State ι)
  | .assign => some {s with pointer := some s.fresh, fresh := s.fresh+1}
  | .test i delete =>
    if s.phase i = .outside then
      if s.pointer.isSome then some (s.goto i (if delete then .deleting else .calling)) else some s
    else none
  | .call i =>
    match s.phase i,s.pointer with
    | .calling,some q => s.use q (s.goto i (.inside q))
    | _,_ => none
  | .leave i =>
    match s.phase i with
    | .inside q => s.use q (s.goto i .outside)
    | _ => none
  | .refuse i =>
    match s.phase i with
    | .inside q => s.use q (s.goto i .deleting)
    | _ => none
  | .destroy i =>
    match s.phase i,s.pointer with
    | .deleting,none => some (s.goto i .clearing)
    | .deleting,some q => s.use q (s.goto i (.destroyed q))
    | _,_ => none
  | .free i =>
    match s.phase i with
    | .destroyed q => s.use q {s.goto i .clearing with freed := update s.freed q true}
    | _ => none
  | .clear i =>
    match s.phase i with
    | .clearing => some {s.goto i .outside with pointer := none}
    | _ => none

end State

/-- No thread is about to use a null pointer or freed memory. -/
def Safe (s : State ι) : Prop := ∀ i, ¬ s.Dangerous (s.phase i)

/-- No thread relies on a pointer whose object is gone. An object is freed only when no other thread is
in a call of it or has destroyed it, and none has tested the pointer to it; and the pointer is cleared
only when no other thread has tested it for a call. -/
def Fine (s : State ι) : Event ι → Prop
  | .test _ _ | .refuse _ => s.Valid
  | .free i =>
    ∀ q, s.phase i = .destroyed q → ∀ j ≠ i, s.phase j ≠ .inside q ∧ s.phase j ≠ .destroyed q ∧
      (s.pointer = some q → s.phase j ≠ .calling ∧ s.phase j ≠ .deleting)
  | .clear i => ∀ j ≠ i, s.phase j ≠ .calling
  | _ => True

/-- An object that is to come has not been freed. -/
structure Fresh (s : State ι) : Prop where
  freed : ∀ q, s.freed q = true → q < s.fresh
  destroyed : ∀ i q, s.phase i = .destroyed q → q < s.fresh
  pointer : ∀ q, s.pointer = some q → q < s.fresh

theorem fresh_init : Fresh ({} : State ι) := ⟨nofun,nofun,nofun⟩

theorem safe_init : Safe ({} : State ι) := fun _ h => h

section
variable {s t : State ι} {i : ι} {p : Phase} {q : ℕ}

theorem use_eq_some {u : State ι} (h : s.use q u = some t) : s.freed q = false ∧ t = u := by
  unfold State.use at h
  split_ifs at h with hfreed
  exact ⟨Bool.eq_false_iff.mpr hfreed,(Option.some.inj h).symm⟩

theorem not_dangerous_calling_iff :
    ¬ s.Dangerous .calling ↔ ∃ q, s.pointer = some q ∧ s.freed q = false := by
  simp [State.Dangerous]

theorem not_dangerous_deleting_iff : ¬ s.Dangerous .deleting ↔ s.Valid := by
  simp [State.Dangerous,State.Valid]

/-- A new object is not freed, so that who has tested the pointer may go on. -/
theorem safe_assign (hfresh : Fresh s) (hs : Safe s) :
    Safe {s with pointer := some s.fresh, fresh := s.fresh+1} := by
  have hlive : s.freed s.fresh = false := by
    apply Bool.eq_false_iff.mpr
    intro hfreed
    exact Nat.lt_irrefl _ (hfresh.freed _ hfreed)
  intro j
  have hother := hs j
  cases hphase : s.phase j with
  | outside | clearing => exact id
  | inside q | destroyed q =>
    rw [hphase] at hother
    exact hother
  | calling =>
    simp only [State.Dangerous]
    intro h
    cases hlive.symm.trans (h _ rfl)
  | deleting =>
    simp only [State.Dangerous]
    rintro ⟨q,hq,hfreed⟩
    obtain rfl := Option.some.inj hq
    cases hlive.symm.trans hfreed

variable [DecidableEq ι]

/-- While the objects stay, it is the new phase of the thread that counts. -/
theorem safe_goto_iff (hs : Safe s) : Safe (s.goto i p) ↔ ¬ s.Dangerous p := by
  constructor
  · intro h
    have hi := h i
    simp only [State.goto,update_self] at hi
    cases p <;> exact hi
  · intro hp j
    by_cases hj : j = i
    · subst hj
      simp only [State.goto,update_self]
      cases p <;> exact hp
    · simp only [State.goto,update_of_ne hj]
      have hother := hs j
      cases hphase : s.phase j <;> rw [hphase] at hother <;> exact hother

/-- Who has tested the pointer relies on it, and so does who is in the object. -/
theorem safe_free_iff (hs : Safe s) :
    Safe {s.goto i .clearing with freed := update s.freed q true} ↔
      ∀ j ≠ i, s.phase j ≠ .inside q ∧ s.phase j ≠ .destroyed q ∧
        (s.pointer = some q → s.phase j ≠ .calling ∧ s.phase j ≠ .deleting) := by
  constructor
  · intro h j hj
    have hother := h j
    simp only [State.goto,update_of_ne hj] at hother
    refine ⟨fun hphase => ?_,fun hphase => ?_,fun hpointer => ⟨fun hphase => ?_,fun hphase => ?_⟩⟩
    · simp [hphase,State.Dangerous] at hother
    · simp [hphase,State.Dangerous] at hother
    · simp [hphase,State.Dangerous,hpointer] at hother
    · simp [hphase,State.Dangerous,hpointer] at hother
  · intro h j
    by_cases hj : j = i
    · subst hj
      simp only [State.goto,update_self]
      exact id
    · obtain ⟨hinside,hdestroyed,hpointer⟩ := h j hj
      have hother := hs j
      simp only [State.goto,update_of_ne hj]
      cases hphase : s.phase j with
      | outside | clearing => exact id
      | inside q' =>
        have hq : q' ≠ q := fun heq => hinside (heq ▸ hphase)
        rw [hphase] at hother
        simpa [State.Dangerous,update_of_ne hq] using hother
      | destroyed q' =>
        have hq : q' ≠ q := fun heq => hdestroyed (heq ▸ hphase)
        rw [hphase] at hother
        simpa [State.Dangerous,update_of_ne hq] using hother
      | calling =>
        rw [hphase] at hother
        obtain ⟨q',hq',hfreed⟩ := not_dangerous_calling_iff.mp hother
        have hq : q' ≠ q := fun heq => (hpointer (heq ▸ hq')).1 hphase
        exact not_dangerous_calling_iff.mpr ⟨q',hq',(update_of_ne hq _ _).trans hfreed⟩
      | deleting =>
        rw [hphase] at hother
        apply not_dangerous_deleting_iff.mpr
        intro q' hq'
        have hq : q' ≠ q := fun heq => (hpointer (heq ▸ hq')).2 hphase
        change update s.freed q true q' = false
        rw [update_of_ne hq]
        exact not_dangerous_deleting_iff.mp hother q' hq'

theorem safe_clear_iff (hs : Safe s) :
    Safe {s.goto i .outside with pointer := none} ↔ ∀ j ≠ i, s.phase j ≠ .calling := by
  constructor
  · intro h j hj hphase
    have hother := h j
    simp only [State.goto,update_of_ne hj,hphase] at hother
    exact hother nofun
  · intro h j
    by_cases hj : j = i
    · subst hj
      simp only [State.goto,update_self]
      exact id
    · have hother := hs j
      simp only [State.goto,update_of_ne hj]
      cases hphase : s.phase j with
      | calling => exact absurd hphase (h j hj)
      | deleting => exact nofun
      | outside | clearing => exact id
      | inside q | destroyed q =>
        rw [hphase] at hother
        exact hother

/-- A thread goes on, and has destroyed no object but the one of the pointer. -/
theorem fresh_goto (hs : Fresh s) (hp : ∀ q, p = .destroyed q → s.pointer = some q) :
    Fresh (s.goto i p) where
  freed := hs.freed
  destroyed j q hj := by
    by_cases hij : j = i
    · subst hij
      simp only [State.goto,update_self] at hj
      exact hs.pointer q (hp q hj)
    · simp only [State.goto,update_of_ne hij] at hj
      exact hs.destroyed j q hj
  pointer := hs.pointer

theorem fresh_step (s : State ι) (e : Event ι) (t : State ι) (hs : Fresh s)
    (h : s.step e = some t) : Fresh t := by
  cases e with
  | assign =>
    obtain rfl := Option.some.inj h
    refine ⟨fun q hq => Nat.lt_succ_of_lt (hs.freed q hq),
      fun j q hj => Nat.lt_succ_of_lt (hs.destroyed j q hj),fun q hq => ?_⟩
    obtain rfl := Option.some.inj hq
    exact Nat.lt_succ_self _
  | test i delete =>
    simp only [State.step] at h
    split_ifs at h
    · obtain rfl := Option.some.inj h
      exact fresh_goto hs nofun
    · obtain rfl := Option.some.inj h
      exact fresh_goto hs nofun
    · obtain rfl := Option.some.inj h
      exact hs
  | call i =>
    simp only [State.step] at h
    split at h
    · obtain ⟨-,rfl⟩ := use_eq_some h
      exact fresh_goto hs nofun
    · cases h
  | leave i | refuse i =>
    simp only [State.step] at h
    split at h
    · obtain ⟨-,rfl⟩ := use_eq_some h
      exact fresh_goto hs nofun
    · cases h
  | destroy i =>
    simp only [State.step] at h
    split at h
    · obtain rfl := Option.some.inj h
      exact fresh_goto hs nofun
    · rename_i q _ hpointer
      obtain ⟨-,rfl⟩ := use_eq_some h
      refine fresh_goto hs fun q' hq' => ?_
      rw [← Phase.destroyed.inj hq']
      exact hpointer
    · cases h
  | free i =>
    simp only [State.step] at h
    split at h
    · rename_i q hphase
      obtain ⟨-,rfl⟩ := use_eq_some h
      have hgoto := fresh_goto (i := i) (p := .clearing) hs nofun
      refine ⟨fun q' hq' => ?_,hgoto.destroyed,hgoto.pointer⟩
      by_cases heq : q' = q
      · rw [heq]
        exact hs.destroyed i q hphase
      · exact hs.freed q' ((update_of_ne heq _ _).symm.trans hq')
    · cases h
  | clear i =>
    simp only [State.step] at h
    split at h
    · obtain rfl := Option.some.inj h
      exact ⟨hs.freed,(fresh_goto (i := i) (p := .outside) hs nofun).destroyed,nofun⟩
    · cases h

/-- Only what a thread finds, frees or clears can be dangerous, to itself or to others. -/
theorem safe_step_iff (s : State ι) (e : Event ι) (t : State ι) (hfresh : Fresh s) (hs : Safe s)
    (h : s.step e = some t) : Safe t ↔ Fine s e := by
  cases e with
  | assign =>
    obtain rfl := Option.some.inj h
    exact iff_of_true (safe_assign hfresh hs) trivial
  | test i delete =>
    simp only [State.step] at h
    split_ifs at h with _ hsome hdelete
    · obtain rfl := Option.some.inj h
      rw [safe_goto_iff hs,not_dangerous_deleting_iff]
      rfl
    · obtain rfl := Option.some.inj h
      obtain ⟨q,hq⟩ := Option.isSome_iff_exists.mp hsome
      rw [safe_goto_iff hs,not_dangerous_calling_iff,Fine,State.Valid,hq]
      simp
    · obtain rfl := Option.some.inj h
      refine iff_of_true hs fun q hq => ?_
      rw [hq] at hsome
      exact absurd rfl hsome
  | call i =>
    simp only [State.step] at h
    split at h
    · rename_i q _ _
      obtain ⟨hfreed,rfl⟩ := use_eq_some h
      exact iff_of_true ((safe_goto_iff hs).mpr (Bool.eq_false_iff.mp hfreed)) trivial
    · cases h
  | leave i =>
    simp only [State.step] at h
    split at h
    · obtain ⟨-,rfl⟩ := use_eq_some h
      exact iff_of_true ((safe_goto_iff hs).mpr id) trivial
    · cases h
  | refuse i =>
    simp only [State.step] at h
    split at h
    · obtain ⟨-,rfl⟩ := use_eq_some h
      rw [safe_goto_iff hs,not_dangerous_deleting_iff]
      rfl
    · cases h
  | destroy i =>
    simp only [State.step] at h
    split at h
    · obtain rfl := Option.some.inj h
      exact iff_of_true ((safe_goto_iff hs).mpr id) trivial
    · obtain ⟨hfreed,rfl⟩ := use_eq_some h
      exact iff_of_true ((safe_goto_iff hs).mpr (Bool.eq_false_iff.mp hfreed)) trivial
    · cases h
  | free i =>
    simp only [State.step] at h
    split at h
    · rename_i q hphase
      obtain ⟨-,rfl⟩ := use_eq_some h
      rw [safe_free_iff hs]
      constructor
      · intro hothers q' hq'
        rw [← Phase.destroyed.inj (hphase.symm.trans hq')]
        exact hothers
      · exact fun hfine => hfine q hphase
    · cases h
  | clear i =>
    simp only [State.step] at h
    split at h
    · obtain rfl := Option.some.inj h
      exact safe_clear_iff hs
    · cases h

end

end CodecServer.Pointer
