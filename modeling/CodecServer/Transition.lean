import Mathlib.Algebra.GroupWithZero.Nat
import Mathlib.Data.List.Basic

/-! Transition systems given by a partial step function over events. Whatever a run preserves, it
preserves because each of its steps does. -/
namespace CodecServer.Transition

variable {σ ε : Type*} {step : σ → ε → Option σ}

/-- The state after a sequence of events; `none` if one of them cannot happen when it is due. -/
def run (step : σ → ε → Option σ) : σ → List ε → Option σ
  | s,[] => some s
  | s,e::es => (step s e).bind fun t => run step t es

@[simp] theorem run_nil (s : σ) : run step s [] = some s := rfl

theorem run_cons (s t : σ) (e : ε) (es : List ε) :
    run step s (e::es) = some t ↔ ∃ u, step s e = some u ∧ run step u es = some t :=
  Option.bind_eq_some_iff

theorem run_append {s t u : σ} {es fs : List ε} (h : run step s es = some t)
    (h' : run step t fs = some u) : run step s (es ++ fs) = some u := by
  induction es generalizing s with
  | nil => exact Option.some.inj h ▸ h'
  | cons e es ih =>
    obtain ⟨v,hv,hrun⟩ := (run_cons s t e es).mp h
    exact (run_cons s u e (es ++ fs)).mpr ⟨v,hv,ih hrun⟩

/-- What every step preserves holds after every run. -/
theorem run_invariant {I : σ → Prop} (hstep : ∀ s e t, I s → step s e = some t → I t)
    {s t : σ} {es : List ε} (hs : I s) (h : run step s es = some t) : I t := by
  induction es generalizing s with
  | nil => exact Option.some.inj h ▸ hs
  | cons e es ih =>
    obtain ⟨u,hu,hrun⟩ := (run_cons s t e es).mp h
    exact ih (hstep s e u hs hu) hrun

/-- Where no step costs more than the potential goes down, or than it is given for the event, a run
does not cost more than it is given and what there is in the beginning. -/
theorem run_potential {I : σ → Prop} {potential : σ → ℕ} {cost gain : ε → ℕ}
    (hinv : ∀ s e t, I s → step s e = some t → I t)
    (hstep : ∀ s e t, I s → step s e = some t → cost e+potential t ≤ gain e+potential s)
    {s t : σ} {es : List ε} (hs : I s) (h : run step s es = some t) :
    (es.map cost).sum+potential t ≤ (es.map gain).sum+potential s := by
  induction es generalizing s with
  | nil =>
    obtain rfl := Option.some.inj h
    exact Nat.le_refl _
  | cons e es ih =>
    obtain ⟨u,hu,hrun⟩ := (run_cons s t e es).mp h
    have hhead := hstep s e u hs hu
    have htail := ih (hinv s e u hs hu) hrun
    simp only [List.map_cons,List.sum_cons]
    omega

/-- Every event of the run happens in a state that meets a condition on it. -/
def Meets (step : σ → ε → Option σ) (C : σ → ε → Prop) : σ → List ε → Prop
  | _,[] => True
  | s,e::es => C s e ∧ ∀ t, step s e = some t → Meets step C t es

theorem meets_cons {C : σ → ε → Prop} {s t : σ} {e : ε} {es : List ε} (hC : C s e)
    (h : step s e = some t) (hrest : Meets step C t es) : Meets step C s (e::es) :=
  ⟨hC,fun _ hu => Option.some.inj (h.symm.trans hu) ▸ hrest⟩

theorem meets_of_forall {C : σ → ε → Prop} (hC : ∀ s e, C s e) (s : σ) (es : List ε) :
    Meets step C s es := by
  induction es generalizing s with
  | nil => trivial
  | cons e es ih => exact ⟨hC s e,fun t _ => ih t⟩

/-- Events that meet the condition in every state need no run. -/
theorem meets_append {C : σ → ε → Prop} {s t : σ} {es fs : List ε} (hC : ∀ s, ∀ e ∈ es, C s e)
    (h : run step s es = some t) (hrest : Meets step C t fs) : Meets step C s (es ++ fs) := by
  induction es generalizing s with
  | nil => exact Option.some.inj h ▸ hrest
  | cons e es ih =>
    obtain ⟨u,hu,hrun⟩ := (run_cons s t e es).mp h
    exact meets_cons (hC s e (by simp)) hu (ih (fun s e he => hC s e (by simp [he])) hrun)

theorem meets_and {P : ε → Prop} {C : σ → ε → Prop} {s : σ} {es : List ε} (hP : ∀ e ∈ es, P e)
    (h : Meets step C s es) : Meets step (fun s e => P e ∧ C s e) s es := by
  induction es generalizing s with
  | nil => trivial
  | cons e es ih =>
    exact ⟨⟨hP e (by simp),h.1⟩,fun t ht => ih (fun e he => hP e (by simp [he])) (h.2 t ht)⟩

theorem run_invariant_of_meets {C : σ → ε → Prop} {I : σ → Prop}
    (hstep : ∀ s e t, I s → C s e → step s e = some t → I t)
    {s t : σ} {es : List ε} (hs : I s) (hC : Meets step C s es) (h : run step s es = some t) :
    I t := by
  induction es generalizing s with
  | nil => exact Option.some.inj h ▸ hs
  | cons e es ih =>
    obtain ⟨u,hu,hrun⟩ := (run_cons s t e es).mp h
    exact ih (hstep s e u hs hC.1 hu) (hC.2 u hu) hrun

/-- A property of states that holds from the beginning to the end of a sequence of events. -/
def Always (step : σ → ε → Option σ) (P : σ → Prop) : σ → List ε → Prop
  | s,[] => P s
  | s,e::es => P s ∧ ∀ t, step s e = some t → Always step P t es

theorem Always.head {P : σ → Prop} {s : σ} {es : List ε} (h : Always step P s es) : P s := by
  cases es with
  | nil => exact h
  | cons e es => exact h.1

theorem Always.last {P : σ → Prop} {s t : σ} {es : List ε} (h : Always step P s es)
    (hrun : run step s es = some t) : P t := by
  induction es generalizing s with
  | nil => exact Option.some.inj hrun ▸ h
  | cons e es ih =>
    obtain ⟨u,hu,hrun⟩ := (run_cons s t e es).mp hrun
    exact ih (h.2 u hu) hrun

theorem Always.imp {P Q : σ → Prop} (hPQ : ∀ s, P s → Q s) {s : σ} {es : List ε}
    (h : Always step P s es) : Always step Q s es := by
  induction es generalizing s with
  | nil => exact hPQ s h
  | cons e es ih => exact ⟨hPQ s h.1,fun t ht => ih (h.2 t ht)⟩

theorem always_of_meets {C : σ → ε → Prop} {P : σ → Prop}
    (hstep : ∀ s e t, P s → C s e → step s e = some t → P t) {s : σ} {es : List ε} (hs : P s)
    (hC : Meets step C s es) : Always step P s es := by
  induction es generalizing s with
  | nil => exact hs
  | cons e es ih => exact ⟨hs,fun t ht => ih (hstep s e t hs hC.1 ht) (hC.2 t ht)⟩

/-- What a step that keeps a property has to meet, where something else is given, is met by a run. -/
theorem meets_of_always {C D : σ → ε → Prop} {P : σ → Prop}
    (hstep : ∀ s e t, P s → D s e → step s e = some t → P t → C s e) {s : σ} {es : List ε}
    (hD : Meets step D s es) (h : Always step P s es) (hrun : (run step s es).isSome) :
    Meets step C s es := by
  induction es generalizing s with
  | nil => trivial
  | cons e es ih =>
    obtain ⟨t,ht⟩ := Option.isSome_iff_exists.mp hrun
    obtain ⟨u,hu,hrun⟩ := (run_cons s t e es).mp ht
    have halways := h.2 u hu
    refine meets_cons (hstep s e u h.head hD.1 hu halways.head) hu (ih (hD.2 u hu) halways ?_)
    rw [hrun]
    rfl

/-- If a condition is exactly what a step needs to keep a property, in the states that there may be,
it is what a run needs. -/
theorem always_iff_meets {C : σ → ε → Prop} {I P : σ → Prop}
    (hinv : ∀ s e t, I s → step s e = some t → I t)
    (hstep : ∀ s e t, I s → P s → step s e = some t → (P t ↔ C s e)) {s : σ} (hI : I s) (hs : P s)
    {es : List ε} (hrun : (run step s es).isSome) :
    Always step P s es ↔ Meets step C s es := by
  induction es generalizing s with
  | nil => exact ⟨fun _ => trivial,fun _ => hs⟩
  | cons e es ih =>
    obtain ⟨t,ht⟩ := Option.isSome_iff_exists.mp hrun
    obtain ⟨u,hu,hrun⟩ := (run_cons s t e es).mp ht
    have hrest : (run step u es).isSome := by rw [hrun]; rfl
    have hIu := hinv s e u hI hu
    constructor
    · intro h
      have halways := h.2 u hu
      have hu' := halways.head
      exact meets_cons ((hstep s e u hI hs hu).mp hu') hu ((ih hIu hu' hrest).mp halways)
    · intro h
      have hu' := (hstep s e u hI hs hu).mpr h.1
      refine ⟨hs,fun v hv => ?_⟩
      obtain rfl := Option.some.inj (hu.symm.trans hv)
      exact (ih hIu hu' hrest).mpr (h.2 u hu)

end CodecServer.Transition
