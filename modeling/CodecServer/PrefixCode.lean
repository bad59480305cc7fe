import Mathlib.Data.List.Basic

/-! Strings that are cut into words from the front, where no word is the beginning of another. -/
namespace CodecServer

/-- The valid words, by their encodings. -/
structure PrefixCode (α ω : Type*) where
  encode : ω → List α
  Valid : ω → Prop
  encode_ne_nil : ∀ w, Valid w → encode w ≠ []
  prefix_free : ∀ v w, Valid v → Valid w → encode v <+: encode w → v = w

namespace PrefixCode

/-- The words at the front of `l`, and what is left when there is none any more. -/
structure Splits {α ω : Type*} (C : PrefixCode α ω) (l : List α) (ws : List ω) (rest : List α) :
    Prop where
  valid : ∀ w ∈ ws, C.Valid w
  eq : l = ws.flatMap C.encode ++ rest
  stops : ∀ w, C.Valid w → ¬ C.encode w <+: rest

variable {α ω : Type*} {C : PrefixCode α ω} {l rest : List α} {ws : List ω}

/-- Two words at the front of one string are the same. -/
theorem eq_of_append_eq {v w : ω} {r s : List α} (hv : C.Valid v) (hw : C.Valid w)
    (h : C.encode v ++ r = C.encode w ++ s) : v = w := by
  have hvr : C.encode v <+: C.encode v ++ r := List.prefix_append ..
  have hws : C.encode w <+: C.encode v ++ r := h ▸ List.prefix_append ..
  rcases List.prefix_or_prefix_of_prefix hvr hws with hvw | hwv
  · exact C.prefix_free v w hv hw hvw
  · exact (C.prefix_free w v hw hv hwv).symm

theorem splits_nil (h : ∀ w, C.Valid w → ¬ C.encode w <+: l) : C.Splits l [] l where
  valid := fun _ hw => absurd hw List.not_mem_nil
  eq := rfl
  stops := h

theorem Splits.cons {w : ω} (hw : C.Valid w) (h : C.Splits l ws rest) :
    C.Splits (C.encode w ++ l) (w::ws) rest where
  valid := List.forall_mem_cons.mpr ⟨hw,h.valid⟩
  eq := by rw [h.eq,List.flatMap_cons,List.append_assoc]
  stops := h.stops

/-- What is left is cut further when more comes. -/
theorem Splits.append {m r : List α} {vs : List ω} (h : C.Splits l ws rest)
    (h' : C.Splits (rest ++ m) vs r) : C.Splits (l ++ m) (ws ++ vs) r where
  valid := fun w hw => (List.mem_append.mp hw).elim (h.valid w) (h'.valid w)
  eq := by rw [h.eq,List.append_assoc,h'.eq,List.flatMap_append,List.append_assoc]
  stops := h'.stops

theorem splits_of_nil : C.Splits [] [] [] :=
  splits_nil fun w hw h => C.encode_ne_nil w hw (List.prefix_nil.mp h)

/-- Every string can be cut. -/
theorem exists_splits (C : PrefixCode α ω) (l : List α) : ∃ ws rest, C.Splits l ws rest := by
  by_cases h : ∃ w, C.Valid w ∧ C.encode w <+: l
  · obtain ⟨w,hw,l',rfl⟩ := h
    have hpos := List.length_pos_iff.mpr (C.encode_ne_nil w hw)
    have hlt : l'.length < (C.encode w ++ l').length := by
      rw [List.length_append]
      omega
    obtain ⟨ws,rest,hsplits⟩ := exists_splits C l'
    exact ⟨w::ws,rest,hsplits.cons hw⟩
  · push Not at h
    exact ⟨[],l,splits_nil h⟩
termination_by l.length

/-- There is one way only to do it. -/
theorem Splits.unique {ws' : List ω} {rest' : List α} (h : C.Splits l ws rest)
    (h' : C.Splits l ws' rest') : ws' = ws ∧ rest' = rest := by
  induction ws generalizing l ws' with
  | nil =>
    obtain rfl : l = rest := h.eq
    cases ws' with
    | nil => exact ⟨rfl,h'.eq.symm⟩
    | cons w ws' =>
      refine absurd ?_ (h.stops w (h'.valid w List.mem_cons_self))
      rw [h'.eq,List.flatMap_cons,List.append_assoc]
      exact List.prefix_append ..
  | cons v ws ih =>
    have hv := h.valid v List.mem_cons_self
    have heq := h.eq
    rw [List.flatMap_cons,List.append_assoc] at heq
    cases ws' with
    | nil =>
      refine absurd ?_ (h'.stops v hv)
      rw [show rest' = l from h'.eq.symm,heq]
      exact List.prefix_append ..
    | cons w ws' =>
      have heq' := h'.eq
      rw [List.flatMap_cons,List.append_assoc] at heq'
      obtain rfl := eq_of_append_eq hv (h'.valid w List.mem_cons_self) (heq.symm.trans heq')
      have hrest := List.append_cancel_left (heq.symm.trans heq')
      obtain ⟨rfl,rfl⟩ := ih (l := ws.flatMap C.encode ++ rest)
        ⟨fun u hu => h.valid u (List.mem_cons_of_mem v hu),rfl,h.stops⟩
        ⟨fun u hu => h'.valid u (List.mem_cons_of_mem v hu),hrest,h'.stops⟩
      exact ⟨rfl,rfl⟩

end PrefixCode
end CodecServer
