import Mathlib.Data.Option.Basic
import Mathlib.Data.Set.Card
import Mathlib.Logic.Function.Basic
import Mathlib.Tactic.SplitIfs

/-! Resources that are marked as taken, and their holders. Each holder has one resource at most; the
marks are right if the resources that are taken are those that are held, each by one holder. -/
namespace CodecServer.Ownership
open Function

variable {κ ι : Type*}

section
variable [DecidableEq ι] {holds : ι → Option κ} {p q : ι} {k k' : κ}

/-- Who has something after `p` has given back what it had. -/
theorem of_update_none (h : update holds p none q = some k) : q ≠ p ∧ holds q = some k := by
  rw [update_apply] at h
  split_ifs at h with hqp
  exact ⟨hqp,h⟩

/-- Who has something after `p` has got something. -/
theorem of_update_some (h : update holds p (some k) q = some k') :
    (q = p ∧ k' = k) ∨ (q ≠ p ∧ holds q = some k') := by
  rw [update_apply] at h
  split_ifs at h with hqp
  · exact Or.inl ⟨hqp,(Option.some.inj h).symm⟩
  · exact Or.inr ⟨hqp,h⟩

end

/-- The resources that are taken are those that somebody holds, and nobody shares. -/
structure Balanced (taken : κ → Prop) (holds : ι → Option κ) : Prop where
  unique : ∀ {p q k}, holds p = some k → holds q = some k → p = q
  taken_iff : ∀ k, taken k ↔ ∃ p, holds p = some k

namespace Balanced
variable {taken : κ → Prop} {holds : ι → Option κ}

theorem init {taken : κ → Prop} (h : ∀ k, ¬ taken k) :
    Balanced taken (fun _ : ι => none) where
  unique := nofun
  taken_iff k := ⟨fun hk => absurd hk (h k),nofun⟩

theorem taken_of_holds (h : Balanced taken holds) {p : ι} {k : κ} (hp : holds p = some k) :
    taken k :=
  (h.taken_iff k).mpr ⟨p,hp⟩

theorem taken_iff_existsUnique (h : Balanced taken holds) (k : κ) :
    taken k ↔ ∃! p, holds p = some k := by
  rw [h.taken_iff]
  constructor
  · intro ⟨p,hp⟩
    exact ⟨p,hp,fun q hq => h.unique hq hp⟩
  · intro ⟨p,hp,_⟩
    exact ⟨p,hp⟩

/-- There are as many holders as there are resources that are taken. -/
theorem ncard_holders (h : Balanced taken holds) :
    {p | (holds p).isSome}.ncard = {k | taken k}.ncard := by
  refine Set.ncard_congr (fun p hp => (holds p).get hp) (fun p hp => ?_) (fun p q hp hq heq => ?_)
    (fun k hk => ?_)
  · exact h.taken_of_holds (Option.some_get hp).symm
  · have hheld : holds q = some ((holds p).get hp) := heq ▸ (Option.some_get hq).symm
    exact h.unique (Option.some_get hp).symm hheld
  · obtain ⟨p,hp⟩ := (h.taken_iff k).mp hk
    have hsome : (holds p).isSome := by
      rw [hp]
      rfl
    exact ⟨p,hsome,by simp [hp]⟩

/-- One of finitely many resources is free exactly if there are fewer holders. -/
theorem exists_free_iff (h : Balanced taken holds) (K : Finset κ) (hK : ∀ k, taken k → k ∈ K) :
    (∃ k ∈ K, ¬ taken k) ↔ {p | (holds p).isSome}.ncard < K.card := by
  have hsub : {k | taken k} ⊆ (K : Set κ) := hK
  rw [h.ncard_holders,← Set.ncard_coe_finset]
  constructor
  · rintro ⟨k,hk,hfree⟩
    exact Set.ncard_lt_ncard ⟨hsub,fun hall => hfree (hall hk)⟩ K.finite_toSet
  · intro hlt
    by_contra hnone
    push Not at hnone
    have hall : (K : Set κ) = {k | taken k} := Set.Subset.antisymm hnone hsub
    rw [hall] at hlt
    exact lt_irrefl _ hlt

theorem congr {taken' : κ → Prop} (h : Balanced taken holds) (heq : ∀ k, taken' k ↔ taken k) :
    Balanced taken' holds where
  unique := h.unique
  taken_iff k := (heq k).trans (h.taken_iff k)

section
variable [DecidableEq ι]

/-- A holder that has nothing may take what is not taken. -/
theorem acquire (h : Balanced taken holds) {p : ι} {k : κ} (hk : ¬ taken k)
    (hp : holds p = none) :
    Balanced (fun k' => k' = k ∨ taken k') (update holds p (some k)) where
  unique := by
    have hfree : ∀ q, holds q ≠ some k := fun q hq => hk (h.taken_of_holds hq)
    intro q r k' hq hr
    cases of_update_some hq with
    | inl hqp =>
      cases of_update_some hr with
      | inl hrp => rw [hqp.1,hrp.1]
      | inr hrp => exact absurd (hqp.2 ▸ hrp.2) (hfree r)
    | inr hqp =>
      cases of_update_some hr with
      | inl hrp => exact absurd (hrp.2 ▸ hqp.2) (hfree q)
      | inr hrp => exact h.unique hqp.2 hrp.2
  taken_iff k' := by
    constructor
    · intro hk'
      rcases hk' with rfl | hk'
      · exact ⟨p,update_self p _ _⟩
      · obtain ⟨q,hq⟩ := (h.taken_iff k').mp hk'
        have hqp : q ≠ p := by
          intro hqp
          rw [hqp,hp] at hq
          cases hq
        exact ⟨q,by rw [update_of_ne hqp,hq]⟩
    · intro ⟨q,hq⟩
      exact (of_update_some hq).imp And.right fun hqp => h.taken_of_holds hqp.2

/-- What a holder gives back is not taken anymore, and nothing else changes. -/
theorem release (h : Balanced taken holds) (p : ι) :
    Balanced (fun k => taken k ∧ holds p ≠ some k) (update holds p none) where
  unique := by
    intro q r k hq hr
    exact h.unique (of_update_none hq).2 (of_update_none hr).2
  taken_iff k := by
    constructor
    · intro ⟨hk,hne⟩
      obtain ⟨q,hq⟩ := (h.taken_iff k).mp hk
      have hqp : q ≠ p := by
        intro hqp
        rw [hqp] at hq
        exact hne hq
      exact ⟨q,by rw [update_of_ne hqp,hq]⟩
    · intro ⟨q,hq⟩
      obtain ⟨hqp,hq⟩ := of_update_none hq
      exact ⟨h.taken_of_holds hq,fun hp => hqp (h.unique hq hp)⟩

end
end Balanced
end CodecServer.Ownership
