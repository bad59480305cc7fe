import CodecServer.Ownership

/-! A record of who has used what. Each thing has one holder at a time, and each time that a holder
gets something, it gets a new number; the numbers then tell the uses of one holder from those of the
next. -/
namespace CodecServer.Tenancy
open Function CodecServer.Ownership

/-- A thing is used by its holder, under the number that the holder has, for something. -/
structure Use (ι κ β : Type*) where
  client : ι
  key : κ
  number : ℕ
  work : β

variable {ι κ β : Type*}

/-- The uses of each thing are in the order of the numbers, and those of one number are of one
holder: what two holders do with it does not mix. -/
def Ordered (log : List (Use ι κ β)) : Prop :=
  log.Pairwise fun a b =>
    a.key = b.key → a.number ≤ b.number ∧ (a.number = b.number → a.client = b.client)

theorem Ordered.sublist {log log' : List (Use ι κ β)} (h : Ordered log) (hsub : log'.Sublist log) :
    Ordered log' :=
  List.Pairwise.sublist hsub h

/-- No number of the record is new, and none of a thing is after that of its holder. -/
structure Recorded (holds : ι → Option κ) (number : ι → ℕ) (next : ℕ) (log : List (Use ι κ β)) :
    Prop where
  unique : ∀ {p q k}, holds p = some k → holds q = some k → p = q
  old : ∀ a ∈ log, a.number < next
  held : ∀ p, (holds p).isSome → number p < next
  latest : ∀ p k, holds p = some k → ∀ a ∈ log, a.key = k →
    a.number ≤ number p ∧ (a.number = number p → a.client = p)
  ordered : Ordered log

namespace Recorded
variable {holds holds' : ι → Option κ} {number : ι → ℕ} {next : ℕ} {log : List (Use ι κ β)}

theorem init : Recorded (fun _ : ι => (none : Option κ)) number next ([] : List (Use ι κ β)) where
  unique := nofun
  old := nofun
  held := nofun
  latest := nofun
  ordered := List.Pairwise.nil

/-- Whoever holds something has held it before. -/
theorem weaken (h : Recorded holds number next log)
    (hsub : ∀ p k, holds' p = some k → holds p = some k) : Recorded holds' number next log where
  unique hp hq := h.unique (hsub _ _ hp) (hsub _ _ hq)
  old := h.old
  held p hp := by
    obtain ⟨k,hk⟩ := Option.isSome_iff_exists.mp hp
    apply h.held
    rw [hsub p k hk]
    rfl
  latest p k hp := h.latest p k (hsub p k hp)
  ordered := h.ordered

/-- What nobody else holds is taken, or what was held is given back, under a new number. -/
theorem renew [DecidableEq ι] (h : Recorded holds number next log) (p : ι)
    (hothers : ∀ q ≠ p, holds' q = holds q)
    (hfree : ∀ k, holds' p = some k → ∀ q ≠ p, holds q ≠ some k) :
    Recorded holds' (update number p next) (next+1) log where
  unique := by
    intro q r k hq hr
    by_cases hqp : q = p
    · by_cases hrp : r = p
      · rw [hqp,hrp]
      · subst hqp
        rw [hothers r hrp] at hr
        exact absurd hr (hfree k hq r hrp)
    · rw [hothers q hqp] at hq
      by_cases hrp : r = p
      · subst hrp
        exact absurd hq (hfree k hr q hqp)
      · rw [hothers r hrp] at hr
        exact h.unique hq hr
  old a ha := Nat.lt_succ_of_lt (h.old a ha)
  held q hq := by
    by_cases hqp : q = p
    · rw [hqp,update_self]
      exact Nat.lt_succ_self next
    · rw [hothers q hqp] at hq
      rw [update_of_ne hqp]
      exact Nat.lt_succ_of_lt (h.held q hq)
  latest q k hq a ha hkey := by
    have hold := h.old a ha
    by_cases hqp : q = p
    · rw [hqp,update_self]
      exact ⟨Nat.le_of_lt hold,fun heq => absurd heq (Nat.ne_of_lt hold)⟩
    · rw [hothers q hqp] at hq
      rw [update_of_ne hqp]
      exact h.latest q k hq a ha hkey
  ordered := h.ordered

/-- A holder uses what it holds. -/
theorem use (h : Recorded holds number next log) {p : ι} {k : κ} (hp : holds p = some k) (work : β) :
    Recorded holds number next (log ++ [⟨p,k,number p,work⟩]) where
  unique := h.unique
  old a ha := by
    rcases List.mem_append.mp ha with ha | ha
    · exact h.old a ha
    · obtain rfl := List.mem_singleton.mp ha
      apply h.held
      rw [hp]
      rfl
  held := h.held
  latest q k' hq a ha hkey := by
    rcases List.mem_append.mp ha with ha | ha
    · exact h.latest q k' hq a ha hkey
    · obtain rfl := List.mem_singleton.mp ha
      subst hkey
      obtain rfl := h.unique hp hq
      exact ⟨Nat.le_refl _,fun _ => rfl⟩
  ordered := by
    apply List.pairwise_append.mpr
    refine ⟨h.ordered,List.pairwise_singleton _ _,fun a ha b hb hkey => ?_⟩
    obtain rfl := List.mem_singleton.mp hb
    exact h.latest p k hp a ha hkey

theorem uses (h : Recorded holds number next log) {works : List (Use ι κ β)}
    (hworks : ∀ a ∈ works, holds a.client = some a.key ∧ a.number = number a.client) :
    Recorded holds number next (log ++ works) := by
  induction works generalizing log with
  | nil => rwa [List.append_nil]
  | cons a works ih =>
    obtain ⟨hheld,hnumber⟩ := hworks a (by simp)
    have ha := h.use hheld a.work
    rw [← hnumber] at ha
    rw [List.append_cons]
    exact ih ha fun b hb => hworks b (by simp [hb])

end Recorded
end CodecServer.Tenancy
