import CodecServer.Ambe3K.Session

/-! The framing of a channel that has been set up, any number of times and in either form. It is that
of the last setup; control words are told apart by less than all of them. -/
namespace CodecServer.Ambe3K
open CodecServer.Ambe3K.Protocol

/-- A call of `Channel::setup`, in the form that its rate stands for. -/
structure SetupCall where
  rate : Rate
  direction : Byte

namespace Channel
variable {π : Type}

/-- The channel after so many calls of `setup`. -/
def setups (c : Channel π) (calls : List SetupCall) : Channel π :=
  calls.foldl (fun c call => (c.applyRate call.direction (some call.rate)).1) c

/-- The framing bits are those of the control words; other control words have no framing. -/
structure FramedBy (c : Channel π) (cwds : RateP) : Prop where
  dstar : c.getFramingBits = 72 ↔ cwds = dstar
  ysfVw : c.getFramingBits = 144 ↔ cwds = ysfVw
  other : cwds ≠ Channel.dstar → cwds ≠ Channel.ysfVw →
    c.getFramingBits = 0 ∧ c.getFraming = none

/-- The framing follows the control words of the last setup, whatever the channel was before it. -/
def FollowsWords (c : Channel π) (calls : List SetupCall) (direction : Byte) (cwds : RateP) : Prop :=
  (c.setups (calls ++ [⟨.ratep cwds,direction⟩])).FramedBy cwds ∧
  ∀ (b : Channel π) (calls' : List SetupCall) (direction' : Byte),
    (b.setups (calls' ++ [⟨.ratep cwds,direction'⟩])).getFramingBits =
      (c.setups (calls ++ [⟨.ratep cwds,direction⟩])).getFramingBits

/-- Each form of `setup` clears what the other has set. -/
theorem setups_ratep (c : Channel π) (calls : List SetupCall) (direction : Byte) (cwds : RateP) :
    (c.setups (calls ++ [⟨.ratep cwds,direction⟩])).codecIndex = 0 ∧
      (c.setups (calls ++ [⟨.ratep cwds,direction⟩])).ratep = some cwds := by
  rw [setups,List.foldl_append]
  exact ⟨rfl,rfl⟩

theorem getFramingBits_ratep {c : Channel π} {cwds : RateP} (hindex : c.codecIndex = 0)
    (hratep : c.ratep = some cwds) :
    c.getFramingBits = if cwds = dstar then 72 else if cwds.get 0 = ysfVw.get 0 then 144 else 0 := by
  rw [getFramingBits,hindex,hratep]
  rfl

theorem framedBy_iff {c : Channel π} {cwds : RateP} (hindex : c.codecIndex = 0)
    (hratep : c.ratep = some cwds) :
    c.FramedBy cwds ↔ (cwds.get 0 = ysfVw.get 0 → cwds = ysfVw) := by
  have hbits := getFramingBits_ratep hindex hratep
  have hne : ysfVw ≠ dstar := by decide
  have hfirst : dstar.get 0 ≠ ysfVw.get 0 := by decide
  constructor
  · intro h hword
    apply h.ysfVw.mp
    have hother : cwds ≠ dstar := fun heq => hfirst (heq ▸ hword)
    rw [hbits,if_neg hother,if_pos hword]
  · intro h
    by_cases hdstar : cwds = dstar
    · rw [if_pos hdstar] at hbits
      refine ⟨iff_of_true hbits hdstar,iff_of_false ?_ ?_,fun hother => absurd hdstar hother⟩
      · rw [hbits]
        decide
      · exact fun heq => hne (heq.symm.trans hdstar)
    rw [if_neg hdstar] at hbits
    by_cases hword : cwds.get 0 = ysfVw.get 0
    · rw [if_pos hword] at hbits
      refine ⟨iff_of_false ?_ hdstar,iff_of_true hbits (h hword),fun _ hother => ?_⟩
      · rw [hbits]
        decide
      · exact absurd (h hword) hother
    · rw [if_neg hword] at hbits
      refine ⟨iff_of_false ?_ hdstar,iff_of_false ?_ fun heq => hword (heq ▸ rfl),fun _ _ => ?_⟩
      · rw [hbits]
        decide
      · rw [hbits]
        decide
      · refine ⟨hbits,?_⟩
        rw [getFraming,if_pos hbits]

/-- The framing follows the control words exactly if they are those of YSF as soon as the first of
them is. -/
theorem followsWords_iff (c : Channel π) (calls : List SetupCall) (direction : Byte)
    (cwds : RateP) :
    c.FollowsWords calls direction cwds ↔ (cwds.get 0 = ysfVw.get 0 → cwds = ysfVw) := by
  obtain ⟨hindex,hratep⟩ := setups_ratep c calls direction cwds
  rw [← framedBy_iff hindex hratep,FollowsWords]
  apply and_iff_left
  intro b calls' direction'
  obtain ⟨hindex',hratep'⟩ := setups_ratep b calls' direction' cwds
  rw [getFramingBits_ratep hindex hratep,getFramingBits_ratep hindex' hratep']

/-- Control words that share no more than the first one with YSF get the framing of YSF. -/
theorem not_followsWords_first :
    ¬ ∀ (c : Channel Unit) (calls : List SetupCall) (direction : Byte) (cwds : RateP),
      c.FollowsWords calls direction cwds := by
  intro h
  have hbits := (h {index := 0} [] 3 #v[0x0558,0,0,0,0,0]).1.other (by decide) (by decide)
  exact absurd hbits.1 (by decide)

end Channel
end CodecServer.Ambe3K
