import Mathlib.Data.Nat.Notation
import Mathlib.Algebra.Ring.Parity
import Mathlib.Data.List.Basic

/-! The exclusive-or of a word list, and its sensitivity to a change of one word. -/
namespace CodecServer.Parity

variable {w : ℕ}

def parity (l : List (BitVec w)) : BitVec w := l.foldl (·^^^·) 0#w

theorem foldl_xor (l : List (BitVec w)) (a : BitVec w) :
    l.foldl (·^^^·) a = a ^^^ parity l := by
  unfold parity
  induction l generalizing a with
  | nil => simp
  | cons b l ih =>
    rw [List.foldl_cons,List.foldl_cons,ih,ih (0#w ^^^ b),BitVec.zero_xor,BitVec.xor_assoc]

@[simp] theorem parity_nil : parity ([] : List (BitVec w)) = 0#w := rfl

@[simp] theorem parity_cons (a : BitVec w) (l : List (BitVec w)) :
    parity (a::l) = a ^^^ parity l := by
  rw [parity,List.foldl_cons,foldl_xor,BitVec.zero_xor]

@[simp] theorem parity_append (l m : List (BitVec w)) :
    parity (l ++ m) = parity l ^^^ parity m := by
  rw [parity,List.foldl_append,foldl_xor]
  rfl

theorem xor_left_cancel {a b c : BitVec w} (h : a ^^^ b = a ^^^ c) : b = c := by
  have := congrArg (a ^^^ ·) h
  simpa [← BitVec.xor_assoc] using this

/-- A list and its parity word do not agree any more once one word of the list is changed. -/
theorem parity_set_ne (l : List (BitVec w)) (i : ℕ) (b : BitVec w) (hi : i < l.length)
    (hb : l[i] ≠ b) : parity (l.set i b) ≠ parity l := by
  induction l generalizing i with
  | nil => simp at hi
  | cons a l ih =>
    cases i with
    | zero =>
      intro h
      simp only [List.set_cons_zero,parity_cons,BitVec.xor_comm _ (parity l)] at h
      exact hb (xor_left_cancel h).symm
    | succ i =>
      intro h
      simp only [List.set_cons_succ,parity_cons] at h
      exact ih i (by simpa using hi) (by simpa using hb) (xor_left_cancel h)

theorem parity_zipWith : ∀ {l m : List (BitVec w)}, l.length = m.length →
    parity (List.zipWith (·^^^·) l m) = parity l ^^^ parity m
  | [],[],_ => by simp
  | a::l,b::m,h => by
    rw [List.zipWith_cons_cons,parity_cons,parity_cons,parity_cons,
      parity_zipWith (Nat.succ_inj.mp h)]
    ac_rfl

/-- A bit of the parity word says whether there is an odd number of such bits. -/
theorem getLsbD_parity (l : List (BitVec w)) (c : ℕ) :
    (parity l).getLsbD c = decide (Odd (l.countP (·.getLsbD c))) := by
  induction l with
  | nil => simp
  | cons a l ih =>
    rw [parity_cons,BitVec.getLsbD_xor,ih]
    cases ha : a.getLsbD c with
    | false => rw [Bool.false_xor,List.countP_cons_of_neg (by simp [ha])]
    | true =>
      rw [Bool.true_xor,List.countP_cons_of_pos (by simp [ha]),← decide_not]
      exact decide_eq_decide.mpr Nat.odd_add_one.symm

/-- No bit of the parity word is set exactly if there is an even number of each of them. -/
theorem parity_eq_zero_iff (l : List (BitVec w)) :
    parity l = 0#w ↔ ∀ c < w, Even (l.countP (·.getLsbD c)) := by
  constructor
  · intro h c _
    have hbit := getLsbD_parity l c
    rw [h,BitVec.getLsbD_zero] at hbit
    exact Nat.not_odd_iff_even.mp (of_decide_eq_false hbit.symm)
  · intro h
    apply BitVec.eq_of_getLsbD_eq
    intro c hc
    rw [getLsbD_parity,BitVec.getLsbD_zero]
    exact decide_eq_false (Nat.not_odd_iff_even.mpr (h c hc))

/-- Two lists of the same length that differ at exactly one index. -/
def DiffersAt {α : Type*} (l l' : List α) (i : ℕ) : Prop :=
  l'.length = l.length ∧ ∀ j, l'[j]? ≠ l[j]? ↔ j = i

theorem DiffersAt.exists_set {α : Type*} {l l' : List α} {i : ℕ} (h : DiffersAt l l' i) :
    ∃ (hi : i < l.length) (b : α), l' = l.set i b ∧ l'[i]? = some b ∧ l[i] ≠ b := by
  have hne := (h.2 i).mpr rfl
  have hi : i < l.length := by
    by_contra hn
    rw [List.getElem?_eq_none (by rw [h.1]; omega),List.getElem?_eq_none (by omega)] at hne
    exact hne rfl
  have hi' : i < l'.length := by rw [h.1]; exact hi
  refine ⟨hi,l'[i],?_,List.getElem?_eq_getElem hi',fun heq => hne ?_⟩
  · apply List.ext_getElem?
    intro j
    rw [List.getElem?_set]
    by_cases hj : i = j
    · subst hj
      rw [if_pos rfl,if_pos hi,List.getElem?_eq_getElem hi']
    · rw [if_neg hj]
      by_contra hd
      exact hj ((h.2 j).mp hd).symm
  · rw [List.getElem?_eq_getElem hi,List.getElem?_eq_getElem hi',heq]

theorem differsAt_set {α : Type*} {l : List α} {i : ℕ} {b : α} (hi : i < l.length)
    (hb : l[i] ≠ b) : DiffersAt l (l.set i b) i := by
  refine ⟨List.length_set,fun j => ⟨fun h => ?_,?_⟩⟩
  · by_contra hj
    rw [List.getElem?_set_ne (Ne.symm hj)] at h
    exact h rfl
  · rintro rfl
    rw [List.getElem?_set_self hi,List.getElem?_eq_getElem hi]
    simpa using Ne.symm hb

end CodecServer.Parity
