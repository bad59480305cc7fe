import Mathlib.Algebra.Group.Int.Defs
import Mathlib.Algebra.Group.Nat.Defs
import Mathlib.Data.List.TakeWhile

/-! Numbers in text, as the C++ library reads them: `std::stoi`, and the extraction of a `short`
from a stream in hexadecimal. Both stop at the first byte that does not belong to the number. -/
namespace CodecServer.Numeral

abbrev Text := List (BitVec 8)

/-- `isspace` in the C locale. -/
def isBlank (b : BitVec 8) : Bool := b.toNat = 0x20 ∨ (9 ≤ b.toNat ∧ b.toNat ≤ 13)

/-- The value of a digit, in a base up to 16. -/
def digit (base : ℕ) (b : BitVec 8) : Option ℕ :=
  let n := b.toNat
  let v :=
    if 0x30 ≤ n ∧ n ≤ 0x39 then n-0x30
    else if 0x61 ≤ n ∧ n ≤ 0x66 then n-0x57
    else if 0x41 ≤ n ∧ n ≤ 0x46 then n-0x37
    else base
  if v < base then some v else none

def isDigit (base : ℕ) (b : BitVec 8) : Bool := (digit base b).isSome

/-- The number that a run of digits stands for. -/
def value (base : ℕ) (s : Text) : ℕ := (s.filterMap (digit base)).foldl (fun v d => base*v+d) 0

/-- A sign that may stand in front of a number, and what follows it. -/
def sign : Text → Bool × Text
  | [] => (false,[])
  | b::s => if b = 0x2d then (true,s) else if b = 0x2b then (false,s) else (false,b::s)

def signed (negative : Bool) (v : ℕ) : ℤ := if negative then -v else v

/-- The exceptions of `std::stoi` and `std::stoul`. -/
inductive StoiError
  | invalidArgument
  | outOfRange
  deriving Repr, DecidableEq

def stoi (s : Text) : Except StoiError ℤ :=
  let (negative,s) := sign (s.dropWhile isBlank)
  let digits := s.takeWhile (isDigit 10)
  if digits = [] then .error .invalidArgument
  else
    let v := signed negative (value 10 digits)
    if -2^31 ≤ v ∧ v < 2^31 then .ok v else .error .outOfRange

/-- `std::stoul`; a negative number wraps around. -/
def stoul (s : Text) : Except StoiError (BitVec 64) :=
  let (negative,s) := sign (s.dropWhile isBlank)
  let digits := s.takeWhile (isDigit 10)
  if digits = [] then .error .invalidArgument
  else
    let v := value 10 digits
    if v < 2^64 then .ok (BitVec.ofInt 64 (signed negative v)) else .error .outOfRange

/-- The number that a text starts with, of any size, blanks and a sign in front allowed. -/
def number (s : Text) : Option ℤ :=
  let (negative,s) := sign (s.dropWhile isBlank)
  let digits := s.takeWhile (isDigit 10)
  if digits = [] then none else some (signed negative (value 10 digits))

/-- The number that a text as a whole stands for, blanks and a sign in front allowed. -/
def numeral (s : Text) : Option ℤ :=
  let (negative,s) := sign (s.dropWhile isBlank)
  if s ≠ [] ∧ s.all (isDigit 10) then some (signed negative (value 10 s)) else none

/-- `0x`, which may stand in front of a hexadecimal number. -/
def dropHexPrefix : Text → Text
  | b::c::s => if b = 0x30 ∧ (c = 0x78 ∨ c = 0x58) then s else b::c::s
  | s => s

/-- A number that does not fit into a `short` becomes the closest one that does. -/
def clampShort (v : ℤ) : BitVec 16 :=
  if v < -2^15 then BitVec.ofInt 16 (-2^15)
  else if 2^15 ≤ v then BitVec.ofInt 16 (2^15-1)
  else BitVec.ofInt 16 v

/-- `stream >> std::hex >> x` for a `short x`. Nothing is stored if there are only blanks; 0 is
stored if there is no number. -/
def extractShort (x : BitVec 16) (s : Text) : BitVec 16 :=
  let s := s.dropWhile isBlank
  if s = [] then x
  else
    let (negative,s) := sign s
    clampShort (signed negative (value 16 ((dropHexPrefix s).takeWhile (isDigit 16))))

/-- Four hexadecimal digits. -/
def hexWord (s : Text) : Option (BitVec 16) :=
  if s.length = 4 ∧ s.all (isDigit 16) then some (BitVec.ofNat 16 (value 16 s)) else none

theorem stoul_eq (s : Text) :
    stoul s =
      match number s with
      | none => .error .invalidArgument
      | some v => if v.natAbs < 2^64 then .ok (BitVec.ofInt 64 v) else .error .outOfRange := by
  unfold stoul number
  generalize sign (s.dropWhile isBlank) = r
  obtain ⟨negative,t⟩ := r
  simp only
  by_cases hdigits : t.takeWhile (isDigit 10) = []
  · rw [if_pos hdigits,if_pos hdigits]
  · have habs : (signed negative (value 10 (t.takeWhile (isDigit 10)))).natAbs =
        value 10 (t.takeWhile (isDigit 10)) := by
      cases negative
      · exact Int.natAbs_natCast _
      · rw [signed,if_pos rfl,Int.natAbs_neg,Int.natAbs_natCast]
    rw [if_neg hdigits,if_neg hdigits]
    simp only [habs]

theorem stoi_eq (s : Text) :
    stoi s =
      match number s with
      | none => .error .invalidArgument
      | some v => if -2^31 ≤ v ∧ v < 2^31 then .ok v else .error .outOfRange := by
  unfold stoi number
  generalize sign (s.dropWhile isBlank) = r
  obtain ⟨negative,t⟩ := r
  simp only
  by_cases hdigits : t.takeWhile (isDigit 10) = []
  · rw [if_pos hdigits,if_pos hdigits]
  · rw [if_neg hdigits,if_neg hdigits]

/-- A text that is a number as a whole starts with that number. -/
theorem number_of_numeral {s : Text} {v : ℤ} (h : numeral s = some v) : number s = some v := by
  unfold numeral at h
  unfold number
  generalize sign (s.dropWhile isBlank) = r at h ⊢
  obtain ⟨negative,t⟩ := r
  simp only at h ⊢
  split_ifs at h with hdigits
  have hall : t.takeWhile (isDigit 10) = t :=
    List.takeWhile_eq_self_iff.mpr (List.all_eq_true.mp hdigits.2)
  rw [hall,if_neg hdigits.1,h]

theorem stoi_of_numeral {s : Text} {v : ℤ} (h : numeral s = some v) (hlow : -2^31 ≤ v)
    (hhigh : v < 2^31) : stoi s = .ok v := by
  rw [stoi_eq,number_of_numeral h]
  exact if_pos ⟨hlow,hhigh⟩

theorem digit_lt {base d : ℕ} {b : BitVec 8} (h : digit base b = some d) : d < base := by
  simp only [digit,Option.ite_none_right_eq_some,Option.some.injEq] at h
  omega

theorem hex_of_isDigit {b : BitVec 8} (h : isDigit 16 b = true) :
    (0x30 ≤ b.toNat ∧ b.toNat ≤ 0x39) ∨ (0x61 ≤ b.toNat ∧ b.toNat ≤ 0x66) ∨
      (0x41 ≤ b.toNat ∧ b.toNat ≤ 0x46) := by
  obtain ⟨d,hd⟩ := Option.isSome_iff_exists.mp h
  simp only [digit,Option.ite_none_right_eq_some] at hd
  obtain ⟨hlt,-⟩ := hd
  by_contra hne
  rw [if_neg (by omega),if_neg (by omega),if_neg (by omega)] at hlt
  omega

theorem foldl_digits_lt (base : ℕ) (ds : List ℕ) (h : ∀ d ∈ ds, d < base) (v : ℕ) :
    ds.foldl (fun v d => base*v+d) v < base^ds.length*(v+1) := by
  induction ds generalizing v with
  | nil => simp
  | cons d ds ih =>
    have hd := h d (by simp)
    have hnext := ih (fun d hd => h d (by simp [hd])) (base*v+d)
    rw [List.foldl_cons,List.length_cons,Nat.pow_succ,Nat.mul_assoc]
    refine Nat.lt_of_lt_of_le hnext (Nat.mul_le_mul_left _ ?_)
    rw [Nat.mul_add]
    omega

theorem value_lt (base : ℕ) (s : Text) (h : ∀ b ∈ s, isDigit base b = true) :
    value base s < base^s.length := by
  have hlen : (s.filterMap (digit base)).length = s.length := by
    induction s with
    | nil => rfl
    | cons b s ih =>
      obtain ⟨d,hd⟩ := Option.isSome_iff_exists.mp (h b (by simp))
      rw [List.filterMap_cons_some hd,List.length_cons,List.length_cons,
        ih (fun b hb => h b (by simp [hb]))]
  have hdigits : ∀ d ∈ s.filterMap (digit base), d < base := by
    intro d hd
    obtain ⟨b,-,hb⟩ := List.mem_filterMap.mp hd
    exact digit_lt hb
  have := foldl_digits_lt base _ hdigits 0
  rwa [hlen,Nat.zero_add,Nat.mul_one] at this

/-- A hexadecimal digit is neither a blank nor a sign, and what follows a digit is no `x`. -/
theorem sign_of_hex {b : BitVec 8} (h : isDigit 16 b = true) (s : Text) :
    isBlank b = false ∧ sign (b::s) = (false,b::s) := by
  have hex := hex_of_isDigit h
  have hne : ∀ c : BitVec 8, c.toNat < 0x30 → b ≠ c := by
    intro c hc hbc
    subst hbc
    omega
  refine ⟨?_,?_⟩
  · simp only [isBlank,decide_eq_false_iff_not]
    omega
  · rw [sign,if_neg (hne _ (by decide)),if_neg (hne _ (by decide))]

theorem dropHexPrefix_of_hex {s : Text} (h : ∀ b ∈ s, isDigit 16 b = true) :
    dropHexPrefix s = s := by
  match s with
  | [] => rfl
  | [_] => rfl
  | b::c::s =>
    have hex := hex_of_isDigit (h c (by simp))
    have hne : ¬ (b = 0x30 ∧ (c = 0x78 ∨ c = 0x58)) := by
      rintro ⟨-,rfl | rfl⟩ <;> revert hex <;> decide
    rw [dropHexPrefix,if_neg hne]

/-- Extraction takes four hexadecimal digits for what they are, as long as they fit a `short`. -/
theorem extractShort_of_hexWord {s : Text} {w : BitVec 16} (h : hexWord s = some w)
    (x : BitVec 16) :
    extractShort x s = if w.toNat < 2^15 then w else BitVec.ofNat 16 (2^15-1) := by
  unfold hexWord at h
  split_ifs at h with hs
  obtain ⟨hlen,hall⟩ := hs
  obtain rfl := Option.some.inj h
  have hdigits := List.all_eq_true.mp hall
  have hlt : value 16 s < 65536 := by
    have := value_lt 16 s hdigits
    rwa [hlen] at this
  cases s with
  | nil => cases hlen
  | cons b s =>
    obtain ⟨hblank,hsign⟩ := sign_of_hex (hdigits b (by simp)) s
    have hdrop : (b::s).dropWhile isBlank = b::s := by simp [hblank]
    rw [extractShort,hdrop]
    simp only [List.cons_ne_nil,if_false,hsign,dropHexPrefix_of_hex hdigits,
      List.takeWhile_eq_self_iff.mpr hdigits,signed,Bool.false_eq_true,clampShort]
    have hnat : (BitVec.ofNat 16 (value 16 (b::s))).toNat = value 16 (b::s) := by
      rw [BitVec.toNat_ofNat]
      omega
    rw [hnat,if_neg (by omega)]
    by_cases hfits : value 16 (b::s) < 2^15
    · rw [if_neg (by omega),if_pos hfits,BitVec.ofInt_natCast]
    · rw [if_pos (by omega),if_neg hfits]
      rfl

example : numeral [0x20,0x33,0x34] = some 34 ∧ stoi [0x33,0x34,0x78] = .ok 34 ∧
    numeral [0x33,0x34,0x78] = none := by decide

end CodecServer.Numeral
