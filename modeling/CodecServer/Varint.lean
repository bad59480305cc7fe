import Mathlib.Algebra.Group.Nat.Defs
import Mathlib.Data.List.Basic

/-! Base 128 varints: seven bits to a byte, the lowest first, where all bytes but the last have the
high bit set. A number of 64 bits takes ten bytes at most. -/
namespace CodecServer.Varint

/-- The number at the front of the bytes and the bytes that it takes; `none` if it does not end
within `n` bytes. -/
def readFrom : ℕ → List (BitVec 8) → Option (ℕ × ℕ)
  | 0,_ => none
  | _+1,[] => none
  | n+1,b::bs =>
    if b.toNat < 128 then some (b.toNat,1)
    else (readFrom n bs).map fun (v,k) => (b.toNat-128+128*v,k+1)

/-- What does not fit into 64 bits is cut off. -/
def read (bs : List (BitVec 8)) : Option (ℕ × ℕ) :=
  (readFrom 10 bs).map fun (v,k) => (v % 2^64,k)

def writeFrom : ℕ → ℕ → List (BitVec 8)
  | 0,v => [BitVec.ofNat 8 v]
  | n+1,v =>
    if v < 128 then [BitVec.ofNat 8 v] else BitVec.ofNat 8 (v%128+128) :: writeFrom n (v/128)

def write (v : ℕ) : List (BitVec 8) := writeFrom 9 v

theorem readFrom_writeFrom {n v : ℕ} (h : v < 128^(n+1)) (bs : List (BitVec 8)) :
    readFrom (n+1) (writeFrom n v ++ bs) = some (v,(writeFrom n v).length) := by
  induction n generalizing v with
  | zero =>
    have hv : v < 128 := by simpa using h
    have hbyte : (BitVec.ofNat 8 v).toNat=v := BitVec.toNat_ofNat v 8 ▸ Nat.mod_eq_of_lt (by omega)
    simp [writeFrom,readFrom,hbyte,hv]
  | succ n ih =>
    unfold writeFrom
    split_ifs with hv
    · have hbyte : (BitVec.ofNat 8 v).toNat=v :=
        BitVec.toNat_ofNat v 8 ▸ Nat.mod_eq_of_lt (by omega)
      simp [readFrom,hbyte,hv]
    · have hbyte : (BitVec.ofNat 8 (v%128+128)).toNat=v%128+128 :=
        BitVec.toNat_ofNat _ 8 ▸ Nat.mod_eq_of_lt (by omega)
      have hrest : v/128 < 128^(n+1) := by
        apply Nat.div_lt_of_lt_mul
        rwa [Nat.pow_succ,Nat.mul_comm] at h
      rw [List.cons_append,readFrom,hbyte,if_neg (by omega),ih hrest]
      simp only [Option.map_some,List.length_cons,Option.some.injEq,Prod.mk.injEq,and_true]
      omega

theorem read_write {v : ℕ} (h : v < 2^64) (bs : List (BitVec 8)) :
    read (write v ++ bs) = some (v,(write v).length) := by
  have hv : v < 128^(9+1) := Nat.lt_trans h (by decide)
  rw [read,write,readFrom_writeFrom hv,Option.map_some]
  simp only [Nat.mod_eq_of_lt h]

theorem readFrom_append {n : ℕ} {bs : List (BitVec 8)} {p : ℕ × ℕ} (h : readFrom n bs = some p)
    (cs : List (BitVec 8)) : readFrom n (bs ++ cs) = some p := by
  induction n generalizing bs p with
  | zero => cases h
  | succ n ih =>
    cases bs with
    | nil => cases h
    | cons b bs =>
      rw [List.cons_append]
      unfold readFrom at h ⊢
      split_ifs at h ⊢ with hb
      · exact h
      · obtain ⟨q,hq,rfl⟩ := Option.map_eq_some_iff.mp h
        rw [ih hq]
        rfl

/-- A number that has been read is not changed by the bytes that follow. -/
theorem read_append {bs : List (BitVec 8)} {p : ℕ × ℕ} (h : read bs = some p)
    (cs : List (BitVec 8)) : read (bs ++ cs) = some p := by
  obtain ⟨q,hq,rfl⟩ := Option.map_eq_some_iff.mp h
  rw [read,readFrom_append hq]
  rfl

theorem write_length_pos (v : ℕ) : 0 < (write v).length := by
  unfold write writeFrom
  split_ifs <;> simp

end CodecServer.Varint
