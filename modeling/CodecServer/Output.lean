import Mathlib.Algebra.Group.Nat.Defs
import Mathlib.Data.List.Basic

/-! Buffered output: bytes are cut into blocks, and a block is written by calls each of which may
take less than it was asked to. -/
namespace CodecServer

/-- What a call of `write` comes to. A call that writes nothing has failed. -/
inductive WriteOutcome
  | wrote (n : ℕ)
  | interrupted
  | failed
  deriving Repr, DecidableEq

/-- An output stream, by the size of its block and by the number of full blocks that are written
while so many bytes are put into it. It holds back a block at most until it is destroyed. -/
structure OutStream where
  block : ℕ
  early : ℕ → ℕ
  block_pos : 0 < block
  early_le : ∀ n, early n*block ≤ n
  le_early : ∀ n, n ≤ (early n+1)*block

/-- The number of bytes that are written before a call fails, if one does. -/
def room : List WriteOutcome → Option ℕ
  | [] => none
  | .wrote n::os => if n = 0 then some 0 else (room os).map fun r => n+r
  | .interrupted::os => room os
  | .failed::_ => some 0

namespace OutStream

/-- A stream that writes its block when there is a byte that does not fit into it any more. -/
def ofBlock (block : ℕ) (h : 0 < block) : OutStream where
  block := block
  early n := (n-1)/block
  block_pos := h
  early_le n := Nat.le_trans (Nat.div_mul_le_self (n-1) block) (Nat.sub_le n 1)
  le_early n := by
    have hlt := Nat.lt_div_mul_add (a := n-1) h
    rw [Nat.add_one_mul]
    omega

variable {α : Type}

/-- A block is written: the bytes that are, whether they are all of it, and the outcomes that are
left. A call is repeated when it was interrupted or did not take everything; it cannot take more than
there is. When no more outcomes are listed, calls succeed. -/
def flush : List α → List WriteOutcome → Option (List α × Bool × List WriteOutcome)
  | [],os => some ([],true,os)
  | block,[] => some (block,true,[])
  | block,.wrote n::os =>
    if n = 0 then some ([],false,os)
    else if block.length < n then none
    else (flush (block.drop n) os).map fun r => (block.take n ++ r.1,r.2)
  | block,.interrupted::os => flush block os
  | _,.failed::os => some ([],false,os)

/-- Blocks are written one after the other, until this fails. -/
def flushAll : List (List α) → List WriteOutcome → Option (List α × Bool × List WriteOutcome)
  | [],os => some ([],true,os)
  | block::blocks,os => do
    let (sent,ok,os) ← flush block os
    if ok then
      let (rest,ok,os) ← flushAll blocks os
      return (sent ++ rest,ok,os)
    else return (sent,false,os)

/-- The first blocks of a size. -/
def cut (size : ℕ) : ℕ → List α → List (List α)
  | 0,_ => []
  | n+1,bytes => bytes.take size::cut size n (bytes.drop size)

variable (o : OutStream)

/-- The blocks that are full. -/
def fullBlocks (bytes : List α) : List (List α) := cut o.block (o.early bytes.length) bytes

/-- What is held back. -/
def rest (bytes : List α) : List α := bytes.drop (o.early bytes.length*o.block)

/-- The blocks that are written, in order. Nothing is written when nothing is held back. -/
def writes (bytes : List α) : List (List α) :=
  o.fullBlocks bytes ++ if o.rest bytes = [] then [] else [o.rest bytes]

/-- Bytes are put into the stream and it is destroyed: the bytes that are written, and whether
putting them in succeeded. -/
def send (bytes : List α) (os : List WriteOutcome) : Option (List α × Bool) := do
  let (sent,ok,os) ← flushAll (o.fullBlocks bytes) os
  if ok then
    let (rest,_,_) ← flush (o.rest bytes) os
    return (sent ++ rest,true)
  else return (sent,false)

/-- What the outcomes say of a write: all bytes are written and the outcomes go on behind them, or
the room does not suffice. -/
def Tells (bytes : List α) (os : List WriteOutcome) : List α × Bool × List WriteOutcome → Prop
  | (sent,true,os') => sent = bytes ∧ room os = (room os').map fun r => bytes.length+r
  | (sent,false,_) => sent.length < bytes.length ∧ room os = some sent.length

section Tells
variable {α : Type} {bytes more : List α} {os os' : List WriteOutcome}
  {r : List α × Bool × List WriteOutcome}

theorem Tells.interrupted (h : Tells bytes os r) : Tells bytes (.interrupted::os) r := by
  rcases r with ⟨sent,_ | _,os'⟩
  · exact h
  · exact h

/-- Behind bytes that were written, what is told of the others is told of all of them. -/
theorem Tells.append (hroom : room os = (room os').map fun k => bytes.length+k)
    (h : Tells more os' r) : Tells (bytes ++ more) os (bytes ++ r.1,r.2) := by
  rcases r with ⟨sent,_ | _,os''⟩
  · obtain ⟨hlt,hrest⟩ := h
    refine ⟨?_,?_⟩
    · simp only [List.length_append]
      omega
    · rw [hroom,hrest,Option.map_some,List.length_append]
  · obtain ⟨hsent,hrest⟩ := h
    refine ⟨by rw [hsent],?_⟩
    rw [hroom,hrest,Option.map_map,List.length_append]
    congr 1
    funext k
    exact (Nat.add_assoc bytes.length more.length k).symm

theorem Tells.of_failed {sent : List α} (h : Tells bytes os (sent,false,os')) (more : List α) :
    Tells (bytes ++ more) os (sent,false,os') := by
  refine ⟨?_,h.2⟩
  have hlt := h.1
  rw [List.length_append]
  omega

/-- The calls for one block. -/
theorem flush_tells (h : flush bytes os = some r) : Tells bytes os r := by
  induction os generalizing bytes r with
  | nil => cases bytes <;> cases h <;> exact ⟨rfl,rfl⟩
  | cons outcome os ih =>
    cases bytes with
    | nil =>
      cases h
      exact ⟨rfl,by simp⟩
    | cons b bytes =>
      cases outcome with
      | interrupted => exact (ih h).interrupted
      | failed =>
        cases h
        exact ⟨Nat.succ_pos _,rfl⟩
      | wrote n =>
        simp only [flush] at h
        split_ifs at h with hzero hlt
        · cases h
          exact ⟨Nat.succ_pos _,by rw [room,if_pos hzero]; rfl⟩
        · obtain ⟨r',hrest,rfl⟩ := Option.map_eq_some_iff.mp h
          have hlen : ((b::bytes).take n).length = n := by
            rw [List.length_take]
            omega
          have hroom : room (.wrote n::os) =
              (room os).map fun k => ((b::bytes).take n).length+k := by
            rw [room,if_neg hzero,hlen]
          have htells := Tells.append hroom (ih hrest)
          rw [List.take_append_drop] at htells
          exact htells

theorem flushAll_tells {blocks : List (List α)} (h : flushAll blocks os = some r) :
    Tells blocks.flatten os r := by
  induction blocks generalizing os r with
  | nil =>
    cases h
    exact ⟨rfl,by simp⟩
  | cons block blocks ih =>
    obtain ⟨⟨sent,ok,os'⟩,hblock,h⟩ := Option.bind_eq_some_iff.mp h
    have htells := flush_tells hblock
    rw [List.flatten_cons]
    cases ok with
    | false =>
      cases h
      exact Tells.of_failed htells blocks.flatten
    | true =>
      obtain ⟨⟨rest,ok,os''⟩,hblocks,h⟩ := Option.bind_eq_some_iff.mp h
      cases h
      obtain ⟨rfl,hroom⟩ := htells
      exact Tells.append hroom (ih hblocks)

end Tells

theorem flatten_cut {α : Type} (size n : ℕ) (bytes : List α) :
    (cut size n bytes).flatten = bytes.take (n*size) := by
  induction n generalizing bytes with
  | zero => rw [Nat.zero_mul,List.take_zero]; rfl
  | succ n ih =>
    rw [cut,List.flatten_cons,ih,Nat.add_one_mul,Nat.add_comm,List.take_add]

section Send
variable {α : Type} (o : OutStream) (bytes : List α)

theorem fullBlocks_flatten :
    (o.fullBlocks bytes).flatten = bytes.take (o.early bytes.length*o.block) :=
  flatten_cut _ _ _

theorem fullBlocks_rest : (o.fullBlocks bytes).flatten ++ o.rest bytes = bytes := by
  rw [fullBlocks_flatten,rest,List.take_append_drop]

theorem writes_flatten : (o.writes bytes).flatten = bytes := by
  rw [writes,List.flatten_append]
  split_ifs with hrest
  · have hall := o.fullBlocks_rest bytes
    rwa [hrest] at hall
  · rw [List.flatten_singleton,fullBlocks_rest]

/-- What fits into the block is written at once. -/
theorem writes_of_le {bytes : List α} (hne : bytes ≠ []) (h : bytes.length ≤ o.block) :
    o.writes bytes = [bytes] := by
  have hflat := o.fullBlocks_rest bytes
  have hearly := o.early_le bytes.length
  have hpos := List.length_pos_iff.mpr hne
  rw [writes]
  by_cases hfull : o.early bytes.length = 0
  · have hnil : o.fullBlocks bytes = [] := by rw [fullBlocks,hfull,cut]
    rw [hnil,List.flatten_nil,List.nil_append] at hflat
    rw [hnil,hflat,if_neg hne,List.nil_append]
  · have hle : o.early bytes.length*o.block ≤ 1*o.block := by omega
    have hone : o.early bytes.length = 1 := by
      have := Nat.le_of_mul_le_mul_right hle o.block_pos
      omega
    have hrest : o.rest bytes = [] := by
      rw [rest,hone]
      exact List.drop_eq_nil_of_le (by omega)
    rw [if_pos hrest,List.append_nil,fullBlocks,hone,cut,cut,List.take_of_length_le h]

/-- What does not fit is written in several blocks. -/
theorem writes_of_lt {bytes : List α} (h : o.block < bytes.length) :
    ∃ next left, o.writes bytes = bytes.take o.block::next::left := by
  have hle := o.le_early bytes.length
  cases hearly : o.early bytes.length with
  | zero =>
    rw [hearly,Nat.zero_add,Nat.one_mul] at hle
    omega
  | succ n =>
    have hfirst : o.fullBlocks bytes = bytes.take o.block::cut o.block n (bytes.drop o.block) := by
      rw [fullBlocks,hearly,cut]
    have hflat := o.writes_flatten bytes
    rw [writes,hfirst,List.cons_append] at hflat ⊢
    cases htail : cut o.block n (bytes.drop o.block) ++
        if o.rest bytes = [] then [] else [o.rest bytes] with
    | nil =>
      rw [htail,List.flatten_singleton] at hflat
      have hlen := congrArg List.length hflat
      rw [List.length_take] at hlen
      omega
    | cons next left => exact ⟨next,left,rfl⟩

variable {bytes} {os : List WriteOutcome} {sent : List α} {ok : Bool}

/-- The outcomes tell what is written. Putting the bytes in succeeds if those are written that are not
held back. -/
theorem send_tells (h : o.send bytes os = some (sent,ok)) :
    ∃ full os', Tells bytes os (sent,full,os') ∧
      (ok = true ↔ o.early bytes.length*o.block ≤ sent.length) := by
  have hearly := o.early_le bytes.length
  have hlen : (o.fullBlocks bytes).flatten.length = o.early bytes.length*o.block := by
    rw [fullBlocks_flatten,List.length_take]
    omega
  obtain ⟨⟨front,okFront,os'⟩,hfront,h⟩ := Option.bind_eq_some_iff.mp h
  have htells := flushAll_tells hfront
  cases okFront with
  | false =>
    cases h
    have hlt := htells.1
    have hall := htells.of_failed (o.rest bytes)
    rw [fullBlocks_rest] at hall
    refine ⟨false,os',hall,iff_of_false Bool.false_ne_true ?_⟩
    omega
  | true =>
    obtain ⟨⟨last,okLast,os''⟩,hlast,h⟩ := Option.bind_eq_some_iff.mp h
    cases h
    obtain ⟨rfl,hroom⟩ := htells
    have hall := Tells.append hroom (flush_tells hlast)
    rw [fullBlocks_rest] at hall
    refine ⟨okLast,os'',hall,iff_of_true rfl ?_⟩
    rw [List.length_append]
    omega

/-- When no call fails, everything is written. -/
theorem send_of_room (hroom : room os = none) (h : o.send bytes os = some (sent,ok)) :
    sent = bytes ∧ ok = true := by
  obtain ⟨full,os',htells,hok⟩ := o.send_tells h
  cases full with
  | false =>
    rw [htells.2] at hroom
    cases hroom
  | true =>
    obtain ⟨rfl,-⟩ := htells
    exact ⟨rfl,hok.mpr (o.early_le sent.length)⟩

/-- A stream reports the bytes that it loses exactly if it loses some before those that it holds
back, or none. -/
theorem send_reports_iff (h : o.send bytes os = some (sent,ok)) :
    (ok = true → sent = bytes) ↔
      ∀ k, room os = some k → k < o.early bytes.length*o.block ∨ bytes.length ≤ k := by
  obtain ⟨full,os',htells,hok⟩ := o.send_tells h
  cases full with
  | false =>
    obtain ⟨hlt,hroom⟩ := htells
    rw [hok]
    constructor
    · intro hreports k hk
      obtain rfl := Option.some.inj (hroom.symm.trans hk)
      left
      by_contra hle
      rw [hreports (Nat.not_lt.mp hle)] at hlt
      exact Nat.lt_irrefl _ hlt
    · intro hroom' hle
      have hk := hroom' _ hroom
      omega
  | true =>
    obtain ⟨rfl,hroom⟩ := htells
    apply iff_of_true (fun _ => rfl)
    intro k hk
    rw [hroom] at hk
    obtain ⟨k',-,rfl⟩ := Option.map_eq_some_iff.mp hk
    exact Or.inr (Nat.le_add_right _ _)

end Send

end OutStream
end CodecServer
