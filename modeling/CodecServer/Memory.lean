import Mathlib.Data.Nat.Notation
import Mathlib.Data.List.Basic

/-! Computations over an array of cells, with the indices they load. A load outside the mapped
cells and a false assertion end the computation; every index it has tried is recorded. -/
namespace CodecServer.Memory

/-- The ways in which a call ends without returning to its caller. -/
inductive Fault
  | assertion
  | segfault
  | overrun
  | diverged
  deriving Repr, DecidableEq

/-- A computation together with the indices it has loaded, in order. -/
structure Access (α : Type*) where
  reads : List ℕ
  result : Except Fault α
  deriving DecidableEq

variable {α β γ : Type}

namespace Access

instance : Monad Access where
  pure a := ⟨[],.ok a⟩
  bind x f := match x.result with
    | .error e => ⟨x.reads,.error e⟩
    | .ok a => ⟨x.reads ++ (f a).reads,(f a).result⟩

def fail (e : Fault) : Access α := ⟨[],.error e⟩

/-- `assert(p)`. -/
def require (p : Prop) [Decidable p] : Access Unit := if p then pure () else fail .assertion

/-- `*i`: the index is recorded whether or not a cell is mapped there. -/
def load (mem : List β) (i : ℕ) : Access β :=
  ⟨[i],match mem[i]? with | some b => .ok b | none => .error .segfault⟩

/-- Load the cells from index `i` on, up to the first `stop`, which is not returned. -/
def loadUntil [DecidableEq β] (stop : β) : List β → ℕ → Access (List β)
  | [],i => ⟨[i],.error .segfault⟩
  | b::rest,i =>
    if b = stop then ⟨[i],.ok []⟩ else do
      let _ ← (⟨[i],.ok ()⟩ : Access Unit)
      let tail ← loadUntil stop rest (i+1)
      return b::tail

/-- Load `count` cells from index `i` on. -/
def loadBlock (mem : List β) (i : ℕ) : ℕ → Access (List β)
  | 0 => pure []
  | count+1 => do
    let b ← load mem i
    let tail ← loadBlock mem (i+1) count
    return b::tail

/-- The computation returns `v` and has stayed below index `n`. -/
def Safe (n : ℕ) (x : Access α) (v : α) : Prop := (∀ i ∈ x.reads, i < n) ∧ x.result = .ok v

@[simp] theorem result_pure (a : α) : (pure a : Access α).result = .ok a := rfl
@[simp] theorem reads_pure (a : α) : (pure a : Access α).reads = [] := rfl

theorem result_bind (x : Access α) (f : α → Access γ) (v : γ) :
    (x >>= f).result = .ok v ↔ ∃ a, x.result = .ok a ∧ (f a).result = .ok v := by
  rcases x with ⟨r,e | a⟩
  · simp [bind]
  · simp [bind]

theorem result_bind_error (x : Access α) (f : α → Access γ) (e : Fault) :
    (x >>= f).result = .error e ↔
      x.result = .error e ∨ ∃ a, x.result = .ok a ∧ (f a).result = .error e := by
  rcases x with ⟨r,e' | a⟩
  · simp [bind]
  · simp [bind]

theorem result_map (f : α → γ) (x : Access α) (v : γ) :
    (f <$> x).result = .ok v ↔ ∃ a, x.result = .ok a ∧ f a = v := by
  change (x >>= fun a => pure (f a)).result = .ok v ↔ _
  simp only [result_bind,result_pure,Except.ok.injEq]

theorem result_map_error (f : α → γ) (x : Access α) (e : Fault) :
    (f <$> x).result = .error e ↔ x.result = .error e := by
  change (x >>= fun a => pure (f a)).result = .error e ↔ _
  simp only [result_bind_error,result_pure,reduceCtorEq,and_false,exists_false,or_false]

/-- What follows a computation that returns goes on from its value. -/
theorem bind_of_ok {x : Access α} {f : α → Access γ} {a : α} (h : x.result = .ok a) :
    (x >>= f).result = (f a).result := by
  rcases x with ⟨reads,result⟩
  cases h
  rfl

theorem bind_of_error {x : Access α} {f : α → Access γ} {e : Fault} (h : x.result = .error e) :
    (x >>= f).result = .error e := by
  rcases x with ⟨reads,result⟩
  cases h
  rfl

theorem load_of_getElem? {mem : List β} {i : ℕ} {b : β} (h : mem[i]? = some b) :
    (load mem i).result = .ok b := by
  simp only [load,h]

/-! A load and an assertion have ways to fail of their own. -/

theorem load_ne_diverged {mem : List β} {i : ℕ} : (load mem i).result ≠ .error .diverged := by
  unfold load
  cases mem[i]? <;> simp

theorem require_ne_diverged {p : Prop} [Decidable p] :
    (require p).result ≠ .error .diverged := by
  unfold require
  split_ifs <;> simp [fail]

theorem loadUntil_ne_diverged [DecidableEq β] {stop : β} {l : List β} {i : ℕ} :
    (loadUntil stop l i).result ≠ .error .diverged := by
  induction l generalizing i with
  | nil => simp [loadUntil]
  | cons b l ih =>
    by_cases hb : b = stop
    · simp [loadUntil,hb]
    · simp only [loadUntil,hb,if_false,Ne,result_bind_error,result_pure,reduceCtorEq,and_false,
        exists_false,or_false,false_or,not_exists,not_and]
      intro u hu
      exact ih

@[simp] theorem safe_pure (n : ℕ) (a v : α) : Safe n (pure a) v ↔ a = v := by
  simp [Safe]

@[simp] theorem safe_fail (n : ℕ) (e : Fault) (v : α) : ¬ Safe n (fail e) v := by
  simp [Safe,fail]

/-- Sequencing: the second part is run from the value of the first. -/
theorem safe_bind (n : ℕ) (x : Access α) (f : α → Access γ) (v : γ) :
    Safe n (x >>= f) v ↔ ∃ a, Safe n x a ∧ Safe n (f a) v := by
  rcases x with ⟨r,e | a⟩
  · simp [Safe,bind]
  · simp only [Safe,bind,List.mem_append,Except.ok.injEq]
    constructor
    · rintro ⟨hr,hv⟩
      exact ⟨a,⟨fun i hi => hr i (Or.inl hi),rfl⟩,fun i hi => hr i (Or.inr hi),hv⟩
    · rintro ⟨b,⟨hr,rfl⟩,hr',hv⟩
      exact ⟨fun i hi => hi.elim (hr i) (hr' i),hv⟩

theorem safe_map (n : ℕ) (f : α → γ) (x : Access α) (v : γ) :
    Safe n (f <$> x) v ↔ ∃ a, Safe n x a ∧ f a = v := by
  change Safe n (x >>= fun a => pure (f a)) v ↔ _
  simp only [safe_bind,safe_pure]

@[simp] theorem safe_require (n : ℕ) (p : Prop) [Decidable p] (v : Unit) :
    Safe n (require p) v ↔ p := by
  by_cases h : p <;> simp [require,h]

theorem safe_load (n : ℕ) (mem : List β) (i : ℕ) (b : β) :
    Safe n (load mem i) b ↔ i < n ∧ mem[i]? = some b := by
  simp only [Safe,load,List.mem_singleton,forall_eq]
  cases mem[i]? <;> simp

/-- The walk to `stop` returns what precedes the first `stop`, and reads up to that one. -/
theorem safe_loadUntil [DecidableEq β] (n : ℕ) (stop : β) (l s : List β) (i : ℕ) :
    Safe n (loadUntil stop l i) s ↔
      ∃ rest, l = s ++ stop::rest ∧ stop ∉ s ∧ i+s.length < n := by
  induction l generalizing i s with
  | nil => simp [loadUntil,Safe]
  | cons b l ih =>
    by_cases hb : b = stop
    · subst hb
      cases s with
      | nil => simp [loadUntil,Safe]
      | cons c s => simp +contextual [loadUntil,Safe,eq_comm]
    · simp only [loadUntil,hb,if_false,safe_bind,safe_pure,ih]
      constructor
      · rintro ⟨u,hu,t,⟨rest,rfl,ht,hn⟩,rfl⟩
        exact ⟨rest,rfl,by simp [ht,Ne.symm hb],by simp only [List.length_cons]; omega⟩
      · rintro ⟨rest,hl,hs,hn⟩
        cases s with
        | nil => exact absurd (List.cons.inj hl).1 hb
        | cons c s =>
          obtain ⟨rfl,rfl⟩ := List.cons.inj hl
          simp only [List.mem_cons,not_or,List.length_cons] at hs hn
          exact ⟨(),⟨by simp; omega,rfl⟩,s,⟨rest,rfl,hs.2,by omega⟩,rfl⟩

/-- A computation that returns is safe below some bound. -/
theorem exists_safe {x : Access α} {v : α} (h : x.result = .ok v) : ∃ n, Safe n x v := by
  have bounded : ∀ l : List ℕ, ∃ n, ∀ i ∈ l, i < n := by
    intro l
    induction l with
    | nil => exact ⟨0,by simp⟩
    | cons j l ih =>
      obtain ⟨n,hn⟩ := ih
      refine ⟨j+n+1,fun i hi => ?_⟩
      rcases List.mem_cons.mp hi with rfl | hi
      · omega
      · have := hn i hi
        omega
  obtain ⟨n,hn⟩ := bounded x.reads
  exact ⟨n,hn,h⟩

theorem safe_mono {m n : ℕ} (h : m ≤ n) {x : Access α} {v : α} (hx : Safe m x v) :
    Safe n x v := ⟨fun i hi => Nat.lt_of_lt_of_le (hx.1 i hi) h,hx.2⟩

/-- A block load returns the block, and reads nothing behind it. -/
theorem safe_loadBlock (n : ℕ) (mem s : List β) (i count : ℕ) :
    Safe n (loadBlock mem i count) s ↔
      s = (mem.drop i).take count ∧ s.length = count ∧ (count = 0 ∨ i+count ≤ n) := by
  induction count generalizing i s with
  | zero => simp [loadBlock,eq_comm]
  | succ count ih =>
    simp only [loadBlock,safe_bind,safe_load,safe_pure,ih]
    constructor
    · rintro ⟨b,⟨hi,hb⟩,t,⟨ht,hl,hn⟩,rfl⟩
      obtain ⟨h,rfl⟩ := List.getElem?_eq_some_iff.mp hb
      refine ⟨?_,by simp [hl],Or.inr (by omega)⟩
      rw [List.drop_eq_getElem_cons h,List.take_succ_cons,ht]
    · rintro ⟨hs,hl,hn⟩
      have hi : i < mem.length := by
        have := congrArg List.length hs
        simp only [hl,List.length_take,List.length_drop] at this
        omega
      rw [List.drop_eq_getElem_cons hi,List.take_succ_cons] at hs
      subst hs
      exact ⟨mem[i],⟨by omega,List.getElem?_eq_getElem hi⟩,_,
        ⟨rfl,by simpa using hl,by omega⟩,rfl⟩

end Access

/-- Store a block at index `i` of an allocated buffer. -/
def store (buf : List β) (i : ℕ) (block : List β) : Except Fault (List β) :=
  if i+block.length ≤ buf.length then
    .ok (buf.take i ++ block ++ buf.drop (i+block.length))
  else .error .overrun

/-- `memcpy` of `count` cells out of a buffer of the caller. -/
def loadFrom (buf : List β) (count : ℕ) : Except Fault (List β) :=
  if count ≤ buf.length then .ok (buf.take count) else .error .segfault

@[simp] theorem ok_bind (a : α) (f : α → Except Fault γ) :
    ((.ok a : Except Fault α) >>= f) = f a := rfl

/-- A store replaces a stretch of its own length. -/
theorem store_append (pre mid post block : List β) (h : block.length = mid.length) :
    store (pre ++ (mid ++ post)) pre.length block = .ok (pre ++ (block ++ post)) := by
  rw [store,if_pos (by simp only [List.length_append]; omega),List.take_left,h,← List.drop_drop,
    List.drop_left,List.drop_left,List.append_assoc]

end CodecServer.Memory
