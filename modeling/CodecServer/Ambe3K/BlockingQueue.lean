import Mathlib.Data.Nat.Notation
import Mathlib.Data.List.Basic

/-! The bounded queue between threads. A call that would wait on a condition variable is one that
cannot happen yet; whoever holds the mutex acts in one step. -/
namespace CodecServer.Ambe3K

/-- `BlockingQueue<T>`; it never holds more than its maximum size. -/
structure BlockingQueue (π : Type) where
  items : List π
  maxSize : ℕ
  run : Bool
  length_le : items.length ≤ maxSize

namespace BlockingQueue
variable {π : Type}

def new (size : ℕ) : BlockingQueue π := ⟨[],size,true,Nat.zero_le size⟩

/-- The destructor; who waits for the queue is told that it is gone. -/
def close (q : BlockingQueue π) : BlockingQueue π := {q with run := false}

def empty (q : BlockingQueue π) : Bool := q.items.isEmpty

def full (q : BlockingQueue π) : Bool := q.maxSize ≤ q.items.length

/-- How `push` ends: it waits, it throws `QueueFullException`, it gives up a queue that is gone, or
the item is in. -/
inductive Push (π : Type)
  | wait
  | queueFull
  | gone
  | pushed (q : BlockingQueue π)

def push (q : BlockingQueue π) (item : π) (block : Bool) : Push π :=
  if h : q.full = true then
    if block = false then .queueFull else if q.run then .wait else .gone
  else if block ∧ q.run = false then .gone
  else .pushed
    {q with
      items := q.items ++ [item]
      length_le := by
        simp only [full,decide_eq_true_eq] at h
        rw [List.length_append,List.length_singleton]
        omega}

/-- How `pop` ends: it waits, it returns a null pointer, or it returns the item at the front. -/
inductive Pop (π : Type)
  | wait
  | null
  | item (item : π) (q : BlockingQueue π)

def pop (q : BlockingQueue π) : Pop π :=
  if q.run = false then .null
  else match h : q.items with
    | [] => .wait
    | item::items =>
      .item item {q with
        items := items
        length_le := by
          have := q.length_le
          rw [h,List.length_cons] at this
          omega}

theorem push_eq_pushed {q q' : BlockingQueue π} {item : π} {block : Bool}
    (h : q.push item block = .pushed q') :
    q'.items = q.items ++ [item] ∧ q'.maxSize = q.maxSize ∧ q'.run = q.run ∧
      q.items.length < q.maxSize := by
  unfold push at h
  split_ifs at h with hfull
  simp only [full,decide_eq_true_eq,Nat.not_le] at hfull
  obtain rfl := Push.pushed.inj h
  exact ⟨rfl,rfl,rfl,hfull⟩

/-- With `block`, the item is in, or the queue is gone; else it waits. -/
theorem push_blocking {q : BlockingQueue π} {item : π} :
    (∀ q', q.push item true = .pushed q' → q.run = true) ∧
      (q.push item true = .gone → q.run = false) := by
  unfold push
  by_cases hfull : q.full = true
  · rw [dif_pos hfull]
    cases hrun : q.run <;> simp
  · rw [dif_neg hfull]
    cases hrun : q.run <;> simp

/-- Without `block`, the item is in, or the queue is full. -/
theorem push_nonblocking (q : BlockingQueue π) (item : π) :
    (q.full = false ∧ ∃ q', q.push item false = .pushed q') ∨
      (q.full = true ∧ q.push item false = .queueFull) := by
  unfold push
  by_cases hfull : q.full = true
  · right
    rw [dif_pos hfull,if_pos rfl]
    exact ⟨hfull,rfl⟩
  · left
    rw [dif_neg hfull,if_neg (by simp)]
    exact ⟨Bool.eq_false_iff.mpr hfull,_,rfl⟩

theorem pop_eq_item {q q' : BlockingQueue π} {item : π} (h : q.pop = .item item q') :
    q.items = item::q'.items ∧ q'.maxSize = q.maxSize ∧ q'.run = q.run ∧ q.run = true := by
  unfold pop at h
  split_ifs at h with hrun
  split at h
  · cases h
  · rename_i items hitems
    obtain ⟨rfl,rfl⟩ := Pop.item.inj h
    exact ⟨hitems,rfl,rfl,by simpa using hrun⟩

/-- `pop` returns a null pointer for a queue that is gone only. -/
theorem pop_eq_null {q : BlockingQueue π} (h : q.pop = .null) : q.run = false := by
  unfold pop at h
  split_ifs at h with hrun
  · exact hrun
  · split at h <;> cases h

/-- `pop` waits for an empty queue only. -/
theorem pop_eq_wait {q : BlockingQueue π} (h : q.pop = .wait) : q.items = [] := by
  unfold pop at h
  split_ifs at h with hrun
  split at h
  · assumption
  · cases h

/-- As long as the queue is not gone, an item that is there is returned. -/
theorem pop_of_cons {q : BlockingQueue π} {item : π} {items : List π} (hrun : q.run = true)
    (hitems : q.items = item::items) : ∃ q', q.pop = .item item q' ∧ q'.items = items := by
  unfold pop
  rw [if_neg (by simp [hrun])]
  split
  · rename_i hempty
    rw [hitems] at hempty
    cases hempty
  · rename_i item' items' hcons
    obtain ⟨rfl,rfl⟩ := List.cons.inj (hitems.symm.trans hcons)
    exact ⟨_,rfl,rfl⟩

end BlockingQueue
end CodecServer.Ambe3K
