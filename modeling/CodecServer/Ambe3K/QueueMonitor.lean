import CodecServer.Ambe3K.BlockingQueue
import CodecServer.Monitor

/-! The methods of the blocking queue, with its mutex and its two condition variables. Any number of
threads push and pop, and the destructor runs beside them without the mutex. -/
namespace CodecServer.Ambe3K.QueueMonitor
open CodecServer.Transition

/-- The calls of `push` and of `pop`. -/
inductive Method (π : Type)
  | push (item : π) (block : Bool)
  | pop
  deriving DecidableEq

/-- `isFull` and `isEmpty`, on which threads wait while it is so. -/
inductive Condition
  | isFull
  | isEmpty
  deriving DecidableEq

/-- What a call comes to: `push` returns, gives up or throws `QueueFullException`; `pop` returns a null
pointer or an item. -/
inductive Result (π : Type)
  | pushed
  | gone
  | queueFull
  | null
  | item (item : π)
  deriving DecidableEq

variable {π : Type}

/-- The tests of the two `while` loops; without `block` there is no loop. -/
def waits : Method π → BlockingQueue π → Bool
  | .push _ block,q => block && (q.run && q.full)
  | .pop,q => q.run && q.empty

def condition : Method π → Condition
  | .push _ _ => .isFull
  | .pop => .isEmpty

/-- What follows the loops. -/
def effect : Method π → BlockingQueue π → BlockingQueue π × Result π
  | .push item block,q =>
    match q.push item block with
    | .pushed q => (q,.pushed)
    | .queueFull => (q,.queueFull)
    | _ => (q,.gone)
  | .pop,q =>
    match q.pop with
    | .item item q => (q,.item item)
    | _ => (q,.null)

/-- A call that gives up, throws or returns a null pointer notifies nobody. -/
def notifies (method : Method π) (q : BlockingQueue π) : List Condition :=
  match (effect method q).2 with
  | .pushed => [.isEmpty]
  | .item _ => [.isFull]
  | _ => []

/-- `BlockingQueue<T>`; the destructor clears `run` and notifies `isEmpty` before `isFull`. -/
def monitor : Monitor (Method π) (BlockingQueue π) Condition (Result π) where
  waits := waits
  condition := condition
  effect := effect
  notifies := notifies
  shut := fun q => !q.run
  shutDown := BlockingQueue.close
  announces := [.isEmpty,.isFull]

section
variable {q : BlockingQueue π}

theorem waits_push_iff (item : π) (block : Bool) :
    waits (.push item block) q = true ↔ block = true ∧ q.run = true ∧ q.full = true := by
  simp [waits]

theorem waits_pop_iff : waits .pop q = true ↔ q.run = true ∧ q.items = [] := by
  simp [waits,BlockingQueue.empty]

/-- A call waits exactly if it cannot happen in one step. -/
theorem waits_push (item : π) (block : Bool) :
    waits (.push item block) q = true ↔ q.push item block = .wait := by
  rw [waits_push_iff]
  unfold BlockingQueue.push
  by_cases hfull : q.full = true
  · rw [dif_pos hfull]
    cases block <;> simp [hfull]
  · rw [dif_neg hfull]
    refine iff_of_false (fun h => hfull h.2.2) ?_
    split_ifs <;> simp

theorem waits_pop : waits .pop q = true ↔ q.pop = .wait := by
  rw [waits_pop_iff]
  constructor
  · rintro ⟨hrun,hitems⟩
    unfold BlockingQueue.pop
    rw [if_neg (by simp [hrun])]
    split
    · rfl
    · rename_i hcons
      rw [hitems] at hcons
      cases hcons
  · intro hpop
    refine ⟨?_,BlockingQueue.pop_eq_wait hpop⟩
    by_contra hrun
    rw [BlockingQueue.pop,if_pos (by simpa using hrun)] at hpop
    cases hpop

/-- An item goes in at the end, or comes out at the front, or nothing happens. -/
theorem effect_cases (method : Method π) (q : BlockingQueue π) :
    (∃ item block q', method = .push item block ∧ q.push item block = .pushed q' ∧
      effect method q = (q',.pushed)) ∨
    (∃ item q', method = .pop ∧ q.pop = .item item q' ∧ effect method q = (q',.item item)) ∨
    ∃ r, effect method q = (q,r) ∧ r ≠ .pushed ∧ ∀ item, r ≠ .item item := by
  cases method with
  | push item block =>
    cases hpush : q.push item block with
    | pushed q' => exact Or.inl ⟨item,block,q',rfl,hpush,by simp [effect,hpush]⟩
    | wait => exact Or.inr (Or.inr ⟨.gone,by simp [effect,hpush],by simp,by simp⟩)
    | queueFull => exact Or.inr (Or.inr ⟨.queueFull,by simp [effect,hpush],by simp,by simp⟩)
    | gone => exact Or.inr (Or.inr ⟨.gone,by simp [effect,hpush],by simp,by simp⟩)
  | pop =>
    cases hpop : q.pop with
    | item item q' => exact Or.inr (Or.inl ⟨item,q',rfl,rfl,by simp [effect,hpop]⟩)
    | wait => exact Or.inr (Or.inr ⟨.null,by simp [effect,hpop],by simp,by simp⟩)
    | null => exact Or.inr (Or.inr ⟨.null,by simp [effect,hpop],by simp,by simp⟩)

theorem effect_run (method : Method π) (q : BlockingQueue π) :
    (effect method q).1.run = q.run ∧ (effect method q).1.maxSize = q.maxSize := by
  obtain ⟨item,block,q',rfl,hpush,heffect⟩ | ⟨item,q',rfl,hpop,heffect⟩ | ⟨r,heffect,-⟩ :=
    effect_cases method q
  · rw [heffect]
    obtain ⟨-,hsize,hrun,-⟩ := BlockingQueue.push_eq_pushed hpush
    exact ⟨hrun,hsize⟩
  · rw [heffect]
    obtain ⟨-,hsize,hrun,-⟩ := BlockingQueue.pop_eq_item hpop
    exact ⟨hrun,hsize⟩
  · rw [heffect]
    exact ⟨rfl,rfl⟩

/-- A push lets go on who waits for an item, and a pop who waits for room. -/
theorem notified (m m' : Method π) (hbefore : waits m' q = true)
    (hafter : waits m' (effect m q).1 = false) : condition m' ∈ notifies m q := by
  obtain ⟨item,block,q',rfl,hpush,heffect⟩ | ⟨item,q',rfl,hpop,heffect⟩ | ⟨r,heffect,-⟩ :=
    effect_cases m q
  · obtain ⟨-,-,-,hroom⟩ := BlockingQueue.push_eq_pushed hpush
    rw [notifies,heffect]
    cases m' with
    | pop => exact List.mem_singleton_self _
    | push item' block' =>
      have hfull := ((waits_push_iff item' block').mp hbefore).2.2
      simp only [BlockingQueue.full,decide_eq_true_eq] at hfull
      omega
  · obtain ⟨hitems,-,-,-⟩ := BlockingQueue.pop_eq_item hpop
    rw [notifies,heffect]
    cases m' with
    | push item' block' => exact List.mem_singleton_self _
    | pop =>
      have hempty := (waits_pop_iff.mp hbefore).2
      rw [hitems] at hempty
      cases hempty
  · rw [heffect,hbefore] at hafter
    cases hafter

end

theorem lawful_monitor : (monitor (π := π)).Lawful where
  notified := fun m m' _ => notified m m'
  announced := by
    intro m
    cases m with
    | push item block => exact List.mem_cons_of_mem _ (List.mem_singleton_self _)
    | pop => exact List.mem_cons_self
  shut_shutDown := fun _ => rfl
  shut_effect := fun m q => congrArg Bool.not (effect_run m q).1
  waits_shut := by
    intro m q h
    have hrun : q.run = false := by simpa [monitor] using h
    cases m with
    | push item block => simp [monitor,waits,hrun]
    | pop => simp [monitor,waits,hrun]

/-- The item of a push that has succeeded. -/
def pushedItem {ι : Type} : ι × Method π × Result π → Option π
  | (_,.push item _,.pushed) => some item
  | _ => none

/-- The item that a pop has returned. -/
def poppedItem {ι : Type} : ι × Method π × Result π → Option π
  | (_,_,.item item) => some item
  | _ => none

section
variable {ι : Type} {q q' : BlockingQueue π} {r r' : List (ι × Method π × Result π)}

theorem pushedItem_eq_none {i : ι} {m : Method π} {result : Result π} (h : result ≠ .pushed) :
    pushedItem (i,m,result) = none := by
  cases m with
  | pop => rfl
  | push item block =>
    cases result with
    | pushed => exact absurd rfl h
    | _ => rfl

theorem poppedItem_eq_none {i : ι} {m : Method π} {result : Result π}
    (h : ∀ item, result ≠ .item item) : poppedItem (i,m,result) = none := by
  cases result with
  | item item => exact absurd rfl (h item)
  | _ => rfl

/-- What has gone in is what has come out, and what is still there. -/
theorem act_fifo {a : Monitor.Act ι (Method π)} (h : monitor.act (q,r) a = some (q',r'))
    (hq : r.filterMap pushedItem = r.filterMap poppedItem ++ q.items) :
    r'.filterMap pushedItem = r'.filterMap poppedItem ++ q'.items ∧ q'.maxSize = q.maxSize := by
  cases a with
  | shutDown =>
    obtain ⟨rfl,rfl⟩ := Prod.mk.inj (Option.some.inj h)
    exact ⟨hq,rfl⟩
  | perform i m =>
    simp only [Monitor.act] at h
    split_ifs at h
    obtain ⟨rfl,rfl⟩ := Prod.mk.inj (Option.some.inj h)
    refine ⟨?_,(effect_run m q).2⟩
    change (r ++ [(i,m,(effect m q).2)]).filterMap pushedItem =
      (r ++ [(i,m,(effect m q).2)]).filterMap poppedItem ++ (effect m q).1.items
    rw [List.filterMap_append,List.filterMap_append,hq]
    obtain ⟨item,block,q',rfl,hpush,heffect⟩ | ⟨item,q',rfl,hpop,heffect⟩ |
      ⟨result,heffect,hpushed,hitem⟩ := effect_cases m q
    · obtain ⟨hitems,-,-,-⟩ := BlockingQueue.push_eq_pushed hpush
      rw [heffect,hitems]
      simp [pushedItem,poppedItem]
    · obtain ⟨hitems,-,-,-⟩ := BlockingQueue.pop_eq_item hpop
      rw [heffect,hitems]
      simp [pushedItem,poppedItem]
    · rw [heffect]
      simp [pushedItem_eq_none hpushed,poppedItem_eq_none hitem]

theorem run_act_fifo {as : List (Monitor.Act ι (Method π))}
    (h : run monitor.act (q,r) as = some (q',r'))
    (hq : r.filterMap pushedItem = r.filterMap poppedItem ++ q.items) :
    r'.filterMap pushedItem = r'.filterMap poppedItem ++ q'.items ∧ q'.maxSize = q.maxSize := by
  induction as generalizing q r with
  | nil =>
    obtain ⟨rfl,rfl⟩ := Prod.mk.inj (Option.some.inj h)
    exact ⟨hq,rfl⟩
  | cons a as ih =>
    obtain ⟨⟨q₁,r₁⟩,hact,hrun⟩ := (run_cons ..).mp h
    obtain ⟨hq₁,hsize₁⟩ := act_fifo hact hq
    obtain ⟨hq',hsize⟩ := ih hrun hq₁
    exact ⟨hq',hsize.trans hsize₁⟩

end

section
variable {ι : Type} [DecidableEq ι] {size : ℕ} {es : List (Monitor.Event ι (Method π))}
  {s : Monitor.State ι (Method π) (BlockingQueue π) Condition (Result π)}

/-- Whatever the threads and the destructor do, the calls have results as if each of them had happened
at once, when it did not have to wait. The items come out in the order in which they have gone in, and
there are never more of them in the queue than it has room for. -/
theorem run_fifo (h : run monitor.step {data := .new size} es = some s) :
    run monitor.act (.new size,[]) s.acts = some (s.data,s.results) ∧
    (∀ i, s.returned.filter (·.1 = i) <+: s.results.filter (·.1 = i)) ∧
    s.results.filterMap pushedItem = s.results.filterMap poppedItem ++ s.data.items ∧
    s.data.items.length ≤ size := by
  have hrecorded := Monitor.run_recorded lawful_monitor (by rfl) h
  obtain ⟨hfifo,hsize⟩ := run_act_fifo hrecorded.acts rfl
  refine ⟨hrecorded.acts,?_,hfifo,?_⟩
  · intro i
    rw [hrecorded.returned i]
    exact List.prefix_append _ _
  · exact Nat.le_trans s.data.length_le (Nat.le_of_eq hsize)

/-- As long as the queue is in use, a state in which nothing happens any more is one in which every
thread that is in a call has to wait: for an item when there is none, or for room when there is
none. -/
theorem run_quiet (hes : ∀ e ∈ es, e ≠ .shutDown)
    (h : run monitor.step {data := .new size} es = some s) (hquiet : monitor.Quiet s) (i : ι) :
    s.threads i = .idle ∨ (s.threads i = .asleep .pop ∧ s.data.items = []) ∨
      ∃ item, s.threads i = .asleep (.push item true) ∧ s.data.items.length = size := by
  have hguarded := Monitor.run_guarded lawful_monitor (by rfl) h
  have hroused := Monitor.run_roused lawful_monitor (Monitor.guarded_init _ (by rfl)) nofun rfl hes h
  rcases hquiet.asleep hguarded hroused i with hidle | ⟨m,hasleep,hwaits⟩
  · exact Or.inl hidle
  · cases m with
    | pop => exact Or.inr (Or.inl ⟨hasleep,(waits_pop_iff.mp hwaits).2⟩)
    | push item block =>
      obtain ⟨rfl,-,hfull⟩ := (waits_push_iff item block).mp hwaits
      have hsize := (run_act_fifo (Monitor.run_recorded lawful_monitor (by rfl) h).acts rfl).2
      have hle := s.data.length_le
      simp only [BlockingQueue.full,decide_eq_true_eq] at hfull
      exact Or.inr (Or.inr ⟨item,hasleep,(Nat.le_antisymm hle hfull).trans hsize⟩)

/-- With the destructor beside them, no thread is left in a wait without need exactly if none starts to
wait on a condition variable that the destructor has notified before. -/
theorem always_roused_iff (h : (run monitor.step
      ({data := .new size} : Monitor.State ι (Method π) _ _ _) es).isSome) :
    Always monitor.step monitor.Roused ({data := .new size} : Monitor.State ι (Method π) _ _ _) es ↔
      Meets monitor.step monitor.Fine ({data := .new size} : Monitor.State ι (Method π) _ _ _) es :=
  Monitor.always_roused_iff_meets lawful_monitor (by rfl) h

end

/-- A thread waits for an item and another one brings it. -/
def delivery : List (Monitor.Event ℕ (Method ℕ)) :=
  [.call 0 .pop,.work 0,.work 0,.work 0,.call 1 (.push 7 true),.work 1,.work 1,.work 1,.work 1,.work 1,
    .work 0,.work 0,.work 0,.work 0,.work 0]

theorem run_fifo_delivery : ∃ s : Monitor.State ℕ (Method ℕ) (BlockingQueue ℕ) Condition (Result ℕ),
    run monitor.step {data := .new 10} delivery = some s ∧
    s.returned = [(1,.push 7 true,.pushed),(0,.pop,.item 7)] ∧
    s.results.filterMap pushedItem = s.results.filterMap poppedItem ++ s.data.items := by
  refine ⟨_,rfl,rfl,?_⟩
  exact (run_fifo (show run monitor.step {data := .new 10} delivery = some _ from rfl)).2.2.1

/-- A thread waits for an item, and nobody brings one. -/
def vigil : List (Monitor.Event ℕ (Method ℕ)) := [.call 0 .pop,.work 0,.work 0,.work 0]

theorem run_quiet_vigil : ∃ s : Monitor.State ℕ (Method ℕ) (BlockingQueue ℕ) Condition (Result ℕ),
    run monitor.step {data := .new 10} vigil = some s ∧
    (s.threads 0 = .idle ∨ (s.threads 0 = .asleep .pop ∧ s.data.items = []) ∨
      ∃ item, s.threads 0 = .asleep (.push item true) ∧ s.data.items.length = 10) := by
  refine ⟨_,rfl,run_quiet ?_ (show run monitor.step {data := .new 10} vigil = some _ from rfl)
    ⟨?_,rfl⟩ 0⟩
  · simp [vigil]
  · intro i
    cases i <;> rfl

/-- A thread waits for an item when the destructor runs. -/
def destruction : List (Monitor.Event ℕ (Method ℕ)) :=
  [.call 0 .pop,.work 0,.work 0,.work 0,.shutDown,.announce,.announce,.work 0,.work 0,.work 0,.work 0]

theorem always_roused_iff_destruction :
    Always monitor.step monitor.Roused
      ({data := .new 10} : Monitor.State ℕ (Method ℕ) _ _ _) destruction := by
  refine (always_roused_iff rfl).mpr ?_
  repeat' refine meets_cons ?_ rfl ?_
  all_goals first | trivial | nofun

end CodecServer.Ambe3K.QueueMonitor
