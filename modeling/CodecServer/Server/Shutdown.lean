import Mathlib.Algebra.Order.BigOperators.Group.Finset
import CodecServer.Transition

/-! How the server comes to its end: the threads that accept connections, the signals that stop them,
and `Server::main`, which waits for them and deletes their servers. -/
namespace CodecServer.Server.Shutdown
open Function CodecServer.Transition

/-- Where the thread of a `SocketServer` is: at the test of `dorun`, in `accept`, before the `unlink`
that follows the loop of a `UnixDomainSocketServer`, or at its end. -/
inductive Thread
  | absent
  | test
  | accept
  | unlink
  | done
  deriving DecidableEq

inductive Socket
  | listening
  | shut
  | closed
  deriving DecidableEq

/-- A `SocketServer` that has been set up; `linked` is whether there is a file for its socket. -/
structure Listener where
  unix : Bool
  dorun : Bool := true
  sock : Socket := .listening
  thread : Thread := .absent
  linked : Bool := unix
  deleted : Bool := false
  deriving DecidableEq

/-- The three statements of `SocketServer::stop`. -/
inductive Phase
  | flag
  | shutdown
  | close
  deriving DecidableEq

def Listener.stop (l : Listener) : Phase → Listener
  | .flag => {l with dorun := false}
  | .shutdown => {l with sock := if l.sock = .listening then .shut else l.sock}
  | .close => {l with sock := .closed}

/-- `~SocketServer` calls `stop`; the object is gone after its last statement. -/
def Listener.destroy (l : Listener) : Listener := {l.stop .close with deleted := true}

def Listener.goto (l : Listener) (thread : Thread) : Listener := {l with thread := thread}

/-- Where `Server::main` is: at the loop that starts the servers, at the one that joins them, in the
destructor of a server, or at its end. -/
inductive Main
  | start (i : ℕ)
  | join (i : ℕ)
  | delete (i : ℕ) (phase : Phase)
  | returned
  deriving DecidableEq

/-- The servers, and the signal handlers that run on the main thread, the last one first, each with the
server and the statement that it has come to; with the number of signals so far, and whether a server
was used after it had been deleted. -/
structure State where
  servers : ℕ → Listener
  main : Main := .start 0
  handlers : List (ℕ × Phase) := []
  signals : ℕ := 0
  used : Bool := false

/-- A signal arrives; its handler, the main thread or the thread of a server takes a step; `accept`
returns to it, with a client or an error, while the socket is listening. -/
inductive Event
  | signal
  | handle
  | main
  | thread (i : ℕ)
  | accepted (i : ℕ)
  deriving DecidableEq

namespace State

def start (unix : ℕ → Bool) : State := {servers := fun i => {unix := unix i}}

/-- A server changes, and the main thread goes on. -/
def put (s : State) (i : ℕ) (l : Listener) (main : Main) : State :=
  {s with servers := update s.servers i l, main := main}

/-- What comes after a statement in the loop of `Server::stop`. -/
def advance : ℕ × Phase → ℕ × Phase
  | (i,.flag) => (i,.shutdown)
  | (i,.shutdown) => (i,.close)
  | (i,.close) => (i+1,.flag)

/-- `Server::handle_signal` and `Server::stop`, for `n` servers. -/
def handle (n : ℕ) (s : State) : Option State :=
  match s.handlers with
  | [] => none
  | (i,phase)::rest =>
    if i < n then
      some
        { s with
          servers := update s.servers i ((s.servers i).stop phase)
          handlers := advance (i,phase)::rest
          used := s.used || (s.servers i).deleted }
    else some {s with handlers := rest}

/-- The end of `Server::main`, once the servers are set up. -/
def mainStep (n : ℕ) (s : State) : Option State :=
  match s.main with
  | .start i =>
    if i < n then some (s.put i ((s.servers i).goto .test) (.start (i+1)))
    else some {s with main := .join 0}
  | .join i =>
    if i < n then
      if (s.servers i).thread = .done then some {s with main := .delete i .flag} else none
    else some {s with main := .returned}
  | .delete i .flag => some (s.put i ((s.servers i).stop .flag) (.delete i .shutdown))
  | .delete i .shutdown => some (s.put i ((s.servers i).stop .shutdown) (.delete i .close))
  | .delete i .close => some (s.put i (s.servers i).destroy (.join (i+1)))
  | .returned => none

/-- `run`; a call of `accept` fails once the socket has been shut down. -/
def threadStep (l : Listener) : Option Listener :=
  match l.thread with
  | .absent => none
  | .test =>
    if l.dorun then some (l.goto .accept)
    else if l.unix then some (l.goto .unlink)
    else some (l.goto .done)
  | .accept => if l.sock = .listening then none else some (l.goto .test)
  | .unlink => some {l with thread := .done, linked := false}
  | .done => none

def step (n : ℕ) (s : State) : Event → Option State
  | .signal => some {s with handlers := (0,.flag)::s.handlers, signals := s.signals+1}
  | .handle => s.handle n
  | .main => if s.handlers = [] then s.mainStep n else none
  | .thread i =>
    if i < n then (threadStep (s.servers i)).map fun l => s.put i l s.main else none
  | .accepted i =>
    if i < n ∧ (s.servers i).thread = .accept ∧ (s.servers i).sock = .listening then
      some (s.put i ((s.servers i).goto .test) s.main)
    else none

end State

/-- What is always true of a server. -/
structure Fine (l : Listener) : Prop where
  order : l.sock ≠ .listening → l.dorun = false
  linked : l.unix = false ∨ l.thread = .done → l.linked = false
  leaving : l.thread = .unlink ∨ l.thread = .done → l.dorun = false
  deleted : l.deleted = true → l.thread = .done ∧ l.sock = .closed

namespace Fine
variable {l l' : Listener}

theorem init (unix : Bool) : Fine {unix := unix} where
  order h := absurd rfl h
  linked h := h.elim id nofun
  leaving h := h.elim nofun nofun
  deleted := nofun

theorem stop (hl : Fine l) (hflag : phase ≠ .flag → l.dorun = false) : Fine (l.stop phase) := by
  cases phase with
  | flag => exact ⟨fun _ => rfl,hl.linked,fun _ => rfl,hl.deleted⟩
  | shutdown =>
    have hrun := hflag nofun
    refine ⟨fun _ => hrun,hl.linked,hl.leaving,fun h => ⟨(hl.deleted h).1,?_⟩⟩
    have hclosed := (hl.deleted h).2
    simp only [Listener.stop,hclosed]
    rfl
  | close => exact ⟨fun _ => hflag nofun,hl.linked,hl.leaving,fun h => ⟨(hl.deleted h).1,rfl⟩⟩

theorem delete (hl : Fine l) (hdone : l.thread = .done) :
    Fine l.destroy :=
  ⟨fun _ => hl.leaving (Or.inr hdone),hl.linked,hl.leaving,fun _ => ⟨hdone,rfl⟩⟩

theorem threadStep (hl : Fine l) (h : State.threadStep l = some l') : Fine l' := by
  have hdeleted : l.thread ≠ .done → l.deleted = true → False := fun hne h => hne (hl.deleted h).1
  unfold State.threadStep at h
  cases hat : l.thread with
  | absent | done =>
    simp only [hat] at h
    cases h
  | test =>
    have hnot := hdeleted (by rw [hat]; nofun)
    simp only [hat] at h
    split_ifs at h with hrun hunix
    · obtain rfl := Option.some.inj h
      exact ⟨hl.order,fun h => hl.linked (h.imp_right nofun),nofun,fun h => (hnot h).elim⟩
    · obtain rfl := Option.some.inj h
      exact ⟨hl.order,fun h => hl.linked (h.imp_right nofun),fun _ => Bool.eq_false_iff.mpr hrun,
        fun h => (hnot h).elim⟩
    · obtain rfl := Option.some.inj h
      exact ⟨hl.order,fun _ => hl.linked (Or.inl (by simpa using hunix)),fun _ => Bool.eq_false_iff.mpr hrun,
        fun h => (hnot h).elim⟩
  | accept =>
    have hnot := hdeleted (by rw [hat]; nofun)
    simp only [hat] at h
    split_ifs at h with hlistening
    obtain rfl := Option.some.inj h
    exact ⟨hl.order,fun h => hl.linked (h.imp_right nofun),nofun,fun h => (hnot h).elim⟩
  | unlink =>
    simp only [hat] at h
    obtain rfl := Option.some.inj h
    exact ⟨hl.order,fun _ => rfl,fun _ => hl.leaving (Or.inl hat),
      fun h => (hdeleted (by rw [hat]; nofun) h).elim⟩

/-- The thread starts, or `accept` returns to it. -/
theorem test (hl : Fine l) (h : l.thread = .absent ∨ l.thread = .accept) :
    Fine (l.goto .test) where
  order := hl.order
  linked h' := hl.linked (h'.imp_right nofun)
  leaving h' := h'.elim nofun nofun
  deleted h' := by
    rcases h with hat | hat
    · cases hat.symm.trans (hl.deleted h').1
    · cases hat.symm.trans (hl.deleted h').1

end Fine

/-- The servers that are still to be started, and those that have been joined. -/
def Main.before : Main → ℕ → Prop
  | .start i,j => i ≤ j
  | _,_ => False

def Main.behind : Main → ℕ → Prop
  | .start _,_ => False
  | .join i,j => j < i
  | .delete i _,j => j < i
  | .returned,_ => True

/-- What is true of server `j` of `n`, wherever the main thread and the handlers are. -/
structure Good (n : ℕ) (main : Main) (handlers : List (ℕ × Phase)) (signals j : ℕ) (l : Listener) :
    Prop where
  fine : Fine l
  absent : j < n → (l.thread = .absent ↔ main.before j)
  joined : j < n → main.behind j → l.deleted = true
  deleting : ∀ phase, main = .delete j phase → l.thread = .done
  handled : ∀ phase, (j,phase) ∈ handlers → phase ≠ .flag → l.dorun = false
  stopping : j < n → l.dorun = false → l.sock = .listening →
    (j,.shutdown) ∈ handlers ∨ main = .delete j .shutdown
  signaled : 0 < signals → j < n → l.dorun = false ∨ ∃ k ∈ handlers, k.1 < j ∨ k = (j,.flag)
  quiet : signals = 0 → l.dorun = true
  once : signals ≤ 1 → handlers ≠ [] → l.deleted = false

structure Inv (n : ℕ) (s : State) : Prop where
  good : ∀ j, Good n s.main s.handlers s.signals j (s.servers j)
  few : s.handlers.length ≤ s.signals
  used : s.signals ≤ 1 → s.used = false

section
variable {n signals i j : ℕ} {main : Main} {handlers : List (ℕ × Phase)} {l l' : Listener}
  {s t : State}

/-- What holds of all servers still does if it does of the one that has changed. -/
theorem forall_update {P : ℕ → Listener → Prop} {servers : ℕ → Listener} (hi : P i l)
    (hothers : ∀ j ≠ i, P j (servers j)) (j : ℕ) : P j (update servers i l j) := by
  by_cases hj : j = i
  · subst hj
    rwa [update_self]
  · rw [update_of_ne hj]
    exact hothers j hj

/-- The thread of a server goes on. -/
theorem Good.thread (h : Good n main handlers signals j l) (hfine : Fine l')
    (hsame : l'.dorun = l.dorun ∧ l'.sock = l.sock ∧ l'.deleted = l.deleted)
    (habsent : l.thread ≠ .absent ∧ l'.thread ≠ .absent) (hdone : l.thread ≠ .done) :
    Good n main handlers signals j l' := by
  obtain ⟨hrun,hsock,hdeleted⟩ := hsame
  refine ⟨hfine,fun hj => ?_,?_,fun phase hmain => absurd (h.deleting phase hmain) hdone,?_,?_,?_,?_,?_⟩
  · exact iff_of_false habsent.2 fun hbefore => habsent.1 ((h.absent hj).mpr hbefore)
  · rw [hdeleted]
    exact h.joined
  · rw [hrun]
    exact h.handled
  · rw [hrun,hsock]
    exact h.stopping
  · rw [hrun]
    exact h.signaled
  · rw [hrun]
    exact h.quiet
  · rw [hdeleted]
    exact h.once

theorem Good.signal (h : Good n main handlers signals j l) :
    Good n main ((0,.flag)::handlers) (signals+1) j l where
  fine := h.fine
  absent := h.absent
  joined := h.joined
  deleting := h.deleting
  handled phase hmem hphase := by
    rcases List.mem_cons.mp hmem with heq | hmem
    · exact absurd (congrArg Prod.snd heq) hphase
    · exact h.handled phase hmem hphase
  stopping hj hrun hsock := (h.stopping hj hrun hsock).imp_left (List.mem_cons_of_mem _)
  signaled _ _ := by
    refine Or.inr ⟨(0,.flag),by simp,?_⟩
    rcases Nat.eq_zero_or_pos j with rfl | hpos
    · exact Or.inr rfl
    · exact Or.inl hpos
  quiet := nofun
  once hsignals _ := by
    have hzero : signals = 0 := by omega
    rw [Bool.eq_false_iff]
    intro hdeleted
    have hrun := h.fine.leaving (Or.inr (h.fine.deleted hdeleted).1)
    cases (h.quiet hzero).symm.trans hrun

theorem stop_same (l : Listener) (phase : Phase) :
    (l.stop phase).thread = l.thread ∧ (l.stop phase).deleted = l.deleted := by
  cases phase <;> exact ⟨rfl,rfl⟩

theorem dorun_stop {phase : Phase} (h : phase ≠ .flag → l.dorun = false) :
    (l.stop phase).dorun = false := by
  cases phase with
  | flag => rfl
  | shutdown | close => exact h nofun

theorem sock_stop {phase : Phase} (h : phase ≠ .flag) : (l.stop phase).sock ≠ .listening := by
  cases phase with
  | flag => exact absurd rfl h
  | shutdown =>
    simp only [Listener.stop]
    split_ifs with hlistening
    · nofun
    · exact hlistening
  | close => nofun

/-- A handler does a statement of `stop` on its server. -/
theorem Good.handle {phase : Phase} (h : Good n main ((i,phase)::handlers) signals i l)
    (hsignals : 0 < signals) :
    Good n main (State.advance (i,phase)::handlers) signals i (l.stop phase) := by
  have hhandled : phase ≠ .flag → l.dorun = false := h.handled phase List.mem_cons_self
  obtain ⟨hthread,hdeleted⟩ := stop_same l phase
  have hrun := dorun_stop hhandled
  refine ⟨h.fine.stop hhandled,?_,?_,?_,fun _ _ _ => hrun,fun _ _ hsock => ?_,fun _ _ => Or.inl hrun,?_,?_⟩
  · rw [hthread]
    exact h.absent
  · rw [hdeleted]
    exact h.joined
  · rw [hthread]
    exact h.deleting
  · cases phase with
    | flag => exact Or.inl List.mem_cons_self
    | shutdown | close => exact absurd hsock (sock_stop nofun)
  · exact fun hzero => absurd hzero (Nat.ne_of_gt hsignals)
  · rw [hdeleted]
    exact fun hone _ => h.once hone nofun

/-- A handler is at another server. -/
theorem Good.handle_ne {phase : Phase} (h : Good n main ((i,phase)::handlers) signals j l)
    (hj : j ≠ i) : Good n main (State.advance (i,phase)::handlers) signals j l where
  fine := h.fine
  absent := h.absent
  joined := h.joined
  deleting := h.deleting
  handled phase' hmem hphase' := by
    rcases List.mem_cons.mp hmem with heq | hmem
    · cases phase with
      | flag | shutdown => exact absurd (congrArg Prod.fst heq) hj
      | close => exact absurd (congrArg Prod.snd heq) hphase'
    · exact h.handled phase' (List.mem_cons_of_mem _ hmem) hphase'
  stopping hlt hrun hsock := by
    refine (h.stopping hlt hrun hsock).imp_left fun hmem => ?_
    rcases List.mem_cons.mp hmem with heq | hmem
    · exact absurd (congrArg Prod.fst heq) hj
    · exact List.mem_cons_of_mem _ hmem
  signaled hpos hlt := by
    refine (h.signaled hpos hlt).imp_right fun ⟨k,hk,hbefore⟩ => ?_
    rcases List.mem_cons.mp hk with rfl | hk
    · refine ⟨_,List.mem_cons_self,?_⟩
      rcases hbefore with hbefore | heq
      · cases phase with
        | flag | shutdown => exact Or.inl hbefore
        | close =>
          rcases Nat.lt_or_eq_of_le (Nat.succ_le_of_lt hbefore) with hlt | heq
          · exact Or.inl hlt
          · exact Or.inr (Prod.ext heq rfl)
      · exact absurd (congrArg Prod.fst heq).symm hj
    · exact ⟨k,List.mem_cons_of_mem _ hk,hbefore⟩
  quiet := h.quiet
  once hone _ := h.once hone nofun

/-- A handler has come to the end of its loop. -/
theorem Good.handled_all {phase : Phase} (h : Good n main ((i,phase)::handlers) signals j l)
    (hi : n ≤ i) : Good n main handlers signals j l where
  fine := h.fine
  absent := h.absent
  joined := h.joined
  deleting := h.deleting
  handled phase' hmem := h.handled phase' (List.mem_cons_of_mem _ hmem)
  stopping hlt hrun hsock := by
    refine (h.stopping hlt hrun hsock).imp_left fun hmem => ?_
    rcases List.mem_cons.mp hmem with heq | hmem
    · have : j = i := congrArg Prod.fst heq
      omega
    · exact hmem
  signaled hpos hlt := by
    refine (h.signaled hpos hlt).imp_right fun ⟨k,hk,hbefore⟩ => ?_
    rcases List.mem_cons.mp hk with rfl | hk
    · rcases hbefore with hbefore | heq
      · have : i < j := hbefore
        omega
      · have : i = j := congrArg Prod.fst heq
        omega
    · exact ⟨k,hk,hbefore⟩
  quiet := h.quiet
  once hone _ := h.once hone nofun

/-- The main thread goes on, and the server stays as it is. -/
theorem Good.goOn {main' : Main} (h : Good n main [] signals j l)
    (hbefore : j < n → (main'.before j ↔ main.before j))
    (hbehind : j < n → main'.behind j → main.behind j)
    (hdelete : ∀ phase, main' = .delete j phase → l.thread = .done)
    (hstop : main ≠ .delete j .shutdown) : Good n main' [] signals j l where
  fine := h.fine
  absent hlt := (h.absent hlt).trans (hbefore hlt).symm
  joined hlt hmain := h.joined hlt (hbehind hlt hmain)
  deleting := hdelete
  handled := nofun
  stopping hlt hrun hsock := (h.stopping hlt hrun hsock).elim nofun fun hmain => absurd hmain hstop
  signaled := h.signaled
  quiet := h.quiet
  once _ hne := absurd rfl hne

theorem inv_handle (hs : Inv n s) (h : s.handle n = some t) : Inv n t := by
  have hgood := hs.good
  have hfew := hs.few
  unfold State.handle at h
  split at h
  · cases h
  · rename_i i phase rest hhandlers
    rw [hhandlers] at hgood hfew
    rw [List.length_cons] at hfew
    split_ifs at h with hi
    · obtain rfl := Option.some.inj h
      refine ⟨forall_update ?_ fun j hj => (hgood j).handle_ne hj,hfew,fun hone => ?_⟩
      · exact (hgood i).handle (by omega)
      · rw [Bool.or_eq_false_iff]
        exact ⟨hs.used hone,(hgood i).once hone nofun⟩
    · obtain rfl := Option.some.inj h
      exact ⟨fun j => (hgood j).handled_all (by omega),Nat.le_of_succ_le hfew,hs.used⟩

theorem inv_mainStep (hs : Inv n s) (hidle : s.handlers = []) (h : s.mainStep n = some t) :
    Inv n t := by
  have hgood := hs.good
  rw [hidle] at hgood
  have hput : ∀ servers main, (∀ j, Good n main [] s.signals j (servers j)) →
      Inv n {s with servers := servers, main := main} := by
    intro servers main hservers
    exact ⟨by simpa only [hidle] using hservers,hs.few,hs.used⟩
  unfold State.mainStep at h
  cases hmain : s.main with
  | start i =>
    simp only [hmain] at h hgood
    split_ifs at h with hi
    · obtain rfl := Option.some.inj h
      refine hput _ _ (forall_update ?_ fun j hj => ?_)
      · have habsent := ((hgood i).absent hi).mpr (Nat.le_refl i)
        refine ⟨(hgood i).fine.test (Or.inl habsent),fun _ => iff_of_false nofun ?_,nofun,nofun,nofun,
          fun hlt hrun hsock => ?_,(hgood i).signaled,(hgood i).quiet,fun _ hne => absurd rfl hne⟩
        · exact Nat.not_succ_le_self i
        · exact ((hgood i).stopping hlt hrun hsock).elim nofun nofun
      · refine (hgood j).goOn (fun _ => ?_) nofun nofun nofun
        change i+1 ≤ j ↔ i ≤ j
        omega
    · obtain rfl := Option.some.inj h
      refine hput _ _ fun j => (hgood j).goOn (fun hj => ?_) (fun _ => ?_) nofun nofun
      · exact iff_of_false nofun fun hle => hi (Nat.lt_of_le_of_lt hle hj)
      · exact fun hlt => absurd hlt (Nat.not_lt_zero j)
  | join i =>
    simp only [hmain] at h hgood
    split_ifs at h with hi hdone
    · obtain rfl := Option.some.inj h
      refine hput _ _ fun j => (hgood j).goOn (fun _ => Iff.rfl) (fun _ => id) (fun phase heq => ?_) nofun
      cases heq
      exact hdone
    · obtain rfl := Option.some.inj h
      refine hput _ _ fun j => (hgood j).goOn (fun _ => Iff.rfl) (fun hj _ => ?_) nofun nofun
      change j < i
      omega
  | delete i phase =>
    simp only [hmain] at h hgood
    have hdone := (hgood i).deleting phase rfl
    have hrun := (hgood i).fine.leaving (Or.inr hdone)
    cases phase with
    | flag =>
      obtain rfl := Option.some.inj h
      refine hput _ _ (forall_update ?_ fun j hj => ?_)
      · exact ⟨(hgood i).fine.stop fun _ => hrun,(hgood i).absent,(hgood i).joined,fun _ _ => hdone,
          nofun,fun _ _ _ => Or.inr rfl,fun _ _ => Or.inl rfl,
          fun hzero => absurd ((hgood i).quiet hzero) (by simp [hrun]),fun _ hne => absurd rfl hne⟩
      · refine (hgood j).goOn (fun _ => Iff.rfl) (fun _ => id) (fun phase heq => ?_) nofun
        cases heq
        exact absurd rfl hj
    | shutdown =>
      obtain rfl := Option.some.inj h
      refine hput _ _ (forall_update ?_ fun j hj => ?_)
      · exact ⟨(hgood i).fine.stop fun _ => hrun,(hgood i).absent,(hgood i).joined,fun _ _ => hdone,
          nofun,fun _ _ hsock => absurd hsock (sock_stop nofun),fun _ _ => Or.inl hrun,
          (hgood i).quiet,fun _ hne => absurd rfl hne⟩
      · refine (hgood j).goOn (fun _ => Iff.rfl) (fun _ => id) (fun phase heq => ?_) fun heq => ?_
        · cases heq
          exact absurd rfl hj
        · cases heq
          exact absurd rfl hj
    | close =>
      obtain rfl := Option.some.inj h
      refine hput _ _ (forall_update ?_ fun j hj => ?_)
      · exact ⟨(hgood i).fine.delete hdone,(hgood i).absent,fun _ _ => rfl,nofun,
          nofun,nofun,fun _ _ => Or.inl hrun,(hgood i).quiet,fun _ hne => absurd rfl hne⟩
      · refine (hgood j).goOn (fun _ => Iff.rfl) (fun _ hlt => ?_) nofun nofun
        change j < i
        have : j < i+1 := hlt
        omega
  | returned =>
    simp only [hmain] at h
    cases h

/-- What a step of its thread does to a server. -/
theorem threadStep_effect (h : State.threadStep l = some l') :
    (l'.dorun = l.dorun ∧ l'.sock = l.sock ∧ l'.deleted = l.deleted) ∧
      (l.thread ≠ .absent ∧ l'.thread ≠ .absent) ∧ l.thread ≠ .done := by
  unfold State.threadStep at h
  cases hat : l.thread with
  | absent | done =>
    simp only [hat] at h
    cases h
  | test =>
    simp only [hat] at h
    split_ifs at h <;> exact Option.some.inj h ▸ ⟨⟨rfl,rfl,rfl⟩,⟨nofun,nofun⟩,nofun⟩
  | accept =>
    simp only [hat] at h
    split_ifs at h
    exact Option.some.inj h ▸ ⟨⟨rfl,rfl,rfl⟩,⟨nofun,nofun⟩,nofun⟩
  | unlink =>
    simp only [hat] at h
    exact Option.some.inj h ▸ ⟨⟨rfl,rfl,rfl⟩,⟨nofun,nofun⟩,nofun⟩

theorem inv_step (s : State) (e : Event) (t : State) (hs : Inv n s) (h : s.step n e = some t) :
    Inv n t := by
  cases e with
  | signal =>
    obtain rfl := Option.some.inj h
    exact ⟨fun j => (hs.good j).signal,Nat.succ_le_succ hs.few,fun hone => hs.used (Nat.le_of_succ_le hone)⟩
  | handle => exact inv_handle hs h
  | main =>
    simp only [State.step] at h
    split_ifs at h with hidle
    exact inv_mainStep hs hidle h
  | thread i =>
    simp only [State.step] at h
    split_ifs at h with hi
    obtain ⟨l,hl,rfl⟩ := Option.map_eq_some_iff.mp h
    obtain ⟨hsame,habsent,hdone⟩ := threadStep_effect hl
    have hgood := (hs.good i).thread ((hs.good i).fine.threadStep hl) hsame habsent hdone
    exact ⟨forall_update hgood fun j _ => hs.good j,hs.few,hs.used⟩
  | accepted i =>
    simp only [State.step] at h
    split_ifs at h with hi
    obtain rfl := Option.some.inj h
    obtain ⟨-,hat,-⟩ := hi
    have hgood := (hs.good i).thread ((hs.good i).fine.test (Or.inr hat)) ⟨rfl,rfl,rfl⟩
      ⟨by rw [hat]; nofun,nofun⟩ (by rw [hat]; nofun)
    exact ⟨forall_update hgood fun j _ => hs.good j,hs.few,hs.used⟩

theorem inv_start (n : ℕ) (unix : ℕ → Bool) : Inv n (State.start unix) where
  good j := ⟨.init (unix j),fun _ => iff_of_true rfl (Nat.zero_le j),nofun,nofun,nofun,nofun,nofun,
    fun _ => rfl,fun _ hne => absurd rfl hne⟩
  few := Nat.le_refl 0
  used _ := rfl

/-- The steps that a thread can take without a client. -/
def Listener.rank (l : Listener) : ℕ :=
  match l.thread with
  | .absent => 5
  | .test => if l.dorun then 4 else 2
  | .accept => 3
  | .unlink => 1
  | .done => 0

def Phase.rank : Phase → ℕ
  | .flag => 3
  | .shutdown => 2
  | .close => 1

/-- The steps that the main thread can take, and a handler. -/
def Main.rank (n : ℕ) : Main → ℕ
  | .start i => (n-i)+(4*n+2)
  | .join i => 4*(n-i)+1
  | .delete i phase => 4*(n-(i+1))+1+phase.rank
  | .returned => 0

def handlerRank (n : ℕ) (k : ℕ × Phase) : ℕ := if k.1 < n then 3*(n-(k.1+1))+1+k.2.rank else 1

def potential (n : ℕ) (s : State) : ℕ :=
  (∑ j ∈ Finset.range n, (s.servers j).rank)+s.main.rank n+(s.handlers.map (handlerRank n)).sum

def Event.cost : Event → ℕ
  | .handle | .main | .thread _ => 1
  | _ => 0

/-- The work that a signal and a client make. -/
def Event.gain (n : ℕ) : Event → ℕ
  | .signal => 3*n+1
  | .accepted _ => 1
  | _ => 0

theorem sum_update (servers : ℕ → Listener) (l : Listener) (hi : i < n) :
    (∑ j ∈ Finset.range n, (update servers i l j).rank)+(servers i).rank =
      (∑ j ∈ Finset.range n, (servers j).rank)+l.rank := by
  have hmem := Finset.mem_range.mpr hi
  rw [← Finset.add_sum_erase _ _ hmem,← Finset.add_sum_erase _ (fun j => (servers j).rank) hmem,
    update_self]
  have hrest : ∑ j ∈ (Finset.range n).erase i, (update servers i l j).rank =
      ∑ j ∈ (Finset.range n).erase i, (servers j).rank := by
    apply Finset.sum_congr rfl
    intro j hj
    rw [update_of_ne (Finset.ne_of_mem_erase hj)]
  omega

theorem sum_update_le {servers : ℕ → Listener} (h : l.rank ≤ (servers i).rank) :
    (∑ j ∈ Finset.range n, (update servers i l j).rank) ≤ ∑ j ∈ Finset.range n, (servers j).rank := by
  apply Finset.sum_le_sum
  intro j _
  by_cases hj : j = i
  · subst hj
    rwa [update_self]
  · rw [update_of_ne hj]

theorem rank_stop (l : Listener) (phase : Phase) : (l.stop phase).rank ≤ l.rank := by
  cases phase with
  | flag =>
    simp only [Listener.rank,Listener.stop]
    cases l.thread <;> simp
    split_ifs <;> omega
  | shutdown | close => exact Nat.le_refl _

theorem rank_test (l : Listener) : (l.goto .test).rank ≤ 4 := by
  change (if l.dorun then 4 else 2) ≤ 4
  split_ifs <;> omega

theorem rank_threadStep (hl : Fine l) (h : State.threadStep l = some l') : 1+l'.rank ≤ l.rank := by
  unfold State.threadStep at h
  cases hat : l.thread with
  | absent | done =>
    simp only [hat] at h
    cases h
  | test =>
    simp only [hat] at h
    split_ifs at h with hrun hunix <;> obtain rfl := Option.some.inj h <;> simp [Listener.goto,Listener.rank,hat,hrun]
  | accept =>
    simp only [hat] at h
    split_ifs at h with hlistening
    obtain rfl := Option.some.inj h
    simp [Listener.goto,Listener.rank,hat,hl.order hlistening]
  | unlink =>
    simp only [hat] at h
    obtain rfl := Option.some.inj h
    simp [Listener.rank,hat]

theorem handlerRank_advance (phase : Phase) (hi : i < n) :
    1+handlerRank n (State.advance (i,phase)) ≤ handlerRank n (i,phase) := by
  cases phase with
  | flag | shutdown => simp [handlerRank,State.advance,Phase.rank,hi]; omega
  | close =>
    by_cases hlast : i+1 < n
    · simp [handlerRank,State.advance,Phase.rank,hi,hlast]
      omega
    · simp [handlerRank,State.advance,Phase.rank,hi,hlast]

theorem potential_handle (h : s.handle n = some t) : 1+potential n t ≤ potential n s := by
  unfold State.handle at h
  split at h
  · cases h
  · rename_i i phase rest hhandlers
    split_ifs at h with hi
    · obtain rfl := Option.some.inj h
      have hsum := sum_update_le (n := n) (rank_stop (s.servers i) phase)
      have hadvance := handlerRank_advance phase hi
      simp only [potential,hhandlers,List.map_cons,List.sum_cons]
      omega
    · obtain rfl := Option.some.inj h
      have hend : handlerRank n (i,phase) = 1 := if_neg hi
      simp only [potential,hhandlers,List.map_cons,List.sum_cons,hend]
      omega

theorem potential_mainStep (hs : Inv n s) (h : s.mainStep n = some t) :
    1+potential n t ≤ potential n s := by
  unfold State.mainStep at h
  cases hmain : s.main with
  | start i =>
    simp only [hmain] at h
    split_ifs at h with hi
    · obtain rfl := Option.some.inj h
      have habsent : (s.servers i).thread = .absent :=
        ((hs.good i).absent hi).mpr (by rw [hmain]; exact Nat.le_refl i)
      have hfive : (s.servers i).rank = 5 := by simp only [Listener.rank,habsent]
      have hle : ((s.servers i).goto .test).rank ≤ (s.servers i).rank := by
        rw [hfive]
        exact Nat.le_succ_of_le (rank_test _)
      have hsum := sum_update_le (n := n) hle
      simp only [potential,State.put,hmain,Main.rank]
      omega
    · obtain rfl := Option.some.inj h
      simp only [potential,hmain,Main.rank]
      omega
  | join i =>
    simp only [hmain] at h
    split_ifs at h with hi hdone
    · obtain rfl := Option.some.inj h
      simp only [potential,hmain,Main.rank,Phase.rank]
      omega
    · obtain rfl := Option.some.inj h
      simp only [potential,hmain,Main.rank]
      omega
  | delete i phase =>
    simp only [hmain] at h
    have hsum := sum_update_le (n := n) (rank_stop (s.servers i) phase)
    cases phase with
    | flag | shutdown =>
      obtain rfl := Option.some.inj h
      simp only [potential,State.put,hmain,Main.rank,Phase.rank]
      omega
    | close =>
      obtain rfl := Option.some.inj h
      have hle : (s.servers i).destroy.rank ≤ (s.servers i).rank := Nat.le_refl _
      have hsum := sum_update_le (n := n) hle
      simp only [potential,State.put,hmain,Main.rank,Phase.rank]
      omega
  | returned =>
    simp only [hmain] at h
    cases h

theorem potential_step (s : State) (e : Event) (t : State) (hs : Inv n s) (h : s.step n e = some t) :
    e.cost+potential n t ≤ e.gain n+potential n s := by
  cases e with
  | signal =>
    obtain rfl := Option.some.inj h
    have hrank : handlerRank n (0,.flag) ≤ 3*n+1 := by
      simp only [handlerRank,Phase.rank]
      split_ifs <;> omega
    simp only [potential,Event.cost,Event.gain,List.map_cons,List.sum_cons]
    omega
  | handle =>
    have := potential_handle h
    simp only [Event.cost,Event.gain]
    omega
  | main =>
    simp only [State.step] at h
    split_ifs at h
    have := potential_mainStep hs h
    simp only [Event.cost,Event.gain]
    omega
  | thread i =>
    simp only [State.step] at h
    split_ifs at h with hi
    obtain ⟨l,hl,rfl⟩ := Option.map_eq_some_iff.mp h
    have hrank := rank_threadStep (hs.good i).fine hl
    have hsum := sum_update s.servers l hi
    simp only [potential,State.put,Event.cost,Event.gain]
    omega
  | accepted i =>
    simp only [State.step] at h
    split_ifs at h with hi
    obtain rfl := Option.some.inj h
    obtain ⟨hlt,hat,-⟩ := hi
    have hthree : (s.servers i).rank = 3 := by simp only [Listener.rank,hat]
    have hrank := rank_test (s.servers i)
    have hsum := sum_update s.servers ((s.servers i).goto .test) hlt
    simp only [potential,State.put,Event.cost,Event.gain]
    omega

/-- All threads wait for clients, and the main thread for the first of them. -/
structure Serves (n : ℕ) (s : State) : Prop where
  main : s.main = .join 0
  threads : ∀ j < n, (s.servers j).thread = .accept ∧ (s.servers j).sock = .listening

/-- `Server::main` has returned; nothing is left of the servers. -/
structure Stopped (n : ℕ) (s : State) : Prop where
  main : s.main = .returned
  servers : ∀ j < n, (s.servers j).thread = .done ∧ (s.servers j).deleted = true ∧
    (s.servers j).sock = .closed ∧ (s.servers j).linked = false

/-- A thread that can do nothing has not started, waits for a client, or has come to its end. -/
theorem threadStep_eq_none (h : State.threadStep l = none) :
    l.thread = .absent ∨ (l.thread = .accept ∧ l.sock = .listening) ∨ l.thread = .done := by
  unfold State.threadStep at h
  cases hat : l.thread with
  | absent => exact Or.inl rfl
  | test =>
    simp only [hat] at h
    split_ifs at h
  | accept =>
    simp only [hat] at h
    split_ifs at h with hlistening
    exact Or.inr (Or.inl ⟨rfl,hlistening⟩)
  | unlink =>
    simp only [hat] at h
    cases h
  | done => exact Or.inr (Or.inr rfl)

/-- Where nothing happens without a signal or a client, the server serves, or it has been stopped. -/
theorem rest (hn : 0 < n) (hs : Inv n s) (hrest : ∀ e, e.cost = 1 → s.step n e = none) :
    (s.signals = 0 → Serves n s) ∧ (0 < s.signals → Stopped n s) := by
  have hidle : s.handlers = [] := by
    have hhandle := hrest .handle rfl
    simp only [State.step,State.handle] at hhandle
    split at hhandle
    · assumption
    · split_ifs at hhandle
  have hgood := hs.good
  rw [hidle] at hgood
  have hmain : s.mainStep n = none := by
    have := hrest .main rfl
    rwa [State.step,if_pos hidle] at this
  have hthread : ∀ j < n, State.threadStep (s.servers j) = none := by
    intro j hj
    have := hrest (.thread j) rfl
    rw [State.step,if_pos hj] at this
    exact Option.map_eq_none_iff.mp this
  have hquiet : ∀ j < n, s.signals = 0 → (s.servers j).thread ≠ .done := by
    intro j _ hzero hdone
    cases ((hgood j).quiet hzero).symm.trans ((hgood j).fine.leaving (Or.inr hdone))
  have hstopped : ∀ j < n, 0 < s.signals → (s.servers j).dorun = false := fun j hj hpos =>
    ((hgood j).signaled hpos hj).elim id fun ⟨_,hk,_⟩ => nomatch hk
  unfold State.mainStep at hmain
  cases hat : s.main with
  | start i =>
    simp only [hat] at hmain
    split_ifs at hmain
  | join i =>
    simp only [hat] at hmain hgood
    split_ifs at hmain with hi hdone
    have hpresent : ∀ j < n, (s.servers j).thread ≠ .absent := fun j hj habsent =>
      ((hgood j).absent hj).mp habsent
    constructor
    · intro hzero
      have hfirst : i = 0 := by
        by_contra hne
        have hdeleted := (hgood 0).joined hn (Nat.pos_of_ne_zero hne)
        exact hquiet 0 hn hzero ((hgood 0).fine.deleted hdeleted).1
      refine ⟨by rw [hat,hfirst],fun j hj => ?_⟩
      rcases threadStep_eq_none (hthread j hj) with habsent | haccept | hend
      · exact absurd habsent (hpresent j hj)
      · exact haccept
      · exact absurd hend (hquiet j hj hzero)
    · intro hpos
      rcases threadStep_eq_none (hthread i hi) with habsent | ⟨-,hlistening⟩ | hend
      · exact absurd habsent (hpresent i hi)
      · exact ((hgood i).stopping hi (hstopped i hi hpos) hlistening).elim nofun nofun
      · exact absurd hend hdone
  | delete i phase =>
    simp only [hat] at hmain
    cases phase <;> cases hmain
  | returned =>
    simp only [hat] at hgood
    have hdeleted : ∀ j < n, (s.servers j).deleted = true := fun j hj => (hgood j).joined hj trivial
    constructor
    · intro hzero
      exact absurd ((hgood 0).fine.deleted (hdeleted 0 hn)).1 (hquiet 0 hn hzero)
    · intro _
      refine ⟨hat,fun j hj => ?_⟩
      obtain ⟨hdone,hclosed⟩ := (hgood j).fine.deleted (hdeleted j hj)
      exact ⟨hdone,hdeleted j hj,hclosed,(hgood j).fine.linked (Or.inr hdone)⟩

/-- In every run of a server with `n` sockets: the threads and the handlers take a bounded number of
steps for each signal and each client. Once they can take none, all threads wait for clients if there
was no signal; and if there was one, `Server::main` has returned, all threads have ended, and all
sockets are closed and their files removed. With one signal, no server is used after it was deleted. -/
theorem run_shutdown (unix : ℕ → Bool) (hn : 0 < n) (es : List Event) (s : State)
    (h : run (State.step n) (State.start unix) es = some s) :
    (es.map Event.cost).sum ≤ (es.map (Event.gain n)).sum+(10*n+2) ∧
    ((∀ e, e.cost = 1 → s.step n e = none) →
      (s.signals = 0 → Serves n s) ∧ (0 < s.signals → Stopped n s)) ∧
    (s.signals ≤ 1 → s.used = false) := by
  have hs := run_invariant inv_step (inv_start n unix) h
  have hsum := run_potential inv_step potential_step (inv_start n unix) h
  have hstart : potential n (State.start unix) = 10*n+2 := by
    have hsum : ∑ j ∈ Finset.range n, ((State.start unix).servers j).rank = n*5 :=
      (Finset.sum_const_nat fun _ _ => rfl).trans (by rw [Finset.card_range])
    simp only [potential,hsum]
    simp only [State.start,Main.rank,List.map_nil,List.sum_nil]
    omega
  exact ⟨by omega,rest hn hs,hs.used⟩

theorem step_thread_of_le (s : State) (hi : n ≤ i) : s.step n (.thread i) = none :=
  if_neg (Nat.not_lt.mpr hi)

/-- A signal, with its handler in a server with `n` sockets. -/
def stopAll (n : ℕ) : List Event := .signal::.replicate (3*n+1) .handle

/-- A unix domain socket and another one; a client connects to the first, and the server is stopped. -/
def evening : List Event :=
  [.main,.main,.main,.thread 0,.thread 1,.accepted 0,.thread 0] ++ stopAll 2 ++
    [.thread 0,.thread 0,.thread 0,.thread 1,.thread 1] ++ .replicate 9 .main

theorem run_shutdown_evening : ∃ s : State,
    run (State.step 2) (State.start fun i => i = 0) evening = some s ∧ Stopped 2 s := by
  refine ⟨_,rfl,((run_shutdown (fun i => i = 0) (by decide) evening _ rfl).2.1 fun e he => ?_).2 (by decide)⟩
  match e with
  | .handle | .main | .thread 0 | .thread 1 => rfl
  | .thread (i+2) => exact step_thread_of_le _ (Nat.le_add_left 2 i)

/-- With a second signal, a server is used after it was deleted. -/
example : (run (State.step 1) (State.start fun _ => false) ([.main,.main,.thread 0] ++ stopAll 1 ++
    [.thread 0,.thread 0] ++ .replicate 4 .main ++ [.signal,.handle])).map State.used = some true := rfl

end
end CodecServer.Server.Shutdown
