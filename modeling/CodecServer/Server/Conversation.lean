import CodecServer.Server.ReaderLoop

/-! What a client sees on its connection, over any number of sessions: the responses of the main loop
and the output of the readers. The output of a session is never seen after the answer to the request
that has replaced it, and it is what has been delivered to the channel of the session, in order. -/
namespace CodecServer.Server.Conversation
open Function CodecServer.Transition CodecServer.Ambe3K CodecServer.Ambe3K.Protocol
open CodecServer.Server.ReaderLoop

/-- A message that has been sent, with the number of the last request that was processed before a
response, or of the request that the session of a reader was started for. -/
inductive Frame
  | response (number : ℕ)
  | output (number : ℕ) (payload : List Byte)
  deriving DecidableEq

def Frame.number : Frame → ℕ
  | .response number => number
  | .output number _ => number

/-- The payload of a frame that the reader of a session has sent. -/
def Frame.outputOf (n : ℕ) : Frame → Option (List Byte)
  | .response _ => none
  | .output number payload => if number = n then some payload else none

/-- The connection; the number of requests so far, and of the one that the last session was started
for; the payloads delivered to the channel of each session, and the frames sent. -/
structure State where
  connection : ReaderLoop.State := {}
  requests : ℕ := 0
  session : ℕ := 0
  delivered : ℕ → List (List Byte) := fun _ => []
  frames : List Frame := []

namespace State

/-- The requests are counted where a device is asked for a session. -/
def start (s : State) (found : Bool) : State :=
  {s with requests := s.requests+1, session := if found then s.requests+1 else s.session}

def respond (s : State) (sent : Bool) : State :=
  if sent then {s with frames := s.frames ++ [.response s.requests]} else s

def send (s : State) (sent : Bool) : State :=
  match s.connection.reader with
  | some (.send payload) =>
    if sent then {s with frames := s.frames ++ [.output s.session payload]} else s
  | _ => s

/-- A payload gets to the session as long as its channel has a queue. -/
def deliver (s : State) (payload : List Byte) : State :=
  match s.connection.session with
  | some (.filling _) =>
    { s with
      delivered := update s.delivered s.session (s.delivered s.session ++ [payload]) }
  | _ => s

/-- What an event adds to the record. -/
def record (s : State) : Event → State
  | .start found => s.start found
  | .respond sent => s.respond sent
  | .send sent => s.send sent
  | .deliver payload => s.deliver payload
  | _ => s

def step (s : State) (e : Event) : Option State :=
  (s.connection.step e).map fun connection => {s.record e with connection := connection}

/-- What the client has got of a session. -/
def outputs (s : State) (n : ℕ) : List (List Byte) := s.frames.filterMap (Frame.outputOf n)

end State

/-- The payload that the reader has read and not sent yet. -/
def inHand : Option Reader → List (List Byte)
  | some (.returned payload) => if payload = [] then [] else [payload]
  | some (.send payload) => [payload]
  | _ => []

/-- The reader will not read anymore. -/
def Leaving (c : ReaderLoop.State) : Prop :=
  (c.reader = some .test ∧ c.run = false) ∨ c.reader = some .done ∨ c.reader = some (.returned [])

/-- Where the threads of the connection are. -/
structure Threads (c : ReaderLoop.State) : Prop where
  reader : c.session = none ↔ c.reader = none
  start : c.main = .start → c.session = none
  closed : c.main = .closed → c.session = none

/-- The numbers, and the frames that bear them. -/
structure Numbered (s : State) : Prop where
  current : s.connection.session ≠ none → s.session = s.requests
  le : s.session ≤ s.requests
  sorted : (s.frames.map Frame.number).Pairwise (· ≤ ·)
  last : ∀ n ∈ s.frames.map Frame.number, n ≤ s.requests
  fresh : ∀ n, s.requests < n → s.delivered n = []

/-- The client has got what was delivered, in order; what the reader has in hand comes next, and then
what is in the queue. -/
structure Flow (s : State) : Prop where
  inOrder : ∀ n, s.outputs n <+: s.delivered n
  next : s.connection.session ≠ none →
    s.outputs s.session ++ inHand s.connection.reader <+: s.delivered s.session
  all : ∀ queue, s.connection.session = some (.filling queue) → ¬ Leaving s.connection →
    s.outputs s.session ++ (inHand s.connection.reader ++ queue.items) = s.delivered s.session

structure Inv (s : State) : Prop where
  threads : Threads s.connection
  numbered : Numbered s
  flow : Flow s

theorem inv_init : Inv {} where
  threads := ⟨iff_of_true rfl rfl,fun _ => rfl,fun _ => rfl⟩
  numbered := ⟨fun h => absurd rfl h,Nat.le_refl _,List.Pairwise.nil,nofun,fun _ _ => rfl⟩
  flow := ⟨fun _ => List.prefix_rfl,fun h => absurd rfl h,nofun⟩

section
variable {s : State} {c c' : ReaderLoop.State}

theorem clear_threads (c : ReaderLoop.State) (cause : Cause) :
    (c.clear cause).session = c.session ∧ (c.clear cause).reader = c.reader ∧
      (c.clear cause).main = c.main ∧ (c.clear cause).run = false := by
  unfold ReaderLoop.State.clear
  split_ifs with hrun
  · exact ⟨rfl,rfl,rfl,rfl⟩
  · exact ⟨rfl,rfl,rfl,Bool.eq_false_iff.mpr hrun⟩

/-- Without a new session, and without a payload that is read, sent or delivered, the record is still
right. -/
structure Keeps (c c' : ReaderLoop.State) : Prop where
  session : c'.session ≠ none → c.session ≠ none
  filling : ∀ queue, c'.session = some (.filling queue) → c.session = some (.filling queue)
  hand : inHand c'.reader = inHand c.reader
  leaving : c'.session ≠ none → Leaving c → Leaving c'

theorem Keeps.refl (c : ReaderLoop.State) : Keeps c c := ⟨id,fun _ => id,rfl,fun _ => id⟩

theorem keeps_setMain (c : ReaderLoop.State) (m : Main) : Keeps c {c with main := m} :=
  ⟨id,fun _ => id,rfl,fun _ => id⟩

theorem keeps_clear (c : ReaderLoop.State) (cause : Cause) : Keeps c (c.clear cause) := by
  obtain ⟨hsession,hreader,-,hrun⟩ := clear_threads c cause
  refine ⟨fun h => hsession ▸ h,fun queue h => hsession ▸ h,by rw [hreader],fun _ => ?_⟩
  rw [Leaving,Leaving,hreader,hrun]
  exact Or.imp_left fun h => ⟨h.1,rfl⟩

theorem flow_of_keeps (hs : Flow s) (h : Keeps s.connection c') : Flow {s with connection := c'} where
  inOrder := hs.inOrder
  next hsession := by
    simp only [h.hand]
    exact hs.next (h.session hsession)
  all queue hqueue hleaving := by
    have hsession : c'.session ≠ none := by
      rw [show c'.session = _ from hqueue]
      nofun
    simp only [h.hand]
    exact hs.all queue (h.filling queue hqueue) (mt (h.leaving hsession) hleaving)

theorem numbered_of_session (hs : Numbered s)
    (h : c'.session ≠ none → s.connection.session ≠ none) : Numbered {s with connection := c'} :=
  ⟨fun hsession => hs.current (h hsession),hs.le,hs.sorted,hs.last,hs.fresh⟩

/-- Nothing new is on record. -/
theorem inv_of_keeps (hs : Inv s) (hthreads : Threads c') (h : Keeps s.connection c') :
    Inv {s with connection := c'} :=
  ⟨hthreads,numbered_of_session hs.numbered h.session,flow_of_keeps hs.flow h⟩

theorem threads_setMain (hc : Threads c) {m : Main} (hstart : m ≠ .start) (hclosed : m ≠ .closed) :
    Threads {c with main := m} :=
  ⟨hc.reader,fun h => absurd h hstart,fun h => absurd h hclosed⟩

theorem threads_clear (hc : Threads c) (cause : Cause) : Threads (c.clear cause) := by
  obtain ⟨hsession,hreader,hmain,-⟩ := clear_threads c cause
  refine ⟨?_,?_,?_⟩
  · rw [hsession,hreader]
    exact hc.reader
  · rw [hsession,hmain]
    exact hc.start
  · rw [hsession,hmain]
    exact hc.closed

/-- The session is replaced by another state of its queue, or the reader goes on. -/
theorem threads_of_some (hc : Threads c) (hmain : c'.main = c.main)
    (hsession : c'.session = none ↔ c.session = none) (hreader : c'.reader = none ↔ c.reader = none) :
    Threads c' := by
  refine ⟨?_,?_,?_⟩
  · rw [hsession,hreader]
    exact hc.reader
  · rw [hmain,hsession]
    exact hc.start
  · rw [hmain,hsession]
    exact hc.closed

theorem keeps_mainStep (hc : Threads c) (h : c.mainStep = some c') : Threads c' ∧ Keeps c c' := by
  unfold ReaderLoop.State.mainStep at h
  cases hmain : c.main with
  | test =>
    simp only [hmain] at h
    obtain rfl := Option.some.inj h
    refine ⟨threads_setMain hc ?_ ?_,keeps_setMain c _⟩
    · split_ifs
      · intro h
        cases h
      · intro h
        cases h
    · split_ifs
      · intro h
        cases h
      · intro h
        cases h
  | process message =>
    cases message with
    | renegotiation settings =>
      simp only [hmain] at h
      split_ifs at h
      obtain rfl := Option.some.inj h
      exact ⟨threads_setMain hc nofun nofun,keeps_setMain c _⟩
    | request codec settings | check codec | channelData data | speechData data =>
      simp only [hmain] at h
      obtain rfl := Option.some.inj h
      exact ⟨threads_setMain hc nofun nofun,keeps_setMain c _⟩
  | stop caller =>
    simp only [hmain] at h
    obtain rfl := Option.some.inj h
    unfold ReaderLoop.State.stop
    split
    · rename_i hnone
      exact ⟨⟨hc.reader,fun _ => hnone,fun _ => hnone⟩,keeps_setMain c _⟩
    · rename_i hnone
      exact ⟨⟨hc.reader,fun _ => hnone,fun _ => hnone⟩,keeps_setMain c _⟩
    · exact ⟨threads_setMain hc nofun nofun,keeps_setMain c _⟩
    · rename_i queue _ _ hsome
      refine ⟨⟨?_,nofun,nofun⟩,⟨fun _ => by rw [hsome]; nofun,nofun,rfl,fun _ => id⟩⟩
      rw [← hc.reader,hsome]
      exact ⟨nofun,nofun⟩
  | join caller =>
    simp only [hmain,ReaderLoop.State.join] at h
    split_ifs at h with hdone
    obtain rfl := Option.some.inj h
    refine ⟨⟨iff_of_true rfl rfl,fun _ => rfl,fun _ => rfl⟩,
      ⟨fun h => absurd rfl h,fun queue h => ?_,by rw [hdone]; rfl,fun h => absurd rfl h⟩⟩
    cases h
  | receive | start | respond | closed =>
    simp only [hmain] at h
    cases h

theorem keeps_receive {received : Received} (hc : Threads c) (h : c.receive received = some c') :
    Threads c' ∧ Keeps c c' := by
  unfold ReaderLoop.State.receive at h
  split_ifs at h
  cases received with
  | null =>
    obtain rfl := Option.some.inj h
    have hkeeps := keeps_clear c .disconnected
    exact ⟨threads_setMain (threads_clear hc _) nofun nofun,
      ⟨hkeeps.session,hkeeps.filling,hkeeps.hand,hkeeps.leaving⟩⟩
  | unexpected | message message =>
    obtain rfl := Option.some.inj h
    exact ⟨threads_setMain hc nofun nofun,keeps_setMain c _⟩

theorem keeps_remove (hc : Threads c) : Threads c.remove ∧ Keeps c c.remove := by
  unfold ReaderLoop.State.remove
  split
  · rename_i queue hsession
    refine ⟨threads_of_some hc rfl ?_ Iff.rfl,⟨fun _ => by rw [hsession]; nofun,nofun,rfl,fun _ => id⟩⟩
    rw [hsession]
    exact ⟨nofun,nofun⟩
  · exact ⟨hc,.refl c⟩

/-- A request has been processed, with a session or without. -/
theorem inv_start {found : Bool} (hs : Inv s) (h : s.connection.start found = some c') :
    Inv {s.start found with connection := c'} := by
  unfold ReaderLoop.State.start at h
  split_ifs at h with hmain hfound
  · obtain rfl := Option.some.inj h
    subst hfound
    have hnone : s.outputs (s.requests+1) = [] := by
      have hprefix := hs.flow.inOrder (s.requests+1)
      rw [hs.numbered.fresh _ (Nat.lt_succ_self _)] at hprefix
      exact List.prefix_nil.mp hprefix
    refine ⟨⟨⟨nofun,nofun⟩,nofun,nofun⟩,⟨fun _ => rfl,Nat.le_refl _,hs.numbered.sorted,?_,?_⟩,
      ⟨hs.flow.inOrder,fun _ => ?_,fun queue hqueue _ => ?_⟩⟩
    · exact fun n hn => Nat.le_succ_of_le (hs.numbered.last n hn)
    · exact fun n hn => hs.numbered.fresh n (Nat.lt_of_succ_lt hn)
    · exact (List.append_nil _).symm ▸ hs.flow.inOrder (s.requests+1)
    · cases hqueue
      change s.outputs (s.requests+1) ++ [] = s.delivered (s.requests+1)
      rw [hnone,hs.numbered.fresh _ (Nat.lt_succ_self _)]
      rfl
  · obtain rfl := Option.some.inj h
    rw [Bool.not_eq_true] at hfound
    subst hfound
    have hnone := hs.threads.start hmain
    refine ⟨threads_setMain hs.threads nofun nofun,
      ⟨fun h => absurd hnone h,Nat.le_succ_of_le hs.numbered.le,hs.numbered.sorted,?_,?_⟩,
      ⟨hs.flow.inOrder,hs.flow.next,hs.flow.all⟩⟩
    · exact fun n hn => Nat.le_succ_of_le (hs.numbered.last n hn)
    · exact fun n hn => hs.numbered.fresh n (Nat.lt_of_succ_lt hn)

/-- A frame with a number that is not behind the last one. -/
theorem numbered_frame (hs : Numbered s) {frame : Frame} (hlast : frame.number = s.requests)
    (h : c'.session ≠ none → s.connection.session ≠ none) :
    Numbered {s with connection := c',frames := s.frames ++ [frame]} where
  current hsession := hs.current (h hsession)
  le := hs.le
  sorted := by
    rw [List.map_append]
    refine List.pairwise_append.mpr ⟨hs.sorted,List.pairwise_singleton _ _,fun n hn m hm => ?_⟩
    rw [List.mem_singleton.mp hm,hlast]
    exact hs.last n hn
  last n hn := by
    rw [List.map_append] at hn
    rcases List.mem_append.mp hn with hn | hn
    · exact hs.last n hn
    · rw [List.mem_singleton.mp hn,hlast]
  fresh := hs.fresh

theorem outputs_frame (s : State) (frame : Frame) (n : ℕ) :
    State.outputs {s with frames := s.frames ++ [frame]} n = s.outputs n ++ (frame.outputOf n).toList := by
  rw [State.outputs,List.filterMap_append]
  cases hout : frame.outputOf n <;> simp [State.outputs,hout]

theorem inv_respond {sent : Bool} (hs : Inv s) (h : s.connection.respond sent = some c') :
    Inv {s.respond sent with connection := c'} := by
  unfold ReaderLoop.State.respond at h
  split_ifs at h with hmain hsent
  · obtain rfl := Option.some.inj h
    subst hsent
    have hsame : ∀ n, State.outputs {s with frames := s.frames ++ [.response s.requests]} n = s.outputs n :=
      fun n => (outputs_frame s _ n).trans (List.append_nil _)
    refine ⟨threads_setMain hs.threads nofun nofun,numbered_frame hs.numbered rfl id,?_,?_,?_⟩
    · exact fun n => hsame n ▸ hs.flow.inOrder n
    · intro hsession
      have hnext := hs.flow.next hsession
      rw [← hsame] at hnext
      exact hnext
    · intro queue hqueue hleaving
      have hall := hs.flow.all queue hqueue hleaving
      rw [← hsame] at hall
      exact hall
  · obtain rfl := Option.some.inj h
    rw [Bool.not_eq_true] at hsent
    subst hsent
    have hkeeps : Keeps s.connection {s.connection with main := .stop .leaving,failed := true} :=
      ⟨id,fun _ => id,rfl,fun _ => id⟩
    have hthreads : Threads {s.connection with main := .stop .leaving,failed := true} :=
      ⟨hs.threads.reader,nofun,nofun⟩
    exact inv_of_keeps hs hthreads hkeeps

/-- The reader goes on within its session. -/
theorem threads_setReader (hc : Threads c) {r : Reader} (h : c.reader ≠ none) :
    Threads {c with reader := some r} :=
  ⟨iff_of_false (mt hc.reader.mp h) nofun,hc.start,hc.closed⟩

/-- A payload goes from the queue to the reader. -/
theorem inv_read (hs : Inv s) (hread : s.connection.reader = some .read)
    (h : s.connection.read = some c') : Inv {s with connection := c'} := by
  have hreader : s.connection.reader ≠ none := by
    rw [hread]
    nofun
  have hleaving : ¬ Leaving s.connection := by
    rw [Leaving,hread]
    rintro (⟨h,-⟩ | h | h) <;> cases h
  have hempty : Keeps s.connection {s.connection with reader := some (.returned [])} :=
    ⟨id,fun _ => id,by rw [hread]; rfl,fun _ h => absurd h hleaving⟩
  unfold ReaderLoop.State.read at h
  split at h
  · cases h
  · rename_i queue hsession
    split at h
    · cases h
    · obtain rfl := Option.some.inj h
      exact inv_of_keeps hs (threads_setReader hs.threads hreader) hempty
    · rename_i payload queue' hpop
      obtain ⟨hitems,-,-,-⟩ := BlockingQueue.pop_eq_item hpop
      obtain rfl := Option.some.inj h
      have hsome : s.connection.session ≠ none := by
        rw [hsession]
        nofun
      have hall := hs.flow.all queue hsession hleaving
      rw [hread,hitems] at hall
      have hhand : inHand (some (.returned payload)) = if payload = [] then [] else [payload] := rfl
      refine ⟨threads_of_some hs.threads rfl (iff_of_false nofun hsome) (iff_of_false nofun hreader),
        numbered_of_session hs.numbered fun _ => hsome,hs.flow.inOrder,fun _ => ?_,?_⟩
      · simp only [hhand]
        split_ifs
        · rw [List.append_nil]
          exact hs.flow.inOrder s.session
        · exact ⟨queue'.items,by rw [← hall,List.append_assoc]; rfl⟩
      · intro queue'' hqueue hstay
        cases hqueue
        have hpayload : payload ≠ [] := by
          rintro rfl
          exact hstay (Or.inr (Or.inr rfl))
        simp only [hhand,if_neg hpayload]
        exact hall
  · obtain rfl := Option.some.inj h
    exact inv_of_keeps hs (threads_setReader hs.threads hreader) hempty

theorem inv_readerStep (hs : Inv s) (h : s.connection.readerStep = some c') :
    Inv {s with connection := c'} := by
  unfold ReaderLoop.State.readerStep at h
  split at h
  · rename_i htest
    obtain rfl := Option.some.inj h
    refine inv_of_keeps hs (threads_setReader hs.threads (by rw [htest]; nofun))
      ⟨id,fun _ => id,?_,fun _ hleaving => ?_⟩
    · rw [htest]
      split_ifs <;> rfl
    · rcases hleaving with ⟨-,hrun⟩ | hdone | hreturned
      · exact Or.inr (Or.inl (by simp [hrun]))
      · cases htest.symm.trans hdone
      · cases htest.symm.trans hreturned
  · rename_i hread
    exact inv_read hs hread h
  · rename_i payload hreturned
    have hreader : s.connection.reader ≠ none := by
      rw [hreturned]
      nofun
    split_ifs at h with hempty
    · obtain rfl := Option.some.inj h
      obtain rfl := List.length_eq_zero_iff.mp hempty
      obtain ⟨hsession,hclear,-,-⟩ := clear_threads s.connection s.connection.reason
      refine inv_of_keeps hs (threads_setReader (threads_clear hs.threads _) (hclear ▸ hreader))
        ⟨fun h => hsession ▸ h,fun queue h => hsession ▸ h,?_,fun _ _ => Or.inr (Or.inl rfl)⟩
      rw [hreturned]
      rfl
    · obtain rfl := Option.some.inj h
      have hpayload : payload ≠ [] := mt List.length_eq_zero_iff.mpr hempty
      refine inv_of_keeps hs (threads_setReader hs.threads hreader)
        ⟨id,fun _ => id,?_,fun _ hleaving => ?_⟩
      · rw [hreturned]
        exact (if_neg hpayload).symm
      · rcases hleaving with ⟨htest,-⟩ | hdone | hnil
        · cases hreturned.symm.trans htest
        · cases hreturned.symm.trans hdone
        · cases hreturned.symm.trans hnil
          exact absurd rfl hpayload
  · cases h

/-- A payload goes from the reader to the client, or is lost with the connection. -/
theorem inv_send {sent : Bool} (hs : Inv s) (h : s.connection.send sent = some c') :
    Inv {s.send sent with connection := c'} := by
  unfold ReaderLoop.State.send at h
  split at h
  · rename_i payload hsend
    have hreader : s.connection.reader ≠ none := by
      rw [hsend]
      nofun
    have hsome : s.connection.session ≠ none := mt hs.threads.reader.mp hreader
    have hnext := hs.flow.next hsome
    rw [hsend] at hnext
    cases sent with
    | true =>
      obtain rfl := Option.some.inj h
      have hrecord : s.send true = {s with frames := s.frames ++ [.output s.session payload]} := by
        rw [State.send,hsend]
        rfl
      rw [hrecord]
      have hcurrent : State.outputs {s with frames := s.frames ++ [.output s.session payload]} s.session =
          s.outputs s.session ++ [payload] :=
        (outputs_frame s _ _).trans (by simp [Frame.outputOf])
      have hothers : ∀ n ≠ s.session,
          State.outputs {s with frames := s.frames ++ [.output s.session payload]} n = s.outputs n :=
        fun n hn => (outputs_frame s _ _).trans (by simp [Frame.outputOf,Ne.symm hn])
      refine ⟨threads_setReader hs.threads hreader,
        numbered_frame hs.numbered (hs.numbered.current hsome) id,fun n => ?_,fun _ => ?_,?_⟩
      · by_cases hn : n = s.session
        · subst hn
          exact hcurrent ▸ hnext
        · exact hothers n hn ▸ hs.flow.inOrder n
      · change State.outputs {s with frames := s.frames ++ [.output s.session payload]} s.session ++ [] <+: _
        rw [List.append_nil,hcurrent]
        exact hnext
      · intro queue hqueue hstay
        have hall := hs.flow.all queue hqueue (by
          rw [Leaving,hsend]
          rintro (⟨h,-⟩ | h | h) <;> cases h)
        rw [hsend] at hall
        change State.outputs {s with frames := s.frames ++ [.output s.session payload]} s.session ++
          ([] ++ queue.items) = _
        rw [hcurrent,List.append_assoc]
        exact hall
    | false =>
      obtain rfl := Option.some.inj h
      have hrecord : s.send false = s := by
        rw [State.send,hsend]
        rfl
      rw [hrecord]
      obtain ⟨hsession,hclear,-,hrun⟩ := clear_threads s.connection .sendFailed
      refine ⟨threads_setReader (threads_clear hs.threads _) (hclear ▸ hreader),
        numbered_of_session hs.numbered fun _ => hsome,hs.flow.inOrder,fun _ => ?_,fun _ _ hstay => ?_⟩
      · exact (List.append_nil _).symm ▸ hs.flow.inOrder s.session
      · exact absurd (Or.inl ⟨rfl,hrun⟩) hstay
  · cases h

/-- A payload goes to the queue of the session, or the queue is lost. -/
theorem inv_deliver (hs : Inv s) (payload : List Byte) :
    Inv {s.deliver payload with connection := s.connection.deliver payload} := by
  unfold State.deliver ReaderLoop.State.deliver
  cases hsession : s.connection.session with
  | none => exact hs
  | some queue =>
    cases queue with
    | lost | released => exact hs
    | filling queue =>
      have hsome : s.connection.session ≠ none := by
        rw [hsession]
        nofun
      have hle : ∀ n, s.delivered n <+:
          update s.delivered s.session (s.delivered s.session ++ [payload]) n := by
        intro n
        by_cases hn : n = s.session
        · subst hn
          rw [update_self]
          exact List.prefix_append _ _
        · exact (update_of_ne hn _ _).symm ▸ List.prefix_rfl
      have hfresh : ∀ n, s.requests < n →
          update s.delivered s.session (s.delivered s.session ++ [payload]) n = [] := by
        intro n hn
        have hne : n ≠ s.session := by
          have := hs.numbered.le
          omega
        rw [update_of_ne hne]
        exact hs.numbered.fresh n hn
      have hinOrder := fun n => (hs.flow.inOrder n).trans (hle n)
      have hnext := (hs.flow.next hsome).trans (hle s.session)
      simp only
      split
      · rename_i queue' hpush
        obtain ⟨hitems,-,-,-⟩ := BlockingQueue.push_eq_pushed hpush
        refine ⟨threads_of_some hs.threads rfl (iff_of_false nofun hsome) Iff.rfl,
          ⟨fun _ => hs.numbered.current hsome,hs.numbered.le,hs.numbered.sorted,hs.numbered.last,hfresh⟩,
          hinOrder,fun _ => hnext,fun queue'' hqueue hstay => ?_⟩
        cases hqueue
        change s.outputs s.session ++ (inHand s.connection.reader ++ queue'.items) =
          update s.delivered s.session (s.delivered s.session ++ [payload]) s.session
        rw [update_self,← hs.flow.all queue hsession hstay,hitems]
        simp only [List.append_assoc]
      · exact ⟨threads_of_some hs.threads rfl (iff_of_false nofun hsome) Iff.rfl,
          ⟨fun _ => hs.numbered.current hsome,hs.numbered.le,hs.numbered.sorted,hs.numbered.last,hfresh⟩,
          hinOrder,fun _ => hnext,nofun⟩

theorem inv_step (s : State) (e : ReaderLoop.Event) (t : State) (hs : Inv s) (h : s.step e = some t) :
    Inv t := by
  obtain ⟨c,hc,rfl⟩ := Option.map_eq_some_iff.mp h
  cases e with
  | main =>
    obtain ⟨hthreads,hkeeps⟩ := keeps_mainStep hs.threads hc
    exact inv_of_keeps hs hthreads hkeeps
  | receive received =>
    obtain ⟨hthreads,hkeeps⟩ := keeps_receive hs.threads hc
    exact inv_of_keeps hs hthreads hkeeps
  | start found => exact inv_start hs hc
  | respond sent => exact inv_respond hs hc
  | reader => exact inv_readerStep hs hc
  | send sent => exact inv_send hs hc
  | deliver payload =>
    obtain rfl := Option.some.inj hc
    exact inv_deliver hs payload
  | remove =>
    obtain rfl := Option.some.inj hc
    obtain ⟨hthreads,hkeeps⟩ := keeps_remove hs.threads
    exact inv_of_keeps hs hthreads hkeeps

end

/-- In every run of the two threads, over all requests of a client: the numbers of the frames do not
go down, so that no output of a session is sent after the answer to the request that has replaced it;
the output of each session is what was delivered to its channel, in order and from the beginning, and
while the channel has its queue and the reader stays, nothing is missing but what the reader has in
hand and what is in the queue; and once the connection is deleted, its reader has come to its end. -/
theorem run_conversation (es : List ReaderLoop.Event) (s : State) (h : run State.step {} es = some s) :
    (s.frames.map Frame.number).Pairwise (· ≤ ·) ∧
      (∀ n, s.outputs n <+: s.delivered n) ∧
      (∀ queue, s.connection.session = some (.filling queue) → ¬ Leaving s.connection →
        s.delivered s.requests =
          s.outputs s.requests ++ (inHand s.connection.reader ++ queue.items)) ∧
      (s.connection.main = .closed → s.connection.reader = none) := by
  have hs := run_invariant inv_step inv_init h
  refine ⟨hs.numbered.sorted,hs.flow.inOrder,fun queue hqueue hstay => ?_,fun hclosed => ?_⟩
  · have hsome : s.connection.session ≠ none := by
      rw [hqueue]
      nofun
    rw [← hs.numbered.current hsome]
    exact (hs.flow.all queue hqueue hstay).symm
  · exact hs.threads.reader.mp (hs.threads.closed hclosed)

/-- A client that makes a request, gets some output, and makes another request. -/
def twice : List ReaderLoop.Event :=
  let request := [.main,.receive (.message (.request Server.State.ambe {})),.main,.main]
  request ++ [.start true,.respond true,.deliver [1],.reader,.reader,.reader,.send true] ++ request ++
    [.reader,.reader,.reader,.main,.start true,.respond true]

theorem run_conversation_twice : ∃ s : State, run State.step {} twice = some s ∧
    s.frames = [.response 1,.output 1 [1],.response 2] ∧ s.outputs 1 <+: s.delivered 1 :=
  ⟨_,rfl,rfl,(run_conversation twice _ rfl).2.1 1⟩

end CodecServer.Server.Conversation
