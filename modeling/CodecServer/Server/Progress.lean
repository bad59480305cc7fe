import CodecServer.Server.ReaderLoop

/-! How much each thread of a connection still does before it has to wait for the client or for the
device, whatever the other one does in between. -/
namespace CodecServer.Server.ReaderLoop
open CodecServer.Transition CodecServer.Ambe3K

/-- How far the main loop is from the next call of `receiveMessage`, with the reader that it may have
to start on the way. -/
def Main.rank : Main → ℕ
  | .process _ => 13
  | .stop .request => 12
  | .join .request => 11
  | .start => 10
  | .respond => 4
  | .test => 3
  | .stop .leaving => 2
  | .join .leaving => 1
  | .receive | .closed => 0

/-- How far the reader is from its end, without the packets that it has still to read. -/
def Reader.rank : Reader → ℕ
  | .returned payload => if payload.length = 0 then 1 else 5
  | .send _ => 4
  | .test => 3
  | .read => 2
  | .done => 0

/-- The packets that the reader may read. -/
def Queue.size : Queue → ℕ
  | .filling queue => queue.items.length
  | _ => 0

def potential (s : State) : ℕ :=
  s.main.rank+s.reader.elim 0 Reader.rank+4*s.session.elim 0 Queue.size

/-- The steps of the two threads, but for the return of `receiveMessage`. -/
def Event.cost : Event → ℕ
  | .receive _ | .deliver _ | .remove => 0
  | _ => 1

/-- The work that a message and a packet can make, without the waits. -/
def Event.gain : Event → ℕ
  | .receive _ => 13
  | .deliver _ => 4
  | _ => 0

/-- Where a thread can be that has a session, and one that ends it. -/
structure Placed (s : State) : Prop where
  reader : s.session = none ↔ s.reader = none
  start : s.main = .start → s.session = none
  closed : s.main = .closed → s.session = none
  join : ∀ caller, s.main = .join caller → s.session = some .lost ∨ s.session = some .released
  done : s.reader = some .done → s.run = false

section
variable {s t : State}

theorem clear_eq (s : State) (cause : Cause) : ∃ c, s.clear cause = {s with run := false, cause := c} := by
  unfold State.clear
  split_ifs with hrun
  · exact ⟨_,rfl⟩
  · refine ⟨s.cause,?_⟩
    rw [← Bool.eq_false_iff.mpr hrun]

/-- The main loop goes on to a place where it is not in the middle of `stopSession`. -/
theorem placed_main {m : Main} (hs : Placed s) (hstart : m ≠ .start) (hclosed : m ≠ .closed)
    (hjoin : ∀ caller, m ≠ .join caller) : Placed {s with main := m} :=
  ⟨hs.reader,fun h => absurd h hstart,fun h => absurd h hclosed,fun caller h => absurd h (hjoin caller),
    hs.done⟩

/-- The reader goes on, and its session is still there. -/
theorem placed_reader {r : Reader} {q : Option Queue} {run : Bool} {cause : Option Cause}
    (hs : Placed s) (hreader : s.reader ≠ none) (hq : q = s.session ∨ ∃ queue queue',
      s.session = some (.filling queue) ∧ q = some (.filling queue'))
    (hdone : r = .done → run = false) :
    Placed {s with session := q, reader := some r, run := run, cause := cause} := by
  have hsome : s.session ≠ none := mt hs.reader.mp hreader
  have hnone : q ≠ none := by
    rcases hq with rfl | ⟨-,queue',-,rfl⟩
    · exact hsome
    · nofun
  refine ⟨iff_of_false hnone nofun,fun h => absurd (hs.start h) hsome,
    fun h => absurd (hs.closed h) hsome,fun caller h => ?_,
    fun h => hdone (Option.some.inj h)⟩
  rcases hq with rfl | ⟨queue,-,hqueue,-⟩
  · exact hs.join caller h
  · rcases hs.join caller h with hlost | hreleased
    · cases hqueue.symm.trans hlost
    · cases hqueue.symm.trans hreleased

/-- Whoever calls `stopSession` is closer to its end, and has no more packets. -/
theorem potential_stop {caller : Caller} {q : Option Queue} (hmain : s.main = .stop caller)
    (hq : q.elim 0 Queue.size ≤ s.session.elim 0 Queue.size) :
    1+potential {s with main := .join caller, session := q} ≤ potential s := by
  cases caller <;> simp only [potential,hmain,Main.rank] <;> omega

theorem potential_mainStep (hs : Placed s) (h : s.mainStep = some t) :
    Placed t ∧ 1+potential t ≤ potential s := by
  unfold State.mainStep at h
  cases hmain : s.main with
  | test =>
    simp only [hmain] at h
    obtain rfl := Option.some.inj h
    constructor
    · split_ifs
      · exact placed_main hs (by simp) (by simp) (by simp)
      · exact placed_main hs (by simp) (by simp) (by simp)
    · simp only [potential,hmain]
      split_ifs <;> simp only [Main.rank] <;> omega
  | process message =>
    cases message with
    | renegotiation settings =>
      simp only [hmain] at h
      split_ifs at h
      obtain rfl := Option.some.inj h
      refine ⟨placed_main hs (by simp) (by simp) (by simp),?_⟩
      simp only [potential,hmain,Main.rank]
      omega
    | request codec settings | check codec | channelData data | speechData data =>
      simp only [hmain] at h
      obtain rfl := Option.some.inj h
      refine ⟨placed_main hs (by simp) (by simp) (by simp),?_⟩
      simp only [potential,hmain,Main.rank]
      omega
  | stop caller =>
    simp only [hmain] at h
    obtain rfl := Option.some.inj h
    unfold State.stop
    split
    · rename_i hnone
      refine ⟨⟨hs.reader,fun _ => hnone,fun _ => hnone,by simp,hs.done⟩,?_⟩
      simp only [potential,hmain,Main.rank]
      omega
    · rename_i hnone
      refine ⟨⟨hs.reader,fun _ => hnone,fun _ => hnone,by simp,hs.done⟩,?_⟩
      simp only [potential,hmain,Main.rank]
      omega
    · rename_i hlost
      refine ⟨⟨hs.reader,by simp,by simp,fun _ _ => Or.inl hlost,hs.done⟩,?_⟩
      exact potential_stop hmain (Nat.le_refl _)
    · rename_i queue _ _ hsome
      have hreader : s.reader ≠ none := by
        intro hnone
        cases hsome.symm.trans (hs.reader.mpr hnone)
      refine ⟨⟨iff_of_false (by simp) hreader,by simp,by simp,fun _ _ => Or.inr rfl,hs.done⟩,?_⟩
      exact potential_stop (q := some .released) hmain (Nat.zero_le _)
  | join caller =>
    simp only [hmain,State.join] at h
    split_ifs at h with hdone
    obtain rfl := Option.some.inj h
    refine ⟨⟨iff_of_true rfl rfl,fun _ => rfl,fun _ => rfl,fun other h => ?_,by simp⟩,?_⟩
    · cases caller <;> cases h
    · cases caller <;> simp only [potential,hmain,hdone,Main.rank,Reader.rank,Option.elim] <;> omega
  | receive | start | respond | closed =>
    simp only [hmain] at h
    cases h

theorem potential_receive {received : Received} (hs : Placed s) (h : s.receive received = some t) :
    Placed t ∧ potential t ≤ 13+potential s := by
  unfold State.receive at h
  split_ifs at h with hmain
  cases received with
  | null =>
    obtain rfl := Option.some.inj h
    obtain ⟨cause,hclear⟩ := clear_eq s .disconnected
    rw [hclear]
    refine ⟨⟨hs.reader,nofun,nofun,nofun,fun _ => rfl⟩,?_⟩
    simp only [potential,hmain,Main.rank]
    omega
  | unexpected =>
    obtain rfl := Option.some.inj h
    refine ⟨placed_main hs (by simp) (by simp) (by simp),?_⟩
    simp only [potential,hmain,Main.rank]
    omega
  | message message =>
    obtain rfl := Option.some.inj h
    refine ⟨placed_main hs (by simp) (by simp) (by simp),?_⟩
    simp only [potential,hmain,Main.rank]
    omega

/-- A request may get a reader, which has a queue without packets; two more steps are for its wait. -/
theorem potential_start {found : Bool} (hs : Placed s) (h : s.start found = some t) :
    Placed t ∧ 3+potential t ≤ potential s := by
  unfold State.start at h
  split_ifs at h with hmain hfound
  · obtain rfl := Option.some.inj h
    refine ⟨⟨iff_of_false (by simp) (by simp),nofun,nofun,nofun,nofun⟩,?_⟩
    simp only [potential,hmain,Main.rank,Option.elim,Reader.rank,Queue.size,BlockingQueue.new,
      List.length_nil]
    omega
  · obtain rfl := Option.some.inj h
    refine ⟨placed_main hs (by simp) (by simp) (by simp),?_⟩
    simp only [potential,hmain,Main.rank]
    omega

theorem potential_respond {sent : Bool} (hs : Placed s) (h : s.respond sent = some t) :
    Placed t ∧ 1+potential t ≤ potential s := by
  unfold State.respond at h
  split_ifs at h with hmain hsent
  · obtain rfl := Option.some.inj h
    refine ⟨placed_main hs (by simp) (by simp) (by simp),?_⟩
    simp only [potential,hmain,Main.rank]
    omega
  · obtain rfl := Option.some.inj h
    refine ⟨⟨hs.reader,nofun,nofun,nofun,hs.done⟩,?_⟩
    simp only [potential,hmain,Main.rank]
    omega

/-- What has been read makes no more work than it did in the queue. -/
theorem potential_read (hs : Placed s) (hreader : s.reader = some .read) (h : s.read = some t) :
    Placed t ∧ 1+potential t ≤ potential s := by
  have hnone : s.reader ≠ none := by simp [hreader]
  unfold State.read at h
  split at h
  · cases h
  · rename_i queue hsession
    split at h
    · cases h
    · obtain rfl := Option.some.inj h
      refine ⟨placed_reader hs hnone (Or.inl rfl) nofun,?_⟩
      simp only [potential,hreader,Option.elim,Reader.rank,List.length_nil,if_true]
      omega
    · rename_i payload queue' hpop
      obtain ⟨hitems,-,-,-⟩ := BlockingQueue.pop_eq_item hpop
      obtain rfl := Option.some.inj h
      refine ⟨placed_reader hs hnone (Or.inr ⟨queue,queue',hsession,rfl⟩) nofun,?_⟩
      simp only [potential,hreader,hsession,Option.elim,Reader.rank,Queue.size,hitems,List.length_cons]
      split_ifs <;> omega
  · obtain rfl := Option.some.inj h
    refine ⟨placed_reader hs hnone (Or.inl rfl) nofun,?_⟩
    simp only [potential,hreader,Option.elim,Reader.rank,List.length_nil,if_true]
    omega

theorem potential_readerStep (hs : Placed s) (h : s.readerStep = some t) :
    Placed t ∧ 1+potential t ≤ potential s := by
  unfold State.readerStep at h
  split at h
  · rename_i hreader
    obtain rfl := Option.some.inj h
    refine ⟨placed_reader hs (by simp [hreader]) (Or.inl rfl) (by simp),?_⟩
    simp only [potential,hreader,Option.elim]
    split_ifs <;> simp only [Reader.rank] <;> omega
  · rename_i hreader
    exact potential_read hs hreader h
  · rename_i payload hreader
    have hnone : s.reader ≠ none := by simp [hreader]
    split_ifs at h with hempty
    · obtain rfl := Option.some.inj h
      obtain ⟨cause,hclear⟩ := clear_eq s s.reason
      rw [hclear]
      refine ⟨placed_reader (s := s) hs hnone (Or.inl rfl) fun _ => rfl,?_⟩
      simp only [potential,hreader,Option.elim,Reader.rank,if_pos hempty]
      omega
    · obtain rfl := Option.some.inj h
      refine ⟨placed_reader hs hnone (Or.inl rfl) nofun,?_⟩
      simp only [potential,hreader,Option.elim,Reader.rank,if_neg hempty]
      omega
  · cases h

theorem potential_send {sent : Bool} (hs : Placed s) (h : s.send sent = some t) :
    Placed t ∧ 1+potential t ≤ potential s := by
  unfold State.send at h
  split at h
  · rename_i payload hreader
    have hnone : s.reader ≠ none := by simp [hreader]
    split_ifs at h
    · obtain rfl := Option.some.inj h
      refine ⟨placed_reader hs hnone (Or.inl rfl) nofun,?_⟩
      simp only [potential,hreader,Option.elim,Reader.rank]
      omega
    · obtain rfl := Option.some.inj h
      obtain ⟨cause,hclear⟩ := clear_eq s .sendFailed
      rw [hclear]
      refine ⟨placed_reader (s := s) hs hnone (Or.inl rfl) nofun,?_⟩
      simp only [potential,hreader,Option.elim,Reader.rank]
      omega
  · cases h

theorem potential_deliver (hs : Placed s) (payload : List Protocol.Byte) :
    Placed (s.deliver payload) ∧ potential (s.deliver payload) ≤ 4+potential s := by
  unfold State.deliver
  split
  · rename_i queue hsession
    have hreader : s.reader ≠ none := by
      intro hnone
      cases hsession.symm.trans (hs.reader.mpr hnone)
    have hjoin : ∀ caller, s.main ≠ .join caller := by
      intro caller hmain
      rcases hs.join caller hmain with hlost | hreleased
      · cases hsession.symm.trans hlost
      · cases hsession.symm.trans hreleased
    have hplaced : ∀ q, q ≠ none → Placed {s with session := q} := fun q hq =>
      ⟨iff_of_false hq hreader,fun h => absurd (hsession.symm.trans (hs.start h)) nofun,
        fun h => absurd (hsession.symm.trans (hs.closed h)) nofun,
        fun caller h => absurd h (hjoin caller),hs.done⟩
    split
    · rename_i queue' hpush
      obtain ⟨hitems,-,-,-⟩ := BlockingQueue.push_eq_pushed hpush
      refine ⟨hplaced _ nofun,?_⟩
      simp only [potential,hsession,Option.elim,Queue.size,hitems,List.length_append,
        List.length_singleton]
      omega
    · refine ⟨hplaced _ nofun,?_⟩
      simp only [potential,hsession,Option.elim,Queue.size]
      omega
  · exact ⟨hs,by omega⟩

theorem potential_remove (hs : Placed s) :
    Placed s.remove ∧ potential s.remove ≤ potential s := by
  unfold State.remove
  split
  · rename_i queue hsession
    have hreader : s.reader ≠ none := by
      intro hnone
      cases hsession.symm.trans (hs.reader.mpr hnone)
    refine ⟨⟨iff_of_false nofun hreader,fun h => absurd (hsession.symm.trans (hs.start h)) nofun,
      fun h => absurd (hsession.symm.trans (hs.closed h)) nofun,fun _ _ => Or.inl rfl,hs.done⟩,?_⟩
    simp only [potential,Option.elim,Queue.size]
    omega
  · exact ⟨hs,Nat.le_refl _⟩

theorem potential_step (s : State) (e : Event) (t : State) (hs : Placed s)
    (h : s.step e = some t) : Placed t ∧ e.cost+potential t ≤ e.gain+potential s := by
  cases e with
  | main => simpa [Event.cost,Event.gain] using potential_mainStep hs h
  | receive received => simpa [Event.cost,Event.gain] using potential_receive hs h
  | start found =>
    obtain ⟨hplaced,hle⟩ := potential_start hs h
    exact ⟨hplaced,by simp only [Event.cost,Event.gain]; omega⟩
  | respond sent => simpa [Event.cost,Event.gain] using potential_respond hs h
  | reader => simpa [Event.cost,Event.gain] using potential_readerStep hs h
  | send sent => simpa [Event.cost,Event.gain] using potential_send hs h
  | deliver payload =>
    obtain rfl := Option.some.inj h
    simpa [Event.cost,Event.gain] using potential_deliver hs payload
  | remove =>
    obtain rfl := Option.some.inj h
    simpa [Event.cost,Event.gain] using potential_remove hs

end

end CodecServer.Server.ReaderLoop
