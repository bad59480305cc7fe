import Mathlib.Data.List.Induction
import CodecServer.Connection
import CodecServer.Transition

/-! Messages on their way from `sendMessage` to `receiveMessage`: their bytes arrive, are read in
blocks, and a block may hold more than the message that is asked for. -/
namespace CodecServer
open CodecServer.Transition

/-- What the sender writes for its messages, one after the other. -/
def Protobuf.frames (p : Protobuf) (ms : List p.Message) : List (BitVec 8) :=
  ms.flatMap fun m => (p.sendMessage m).1

/-- Messages that a peer sends, the blocks in which reads deliver their bytes, and whether the peer
closes the connection after them. -/
structure Traffic (p : Protobuf) where
  messages : List p.Message
  blocks : List (List (BitVec 8))
  closes : Bool
  sent : ∀ m ∈ messages, (p.sendMessage m).2
  nonempty : ∀ block ∈ blocks, block ≠ []
  flatten : blocks.flatten = p.frames messages

namespace Traffic

/-- The receiver's input stream, where the blocks to be read are in its socket, the blocks that
have not arrived, whether the connection is closed, the results of `receiveMessage`, and whether
the last of them was `nullptr`. -/
structure State (p : Protobuf) where
  input : InStream (BitVec 8) := {}
  pending : List (List (BitVec 8))
  closed : Bool := false
  results : List (Option p.Any) := []
  finished : Bool := false

/-- A block arrives; the peer closes the connection; `receiveMessage` returns. -/
inductive Event
  | arrive
  | close
  | receive

/-- A message is complete in these bytes. -/
def complete (bs : List (BitVec 8)) : Bool :=
  match Varint.read bs with
  | none => false
  | some (size,k) => k+size ≤ bs.length

variable {p : Protobuf}

/-- `poll` reports `POLLIN`. It only looks at the socket. -/
def State.Readable (s : State p) : Prop := s.input.blocks ≠ [] ∨ s.closed = true

instance (s : State p) : Decidable s.Readable :=
  inferInstanceAs (Decidable (s.input.blocks ≠ [] ∨ s.closed = true))

/-- A call of `receiveMessage` waits in `poll`. -/
def State.Waits (s : State p) : Prop := s.finished = false ∧ ¬ s.Readable

variable (t : Traffic p)

def start : State p := {pending := t.blocks}

/-- `receiveMessage` needs `POLLIN`, and reads that wait for the rest of a message. -/
def step (s : State p) : Event → Option (State p)
  | .arrive =>
    match s.pending with
    | [] => none
    | block::pending => some
      { s with
        input := {s.input with blocks := s.input.blocks ++ [block]}
        pending := pending }
  | .close =>
    if t.closes = true ∧ s.pending = [] ∧ s.closed = false then some {s with closed := true}
    else none
  | .receive =>
    if s.finished = false ∧ s.Readable ∧ (complete s.input.content = true ∨ s.closed = true) then
      let (result,input) := p.receiveMessage s.input
      some
        { s with
          input := input
          results := s.results ++ [result]
          finished := result.isNone }
    else none

def Reached (s : State p) : Prop := ∃ es, run t.step t.start es = some s

/-- Nothing can happen anymore. -/
def Final (s : State p) : Prop := ∀ e, t.step s e = none

section
variable {t} {s u : State p} {done rest : List p.Message} {m : p.Message}

/-- What an event can do. -/
theorem step_cases {e : Event} (h : t.step s e = some u) :
    (∃ block pending, s.pending = block::pending ∧ u =
      { s with
        input := {s.input with blocks := s.input.blocks ++ [block]}
        pending := pending }) ∨
    (t.closes = true ∧ s.pending = [] ∧ s.closed = false ∧ u = {s with closed := true}) ∨
    (s.finished = false ∧ s.Readable ∧ (complete s.input.content = true ∨ s.closed = true) ∧
      t.step s .receive = some u ∧ u =
      { s with
        input := (p.receiveMessage s.input).2
        results := s.results ++ [(p.receiveMessage s.input).1]
        finished := (p.receiveMessage s.input).1.isNone }) := by
  cases e with
  | arrive =>
    simp only [step] at h
    split at h
    · cases h
    · rename_i block pending hpending
      exact Or.inl ⟨block,pending,hpending,(Option.some.inj h).symm⟩
  | close =>
    simp only [step] at h
    split_ifs at h with hclose
    exact Or.inr (Or.inl ⟨hclose.1,hclose.2.1,hclose.2.2,(Option.some.inj h).symm⟩)
  | receive =>
    refine Or.inr (Or.inr ?_)
    have hreceive := h
    simp only [step] at hreceive
    split_ifs at hreceive with henabled
    exact ⟨henabled.1,henabled.2.1,henabled.2.2,h,(Option.some.inj hreceive).symm⟩

theorem frames_cons (m : p.Message) (ms : List p.Message) :
    p.frames (m::ms) = (p.sendMessage m).1 ++ p.frames ms := rfl

theorem frames_append (ms ms' : List p.Message) :
    p.frames (ms ++ ms') = p.frames ms ++ p.frames ms' :=
  List.flatMap_append

theorem frames_singleton (m : p.Message) : p.frames [m] = (p.sendMessage m).1 := by
  rw [frames_cons,Protobuf.frames,List.flatMap_nil,List.append_nil]

/-- A message is complete when all its bytes are there. -/
theorem complete_iff (hm : (p.sendMessage m).2) {bs after after' : List (BitVec 8)}
    (h : bs ++ after = (p.sendMessage m).1 ++ after') :
    complete bs = true ↔ (p.sendMessage m).1.length ≤ bs.length := by
  obtain ⟨hsize,hbytes⟩ := Protobuf.sendMessage_sent hm
  rw [hbytes] at h ⊢
  generalize p.serialize (p.packFrom m) = bytes at hsize h ⊢
  have hread : Varint.read (bs ++ after) =
      some (bytes.length,(Varint.write bytes.length).length) := by
    rw [h,List.append_assoc,Varint.read_write (by omega)]
  have hcomplete : Varint.read bs = some (bytes.length,(Varint.write bytes.length).length) →
      (complete bs = true ↔ (Varint.write bytes.length ++ bytes).length ≤ bs.length) := by
    intro hbs
    rw [complete,hbs,decide_eq_true_iff,List.length_append]
  constructor
  · intro hc
    cases hbs : Varint.read bs with
    | none =>
      rw [complete,hbs] at hc
      cases hc
    | some q =>
      rw [Varint.read_append hbs,Option.some.injEq] at hread
      exact (hcomplete (hread ▸ hbs)).mp hc
  · intro hle
    obtain ⟨tail,rfl⟩ := List.prefix_of_prefix_length_le ⟨after',h.symm⟩ ⟨after,rfl⟩ hle
    apply (hcomplete _).mpr hle
    rw [List.append_assoc,Varint.read_write (by omega)]

/-- Where a state of a run is in the messages. -/
structure At (t : Traffic p) (s : State p) (done rest : List p.Message) : Prop where
  messages : t.messages = done ++ rest
  blocks : s.input.read ++ s.input.blocks ++ s.pending = t.blocks
  tracks : s.input.Tracks (p.frames done)
  results : s.results = done.map (some ∘ p.packFrom) ++ (if s.finished then [none] else [])
  closed : s.closed = true → t.closes = true ∧ s.pending = []
  finished : s.finished = true → rest = [] ∧ s.closed = true

namespace At

theorem start : t.At t.start [] t.messages where
  messages := rfl
  blocks := rfl
  tracks := ⟨rfl,fun init block h => absurd h (by simp [Traffic.start])⟩
  results := rfl
  closed := nofun
  finished := nofun

/-- What has not been used is what the other messages were sent as. -/
theorem unread (h : t.At s done rest) :
    s.input.content ++ s.pending.flatten = p.frames rest := by
  have hflatten := t.flatten
  rw [← h.blocks,h.messages,frames_append,List.flatten_append,List.flatten_append,
    h.tracks.flatten,List.append_assoc,List.append_assoc] at hflatten
  have := List.append_cancel_left hflatten
  rwa [InStream.content,List.append_assoc]

theorem sent_head (h : t.At s done (m::rest)) : (p.sendMessage m).2 :=
  t.sent m (by simp [h.messages])

theorem complete_iff (h : t.At s done (m::rest)) :
    complete s.input.content = true ↔ (p.sendMessage m).1.length ≤ s.input.content.length :=
  Traffic.complete_iff h.sent_head (h.unread.trans (frames_cons m rest))

theorem content_eq_nil (h : t.At s done []) : s.input.content = [] :=
  (List.append_eq_nil_iff.mp h.unread).1

theorem exists_of_complete (h : t.At s done rest) (hc : complete s.input.content = true) :
    ∃ m rest', rest = m::rest' := by
  cases rest with
  | nil =>
    rw [h.content_eq_nil] at hc
    cases hc
  | cons m rest => exact ⟨m,rest,rfl⟩

/-- All bytes that were sent have arrived. -/
theorem complete_of_pending (h : t.At s done (m::rest)) (hpending : s.pending = []) :
    complete s.input.content = true := by
  have hunread := h.unread
  rw [hpending,List.flatten_nil,List.append_nil,frames_cons] at hunread
  rw [h.complete_iff,hunread,List.length_append]
  omega

theorem arrive (h : t.At s done rest) {block : List (BitVec 8)} {pending : List (List (BitVec 8))}
    (hpending : s.pending = block::pending) :
    t.At
      { s with
        input := {s.input with blocks := s.input.blocks ++ [block]}
        pending := pending } done rest where
  messages := h.messages
  blocks := by
    rw [← h.blocks,hpending]
    simp
  tracks := ⟨h.tracks.flatten,h.tracks.needed⟩
  results := h.results
  closed hclosed := by
    have := (h.closed hclosed).2
    rw [hpending] at this
    cases this
  finished := h.finished

/-- A call that gets a whole message returns it. -/
theorem receive (hp : p.Lawful) (h : t.At s done (m::rest))
    (hreadable : s.Readable) (hc : complete s.input.content = true) :
    t.step s .receive = some
      { s with
        input := s.input.advance (p.sendMessage m).1.length
        results := s.results ++ [some (p.packFrom m)]
        finished := false } ∧
    t.At
      { s with
        input := s.input.advance (p.sendMessage m).1.length
        results := s.results ++ [some (p.packFrom m)]
        finished := false } (done ++ [m]) rest := by
  have hlen := h.complete_iff.mp hc
  have hnot : s.finished = false := by
    cases hfinished : s.finished with
    | false => rfl
    | true => exact absurd (h.finished hfinished).1 (List.cons_ne_nil m rest)
  obtain ⟨tail,htail⟩ : (p.sendMessage m).1 <+: s.input.content :=
    List.prefix_of_prefix_length_le ⟨p.frames rest,(h.unread.trans (frames_cons m rest)).symm⟩
      ⟨s.pending.flatten,rfl⟩ hlen
  constructor
  · rw [step,if_pos ⟨hnot,hreadable,Or.inl hc⟩,
      Protobuf.receiveMessage_sendMessage hp h.sent_head htail.symm]
    rfl
  · constructor
    case messages => rw [h.messages,List.append_assoc,List.singleton_append]
    case blocks => rw [InStream.blocks_advance,h.blocks]
    case tracks =>
      have htracks := h.tracks.advance hlen
      rwa [← htail,List.take_left,← frames_singleton,← frames_append,frames_singleton] at htracks
    case results => simp [h.results,hnot]
    case closed => exact h.closed
    case finished => nofun

theorem step (hp : p.Lawful) (h : t.At s done rest) {e : Event} (hstep : t.step s e = some u) :
    ∃ done' rest', t.At u done' rest' := by
  obtain ⟨block,pending,hpending,rfl⟩ | ⟨hcloses,hpending,-,rfl⟩ |
    ⟨hnot,hreadable,hc,hreceive,hu⟩ := step_cases hstep
  · exact ⟨done,rest,h.arrive hpending⟩
  · refine ⟨done,rest,h.messages,h.blocks,h.tracks,h.results,fun _ => ⟨hcloses,hpending⟩,?_⟩
    exact fun hfinished => ⟨(h.finished hfinished).1,rfl⟩
  cases rest with
  | cons m rest =>
    have hcomplete : complete s.input.content = true := by
      cases hc with
      | inl hc => exact hc
      | inr hclosed => exact h.complete_of_pending (h.closed hclosed).2
    obtain ⟨hnext,hat⟩ := h.receive hp hreadable hcomplete
    obtain rfl := Option.some.inj (hnext.symm.trans hreceive)
    exact ⟨_,_,hat⟩
  | nil =>
    -- there is nothing to read: the stream has come to its end
    have hclosed : s.closed = true := by
      rw [h.content_eq_nil] at hc
      exact hc.resolve_left Bool.false_ne_true
    have hnull : p.receiveMessage s.input = (none,s.input) := by
      rw [Protobuf.receiveMessage,h.content_eq_nil]
      rfl
    rw [hnull] at hu
    subst hu
    refine ⟨done,[],h.messages,h.blocks,h.tracks,?_,h.closed,fun _ => ⟨rfl,hclosed⟩⟩
    simp [h.results,hnot]

end At

theorem Reached.step (h : t.Reached s) {e : Event} (hstep : t.step s e = some u) : t.Reached u := by
  obtain ⟨es,hrun⟩ := h
  exact ⟨es ++ [e],run_append hrun ((run_cons s u e []).mpr ⟨u,hstep,rfl⟩)⟩

theorem Reached.at (hp : p.Lawful) (h : t.Reached s) : ∃ done rest, t.At s done rest := by
  obtain ⟨es,hrun⟩ := h
  apply run_invariant (I := fun s => ∃ done rest, t.At s done rest) _ ⟨[],_,At.start⟩ hrun
  intro s e u h hstep
  obtain ⟨done,rest,h⟩ := h
  exact h.step hp hstep

/-- Blocks may arrive before any of them is read. -/
theorem exists_arrived (front back : List (List (BitVec 8))) (h : t.blocks = front ++ back) :
    ∃ s, t.Reached s ∧ t.At s [] t.messages ∧ s.pending = back ∧ s.closed = false := by
  induction front using List.reverseRecOn generalizing back with
  | nil => exact ⟨t.start,⟨[],rfl⟩,At.start,h,rfl⟩
  | append_singleton front block ih =>
    rw [List.append_assoc,List.singleton_append] at h
    obtain ⟨s,hs,hat,hpending,hclosed⟩ := ih (block::back) h
    refine ⟨_,hs.step (e := .arrive) ?_,hat.arrive hpending,rfl,hclosed⟩
    rw [Traffic.step,hpending]

/-- If no call has to wait for a message that has arrived, the messages that have arrived are
received. -/
theorem exists_received (hp : p.Lawful) (hs : t.Reached s) {ms : List p.Message}
    (hat : t.At s done (ms ++ rest)) (hlen : (p.frames ms).length ≤ s.input.content.length)
    (hclosed : s.closed = false)
    (hready : ∀ u, t.Reached u → u.pending = s.pending → u.closed = false →
      complete u.input.content = true → u.input.blocks ≠ []) :
    ∃ u, t.Reached u ∧ t.At u (done ++ ms) rest ∧ u.pending = s.pending ∧ u.closed = false := by
  induction ms generalizing s done with
  | nil => exact ⟨s,hs,by rwa [List.append_nil],rfl,hclosed⟩
  | cons m ms ih =>
    rw [frames_cons,List.length_append] at hlen
    have hc := hat.complete_iff.mpr (Nat.le_of_add_right_le hlen)
    obtain ⟨hstep,hnext⟩ := hat.receive hp (Or.inl (hready s hs rfl hclosed hc)) hc
    have hlen' : (p.frames ms).length ≤
        (s.input.advance (p.sendMessage m).1.length).content.length := by
      rw [InStream.content_advance,List.length_drop]
      omega
    obtain ⟨u,hu,hat',hpending,hclosed'⟩ := ih (hs.step hstep) hnext hlen' hclosed hready
    exact ⟨u,hu,by rwa [List.append_assoc] at hat',hpending,hclosed'⟩

/-- If no call has to wait for a message that has arrived, a block that ends two messages is read
for the first of them. -/
theorem exists_held (hp : p.Lawful) {front back : List (List (BitVec 8))} {block : List (BitVec 8)}
    (hblocks : t.blocks = front ++ block::back) (hmessages : t.messages = done ++ rest)
    (hfront : front.flatten.length < (p.frames done).length)
    (hdone : (p.frames done).length ≤ (front ++ [block]).flatten.length)
    (hready : ∀ u, t.Reached u → u.pending = back → u.closed = false →
      complete u.input.content = true → u.input.blocks ≠ []) :
    ∃ s, t.Reached s ∧ t.At s done rest ∧ s.pending = back ∧ s.closed = false ∧
      s.input.blocks = [] := by
  rw [← List.singleton_append,← List.append_assoc] at hblocks
  obtain ⟨s,hs,hat,hpending,hclosed⟩ := exists_arrived (front ++ [block]) back hblocks
  have hcontent : s.input.content.length=(front ++ [block]).flatten.length := by
    have hunread := congrArg List.length hat.unread
    rw [hpending,← t.flatten,hblocks,List.flatten_append,List.length_append,List.length_append]
      at hunread
    omega
  obtain ⟨u,hu,hatu,hpendingu,hclosedu⟩ :=
    exists_received hp hs (hmessages ▸ hat) (hcontent ▸ hdone) hclosed (hpending ▸ hready)
  refine ⟨u,hu,hatu,hpendingu.trans hpending,hclosedu,?_⟩
  have hread := hatu.blocks
  rw [hpendingu,hpending,hblocks] at hread
  exact hatu.tracks.blocks_eq_nil (List.append_cancel_right hread) hfront

/-- Where a call waits although there are messages, the last block that was read has ended a
message before. -/
theorem At.exists_last_block (h : t.At s done rest) (hblocks : s.input.blocks = [])
    (hbackup : s.input.backup ≠ []) :
    ∃ front block, s.input.read = front ++ [block] ∧
      t.blocks = front ++ block::s.pending ∧ front.flatten.length < (p.frames done).length := by
  have hread : s.input.read ≠ [] := by
    intro hread
    have hflatten := h.tracks.flatten
    rw [hread,List.flatten_nil] at hflatten
    exact hbackup (List.append_eq_nil_iff.mp hflatten.symm).2
  obtain ⟨front,block,hlast⟩ := (List.eq_nil_or_concat' s.input.read).resolve_left hread
  refine ⟨front,block,hlast,?_,h.tracks.needed front block hlast⟩
  rw [← h.blocks,hblocks,hlast]
  simp

theorem At.not_finished (h : t.At s done rest) (hclosed : s.closed = false) : s.finished = false := by
  rw [← Bool.not_eq_true] at hclosed ⊢
  exact fun hfinished => hclosed (h.finished hfinished).2

theorem not_readable_iff : ¬ s.Readable ↔ s.input.blocks = [] ∧ s.closed = false := by
  rw [State.Readable,not_or,not_not,Bool.not_eq_true]

theorem content_of_blocks (h : s.input.blocks = []) : s.input.content = s.input.backup := by
  rw [InStream.content,h,List.flatten_nil,List.append_nil]

theorem At.backup_length (h : t.At s done rest) :
    s.input.read.flatten.length=(p.frames done).length+s.input.backup.length := by
  rw [h.tracks.flatten,List.length_append]

/-- Nothing can happen when everything has arrived, an end of the connection was seen, and a call
waits. -/
theorem final_iff : t.Final s ↔ s.pending = [] ∧ (t.closes = true → s.closed = true) ∧
    (s.finished = false → s.Readable →
      complete s.input.content = false ∧ s.closed = false) := by
  constructor
  · intro h
    have hpending : s.pending = [] := by
      cases hpending : s.pending with
      | nil => rfl
      | cons block pending =>
        have := h .arrive
        rw [Traffic.step,hpending] at this
        cases this
    refine ⟨hpending,fun hcloses => ?_,fun hfinished hreadable => ?_⟩
    · by_contra hclosed
      have := h .close
      rw [Traffic.step,if_pos ⟨hcloses,hpending,Bool.eq_false_iff.mpr hclosed⟩] at this
      cases this
    · have := h .receive
      rw [← Bool.not_eq_true,← Bool.not_eq_true,← not_or]
      intro hc
      rw [Traffic.step,if_pos ⟨hfinished,hreadable,hc⟩] at this
      cases this
  · intro ⟨hpending,hcloses,hreceive⟩ e
    cases e with
    | arrive => rw [Traffic.step,hpending]
    | close =>
      rw [Traffic.step,if_neg]
      intro ⟨h,_,hclosed⟩
      rw [hcloses h] at hclosed
      cases hclosed
    | receive =>
      rw [Traffic.step,if_neg]
      intro ⟨hfinished,hreadable,hc⟩
      have hnot := hreceive hfinished hreadable
      rw [hnot.1,hnot.2] at hc
      simp at hc

/-- Each event brings a run closer to its end. -/
theorem step_count {e : Event} (hstep : t.step s e = some u) :
    u.results.length+u.closed.toNat+s.pending.length =
      s.results.length+s.closed.toNat+u.pending.length+1 := by
  obtain ⟨block,pending,hpending,rfl⟩ | ⟨-,-,hclosed,rfl⟩ | ⟨-,-,-,-,rfl⟩ := step_cases hstep
  · simp only [hpending,List.length_cons]
    omega
  · simp only [hclosed,Bool.toNat_true,Bool.toNat_false]
    omega
  · simp only [List.length_append,List.length_singleton]
    omega

theorem run_count {es : List Event} (hrun : run t.step s es = some u) :
    u.results.length+u.closed.toNat+s.pending.length =
      s.results.length+s.closed.toNat+u.pending.length+es.length := by
  induction es generalizing s with
  | nil =>
    obtain rfl := Option.some.inj hrun
    rw [List.length_nil]
    omega
  | cons e es ih =>
    obtain ⟨v,hv,hrest⟩ := (run_cons s u e es).mp hrun
    have hfirst := step_count hv
    have hothers := ih hrest
    rw [List.length_cons]
    omega

/-- A run comes to its end. -/
theorem run_length (hp : p.Lawful) {es : List Event} (hrun : run t.step t.start es = some u) :
    es.length ≤ t.blocks.length+t.messages.length+2 := by
  obtain ⟨done,rest,hat⟩ := Reached.at hp ⟨es,hrun⟩
  have hcount := run_count hrun
  have hclosed := Bool.toNat_le u.closed
  have hresults : u.results.length ≤ done.length+1 := by
    rw [hat.results,List.length_append,List.length_map]
    split_ifs <;> simp
  have hblocks := congrArg List.length hat.blocks
  rw [List.length_append] at hblocks
  rw [hat.messages,List.length_append]
  simp only [start,List.length_nil,Bool.toNat_false] at hcount
  omega

end
end Traffic
end CodecServer
