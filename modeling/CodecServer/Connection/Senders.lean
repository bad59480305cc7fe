import Mathlib.Logic.Function.Basic
import CodecServer.Connection.Sending
import CodecServer.Transition

/-! The two threads that call `sendMessage` on a connection of the server. Each call has a stream of
its own, and there is no lock: their `write` calls come in any order. -/
namespace CodecServer
open CodecServer.Transition

/-- The loop that answers the client, and the loop that passes on what the codec has put out. -/
inductive Sender
  | main
  | reader
  deriving Repr, DecidableEq

def Sender.other : Sender → Sender
  | main => reader
  | reader => main

theorem Sender.other_ne (sender : Sender) : sender.other ≠ sender := by
  cases sender <;> decide

theorem Sender.other_other (sender : Sender) : sender.other.other = sender := by
  cases sender <;> rfl

theorem Sender.eq_or_other (sender x : Sender) : x = sender ∨ x = sender.other := by
  cases x <;> cases sender <;> decide

namespace Senders

/-- A call of `sendMessage`: the writes that it has made and those that it has still to make. -/
structure Call (p : Protobuf) where
  message : p.Message
  done : List (List (BitVec 8))
  left : List (List (BitVec 8))
  flatten_eq : (done ++ left).flatten = p.frame message

/-- The bytes that the client sees, the call that a sender is in, and the messages for which a call
has returned. -/
structure State (p : Protobuf) where
  stream : List (BitVec 8) := []
  calls : Sender → Option (Call p) := fun _ => none
  sent : Sender → List p.Message := fun _ => []

/-- `sendMessage` is called; a call makes its next write. -/
inductive Event (p : Protobuf)
  | send (sender : Sender) (message : p.Message)
  | write (sender : Sender)

variable {p : Protobuf}

namespace Call

def new (o : OutStream) (m : p.Message) : Call p where
  message := m
  done := []
  left := o.writes (p.frame m)
  flatten_eq := o.writes_flatten (p.frame m)

/-- The next write is made. -/
def next (call : Call p) (block : List (BitVec 8)) (left : List (List (BitVec 8)))
    (h : call.left = block::left) : Call p where
  message := call.message
  done := call.done ++ [block]
  left := left
  flatten_eq := by rw [List.append_assoc,List.singleton_append,← h,call.flatten_eq]

end Call

namespace State

/-- What a sender has written of the message of its call. -/
def written (s : State p) (sender : Sender) : List (BitVec 8) :=
  (s.calls sender).elim [] fun call => call.done.flatten

end State

/-- Messages of 2^31 bytes and more are refused. -/
def step (o : OutStream) (s : State p) : Event p → Option (State p)
  | .send sender m =>
    if (p.sendMessage m).2 ∧ (s.calls sender).isNone then
      some {s with calls := Function.update s.calls sender (some (Call.new o m))}
    else none
  | .write sender =>
    match s.calls sender with
    | none => none
    | some call =>
      match h : call.left with
      | [] => none
      | block::left =>
        if left = [] then
          some
            { stream := s.stream ++ block
              calls := Function.update s.calls sender none
              sent := Function.update s.sent sender (s.sent sender ++ [call.message]) }
        else
          some
            { s with
              stream := s.stream ++ block
              calls := Function.update s.calls sender (some (call.next block left h)) }

/-- The messages of a sender, in an order of the messages of both. -/
def messagesOf (sender : Sender) (order : List (Sender × p.Message)) : List p.Message :=
  (order.filter fun entry => entry.1 = sender).map Prod.snd

/-- The client sees whole frames, one for each message that was sent, the messages of each sender in
order, and behind them at most the beginning of one further frame. -/
def Whole (s : State p) : Prop :=
  ∃ order : List (Sender × p.Message), (∀ sender, messagesOf sender order = s.sent sender) ∧
    ∃ writing : Sender,
      s.stream = order.flatMap (fun entry => p.frame entry.2) ++ s.written writing ∧
      s.written writing.other = []

/-- A sender writes only when the other is not between two writes of a frame. -/
def Apart (s : State p) : Event p → Prop
  | .send _ _ => True
  | .write sender => s.written sender.other = []

section Step
variable {o : OutStream} {s t : State p} {sender : Sender}

theorem written_none (h : s.calls sender = none) : s.written sender = [] := by
  rw [State.written,h]
  rfl

theorem written_some {call : Call p} (h : s.calls sender = some call) :
    s.written sender = call.done.flatten := by
  rw [State.written,h]
  rfl

theorem written_congr (h : t.calls sender = s.calls sender) :
    t.written sender = s.written sender := by
  rw [State.written,State.written,h]

theorem step_send_eq {m : p.Message} (hm : (p.sendMessage m).2) (hcall : s.calls sender = none) :
    step o s (.send sender m) =
      some {s with calls := Function.update s.calls sender (some (Call.new o m))} := by
  apply if_pos
  rw [hcall]
  exact ⟨hm,rfl⟩

theorem step_write_eq {call : Call p} {block : List (BitVec 8)} {left : List (List (BitVec 8))}
    (hcall : s.calls sender = some call) (hleft : call.left = block::left) :
    step o s (.write sender) =
      if left = [] then
        some
          { stream := s.stream ++ block
            calls := Function.update s.calls sender none
            sent := Function.update s.sent sender (s.sent sender ++ [call.message]) }
      else
        some
          { s with
            stream := s.stream ++ block
            calls := Function.update s.calls sender (some (call.next block left hleft)) } := by
  simp only [step,hcall]
  split
  · rename_i hnil
    rw [hleft] at hnil
    cases hnil
  · rename_i block' left' hcons
    cases hleft.symm.trans hcons
    rfl

/-- A call that begins has written nothing. -/
theorem step_send {m : p.Message} (h : step o s (.send sender m) = some t) :
    t.stream = s.stream ∧ t.sent = s.sent ∧ t.written = s.written := by
  simp only [step] at h
  split_ifs at h with hcall
  cases h
  refine ⟨rfl,rfl,?_⟩
  funext y
  by_cases hy : y = sender
  · subst hy
    rw [written_none (Option.isNone_iff_eq_none.mp hcall.2)]
    change _ = (Call.new o m).done.flatten
    exact written_some (Function.update_self ..)
  · exact written_congr (Function.update_of_ne hy _ _)

/-- A write takes the frame of the sender's message on, and the call returns when it is complete. -/
theorem step_write (h : step o s (.write sender) = some t) :
    ∃ block, t.stream = s.stream ++ block ∧
      t.written sender.other = s.written sender.other ∧ t.sent sender.other = s.sent sender.other ∧
      ((∃ m, s.written sender ++ block = p.frame m ∧ t.written sender = [] ∧
          t.sent sender = s.sent sender ++ [m]) ∨
        (t.written sender = s.written sender ++ block ∧ t.sent sender = s.sent sender)) := by
  have hother := sender.other_ne
  cases hcall : s.calls sender with
  | none =>
    simp only [step,hcall] at h
    cases h
  | some call =>
    have hwritten := written_some hcall
    cases hleft : call.left with
    | nil =>
      simp only [step,hcall] at h
      split at h
      · cases h
      · rename_i hcons
        rw [hleft] at hcons
        cases hcons
    | cons block left =>
      rw [step_write_eq hcall hleft] at h
      refine ⟨block,?_⟩
      split_ifs at h with hlast
      · cases h
        refine ⟨rfl,?_,?_,Or.inl ⟨call.message,?_,?_,?_⟩⟩
        · exact written_congr (Function.update_of_ne hother _ _)
        · exact Function.update_of_ne hother _ _
        · rw [hwritten,← call.flatten_eq,hleft,hlast,List.flatten_append,List.flatten_singleton]
        · exact written_none (Function.update_self ..)
        · exact Function.update_self ..
      · cases h
        refine ⟨rfl,?_,rfl,Or.inr ⟨?_,rfl⟩⟩
        · exact written_congr (Function.update_of_ne hother _ _)
        · rw [hwritten,written_some (Function.update_self ..)]
          simp [Call.next]

theorem messagesOf_concat (order : List (Sender × p.Message)) (writer : Sender) (m : p.Message) :
    messagesOf sender (order ++ [(writer,m)]) =
      if writer = sender then messagesOf sender order ++ [m] else messagesOf sender order := by
  simp only [messagesOf,List.filter_append,List.map_append]
  by_cases hwriter : writer = sender
  · simp [hwriter]
  · simp [hwriter]

/-- While a sender writes, only that one can have written a part of a frame. -/
theorem Whole.of_apart (h : Whole s) (hapart : s.written sender.other = []) :
    ∃ order : List (Sender × p.Message), (∀ sender, messagesOf sender order = s.sent sender) ∧
      s.stream = order.flatMap (fun entry => p.frame entry.2) ++ s.written sender := by
  obtain ⟨order,horder,writing,hstream,hnothing⟩ := h
  refine ⟨order,horder,?_⟩
  rcases sender.eq_or_other writing with rfl | rfl
  · exact hstream
  · rw [Sender.other_other] at hnothing
    rw [hstream,hapart,hnothing]

theorem whole_step {e : Event p} (h : Whole s) (hapart : Apart s e) (hstep : step o s e = some t) :
    Whole t := by
  cases e with
  | send sender m =>
    obtain ⟨hstream,hsent,hwritten⟩ := step_send hstep
    rw [Whole,hstream,hsent,hwritten]
    exact h
  | write sender =>
    obtain ⟨order,horder,hstream⟩ := h.of_apart hapart
    obtain ⟨block,hblock,hother,hsent,hnext⟩ := step_write hstep
    rw [hstream,List.append_assoc] at hblock
    have hnothing : t.written sender.other = [] := hother.trans hapart
    rcases hnext with ⟨m,hframe,hdone,hmessage⟩ | ⟨hmore,hsame⟩
    · refine ⟨order ++ [(sender,m)],?_,sender,?_,hnothing⟩
      · intro x
        rw [messagesOf_concat]
        rcases sender.eq_or_other x with rfl | rfl
        · rw [if_pos rfl,horder,hmessage]
        · rw [if_neg sender.other_ne.symm,horder,hsent]
      · rw [hblock,hframe,hdone,List.flatMap_append,List.flatMap_singleton,List.append_nil]
    · refine ⟨order,?_,sender,?_,hnothing⟩
      · intro x
        rw [horder]
        rcases sender.eq_or_other x with rfl | rfl
        · exact hsame.symm
        · exact hsent.symm
      · rw [hblock,hmore]

end Step

theorem whole_start : Whole ({} : State p) := by
  refine ⟨[],?_,.main,rfl,rfl⟩
  intro sender
  rfl

section Run
variable {o : OutStream} {es : List (Event p)}

theorem frame_ne_nil (m : p.Message) : p.frame m ≠ [] := by
  have hpos := Varint.write_length_pos (p.serialize (p.packFrom m)).length
  rw [← List.length_pos_iff,Protobuf.frame,List.length_append]
  omega

/-- Every call makes one write, and that is still to be made. -/
def Single (s : State p) : Prop :=
  ∀ sender call, s.calls sender = some call → call.done = [] ∧ ∃ block, call.left = [block]

theorem Single.apart {s : State p} (h : Single s) (e : Event p) : Apart s e := by
  cases e with
  | send sender m => trivial
  | write sender =>
    change s.written sender.other = []
    cases hcall : s.calls sender.other with
    | none => exact written_none hcall
    | some call =>
      rw [written_some hcall,(h _ _ hcall).1]
      rfl

theorem single_step {s t : State p} {e : Event p} (h : Single s)
    (hfits : ∀ sender m, e = .send sender m → (p.frame m).length ≤ o.block)
    (hstep : step o s e = some t) : Single t := by
  cases e with
  | send sender m =>
    simp only [step] at hstep
    split_ifs at hstep with hcall
    cases hstep
    intro x call hx
    change Function.update s.calls sender (some (Call.new o m)) x = some call at hx
    by_cases hsender : x = sender
    · subst hsender
      rw [Function.update_self] at hx
      cases hx
      exact ⟨rfl,p.frame m,o.writes_of_le (frame_ne_nil m) (hfits x m rfl)⟩
    · rw [Function.update_of_ne hsender] at hx
      exact h x call hx
  | write sender =>
    cases hcall : s.calls sender with
    | none =>
      simp only [step,hcall] at hstep
      cases hstep
    | some call =>
      obtain ⟨-,block,hleft⟩ := h sender call hcall
      rw [step_write_eq hcall hleft,if_pos rfl] at hstep
      cases hstep
      intro x call' hx
      change Function.update s.calls sender none x = some call' at hx
      by_cases hsender : x = sender
      · subst hsender
        rw [Function.update_self] at hx
        cases hx
      · rw [Function.update_of_ne hsender] at hx
        exact h x call' hx

/-- When all messages fit into a block, no sender is ever between two writes of a frame. -/
theorem meets_apart_of_fits
    (hfits : ∀ sender m, Event.send sender m ∈ es → (p.frame m).length ≤ o.block) {s : State p}
    (hs : Single s) : Meets (step o) Apart s es := by
  induction es generalizing s with
  | nil => trivial
  | cons e es ih =>
    refine ⟨hs.apart e,?_⟩
    intro t ht
    apply ih
    · intro sender m hm
      exact hfits sender m (List.mem_cons_of_mem _ hm)
    · refine single_step hs ?_ ht
      rintro sender m rfl
      exact hfits sender m (List.mem_cons_self ..)

/-- As long as no sender writes between two writes of the other, the client sees whole frames. -/
theorem always_whole_of_apart (h : Meets (step o) Apart ({} : State p) es) :
    Always (step o) Whole ({} : State p) es :=
  always_of_meets (fun _ _ _ hwhole hapart hstep => whole_step hwhole hapart hstep) whole_start h

/-- Two messages that fit, the second written before the first. -/
theorem always_whole_of_apart_small : Always (step .file) Whole ({} : State WireFormat.protobuf)
    [.send .main ⟨[0x78],[]⟩,.send .reader ⟨[0x79],[]⟩,.write .reader,.write .main] := by
  refine always_whole_of_apart (meets_apart_of_fits ?_ ?_)
  · intro sender m hm
    simp only [List.mem_cons,reduceCtorEq,List.not_mem_nil,or_false] at hm
    rcases hm with ⟨-,rfl⟩ | ⟨-,rfl⟩
    · decide
    · decide
  · rintro sender call ⟨⟩

/-- A message that does not fit is written in several blocks, and a frame that falls behind the first
of them is taken for a part of it. -/
theorem not_whole_between {M m : p.Message} (hM : (p.sendMessage M).2) (hm : (p.sendMessage m).2)
    (hlong : o.block < (p.frame M).length) (hshort : (p.frame m).length ≤ o.block)
    (hhead : (p.frame M).head? ≠ (p.frame m).head?) :
    ¬ Always (step o) Whole ({} : State p)
      [.send .reader M,.write .reader,.send .main m,.write .main] := by
  intro h
  obtain ⟨next,left,hwrites⟩ := o.writes_of_lt hlong
  have hlong' : (Call.new o M).left = (p.frame M).take o.block::next::left := hwrites
  have hshort' : (Call.new o m).left = [p.frame m] := o.writes_of_le (frame_ne_nil m) hshort
  have hcalled := h.2 _ (step_send_eq hM rfl)
  have hfirst := hcalled.2 _ ((step_write_eq rfl hlong').trans (if_neg (List.cons_ne_nil _ _)))
  have hother := hfirst.2 _ (step_send_eq hm rfl)
  have hlast := hother.2 _ ((step_write_eq rfl hshort').trans (if_pos rfl))
  obtain ⟨order,horder,writing,hstream,-⟩ := hlast
  have hmain : messagesOf .main order = [m] := horder .main
  have hreader : messagesOf .reader order = [] := horder .reader
  change (p.frame M).take o.block ++ p.frame m =
    order.flatMap (fun entry => p.frame entry.2) ++ _ at hstream
  cases order with
  | nil => cases hmain
  | cons entry rest =>
    obtain ⟨sender,m'⟩ := entry
    cases sender with
    | reader => cases hreader
    | main =>
      obtain rfl := (List.cons.inj hmain).1
      apply hhead
      have hblock : o.block ≠ 0 := Nat.ne_of_gt o.block_pos
      have hne : (p.frame M).take o.block ≠ [] :=
        mt List.take_eq_nil_iff.mp (not_or.mpr ⟨hblock,frame_ne_nil M⟩)
      have heq := congrArg List.head? hstream
      rw [List.flatMap_cons,List.append_assoc,List.head?_append_of_ne_nil _ (frame_ne_nil m'),
        List.head?_append_of_ne_nil _ hne,List.head?_take,if_neg hblock] at heq
      exact heq

/-- The reader loop passes on ten thousand bytes while the main loop answers. -/
theorem not_always_whole_long : ¬ Always (step .file) Whole ({} : State WireFormat.protobuf)
    [.send .reader ⟨[0x79],List.replicate 10000 0⟩,.write .reader,.send .main ⟨[0x78],[]⟩,
      .write .main] := by
  let long : WireFormat.Packed := ⟨[0x79],List.replicate 10000 0⟩
  have hdata : List.replicate 10000 (0 : BitVec 8) ≠ [] :=
    List.ne_nil_of_length_pos (by rw [List.length_replicate]; decide)
  have hparts : long.toAny.parts = [(1,WireFormat.typeUrlPrefix ++ [0x79]),
      (2,List.replicate 10000 0)] := WireFormat.parts_of_ne (List.cons_ne_nil _ _) hdata
  have hlen : long.toAny.serialize.length = 10026 := by
    rw [WireFormat.Any.serialize,hparts]
    simp only [List.flatMap_cons,List.flatMap_nil,WireFormat.bytesField,List.length_append,
      List.length_replicate]
    decide
  have hframe : WireFormat.protobuf.frame long =
      Varint.write 10026 ++ long.toAny.serialize := by
    rw [← hlen]
    rfl
  apply not_whole_between
  · apply congrArg Prod.snd (Protobuf.sendMessage_of_lt _)
    change long.toAny.serialize.length < 2^31
    rw [hlen]
    decide
  · decide
  · rw [hframe,List.length_append,hlen]
    decide
  · decide
  · rw [hframe,List.head?_append_of_ne_nil _ (by decide)]
    decide

end Run

end Senders
end CodecServer
