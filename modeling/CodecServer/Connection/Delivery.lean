import CodecServer.Connection.Traffic
import CodecServer.Connection.WireFormat

/-! When the messages that are sent are received: each as soon as it is there, and all of them in the
end. -/
namespace CodecServer.Traffic
open CodecServer.Transition
variable {p : Protobuf} (t : Traffic p)

/-- No call waits while a message is complete in the bytes that were read. -/
def Prompt : Prop := ∀ s, t.Reached s → s.Waits → complete s.input.backup = false

/-- A read delivers the last bytes of two messages. -/
def Batched : Prop :=
  ∃ front block back done m rest, t.blocks = front ++ block::back ∧ t.messages = done ++ m::rest ∧
    front.flatten.length < (p.frames done).length ∧
    (p.frames (done ++ [m])).length ≤ (front ++ [block]).flatten.length

/-- The results are the first messages, wrapped in `Any`, and the bytes of the others are left,
none if the last result is `nullptr`. -/
def Delivered (s : State p) : Prop :=
  ∃ done rest, t.messages = done ++ rest ∧
    s.results = done.map (some ∘ p.packFrom) ++ (if s.finished then [none] else []) ∧
    s.input.content ++ s.pending.flatten = p.frames rest ∧ (s.finished = true → rest = [])

/-- The results are all messages, wrapped in `Any`, and `nullptr` if the peer closes the
connection. -/
def AllDelivered (s : State p) : Prop :=
  s.results = t.messages.map (some ∘ p.packFrom) ++ (if t.closes then [none] else [])

/-- Each result is the next message, for which its bytes are used, until all are delivered. -/
def RoundTrips : Prop :=
  ∀ s, t.Reached s → t.Delivered s ∧ (t.Final s → t.AllDelivered s)

/-- The last read delivers the last bytes of two messages. -/
def EndsBatched : Prop :=
  ∃ front block done m rest, t.blocks = front ++ [block] ∧ t.messages = done ++ m::rest ∧
    front.flatten.length < (p.frames done).length

section
variable {t} {s u : State p} {done rest : List p.Message} {m : p.Message}

theorem At.delivered (h : t.At s done rest) : t.Delivered s :=
  ⟨done,rest,h.messages,h.results,h.unread,fun hfinished => (h.finished hfinished).1⟩

/-- Everything has been delivered in a state where nothing can happen, unless a message is held back
behind the last one. -/
theorem At.allDelivered (h : t.At s done rest) (hfinal : t.Final s)
    (hends : t.closes = true ∨ ¬ t.EndsBatched) : t.AllDelivered s := by
  obtain ⟨hpending,hcloses,hreceive⟩ := final_iff.mp hfinal
  cases hclosed : s.closed with
  | true =>
    have hfinished : s.finished = true := by
      by_contra hfinished
      have := (hreceive (Bool.eq_false_iff.mpr hfinished) (Or.inr hclosed)).2
      rw [hclosed] at this
      cases this
    rw [AllDelivered,h.results,h.messages,(h.finished hfinished).1,List.append_nil,hfinished,
      (h.closed hclosed).1]
  | false =>
    have hnot : t.closes = false := by
      rw [← Bool.not_eq_true] at hclosed ⊢
      exact fun h => hclosed (hcloses h)
    have hfinished := h.not_finished hclosed
    cases rest with
    | nil => rw [AllDelivered,h.results,h.messages,List.append_nil,hfinished,hnot]
    | cons m rest =>
      have hc := h.complete_of_pending hpending
      have hblocks : s.input.blocks = [] := by
        by_contra hblocks
        have := (hreceive hfinished (Or.inl hblocks)).1
        rw [hc] at this
        cases this
      have hbackup : s.input.backup ≠ [] := by
        intro hbackup
        rw [content_of_blocks hblocks,hbackup] at hc
        cases hc
      obtain ⟨front,block,-,hlast,hfront⟩ := h.exists_last_block hblocks hbackup
      rw [hpending] at hlast
      have hbatched : t.EndsBatched := ⟨front,block,done,m,rest,hlast,h.messages,hfront⟩
      rw [hnot] at hends
      exact absurd hbatched (hends.resolve_left Bool.false_ne_true)

theorem Batched.not_prompt (hp : p.Lawful) (h : t.Batched) : ¬ t.Prompt := by
  obtain ⟨front,block,back,done,m,rest,hblocks,hmessages,hfront,hends⟩ := h
  intro hprompt
  rw [frames_append,frames_singleton,List.length_append] at hends
  have hready : ∀ u, t.Reached u → u.pending = back → u.closed = false →
      complete u.input.content = true → u.input.blocks ≠ [] := by
    intro u hu _ hclosed hc hnil
    obtain ⟨done,rest,hat⟩ := hu.at hp
    have := hprompt u hu ⟨hat.not_finished hclosed,not_readable_iff.mpr ⟨hnil,hclosed⟩⟩
    rw [content_of_blocks hnil,this] at hc
    cases hc
  obtain ⟨s,hs,hat,hpending,hclosed,hnil⟩ :=
    exists_held hp hblocks hmessages hfront (by omega) hready
  have hread := hat.blocks
  rw [hpending,hnil,hblocks,List.append_nil,← List.singleton_append,← List.append_assoc] at hread
  have hlength := hat.backup_length
  rw [List.append_cancel_right hread,← content_of_blocks hnil] at hlength
  have hc := hat.complete_iff.mpr (by omega)
  exact hready s hs hpending hclosed hc hnil

theorem batched_of_held (hp : p.Lawful) (hs : t.Reached s) (hwaits : s.Waits)
    (hc : complete s.input.backup = true) : t.Batched := by
  obtain ⟨hnil,-⟩ := not_readable_iff.mp hwaits.2
  obtain ⟨done,rest,hat⟩ := hs.at hp
  have hbackup : s.input.backup ≠ [] := by
    intro hbackup
    rw [hbackup] at hc
    cases hc
  rw [← content_of_blocks hnil] at hc
  obtain ⟨m,rest,rfl⟩ := hat.exists_of_complete hc
  have hlen := hat.complete_iff.mp hc
  obtain ⟨front,block,hread,hblocks,hfront⟩ := hat.exists_last_block hnil hbackup
  refine ⟨front,block,s.pending,done,m,rest,hblocks,hat.messages,hfront,?_⟩
  rw [frames_append,frames_singleton,List.length_append,← hread,hat.backup_length,
    ← content_of_blocks hnil]
  omega

theorem EndsBatched.not_roundTrips (hp : p.Lawful) (h : t.EndsBatched) (hcloses : ¬ t.closes = true) :
    ¬ t.RoundTrips := by
  obtain ⟨front,block,done,m,rest,hblocks,hmessages,hfront⟩ := h
  intro htrips
  have hready : ∀ u, t.Reached u → u.pending = [] → u.closed = false →
      complete u.input.content = true → u.input.blocks ≠ [] := by
    intro u hu hpending hclosed hc hnil
    obtain ⟨done,rest,hat⟩ := hu.at hp
    obtain ⟨m,rest,rfl⟩ := hat.exists_of_complete hc
    have hfinal : t.Final u := final_iff.mpr ⟨hpending,fun h => absurd h hcloses,
      fun _ h => absurd h (not_readable_iff.mpr ⟨hnil,hclosed⟩)⟩
    have hall := (htrips u hu).2 hfinal
    rw [AllDelivered,hat.results,hat.not_finished hclosed,if_neg Bool.false_ne_true,if_neg hcloses,
      hat.messages] at hall
    have := congrArg List.length hall
    simp at this
  have hdone : (p.frames done).length ≤ (front ++ [block]).flatten.length := by
    rw [← hblocks,t.flatten,hmessages,frames_append,List.length_append]
    omega
  obtain ⟨s,hs,hat,hpending,hclosed,hnil⟩ := exists_held hp hblocks hmessages hfront hdone hready
  exact hready s hs hpending hclosed (hat.complete_of_pending hpending) hnil

end

/-- No call of `receiveMessage` waits in `poll` for a message that it has exactly if no read
delivers the ends of two messages. -/
theorem prompt_iff {p : Protobuf} (hp : p.Lawful) (t : Traffic p) : t.Prompt ↔ ¬ t.Batched := by
  constructor
  · exact fun hprompt hbatched => hbatched.not_prompt hp hprompt
  · intro hbatched s hs hwaits
    rw [← Bool.not_eq_true]
    exact fun hc => hbatched (batched_of_held hp hs hwaits hc)

/-- A `Check` for the codec `ambe`. -/
def check : WireFormat.protobuf.Message where
  name := [0x43,0x6f,0x64,0x65,0x63,0x53,0x65,0x72,0x76,0x65,0x72,0x2e,0x70,0x72,0x6f,0x74,0x6f,0x2e,
    0x43,0x68,0x65,0x63,0x6b]
  data := [0x0a,0x04,0x61,0x6d,0x62,0x65]

/-- Two checks, of which one read delivers the first and a part of the second. -/
def apart : Traffic WireFormat.protobuf where
  messages := [check,check]
  blocks :=
    [(WireFormat.protobuf.frames [check,check]).take 56,
      (WireFormat.protobuf.frames [check,check]).drop 56]
  closes := false
  sent := by simp [show (WireFormat.protobuf.sendMessage check).2 = true from rfl]
  nonempty := by decide
  flatten := by simp

/-- Two checks that one read delivers. -/
def together : Traffic WireFormat.protobuf where
  messages := [check,check]
  blocks := [WireFormat.protobuf.frames [check,check]]
  closes := false
  sent := by simp [show (WireFormat.protobuf.sendMessage check).2 = true from rfl]
  nonempty := by decide
  flatten := by simp

theorem pair_eq_append {α : Type} {a b x : α} {before after : List α}
    (h : [a,b] = before ++ x::after) : (before = [] ∧ x = a) ∨ (before = [a] ∧ x = b) := by
  cases before with
  | nil => exact Or.inl ⟨rfl,(List.cons.inj h).1.symm⟩
  | cons y before =>
    obtain ⟨rfl,htail⟩ := List.cons.inj h
    cases before with
    | nil => exact Or.inr ⟨rfl,(List.cons.inj htail).1.symm⟩
    | cons z before => simp at htail

theorem not_endsBatched_apart : ¬ apart.EndsBatched := by
  intro ⟨front,block,done,m,rest,hblocks,hmessages,hfront⟩
  cases pair_eq_append hblocks with
  | inl hnil =>
    rw [hnil.1] at hblocks
    cases hblocks
  | inr hone =>
    rw [hone.1] at hfront
    cases pair_eq_append hmessages with
    | inl hdone => exact Nat.not_lt_zero _ (hdone.1 ▸ hfront)
    | inr hdone =>
      rw [hdone.1] at hfront
      exact absurd hfront (by decide)

theorem not_batched_apart : ¬ apart.Batched := by
  intro ⟨front,block,back,done,m,rest,hblocks,hmessages,hfront,hends⟩
  cases pair_eq_append hmessages with
  | inl hdone => exact Nat.not_lt_zero _ (hdone.1 ▸ hfront)
  | inr hdone =>
    rw [hdone.1,hdone.2] at hends
    rw [hdone.1] at hfront
    cases pair_eq_append hblocks with
    | inl hblock =>
      rw [hblock.1,hblock.2] at hends
      exact absurd hends (by decide)
    | inr hblock =>
      rw [hblock.1] at hfront
      exact absurd hfront (by decide)

theorem prompt_iff_apart : apart.Prompt :=
  (prompt_iff WireFormat.lawful apart).mpr not_batched_apart

/-- The second check is in the stream's buffer, and the call waits for a third. -/
theorem not_prompt_together :
    ¬ ∀ p : Protobuf, p.Lawful → ∀ t : Traffic p, t.Prompt := by
  intro h
  refine Batched.not_prompt WireFormat.lawful ?_ (h _ WireFormat.lawful together)
  exact ⟨[],_,[],[check],check,[],rfl,rfl,by decide,by simp⟩

/-- Every message is received, in order, exactly if the peer closes the connection in the end or the
last read does not deliver the ends of two messages. A run comes to its end. -/
theorem roundTrips_iff {p : Protobuf} (hp : p.Lawful) (t : Traffic p) :
    (t.RoundTrips ↔ t.closes = true ∨ ¬ t.EndsBatched) ∧
      ∀ es s, run t.step t.start es = some s →
        es.length ≤ t.blocks.length+t.messages.length+2 := by
  refine ⟨⟨fun h => ?_,fun hends s hs => ?_⟩,fun es s => run_length hp⟩
  · by_contra hnot
    obtain ⟨hcloses,hbatched⟩ := not_or.mp hnot
    exact (not_not.mp hbatched).not_roundTrips hp hcloses h
  · obtain ⟨done,rest,hat⟩ := hs.at hp
    exact ⟨hat.delivered,fun hfinal => hat.allDelivered hfinal hends⟩

theorem roundTrips_iff_apart : apart.RoundTrips :=
  (roundTrips_iff WireFormat.lawful apart).1.mpr (Or.inr not_endsBatched_apart)

theorem not_roundTrips_together :
    ¬ ∀ p : Protobuf, p.Lawful → ∀ t : Traffic p, t.RoundTrips := by
  intro h
  refine EndsBatched.not_roundTrips WireFormat.lawful ?_ Bool.false_ne_true
    (h _ WireFormat.lawful together)
  exact ⟨[],_,[check],check,[],rfl,rfl,by decide⟩

end CodecServer.Traffic
