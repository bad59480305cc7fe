import CodecServer.Ambe3K.Isolation

/-! What a session gets out of the device in the end, whatever other sessions do: the replies to what
was still underway for its channel, and then those to its own data, in order and without gaps. -/
namespace CodecServer.Ambe3K.Transcoding
open Function CodecServer.Transition CodecServer.Ambe3K.Protocol
open CodecServer.Ambe3K.Isolation (Submission Reply Client Reader Answers forall_set)

/-- Data for the channel at a position. -/
def IsFor (j : ℕ) (x : Submission) : Prop := x.packet.type ≠ .control ∧ x.packet.channelNo.toNat = j

/-- Data of a session. -/
def IsOf (k : ℕ) (x : Submission) : Prop := x.packet.type ≠ .control ∧ x.session = k

instance (j : ℕ) : DecidablePred (IsFor j) := fun _ => inferInstanceAs (Decidable (_ ∧ _))
instance (k : ℕ) : DecidablePred (IsOf k) := fun _ => inferInstanceAs (Decidable (_ ∧ _))

section
variable (s : Isolation.State)

/-- The data for a channel whose answers have not been handed over. -/
def waiting (j : ℕ) : List Submission := (QueueWorker.unanswered s.worker).filter (IsFor j)

def own (k : ℕ) : List Submission := s.worker.pushed.filter (IsOf k)

def channelOf (k : ℕ) : Option ℕ := (s.clients k).map Client.channel

def queueAt (j : ℕ) : Option (BlockingQueue Reply) := s.device.channels[j]?.bind Channel.outQueue

/-- The session that the channel of a session was last reserved for. -/
def reservation (k : ℕ) : Option ℕ := (channelOf s k).bind s.holder

end

/-- A reply that a reader got, with the session that the queue had been reserved for. -/
structure Passage where
  reader : ℕ
  reservedBy : Option ℕ
  reply : Reply

/-- The sessions of a device, with a record of what has come out of its queues, and of what was
underway for the channel of a session when it began. -/
structure State where
  base : Isolation.State
  passages : List Passage := []
  before : ℕ → List Submission := fun _ => []

namespace State

def record (s : State) (base : Isolation.State) : Isolation.Event → State
  | .startSession k _ _ =>
    {s with base := base, before := update s.before k ((channelOf base k).elim [] (waiting base))}
  | .pop k =>
    { s with
      base := base
      passages := s.passages ++ (base.returned.drop s.base.returned.length).map fun r =>
        ⟨r.1,reservation s.base k,r.2⟩ }
  | _ => {s with base := base}

def step (s : State) (e : Isolation.Event) : Option State :=
  (s.base.step e).map fun base => s.record base e

/-- What the replies answer that have come out of the queue reserved for a session. -/
def passed (s : State) (k : ℕ) : List Submission :=
  (s.passages.filter fun p => p.reservedBy = some k).map fun p => p.reply.submission

end State

/-! What holds of the device and its sessions in any case. -/

structure ChannelSound (clients : ℕ → Option Client) (j : ℕ) (c : Channel Reply) : Prop where
  index : c.index.toNat = j
  busy : ∀ k a, clients k = some a → a.live = true → a.channel = j → c.busy = true
  answers : ∀ q, c.outQueue = some q → ∀ r ∈ q.items, Answers r.submission.packet r.packet

structure ClientSound (holder : ℕ → Option ℕ) (k : ℕ) (a : Client) : Prop where
  holds : a.live = true → holder a.channel = some k
  setups : ∀ packet ∈ a.pending, packet.type = .control

structure Sound (s : Isolation.State) : Prop where
  worker : QueueWorker.Inv s.worker
  channels : ∀ j c, s.device.channels[j]? = some c → ChannelSound s.clients j c
  clients : ∀ k a, s.clients k = some a → ClientSound s.holder k a
  holders : ∀ j k, s.holder j = some k → channelOf s k = some j
  known : ∀ x ∈ s.worker.pushed, channelOf s x.session ≠ none
  inReceipt : ∀ r ∈ QueueWorker.inReceipt s.worker,
    s.worker.pushed[s.worker.received.length]? = some r.submission ∧
      Answers r.submission.packet r.packet

/-- How the base may go on while nothing comes out of the queues and no session begins. -/
structure Advance (s t : Isolation.State) : Prop where
  channels : channelOf t = channelOf s
  returned : t.returned = s.returned
  own : ∀ k, own s k <+: own t k
  flow : ∀ k j q, t.holder j = some k → queueAt t j = some q → ∃ q' more,
    s.holder j = some k ∧ queueAt s j = some q' ∧ Transcoding.own t k = Transcoding.own s k ++ more ∧
    q.items.map Reply.submission ++ waiting t j =
      q'.items.map Reply.submission ++ waiting s j ++ more

/-- What comes out of the queue that was reserved for a session. -/
structure Flow (s : State) : Prop where
  order : ∀ k, s.passed k <+: s.before k ++ own s.base k
  all : ∀ k j q, s.base.holder j = some k → queueAt s.base j = some q →
    s.before k ++ own s.base k =
      s.passed k ++ (q.items.map Reply.submission ++ waiting s.base j)
  others : ∀ k, ∀ x ∈ s.before k, x.session ≠ k
  known : ∀ p ∈ s.passages, ∀ k, p.reservedBy = some k → channelOf s.base k ≠ none
  returned : s.base.returned = s.passages.map fun p => (p.reader,p.reply)
  answers : ∀ p ∈ s.passages, Answers p.reply.submission.packet p.reply.packet

theorem flow_of_advance {s : State} {base : Isolation.State} (hs : Flow s)
    (h : Advance s.base base) : Flow {s with base := base} where
  order k := (hs.order k).trans ((List.prefix_append_right_inj _).mpr (h.own k))
  all k j q hholder hqueue := by
    obtain ⟨q',more,hholder',hqueue',hown,hflow⟩ := h.flow k j q hholder hqueue
    have hall := hs.all k j q' hholder' hqueue'
    change s.before k ++ own base k = s.passed k ++ _
    rw [hown,hflow,← List.append_assoc,hall]
    simp only [List.append_assoc]
  others := hs.others
  known p hp k hk := by
    rw [h.channels]
    exact hs.known p hp k hk
  returned := h.returned.trans hs.returned
  answers := hs.answers

section
variable {s t u : Isolation.State} {k : ℕ} {a : Client}

theorem Advance.refl (s : Isolation.State) : Advance s s where
  channels := rfl
  returned := rfl
  own _ := List.prefix_rfl
  flow _ _ q hholder hqueue := ⟨q,[],hholder,hqueue,by simp,by simp⟩

theorem Advance.trans (h : Advance s t) (h' : Advance t u) : Advance s u where
  channels := h'.channels.trans h.channels
  returned := h'.returned.trans h.returned
  own k := (h.own k).trans (h'.own k)
  flow k j q hholder hqueue := by
    obtain ⟨q',more',hholder',hqueue',hown',hflow'⟩ := h'.flow k j q hholder hqueue
    obtain ⟨q'',more,hholder'',hqueue'',hown,hflow⟩ := h.flow k j q' hholder' hqueue'
    refine ⟨q'',more ++ more',hholder'',hqueue'',?_,?_⟩
    · rw [hown',hown,List.append_assoc]
    · rw [hflow',hflow,List.append_assoc]

theorem own_eq (h : t.worker.pushed = s.worker.pushed) (k : ℕ) : own t k = own s k := by
  rw [own,own,h]

/-- Neither the packets nor the queues of the channels change, but that a queue may be gone. -/
theorem advance_of_worker (hworker : t.worker.pushed = s.worker.pushed)
    (hreceived : t.worker.received = s.worker.received) (hchannels : channelOf t = channelOf s)
    (hholder : t.holder = s.holder) (hreturned : t.returned = s.returned)
    (hqueue : ∀ j q, queueAt t j = some q → queueAt s j = some q) : Advance s t where
  channels := hchannels
  returned := hreturned
  own k := ⟨[],by rw [own_eq hworker,List.append_nil]⟩
  flow k j q hk hq := by
    refine ⟨q,[],hholder ▸ hk,hqueue j q hq,?_,?_⟩
    · rw [own_eq hworker,List.append_nil]
    · simp only [waiting,QueueWorker.unanswered,hworker,hreceived,List.append_nil]

/-- The record of a session changes, but not its channel. -/
theorem channelOf_setClient (ha : s.clients k = some a) {b : Client}
    (hchannel : b.channel = a.channel) : channelOf (s.setClient k b) = channelOf s := by
  funext i
  simp only [channelOf,Isolation.State.setClient,update_apply]
  split_ifs with hi
  · rw [hi,ha]
    exact congrArg some hchannel
  · rfl

theorem sound_setClient {b : Client} (hs : Sound s) (ha : s.clients k = some a)
    (hchannel : b.channel = a.channel) (hlive : b.live = true → a.live = true)
    (hb : ∀ packet ∈ b.pending, packet ∈ a.pending) : Sound (s.setClient k b) where
  worker := hs.worker
  channels j c hc := by
    obtain ⟨hindex,hbusy,hanswers⟩ := hs.channels j c hc
    refine ⟨hindex,fun i d hd hdlive hdchannel => ?_,hanswers⟩
    rcases Isolation.setClient_eq_some hd with ⟨rfl,rfl⟩ | ⟨-,hd⟩
    · exact hbusy i a ha (hlive hdlive) (hchannel ▸ hdchannel)
    · exact hbusy i d hd hdlive hdchannel
  clients i d hd := by
    rcases Isolation.setClient_eq_some hd with ⟨rfl,rfl⟩ | ⟨-,hd⟩
    · obtain ⟨hholds,hsetups⟩ := hs.clients i a ha
      refine ⟨fun hblive => ?_,fun packet hmem => hsetups packet (hb packet hmem)⟩
      rw [hchannel]
      exact hholds (hlive hblive)
    · exact hs.clients i d hd
  holders j i hi := by
    rw [channelOf_setClient ha hchannel]
    exact hs.holders j i hi
  known x hx := by
    rw [channelOf_setClient ha hchannel]
    exact hs.known x hx
  inReceipt := hs.inReceipt

theorem advance_setClient {b : Client} (ha : s.clients k = some a)
    (hchannel : b.channel = a.channel) : Advance s (s.setClient k b) :=
  advance_of_worker rfl rfl (channelOf_setClient ha hchannel) rfl rfl fun _ _ h => h

/-- The device changes at its channels only, and what holds of them is kept. -/
theorem sound_setDevice {d : Device Reply} (hs : Sound s)
    (h : ∀ j c, d.channels[j]? = some c → ChannelSound s.clients j c) :
    Sound {s with device := d} :=
  ⟨hs.worker,h,hs.clients,hs.holders,hs.known,hs.inReceipt⟩

/-- What is pushed is the packet, or nothing, if the queue is gone. -/
theorem push_eq_append {w w' : QueueWorker.State Submission Reply} {x : Submission}
    (hw : QueueWorker.Inv w) (h : QueueWorker.push w x = some w') :
    ∃ more, (∀ y ∈ more, y = x) ∧ w'.pushed = w.pushed ++ more ∧ w'.received = w.received ∧
      QueueWorker.unanswered w' = QueueWorker.unanswered w ++ more := by
  have hle : w.received.length ≤ w.pushed.length := by
    have hcount := hw.count
    have horder := hw.order.length_le
    omega
  obtain ⟨hpushed | hpushed,hreceived,-⟩ := QueueWorker.push_effect h
  · refine ⟨[],nofun,by simp [hpushed],hreceived,?_⟩
    rw [QueueWorker.unanswered,QueueWorker.unanswered,hpushed,hreceived,List.append_nil]
  · refine ⟨[x],by simp,hpushed,hreceived,?_⟩
    rw [QueueWorker.unanswered,QueueWorker.unanswered,hpushed,hreceived,
      List.drop_append_of_le_length hle]

/-- A packet is submitted by the session that holds the channel of the packet, if it is data. -/
theorem advance_submit {packet : Outgoing} (hs : Sound s) (hk : channelOf s k ≠ none)
    (hpacket : packet.type ≠ .control → s.holder packet.channelNo.toNat = some k)
    (h : s.submit k packet = some t) : Sound t ∧ Advance s t := by
  obtain ⟨worker,hpush,rfl⟩ := Option.map_eq_some_iff.mp h
  obtain ⟨-,-,hpc⟩ := QueueWorker.push_effect hpush
  obtain ⟨more,hmore,hpushed,hreceived,hunanswered⟩ := push_eq_append hs.worker hpush
  constructor
  · refine ⟨QueueWorker.inv_push hs.worker hpush,hs.channels,hs.clients,hs.holders,?_,?_⟩
    · intro x hx
      rw [hpushed] at hx
      rcases List.mem_append.mp hx with hx | hx
      · exact hs.known x hx
      · rw [hmore x hx]
        exact hk
    · intro r hr
      rw [QueueWorker.inReceipt,hpc] at hr
      obtain ⟨hat,hanswers⟩ := hs.inReceipt r hr
      rw [hreceived]
      exact ⟨QueueWorker.getElem?_of_push hpush hat,hanswers⟩
  · refine ⟨rfl,rfl,fun i => ?_,fun i j q hholder hqueue => ?_⟩
    · simp only [own,hpushed,List.filter_append]
      exact List.prefix_append _ _
    · refine ⟨q,more.filter (IsOf i),hholder,hqueue,?_,?_⟩
      · simp only [own,hpushed,List.filter_append]
      · simp only [waiting,hunanswered,List.filter_append,List.append_assoc]
        congr 2
        -- Data is for the channel exactly if it comes from the session that holds it.
        apply List.filter_congr
        intro x hx
        obtain rfl := hmore x hx
        apply decide_eq_decide.mpr
        constructor
        · rintro ⟨hdata,hchannel⟩
          refine ⟨hdata,?_⟩
          subst hchannel
          exact Option.some.inj ((hpacket hdata).symm.trans hholder)
        · rintro ⟨hdata,rfl⟩
          refine ⟨hdata,?_⟩
          have hchannel := hs.holders _ _ (hpacket hdata)
          exact Option.some.inj (hchannel.symm.trans (hs.holders j _ hholder))

theorem advance_setup (hs : Sound s) (h : s.setup k = some t) : Sound t ∧ Advance s t := by
  obtain ⟨a,ha,h⟩ := Option.bind_eq_some_iff.mp h
  split at h
  · cases h
  · rename_i packet pending hpending
    obtain ⟨u,hu,rfl⟩ := Option.map_eq_some_iff.mp h
    have hsetups := (hs.clients k a ha).setups
    rw [hpending] at hsetups
    have hk : channelOf s k ≠ none := by
      rw [channelOf,ha]
      nofun
    obtain ⟨hsound,hadvance⟩ :=
      advance_submit hs hk (fun hdata => absurd (hsetups packet (by simp)) hdata) hu
    obtain ⟨worker,-,rfl⟩ := Option.map_eq_some_iff.mp hu
    have hrest : ∀ x ∈ pending, x ∈ a.pending := fun x hx => by simp [hpending,hx]
    exact ⟨sound_setClient hsound ha rfl id hrest,hadvance.trans (advance_setClient ha rfl)⟩

theorem advance_code {packet : Channel Reply → Outgoing} (hs : Sound s)
    (hpacket : ∀ c, (packet c).channelNo = c.index) (h : s.code k packet = some t) :
    Sound t ∧ Advance s t := by
  obtain ⟨a,huse,h⟩ := Option.bind_eq_some_iff.mp h
  obtain ⟨c,hc,h⟩ := Option.bind_eq_some_iff.mp h
  obtain ⟨ha,hlive,-⟩ := Isolation.inUse_eq_some huse
  refine advance_submit hs ?_ (fun _ => ?_) h
  · rw [channelOf,ha]
    nofun
  · rw [hpacket,(hs.channels a.channel c hc).index]
    exact (hs.clients k a ha).holds hlive

/-- The queue at a position, after the channel there has changed. -/
theorem queueAt_set {c : Channel Reply} {j i : ℕ} {q : BlockingQueue Reply}
    (h : queueAt {s with device := ⟨s.device.channels.set j c⟩} i = some q) :
    (i = j ∧ c.outQueue = some q) ∨ (i ≠ j ∧ queueAt s i = some q) := by
  simp only [queueAt,List.getElem?_set] at h
  split_ifs at h with hij hlt
  · exact Or.inl ⟨hij.symm,h⟩
  · cases h
  · exact Or.inr ⟨Ne.symm hij,h⟩

theorem modify_eq_set {j : ℕ} {c : Channel Reply} {f : Channel Reply → Channel Reply}
    (hc : s.device.channels[j]? = some c) :
    s.modifyChannel j f = {s with device := ⟨s.device.channels.set j (f c)⟩} := by
  rw [Isolation.State.modifyChannel,List.modify_eq_set_getElem?,hc]
  rfl

theorem advance_release (hs : Sound s) (h : s.release k = some t) : Sound t ∧ Advance s t := by
  obtain ⟨a,huse,rfl⟩ := Option.map_eq_some_iff.mp h
  obtain ⟨ha,hlive,-⟩ := Isolation.inUse_eq_some huse
  have hheld := (hs.clients k a ha).holds hlive
  have hsound := sound_setClient (b := {a with live := false}) hs ha rfl nofun fun _ h => h
  cases hc : s.device.channels[a.channel]? with
  | none =>
    have hsame : s.modifyChannel a.channel Channel.release = s := by
      rw [Isolation.State.modifyChannel,List.modify_eq_self (List.getElem?_eq_none_iff.mp hc)]
    rw [hsame]
    exact ⟨hsound,advance_setClient ha rfl⟩
  | some c =>
    rw [modify_eq_set hc]
    constructor
    · refine sound_setDevice hsound (forall_set (fun i d _ => hsound.channels i d) ?_)
      refine ⟨(hs.channels a.channel c hc).index,fun i d hd hdlive hdchannel => ?_,nofun⟩
      -- Another session that uses the channel would hold it, too.
      rcases Isolation.setClient_eq_some hd with ⟨-,rfl⟩ | ⟨hi,hd⟩
      · cases hdlive
      · have hother := (hs.clients i d hd).holds hdlive
        rw [hdchannel,hheld] at hother
        exact absurd (Option.some.inj hother).symm hi
    · refine advance_of_worker rfl rfl (channelOf_setClient ha rfl) rfl rfl fun i q hq => ?_
      rcases queueAt_set (s := s) hq with ⟨-,hnone⟩ | ⟨-,hq⟩
      · cases hnone
      · exact hq

theorem advance_read (hs : Sound s) (h : s.read k = some t) : Sound t ∧ Advance s t := by
  obtain ⟨a,ha,h⟩ := Option.bind_eq_some_iff.mp h
  split_ifs at h
  obtain ⟨c,-,h⟩ := Option.map_eq_some_iff.mp h
  split_ifs at h
  · subst h
    exact ⟨sound_setClient hs ha rfl id fun _ h => h,advance_setClient ha rfl⟩
  · subst h
    exact ⟨sound_setClient hs ha rfl id fun _ h => h,advance_setClient ha rfl⟩

theorem advance_answer {packet : Packet} (hs : Sound s) (h : s.answer packet = some t) :
    Sound t ∧ Advance s t := by
  obtain ⟨x,hx,h⟩ := Option.bind_eq_some_iff.mp h
  split_ifs at h with hanswers
  obtain ⟨worker,hreceive,rfl⟩ := Option.map_eq_some_iff.mp h
  have hworker := QueueWorker.inv_receive hs.worker hreceive
  obtain rfl := QueueWorker.receive_effect hreceive
  refine ⟨⟨hworker,hs.channels,hs.clients,hs.holders,hs.known,fun r hr => ?_⟩,
    advance_of_worker rfl rfl rfl rfl rfl fun _ _ h => h⟩
  obtain rfl := List.mem_singleton.mp hr
  refine ⟨?_,hanswers⟩
  obtain ⟨tail,htail⟩ := hs.worker.order
  obtain ⟨hlt,-⟩ := List.getElem?_eq_some_iff.mp hx
  change s.worker.pushed[s.worker.received.length]? = some x
  rw [← htail,List.getElem?_append_left hlt]
  exact hx

/-- A packet that is not handed over is no data. -/
theorem type_of_discarded {d : Device Reply} {packet : Packet} {reply : Reply}
    (h : (d.receivePacket packet reply).result = .ok .discarded) : packet.kind.type = .control := by
  by_contra hdata
  rw [receivePacket_of_ne hdata] at h
  obtain ⟨n,-,h⟩ := (Memory.Access.result_bind _ _ _).mp h
  unfold Device.deliver at h
  split at h
  · cases h
  · cases h

/-- A queue that is still there after a packet has arrived has got it. -/
theorem receive_eq_some {c : Channel Reply} {reply : Reply} {q : BlockingQueue Reply}
    (h : (c.receive reply).outQueue = some q) :
    ∃ q', c.outQueue = some q' ∧ q.items = q'.items ++ [reply] := by
  unfold Channel.receive at h
  cases hqueue : c.outQueue with
  | none =>
    rw [hqueue] at h
    cases hqueue.symm.trans h
  | some queue =>
    rw [hqueue] at h
    simp only at h
    split at h
    · rename_i queue' hpush
      obtain rfl := Option.some.inj h
      exact ⟨queue,rfl,(BlockingQueue.push_eq_pushed hpush).1⟩
    · cases h

/-- The first packet that waits is handed over, to the queue of its channel if it is data. -/
theorem advance_of_received {x : Submission} {reply : Reply}
    (hfirst : s.worker.pushed[s.worker.received.length]? = some x)
    (hpushed : t.worker.pushed = s.worker.pushed)
    (hreceived : t.worker.received = s.worker.received ++ [reply])
    (hclients : t.clients = s.clients) (hholder : t.holder = s.holder)
    (hreturned : t.returned = s.returned)
    (hqueue : ∀ j q, queueAt t j = some q → ∃ q', queueAt s j = some q' ∧
      q.items.map Reply.submission = q'.items.map Reply.submission ++ [x].filter (IsFor j)) :
    Advance s t where
  channels := by
    unfold channelOf
    rw [hclients]
  returned := hreturned
  own k := ⟨[],by rw [own_eq hpushed,List.append_nil]⟩
  flow k j q hk hq := by
    obtain ⟨q',hq',hitems⟩ := hqueue j q hq
    obtain ⟨hlt,hx⟩ := List.getElem?_eq_some_iff.mp hfirst
    have hwaiting : waiting s j = [x].filter (IsFor j) ++ waiting t j := by
      simp only [waiting,QueueWorker.unanswered,hpushed,hreceived,List.length_append,
        List.length_singleton]
      rw [List.drop_eq_getElem_cons hlt,hx,← List.filter_append]
      rfl
    refine ⟨q',[],hholder ▸ hk,hq',?_,?_⟩
    · rw [own_eq hpushed,List.append_nil]
    · rw [hitems,hwaiting,List.append_nil,List.append_assoc]

/-- The worker takes a step while the device stays as it is. -/
theorem sound_worker {worker : QueueWorker.State Submission Reply} (hs : Sound s)
    (h : QueueWorker.work s.worker = some worker) : Sound {s with worker := worker} := by
  obtain ⟨hpushed,-,hnone⟩ := QueueWorker.work_effect h
  refine ⟨QueueWorker.inv_work hs.worker h,hs.channels,hs.clients,hs.holders,fun x hx => ?_,
    fun r hr => ?_⟩
  · rw [hpushed] at hx
    exact hs.known x hx
  · simp [hnone] at hr

theorem sound_receive {reply : Reply} {n : ℕ} {c : Channel Reply} (hs : Sound s)
    (hc : s.device.channels[n]? = some c)
    (hanswers : Answers reply.submission.packet reply.packet) :
    Sound {s with device := ⟨s.device.channels.set n (c.receive reply)⟩} := by
  obtain ⟨hindex,hbusy,hqueued⟩ := hs.channels n c hc
  obtain ⟨hsame,hstill,-⟩ := Isolation.receive_channel c reply
  refine sound_setDevice hs (forall_set (fun i d _ => hs.channels i d) ?_)
  refine ⟨hsame ▸ hindex,fun i a ha hlive hchannel => ?_,fun q hq r hr => ?_⟩
  · rw [hstill]
    exact hbusy i a ha hlive hchannel
  · obtain ⟨q',hq',hitems⟩ := receive_eq_some hq
    rw [hitems] at hr
    rcases List.mem_append.mp hr with hr | hr
    · exact hqueued q' hq' r hr
    · exact List.mem_singleton.mp hr ▸ hanswers

/-- The queues of the channels, with what the packet adds to them that is handed over. -/
theorem queueAt_receive {reply : Reply} {n j : ℕ} {c : Channel Reply} {q : BlockingQueue Reply}
    (hc : s.device.channels[n]? = some c) (hdata : reply.submission.packet.type ≠ .control)
    (hn : n = reply.submission.packet.channelNo.toNat)
    (h : queueAt {s with device := ⟨s.device.channels.set n (c.receive reply)⟩} j = some q) :
    ∃ q', queueAt s j = some q' ∧ q.items.map Reply.submission =
      q'.items.map Reply.submission ++ [reply.submission].filter (IsFor j) := by
  rcases queueAt_set h with ⟨rfl,hq⟩ | ⟨hj,hq⟩
  · obtain ⟨q',hq',hitems⟩ := receive_eq_some hq
    have hfor : IsFor j reply.submission := ⟨hdata,hn.symm⟩
    refine ⟨q',?_,?_⟩
    · rw [queueAt,hc]
      exact hq'
    · rw [hitems,List.map_append,List.filter_cons_of_pos (by simpa using hfor)]
      rfl
  · have hfor : ¬ IsFor j reply.submission := fun hfor => hj (hfor.2.symm.trans hn.symm)
    refine ⟨q,hq,?_⟩
    rw [List.filter_cons_of_neg (by simpa using hfor),List.filter_nil,List.append_nil]

theorem advance_work (hs : Sound s) (h : s.work = some t) : Sound t ∧ Advance s t := by
  obtain ⟨worker,hwork,h⟩ := Option.bind_eq_some_iff.mp h
  obtain ⟨hpushed,hreceived,-⟩ := QueueWorker.work_effect hwork
  split at h
  · rename_i reply hat
    have hreply : QueueWorker.inReceipt s.worker = [reply] := by simp [QueueWorker.inReceipt,hat]
    obtain ⟨hfirst,hanswers⟩ := hs.inReceipt reply (by simp [hreply])
    rw [hreply] at hreceived
    split at h
    · cases h
    · rename_i hreceive
      obtain rfl := Option.some.inj h
      have hcontrol := hanswers.1.mp (type_of_discarded hreceive)
      refine ⟨sound_worker hs hwork,
        advance_of_received hfirst hpushed hreceived rfl rfl rfl fun j q hq => ⟨q,hq,?_⟩⟩
      have hfor : ¬ IsFor j reply.submission := fun hfor => hfor.1 hcontrol
      rw [List.filter_cons_of_neg (by simpa using hfor),List.filter_nil,List.append_nil]
    · rename_i n device hreceive
      obtain rfl := Option.some.inj h
      obtain ⟨hdata,hn,c,hc,rfl⟩ := Isolation.receivePacket_delivered hanswers hreceive
      exact ⟨sound_worker (sound_receive hs hc hanswers) hwork,
        advance_of_received hfirst hpushed hreceived rfl rfl rfl fun j q hq =>
          queueAt_receive hc hdata hn hq⟩
  · rename_i hat
    obtain rfl := Option.some.inj h
    have hnone : QueueWorker.inReceipt s.worker = [] := by
      unfold QueueWorker.inReceipt
      split
      · rename_i reply hpc
        exact absurd hpc (hat reply)
      · rfl
    rw [hnone,List.append_nil] at hreceived
    exact ⟨sound_worker hs hwork,
      advance_of_worker hpushed hreceived rfl rfl rfl fun _ _ h => h⟩

/-- What `startSession` does to the sessions and the channels: nothing, or a channel is tried and given
up, or it has the new session. -/
theorem startSession_cases {settings : Settings} {fresh : RateP}
    (h : s.startSession k settings fresh = some t) :
    s.clients k = none ∧
      (t = s ∨
        ∃ j c, s.device.channels[j]? = some c ∧ c.busy = false ∧
          (t = {s with device := ⟨s.device.channels.set j c.reserve.release⟩} ∨
            ∃ rate, let taken := c.reserve.applyRate settings.direction rate
              t =
                { s.setClient k {channel := j, pending := taken.2} with
                  device := ⟨s.device.channels.set j taken.1⟩
                  holder := update s.holder j (some k) })) := by
  unfold Isolation.State.startSession at h
  split_ifs at h with hnew
  refine ⟨by simpa using hnew,?_⟩
  split at h
  · cases h
  · rename_i device hstart
    obtain rfl := Option.some.inj h
    rcases Device.startSession_eq_ok settings fresh hstart with
      ⟨rfl,-⟩ | ⟨j,c,-,hc,hfree,⟨-,hchannels⟩ | ⟨rate,-,hsome,-⟩⟩
    · exact Or.inl rfl
    · refine Or.inr ⟨j,c,hc,hfree,Or.inl ?_⟩
      cases device
      simp only at hchannels
      rw [hchannels]
    · cases hsome
  · rename_i device j packets hstart
    obtain rfl := Option.some.inj h
    rcases Device.startSession_eq_ok settings fresh hstart with
      ⟨-,hsome⟩ | ⟨i,c,-,hc,hfree,⟨hsome,-⟩ | ⟨rate,-,hsome,hchannels⟩⟩
    · cases hsome
    · cases hsome
    · obtain ⟨rfl,rfl⟩ := Prod.mk.inj (Option.some.inj hsome)
      refine Or.inr ⟨j,c,hc,hfree,Or.inr ⟨rate,?_⟩⟩
      cases device
      simp only at hchannels
      rw [hchannels]

/-- A channel that is free is tried and given up. -/
theorem advance_give {j : ℕ} {c : Channel Reply} (hs : Sound s)
    (hc : s.device.channels[j]? = some c) (hfree : c.busy = false) :
    let t : Isolation.State := {s with device := ⟨s.device.channels.set j c.reserve.release⟩}
    Sound t ∧ Advance s t := by
  constructor
  · refine sound_setDevice hs (forall_set (fun i d _ => hs.channels i d) ?_)
    obtain ⟨hindex,hbusy,-⟩ := hs.channels j c hc
    refine ⟨hindex,fun i a ha hlive hat => ?_,nofun⟩
    exact absurd (hbusy i a ha hlive hat) (by simp [hfree])
  · refine advance_of_worker rfl rfl rfl rfl rfl fun i q hq => ?_
    rcases queueAt_set (s := s) hq with ⟨-,hnone⟩ | ⟨-,hq⟩
    · cases hnone
    · exact hq

/-- A new session takes a channel that is free. -/
theorem sound_take {j : ℕ} {c c' : Channel Reply} {pending : List Outgoing} (hs : Sound s)
    (hk : s.clients k = none) (hc : s.device.channels[j]? = some c) (hfree : c.busy = false)
    (hindex : c'.index = c.index) (hbusy : c'.busy = true)
    (hempty : ∀ q, c'.outQueue = some q → q.items = [])
    (hsetups : ∀ packet ∈ pending, packet.type = .control) :
    Sound
      { s.setClient k {channel := j, pending := pending} with
        device := ⟨s.device.channels.set j c'⟩
        holder := update s.holder j (some k) } := by
  -- A session that uses the channel would have kept it busy.
  have hunused : ∀ i a, s.clients i = some a → a.live = true → a.channel ≠ j := by
    intro i a ha hlive hat
    have := (hs.channels j c hc).busy i a ha hlive hat
    rw [hfree] at this
    cases this
  have hold : ∀ i, channelOf s i ≠ none → i ≠ k := by
    rintro i hi rfl
    rw [channelOf,hk] at hi
    exact hi rfl
  have hsame : ∀ i ≠ k, channelOf
      { s.setClient k {channel := j, pending := pending} with
        device := ⟨s.device.channels.set j c'⟩
        holder := update s.holder j (some k) } i = channelOf s i := by
    intro i hi
    simp only [channelOf,Isolation.State.setClient]
    rw [update_of_ne hi]
  refine ⟨hs.worker,forall_set (fun i d hij hd => ?_) ⟨?_,fun _ _ _ _ _ => hbusy,fun q hq r hr => ?_⟩,
    fun i a ha => ?_,fun i l hl => ?_,fun x hx => ?_,hs.inReceipt⟩
  · obtain ⟨hindex,hbusy,hanswers⟩ := hs.channels i d hd
    refine ⟨hindex,fun l a ha hlive hat => ?_,hanswers⟩
    rcases Isolation.setClient_eq_some ha with ⟨-,rfl⟩ | ⟨-,ha⟩
    · exact absurd hat.symm hij
    · exact hbusy l a ha hlive hat
  · rw [hindex]
    exact (hs.channels j c hc).index
  · rw [hempty q hq] at hr
    cases hr
  · rcases Isolation.setClient_eq_some ha with ⟨rfl,rfl⟩ | ⟨-,ha⟩
    · exact ⟨fun _ => by simp,hsetups⟩
    · obtain ⟨hholds,hsetups⟩ := hs.clients i a ha
      exact ⟨fun hlive => by simpa [hunused i a ha hlive] using hholds hlive,hsetups⟩
  · change update s.holder j (some k) i = some l at hl
    by_cases hij : i = j
    · subst hij
      rw [update_self] at hl
      obtain rfl := Option.some.inj hl
      simp [channelOf,Isolation.State.setClient]
    · rw [update_of_ne hij] at hl
      have hheld := hs.holders i l hl
      rw [hsame l (hold l (by simp [hheld]))]
      exact hheld
  · have hknown := hs.known x hx
    rw [hsame _ (hold _ hknown)]
    exact hknown

end

section
variable {s t : State} {k : ℕ}

/-- Nothing is on record of a session that has not begun. -/
theorem passed_eq_nil (hf : Flow s) (hk : channelOf s.base k = none) : s.passed k = [] := by
  rw [State.passed,List.filter_eq_nil_iff.mpr,List.map_nil]
  intro p hp hreserved
  exact hf.known p hp k (of_decide_eq_true hreserved) hk

theorem own_eq_nil {base : Isolation.State} (hs : Sound base) (hk : channelOf base k = none) :
    own base k = [] := by
  apply List.filter_eq_nil_iff.mpr
  intro x hx hof
  obtain ⟨-,rfl⟩ := of_decide_eq_true hof
  exact hs.known x hx hk

/-- No session has begun. -/
theorem flow_forget (hs : Sound s.base) (hf : Flow s) (hk : channelOf s.base k = none) :
    Flow {s with before := update s.before k []} where
  order i := by
    by_cases hi : i = k
    · subst hi
      exact (passed_eq_nil hf hk).symm ▸ List.nil_prefix
    · change s.passed i <+: update s.before k [] i ++ _
      rw [update_of_ne hi]
      exact hf.order i
  all i j q hholder hqueue := by
    have hi : i ≠ k := by
      rintro rfl
      cases hk.symm.trans (hs.holders j i hholder)
    change update s.before k [] i ++ _ = _
    rw [update_of_ne hi]
    exact hf.all i j q hholder hqueue
  others i x hx := by
    change x ∈ update s.before k [] i at hx
    by_cases hi : i = k
    · subst hi
      rw [update_self] at hx
      cases hx
    · rw [update_of_ne hi] at hx
      exact hf.others i x hx
  known := hf.known
  returned := hf.returned
  answers := hf.answers

/-- A session begins with an empty queue, while data for its channel may be underway. -/
theorem flow_take {j : ℕ} {a : Client} {d : Channel Reply} (hs : Sound s.base) (hf : Flow s)
    (hk : s.base.clients k = none)
    (hempty : ∀ q, d.outQueue = some q → q.items = []) :
    Flow
      { s with
        base :=
          { s.base.setClient k a with
            device := ⟨s.base.device.channels.set j d⟩
            holder := update s.base.holder j (some k) }
        before := update s.before k (waiting s.base j) } := by
  have hnew : channelOf s.base k = none := by rw [channelOf,hk]; rfl
  have hold : ∀ i, channelOf s.base i ≠ none → i ≠ k := by
    rintro i hi rfl
    exact hi hnew
  refine ⟨fun i => ?_,fun i l q hholder hqueue => ?_,fun i x hx => ?_,fun p hp i hi => ?_,hf.returned,
    hf.answers⟩
  · by_cases hi : i = k
    · subst hi
      exact (passed_eq_nil hf hnew).symm ▸ List.nil_prefix
    · change s.passed i <+: update s.before k _ i ++ _
      rw [update_of_ne hi]
      exact hf.order i
  · change update s.base.holder j (some k) l = some i at hholder
    change update s.before k (waiting s.base j) i ++ own s.base i =
      s.passed i ++ (q.items.map Reply.submission ++ waiting s.base l)
    rcases queueAt_set (s := s.base) hqueue with ⟨rfl,hq⟩ | ⟨hl,hq⟩
    · rw [update_self] at hholder
      obtain rfl := Option.some.inj hholder
      rw [update_self,own_eq_nil hs hnew,passed_eq_nil hf hnew,hempty q hq]
      simp
    · rw [update_of_ne hl] at hholder
      have hi : i ≠ k := hold i (by simp [hs.holders l i hholder])
      rw [update_of_ne hi]
      exact hf.all i l q hholder hq
  · change x ∈ update s.before k _ i at hx
    by_cases hi : i = k
    · subst hi
      rw [update_self] at hx
      rintro rfl
      obtain ⟨hx,-⟩ := List.mem_filter.mp hx
      exact hs.known x (List.mem_of_mem_drop hx) hnew
    · rw [update_of_ne hi] at hx
      exact hf.others i x hx
  · have hknown := hf.known p hp i hi
    simp only [channelOf,Isolation.State.setClient]
    rw [update_of_ne (hold i hknown)]
    exact hknown

theorem flow_startSession {settings : Settings} {fresh : RateP} {base : Isolation.State}
    (hs : Sound s.base) (hf : Flow s) (h : s.base.startSession k settings fresh = some base) :
    Sound base ∧ Flow (s.record base (.startSession k settings fresh)) := by
  obtain ⟨hk,rfl | ⟨j,c,hc,hfree,rfl | ⟨rate,rfl⟩⟩⟩ := startSession_cases h
  · have hnew : channelOf s.base k = none := by rw [channelOf,hk]; rfl
    refine ⟨hs,?_⟩
    rw [State.record,hnew]
    exact flow_forget hs hf hnew
  · obtain ⟨hsound,hadvance⟩ := advance_give hs hc hfree
    have hnew : channelOf {s.base with device := ⟨s.base.device.channels.set j c.reserve.release⟩} k =
        none := by rw [channelOf,hk]; rfl
    refine ⟨hsound,?_⟩
    rw [State.record,hnew]
    exact flow_forget hsound (flow_of_advance hf hadvance) hnew
  · obtain ⟨hindex,hbusy,hqueue⟩ := applyRate_channel c.reserve settings.direction rate
    have hempty : ∀ q, (c.reserve.applyRate settings.direction rate).1.outQueue = some q →
        q.items = [] := by
      intro q hq
      rw [hqueue] at hq
      exact Option.some.inj hq ▸ rfl
    refine ⟨sound_take hs hk hc hfree hindex hbusy hempty Isolation.type_of_applyRate,?_⟩
    have htake := flow_take (j := j) (d := (c.reserve.applyRate settings.direction rate).1) hs hf hk
      (a := {channel := j, pending := (c.reserve.applyRate settings.direction rate).2}) hempty
    simpa [State.record,channelOf,Isolation.State.setClient,waiting] using htake

theorem passed_append (s : State) (base : Isolation.State) (p : Passage) (i : ℕ) :
    ({s with base := base, passages := s.passages ++ [p]} : State).passed i =
      s.passed i ++ if p.reservedBy = some i then [p.reply.submission] else [] := by
  simp only [State.passed,List.filter_append,List.map_append]
  congr 1
  by_cases hp : p.reservedBy = some i
  · rw [if_pos hp,List.filter_cons_of_pos (by simpa using hp)]
    rfl
  · rw [if_neg hp,List.filter_cons_of_neg (by simpa using hp)]
    rfl

/-- A reply comes out of a queue, whichever reader gets it. -/
theorem flow_item {a : Client} {c : Channel Reply} {q queue : BlockingQueue Reply} {reply : Reply}
    {r : Reader} (hs : Sound s.base) (hf : Flow s) (ha : s.base.clients k = some a)
    (hc : s.base.device.channels[a.channel]? = some c) (hq : c.outQueue = some q)
    (hitems : q.items = reply::queue.items) :
    let base : Isolation.State :=
      { (s.base.modifyChannel a.channel fun c => {c with outQueue := some queue}).setClient k
          {a with reader := r} with
        returned := s.base.returned ++ [(k,reply)] }
    Sound base ∧
      Flow {s with base := base, passages := s.passages ++ [⟨k,s.base.holder a.channel,reply⟩]} := by
  intro base
  obtain ⟨hindex,hbusy,hanswers⟩ := hs.channels a.channel c hc
  have hreplies := hanswers q hq
  rw [hitems] at hreplies
  have hqueueAt : queueAt s.base a.channel = some q := by
    rw [queueAt,hc]
    exact hq
  have hbase : base =
      { ({s.base with
            device := ⟨s.base.device.channels.set a.channel {c with outQueue := some queue}⟩} :
          Isolation.State).setClient k {a with reader := r} with
        returned := s.base.returned ++ [(k,reply)] } := by
    simp only [base,modify_eq_set hc]
  have hchannels : channelOf base = channelOf s.base := channelOf_setClient ha rfl
  have hsound : Sound base := by
    rw [hbase]
    have hdevice := sound_setDevice (d := ⟨s.base.device.channels.set a.channel
      {c with outQueue := some queue}⟩) hs (forall_set (fun i d _ => hs.channels i d)
        ⟨hindex,hbusy,fun q' hq' r hr => by
          obtain rfl := Option.some.inj hq'
          exact hreplies r (List.mem_cons_of_mem _ hr)⟩)
    have hnext := sound_setClient (b := {a with reader := r}) hdevice ha rfl id fun _ h => h
    exact ⟨hnext.worker,hnext.channels,hnext.clients,hnext.holders,hnext.known,hnext.inReceipt⟩
  refine ⟨hsound,fun i => ?_,fun i l q' hholder hqueue => ?_,hf.others,fun p hp i hi => ?_,?_,
    fun p hp => ?_⟩
  · rw [passed_append]
    change s.passed i ++ _ <+: s.before i ++ own s.base i
    by_cases hi : s.base.holder a.channel = some i
    · rw [if_pos hi,hf.all i a.channel q hi hqueueAt,hitems]
      exact ⟨_,by rw [List.map_cons,List.cons_append,List.append_assoc]; rfl⟩
    · rw [if_neg hi,List.append_nil]
      exact hf.order i
  · rw [passed_append]
    change s.base.holder l = some i at hholder
    change s.before i ++ own s.base i = _ ++ (_ ++ waiting s.base l)
    rw [hbase] at hqueue
    rcases queueAt_set (s := s.base) hqueue with ⟨rfl,hq'⟩ | ⟨hl,hq'⟩
    · obtain rfl := Option.some.inj hq'
      rw [if_pos hholder,hf.all i a.channel q hholder hqueueAt,hitems]
      simp
    · have hother : s.base.holder a.channel ≠ some i := by
        intro hheld
        have hi := (hs.holders l i hholder).symm.trans (hs.holders a.channel i hheld)
        exact hl (Option.some.inj hi)
      rw [if_neg hother,List.append_nil]
      exact hf.all i l q' hholder hq'
  · rw [hchannels]
    rcases List.mem_append.mp hp with hp | hp
    · exact hf.known p hp i hi
    · obtain rfl := List.mem_singleton.mp hp
      rw [hs.holders a.channel i hi]
      nofun
  · change s.base.returned ++ _ = _
    rw [hf.returned,List.map_append]
    rfl
  · rcases List.mem_append.mp hp with hp | hp
    · exact hf.answers p hp
    · obtain rfl := List.mem_singleton.mp hp
      exact hreplies reply List.mem_cons_self

theorem flow_pop {base : Isolation.State} (hs : Sound s.base) (hf : Flow s)
    (h : s.base.pop k = some base) : Sound base ∧ Flow (s.record base (.pop k)) := by
  obtain ⟨a,ha,rfl | ⟨c,q,reply,queue,r,hc,hq,-,hitems,-,rfl⟩⟩ := Isolation.pop_effect h
  · refine ⟨sound_setClient hs ha rfl id fun _ h => h,?_⟩
    have hflow := flow_of_advance hf (advance_setClient (b := {a with reader := .done}) ha rfl)
    simpa [State.record,Isolation.State.setClient] using hflow
  · have hreservation : reservation s.base k = s.base.holder a.channel := by
      rw [reservation,channelOf,ha]
      rfl
    have hitem := flow_item (r := r) hs hf ha hc hq hitems
    simpa [State.record,Isolation.State.setClient,Isolation.State.modifyChannel,hreservation]
      using hitem

/-- `Sound` and `Flow`. -/
structure Inv (s : State) : Prop where
  sound : Sound s.base
  flow : Flow s

theorem inv_advance {base : Isolation.State} (hs : Inv s) (h : Sound base ∧ Advance s.base base) :
    Inv {s with base := base} :=
  ⟨h.1,flow_of_advance hs.flow h.2⟩

theorem inv_step (s : State) (e : Isolation.Event) (t : State) (hs : Inv s)
    (h : s.step e = some t) : Inv t := by
  obtain ⟨base,hbase,rfl⟩ := Option.map_eq_some_iff.mp h
  cases e with
  | startSession k settings fresh =>
    obtain ⟨hsound,hflow⟩ := flow_startSession hs.sound hs.flow hbase
    exact ⟨hsound,hflow⟩
  | setup k => exact inv_advance hs (advance_setup hs.sound hbase)
  | decode k data => exact inv_advance hs (advance_code hs.sound (fun _ => rfl) hbase)
  | encode k data => exact inv_advance hs (advance_code hs.sound (fun _ => rfl) hbase)
  | release k => exact inv_advance hs (advance_release hs.sound hbase)
  | read k => exact inv_advance hs (advance_read hs.sound hbase)
  | pop k =>
    obtain ⟨hsound,hflow⟩ := flow_pop hs.sound hs.flow hbase
    exact ⟨hsound,hflow⟩
  | work => exact inv_advance hs (advance_work hs.sound hbase)
  | answer packet => exact inv_advance hs (advance_answer hs.sound hbase)

theorem inv_init {count : ℕ} (h : count ≤ 256) :
    Inv {base := {device := .createChannels count}} where
  sound := by
    refine ⟨QueueWorker.inv_init,fun j c hc => ?_,fun k a ha => ?_,fun j k hk => ?_,fun x hx => ?_,
      fun r hr => ?_⟩
    rotate_left
    · cases ha
    · cases hk
    · cases hx
    · cases hr
    simp only [Device.createChannels,List.getElem?_map,Option.map_eq_some_iff] at hc
    obtain ⟨i,hi,rfl⟩ := hc
    obtain ⟨hlt,rfl⟩ := List.getElem?_eq_some_iff.mp hi
    simp only [List.length_range] at hlt
    refine ⟨?_,fun k a ha => (by cases ha),fun q hq => (by cases hq)⟩
    simp only [List.getElem_range,BitVec.toNat_ofNat]
    omega
  flow := by
    refine ⟨fun _ => List.nil_prefix,fun k j q hholder => ?_,fun k x hx => ?_,fun p hp => ?_,rfl,
      fun p hp => ?_⟩
    · cases hholder
    · cases hx
    · cases hp
    · cases hp

/-- A queue gives others' replies away exactly if there were any to come when it was reserved, and it
has given anything. -/
theorem own_only_iff {k : ℕ} (hf : Flow s) :
    (∀ x ∈ s.passed k, x.session = k) ↔ s.before k = [] ∨ s.passed k = [] := by
  constructor
  · intro hown
    cases hbefore : s.before k with
    | nil => exact Or.inl rfl
    | cons x before =>
      right
      cases hpassed : s.passed k with
      | nil => rfl
      | cons y passed =>
        have horder := hf.order k
        rw [hbefore,hpassed,List.cons_append] at horder
        obtain ⟨rfl,-⟩ := List.cons_prefix_cons.mp horder
        exact absurd (hown y (by simp [hpassed])) (hf.others k y (by simp [hbefore]))
  · rintro (hbefore | hpassed)
    · intro x hx
      have horder := hf.order k
      rw [hbefore,List.nil_append] at horder
      obtain ⟨-,hof⟩ := List.mem_filter.mp (horder.subset hx)
      exact (of_decide_eq_true hof).2
    · rw [hpassed]
      nofun

end

/-- In every run of sessions, readers, worker and device: what comes out of the queue that was reserved
for a session are replies, in order, without gaps and each once, to the data that was underway for its
channel when it began, which is data of other sessions, and then to its own. As long as the queue is
there, nothing is missing but what it holds and what the device has not answered. So a session is
given others' replies exactly if there were any to come, and something has come out of its queue. -/
theorem run_transcoded (count : ℕ) (hcount : count = 1 ∨ count = 3) (es : List Isolation.Event)
    (s : State) (h : run State.step {base := {device := .createChannels count}} es = some s) :
    s.base.returned = s.passages.map (fun p => (p.reader,p.reply)) ∧
    (∀ p ∈ s.passages, Answers p.reply.submission.packet p.reply.packet) ∧
    ∀ k, (∀ x ∈ s.before k, x.session ≠ k) ∧
      s.passed k <+: s.before k ++ own s.base k ∧
      (∀ j q, s.base.holder j = some k → queueAt s.base j = some q →
        s.before k ++ own s.base k =
          s.passed k ++ (q.items.map Reply.submission ++ waiting s.base j)) ∧
      ((∀ x ∈ s.passed k, x.session = k) ↔ s.before k = [] ∨ s.passed k = []) := by
  have hs := (run_invariant inv_step (inv_init (by omega)) h).flow
  exact ⟨hs.returned,hs.answers,
    fun k => ⟨hs.others k,hs.order k,fun j q => hs.all k j q,own_only_iff hs⟩⟩

/-- A session ends before its data is answered, and another one takes its channel. -/
def handedDown : List Isolation.Event :=
  .startSession 0 {} (.replicate 6 0)::(Isolation.talk ++ [.release 0,
    .startSession 1 {} (.replicate 6 0),.decode 1 [9],.answer Isolation.sample,.work,.read 1,.pop 1])

theorem run_transcoded_handedDown : ∃ s : State,
    run State.step {base := {device := .createChannels 1}} handedDown = some s ∧
      s.before 1 = [⟨0,.channel 0 [1,2,3,4,5,6,7,8,9] 72⟩] ∧
      own s.base 1 = [⟨1,.channel 0 [9] 8⟩] ∧ s.passed 1 <+: s.before 1 ++ own s.base 1 :=
  ⟨_,rfl,rfl,rfl,((run_transcoded 1 (by decide) handedDown _ rfl).2.2 1).2.1⟩

end CodecServer.Ambe3K.Transcoding
