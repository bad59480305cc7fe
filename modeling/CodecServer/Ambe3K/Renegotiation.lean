import Mathlib.Tactic.Tauto
import CodecServer.Ambe3K.Session
import CodecServer.Transition

/-! What the index of a rate does to a channel, and to the device that starts a session with it:
text is converted by `std::stoi`, which may throw, and narrowed to a byte. -/
namespace CodecServer.Ambe3K
open CodecServer.Transition CodecServer.Numeral CodecServer.Ambe3K.Protocol

/-- How a call of `renegotiate` ends: the exception, if one is thrown, and in either case the channel
and the packets that it leaves behind. -/
structure Renegotiated (π : Type) where
  thrown : Option StoiError := none
  channel : Channel π
  queued : List Outgoing := []

namespace Channel
variable {π : Type}

/-- `Ambe3KSession::renegotiate`, an exception included: it comes before anything is changed. -/
def renegotiated (c : Channel π) (settings : Settings) (fresh : RateP) : Renegotiated π :=
  match c.renegotiate settings fresh with
  | .ok (c,queued) => {channel := c, queued := queued}
  | .error e => {thrown := some e, channel := c}

end Channel

/-- The `INIT` byte has the bits of the directions that are listed, and no others. -/
def InitByte (init : Byte) (directions : List Direction) : Prop :=
  ∀ i < 8, init.getLsbD i = true ↔
    (i = 0 ∧ .encode ∈ directions) ∨ (i = 1 ∧ .decode ∈ directions)

/-- Nothing has changed but that an exception was thrown; or one setup is queued for the channel, its
`RATET` byte is the number that the text stands for, its `INIT` byte is that of the directions, and
the channel has the same number. -/
def IndexHonoured {π : Type} (c : Channel π) (text : Text) (directions : List Direction)
    (r : Renegotiated π) : Prop :=
  (r.thrown.isSome ∧ r.channel = c ∧ r.queued = []) ∨
  (r.thrown = none ∧ ∃ (index init : Byte) (packet : Outgoing),
    numeral text = some (index.toNat : ℤ) ∧ InitByte init directions ∧ r.queued = [packet] ∧
    packet.type = .control ∧ packet.fields = [[0x40+c.index],[0x09,index],[0x0b,init]] ∧
    r.channel.codecIndex = index)

/-- If the text starts with a number that fits an `int`, it consists of that number, and the number
fits a byte. -/
def IndexFits (text : Text) : Prop :=
  ∀ v, number text = some v → -2^31 ≤ v → v < 2^31 → numeral text = some v ∧ 0 ≤ v ∧ v < 256

/-- The condition under which every failure of `renegotiate` can be undone: a text that starts with a
number starts with one that fits an `int`; where it starts with none, the channel has no queue that
`reserve` would overwrite. -/
def Startable {π : Type} (d : Device π) (settings : Settings) : Prop :=
  ∀ j c text, d.firstFree = some j → d.channels[j]? = some c → settings.index = some text →
    match number text with
    | none => c.outQueue = none
    | some v => -2^31 ≤ v ∧ v < 2^31

/-- `startSession` returns: with a session whose channel was free and is busy, the other channels
unchanged, or with `nullptr` and all channels as they were. -/
def AllOrNothing {π : Type} (d : Device π) (settings : Settings) (fresh : RateP) : Prop :=
  ∃ d' session, d.startSession settings fresh = .ok (d',session) ∧
    match session with
    | some (j,_) => ∃ c c', d.channels[j]? = some c ∧ c.busy = false ∧
        d'.channels = d.channels.set j c' ∧ c'.busy = true
    | none => d' = d

section Index
variable {π : Type} {settings : Settings} {text : Text}

theorem getLsbD_direction (directions : List Direction) (init : Byte) (i : ℕ) (hi : i < 8) :
    (directions.foldl (fun direction dir =>
      match dir with
      | .encode => direction ||| directionEncode
      | .decode => direction ||| directionDecode
      | .unrecognized => direction) init).getLsbD i = true ↔
    init.getLsbD i = true ∨ (i = 0 ∧ .encode ∈ directions) ∨ (i = 1 ∧ .decode ∈ directions) := by
  have hencode : ∀ i < 8, directionEncode.getLsbD i = decide (i = 0) := by decide
  have hdecode : ∀ i < 8, directionDecode.getLsbD i = decide (i = 1) := by decide
  induction directions generalizing init with
  | nil => simp
  | cons dir directions ih =>
    rw [List.foldl_cons]
    refine (ih _).trans ?_
    cases dir with
    | encode =>
      simp only [BitVec.getLsbD_or,Bool.or_eq_true,hencode i hi,decide_eq_true_eq,List.mem_cons,
        true_or,and_true,reduceCtorEq,false_or]
      tauto
    | decode =>
      simp only [BitVec.getLsbD_or,Bool.or_eq_true,hdecode i hi,decide_eq_true_eq,List.mem_cons,
        true_or,and_true,reduceCtorEq,false_or]
      tauto
    | unrecognized => simp

theorem initByte_direction (settings : Settings) :
    InitByte settings.direction settings.directions := by
  intro i hi
  have h : settings.direction.getLsbD i = true ↔ _ :=
    getLsbD_direction settings.directions 0#8 i hi
  rw [h,BitVec.getLsbD_zero]
  simp

theorem renegotiated_index (c : Channel π) (fresh : RateP) (h : settings.index = some text) :
    c.renegotiated settings fresh =
      match stoi text with
      | .error e => {thrown := some e, channel := c}
      | .ok v =>
        { channel := (c.setup (BitVec.ofInt 8 v) settings.direction).1
          queued := [(c.setup (BitVec.ofInt 8 v) settings.direction).2] } := by
  rw [Channel.renegotiated,Channel.renegotiate,h]
  simp only
  cases stoi text <;> rfl

theorem toNat_ofInt_byte {v : ℤ} (hlow : 0 ≤ v) (hhigh : v < 256) :
    ((BitVec.ofInt 8 v).toNat : ℤ) = v := by
  rw [BitVec.toNat_ofInt]
  omega

/-- The index is the one that was asked for exactly if the text that `stoi` accepts is a number from
0 to 255 and nothing else. -/
theorem indexHonoured_iff (c : Channel π) (settings : Settings) (fresh : RateP) {text : Text}
    (h : settings.index = some text) :
    IndexHonoured c text settings.directions (c.renegotiated settings fresh) ↔
      IndexFits text := by
  rw [renegotiated_index c fresh h,stoi_eq]
  cases hnumber : number text with
  | none =>
    apply iff_of_true
    · exact Or.inl ⟨rfl,rfl,rfl⟩
    · intro v hv
      rw [hnumber] at hv
      cases hv
  | some v =>
    simp only
    by_cases hint : -2^31 ≤ v ∧ v < 2^31
    · rw [if_pos hint]
      constructor
      · rintro (⟨hthrown,-⟩ | ⟨-,index,init,packet,hnumeral,-,hqueued,-,hfields,-⟩)
        · cases hthrown
        · intro u hu _ _
          obtain rfl := Option.some.inj (hnumber.symm.trans hu)
          obtain rfl := Option.some.inj (hnumber.symm.trans (number_of_numeral hnumeral))
          have := index.isLt
          exact ⟨hnumeral,by omega,by omega⟩
      · intro hfits
        obtain ⟨hnumeral,hlow,hhigh⟩ := hfits v hnumber hint.1 hint.2
        refine Or.inr ⟨rfl,BitVec.ofInt 8 v,settings.direction,_,?_,initByte_direction settings,rfl,
          rfl,rfl,rfl⟩
        rw [toNat_ofInt_byte hlow hhigh,hnumeral]
    · rw [if_neg hint]
      apply iff_of_true
      · exact Or.inl ⟨rfl,rfl,rfl⟩
      · intro u hu hlow hhigh
        obtain rfl := Option.some.inj (hnumber.symm.trans hu)
        exact absurd ⟨hlow,hhigh⟩ hint

/-- `33`, to encode and to decode. -/
theorem indexHonoured_iff_dstar :
    IndexHonoured ({index := 1} : Channel Unit) [0x33,0x33] [.encode,.decode]
        (Channel.renegotiated {index := 1}
          {args := [(Settings.indexName,[0x33,0x33])], directions := [.encode,.decode]}
          (.replicate 6 0)) ↔
      IndexFits [0x33,0x33] :=
  indexHonoured_iff _ {args := [(Settings.indexName,[0x33,0x33])], directions := [.encode,.decode]}
    _ rfl

/-- `33x` is taken for 33. -/
theorem not_indexHonoured_prefix :
    ¬ ∀ (c : Channel Unit) (settings : Settings) (fresh : RateP) (text : Text),
      settings.index = some text →
        IndexHonoured c text settings.directions (c.renegotiated settings fresh) := by
  intro h
  rcases h {index := 0} {args := [(Settings.indexName,[0x33,0x33,0x78])]} (.replicate 6 0)
    [0x33,0x33,0x78] rfl with ⟨hthrown,-⟩ | ⟨-,index,init,packet,hnumeral,-⟩
  · exact absurd hthrown (by decide)
  · have hnone : numeral [0x33,0x33,0x78] = none := by decide
    rw [hnone] at hnumeral
    cases hnumeral

end Index

section Start
variable {π : Type} {d : Device π} {settings : Settings}

theorem rate_of_index_none (fresh : RateP) (h : settings.index = none) :
    ∃ rate, settings.rate fresh = .ok rate := by
  refine ⟨settings.ratep.bind fun s => (parseRatePString fresh s).map .ratep,?_⟩
  rw [Settings.rate,h]

theorem rate_of_index {text : Text} (fresh : RateP) (h : settings.index = some text) :
    settings.rate fresh =
      match number text with
      | none => .error .invalidArgument
      | some v =>
        if -2^31 ≤ v ∧ v < 2^31 then .ok (some (.index (BitVec.ofInt 8 v)))
        else .error .outOfRange := by
  rw [Settings.rate,h]
  simp only
  rw [stoi_eq]
  cases number text with
  | none => rfl
  | some v =>
    simp only
    split_ifs <;> rfl

/-- What is undone is undone completely where there was no queue. -/
theorem release_reserve {c : Channel π} (h : c.busy = false) :
    c.reserve.release = c ↔ c.outQueue = none := by
  obtain ⟨index,busy,codecIndex,ratep,outQueue⟩ := c
  obtain rfl := h
  constructor
  · intro heq
    exact (congrArg Channel.outQueue heq).symm
  · rintro rfl
    rfl

theorem firstFree_eq_none (h : ¬ d.HasFree) : d.firstFree = none := by
  rw [Device.firstFree,List.findIdx?_eq_none_iff]
  intro c hc
  rw [Bool.not_eq_false']
  by_contra hfree
  exact h ⟨c,hc,Bool.eq_false_iff.mpr hfree⟩

theorem allOrNothing_of_busy (fresh : RateP) (h : ¬ d.HasFree) :
    AllOrNothing d settings fresh :=
  ⟨d,none,Device.startSession_of_busy settings fresh h,rfl⟩

section Split
variable {pre post : List (Channel π)} {c : Channel π} {fresh : RateP}

/-- A rate that is accepted leads to a session on the first channel that is free. -/
theorem allOrNothing_of_rate (hsplit : d.channels = pre ++ c::post)
    (hpre : ∀ c ∈ pre, c.busy = true) (hc : c.busy = false) {rate : Option Rate}
    (hrate : settings.rate fresh = .ok rate) : AllOrNothing d settings fresh := by
  have hstart := Device.startChannels_free settings fresh pre post c hpre hc
  obtain ⟨-,hbusy,-⟩ := applyRate_channel c.reserve settings.direction rate
  simp only [hrate] at hstart
  generalize c.reserve.applyRate settings.direction rate = r at hstart hbusy
  refine ⟨⟨pre ++ r.1::post⟩,some (pre.length,r.2),?_,c,r.1,?_,hc,?_,hbusy⟩
  · rw [Device.startSession,hsplit,hstart]
    rfl
  · simp [hsplit]
  · simp [hsplit]

theorem allOrNothing_invalid_iff (hsplit : d.channels = pre ++ c::post)
    (hpre : ∀ c ∈ pre, c.busy = true) (hc : c.busy = false)
    (hrate : settings.rate fresh = .error .invalidArgument) :
    AllOrNothing d settings fresh ↔ c.outQueue = none := by
  have hstart := Device.startChannels_free settings fresh pre post c hpre hc
  simp only [hrate] at hstart
  have hnothing : d.startSession settings fresh = .ok (⟨pre ++ c.reserve.release::post⟩,none) := by
    rw [Device.startSession,hsplit,hstart]
    rfl
  rw [← release_reserve hc]
  constructor
  · rintro ⟨d',session,hrun,hall⟩
    rw [hnothing] at hrun
    cases hrun
    have hchannels := congrArg Device.channels hall
    rw [hsplit] at hchannels
    exact (List.cons.inj (List.append_cancel_left hchannels)).1
  · intro hrelease
    refine ⟨_,none,hnothing,?_⟩
    obtain ⟨channels⟩ := d
    obtain rfl : channels = _ := hsplit
    rw [hrelease]

theorem startable_iff (hsplit : d.channels = pre ++ c::post) (hpre : ∀ c ∈ pre, c.busy = true)
    (hc : c.busy = false) {text : Text} (hindex : settings.index = some text) :
    Startable d settings ↔
      match number text with
      | none => c.outQueue = none
      | some v => -2^31 ≤ v ∧ v < 2^31 := by
  have hfirst := Device.firstFree_of_split hsplit hpre hc
  have hat : d.channels[pre.length]? = some c := by simp [hsplit]
  constructor
  · intro h
    exact h _ c text hfirst hat hindex
  · intro h j b text' hj hb htext'
    obtain rfl := Option.some.inj (hfirst.symm.trans hj)
    obtain rfl := Option.some.inj (hat.symm.trans hb)
    obtain rfl := Option.some.inj (hindex.symm.trans htext')
    exact h

end Split

/-- Starting a session is all or nothing exactly under that condition. -/
theorem allOrNothing_iff (d : Device π) (settings : Settings) (fresh : RateP) :
    AllOrNothing d settings fresh ↔ Startable d settings := by
  by_cases hfree : d.HasFree
  · obtain ⟨pre,c,post,hsplit,hpre,hc⟩ := Device.exists_free hfree
    cases hindex : settings.index with
    | none =>
      obtain ⟨rate,hrate⟩ := rate_of_index_none fresh hindex
      apply iff_of_true (allOrNothing_of_rate hsplit hpre hc hrate)
      intro j b text _ _ htext
      rw [hindex] at htext
      cases htext
    | some text =>
      have hrate := rate_of_index fresh hindex
      rw [startable_iff hsplit hpre hc hindex]
      cases hnumber : number text with
      | none =>
        simp only [hnumber] at hrate ⊢
        exact allOrNothing_invalid_iff hsplit hpre hc hrate
      | some v =>
        simp only [hnumber] at hrate ⊢
        constructor
        · rintro ⟨d',session,hrun,-⟩
          by_contra hint
          rw [if_neg hint] at hrate
          rw [Device.startSession_outOfRange settings fresh hfree hrate] at hrun
          cases hrun
        · intro hint
          rw [if_pos hint] at hrate
          exact allOrNothing_of_rate hsplit hpre hc hrate
  · apply iff_of_true (allOrNothing_of_busy fresh hfree)
    intro j c text hj
    rw [firstFree_eq_none hfree] at hj
    cases hj

/-- Free channels have no queue. -/
def Tidy (d : Device π) : Prop := ∀ c ∈ d.channels, c.busy = false → c.outQueue = none

/-- What happens to the channels of a device: a session is started on one of them or ended, its
settings are changed, or it receives a packet. -/
inductive DeviceEvent (π : Type)
  | start (settings : Settings) (fresh : RateP)
  | renegotiate (channel : ℕ) (settings : Settings) (fresh : RateP)
  | receive (channel : ℕ) (packet : π)
  | finish (channel : ℕ)

/-- The device after it; there is none where `startSession` throws. -/
def DeviceEvent.step (d : Device π) : DeviceEvent π → Option (Device π)
  | .start settings fresh => (d.startSession settings fresh).toOption.map Prod.fst
  | .renegotiate j settings fresh =>
    some ⟨d.channels.modify j fun c => (c.renegotiated settings fresh).channel⟩
  | .receive j packet => some ⟨d.channels.modify j (·.receive packet)⟩
  | .finish j => some ⟨d.channels.modify j .release⟩

theorem tidy_set (h : Tidy d) {d' : Device π} {j : ℕ} {c : Channel π}
    (hset : d'.channels = d.channels.set j c) (hc : c.busy = false → c.outQueue = none) :
    Tidy d' := by
  intro b hb
  rw [hset] at hb
  rcases List.mem_or_eq_of_mem_set hb with hmem | rfl
  · exact h b hmem
  · exact hc

theorem tidy_modify (h : Tidy d) (j : ℕ) {f : Channel π → Channel π}
    (hf : ∀ c, (c.busy = false → c.outQueue = none) →
      (f c).busy = false → (f c).outQueue = none) :
    Tidy ⟨d.channels.modify j f⟩ := by
  cases hj : d.channels[j]? with
  | none => rwa [List.modify_eq_self (List.getElem?_eq_none_iff.mp hj)]
  | some c =>
    have hset : d.channels.modify j f = d.channels.set j (f c) := by
      rw [List.modify_eq_set_getElem?,hj]
      rfl
    exact tidy_set h hset (hf c (h c (List.mem_of_getElem? hj)))

theorem tidy_step (d : Device π) (e : DeviceEvent π) (d' : Device π) (h : Tidy d)
    (hstep : e.step d = some d') : Tidy d' := by
  cases e with
  | start settings fresh =>
    change (d.startSession settings fresh).toOption.map Prod.fst = some d' at hstep
    cases hrun : d.startSession settings fresh with
    | error e =>
      rw [hrun] at hstep
      cases hstep
    | ok result =>
      obtain ⟨d₁,session⟩ := result
      rw [hrun] at hstep
      obtain rfl : d₁ = d' := Option.some.inj hstep
      rcases Device.startSession_eq_ok settings fresh hrun with
        ⟨rfl,-⟩ | ⟨j,c,-,-,-,⟨-,hset⟩ | ⟨rate,-,-,hset⟩⟩
      · exact h
      · exact tidy_set h hset fun _ => rfl
      · obtain ⟨-,hbusy,-⟩ := applyRate_channel c.reserve settings.direction rate
        exact tidy_set h hset fun hfree => Bool.noConfusion (hbusy.symm.trans hfree)
  | renegotiate j settings fresh =>
    obtain rfl := Option.some.inj hstep
    apply tidy_modify h
    intro c hc
    rw [Channel.renegotiated,renegotiate_eq]
    cases settings.rate fresh with
    | error e => exact hc
    | ok rate =>
      obtain ⟨-,hbusy,hqueue⟩ := applyRate_channel c settings.direction rate
      change (c.applyRate _ rate).1.busy = false → (c.applyRate _ rate).1.outQueue = none
      rwa [hbusy,hqueue]
  | receive j packet =>
    obtain rfl := Option.some.inj hstep
    apply tidy_modify h
    intro c hc
    unfold Channel.receive
    cases hqueue : c.outQueue with
    | none => exact fun _ => hqueue
    | some queue =>
      simp only
      cases queue.push packet false with
      | pushed queue =>
        intro hfree
        rw [hc hfree] at hqueue
        cases hqueue
      | _ => exact fun _ => rfl
  | finish j =>
    obtain rfl := Option.some.inj hstep
    exact tidy_modify h j fun _ _ _ => rfl

/-- In no state that the channels of a device can get into does a free channel have a queue. -/
theorem run_tidy {count : ℕ} {es : List (DeviceEvent π)} {d : Device π}
    (h : run (fun d e => DeviceEvent.step d e) (.createChannels count) es = some d) : Tidy d := by
  refine run_invariant tidy_step ?_ h
  intro c hc _
  obtain ⟨i,-,rfl⟩ := List.mem_map.mp hc
  rfl

/-- So the text of the index is all that matters there. -/
theorem startable_of_tidy (h : Tidy d) (hfree : d.HasFree) :
    Startable d settings ↔ ∀ text, settings.index = some text →
      ∀ v, number text = some v → -2^31 ≤ v ∧ v < 2^31 := by
  obtain ⟨pre,c,post,hsplit,hpre,hc⟩ := Device.exists_free hfree
  have hqueue := h c (by simp [hsplit]) hc
  cases hindex : settings.index with
  | none =>
    apply iff_of_true
    · intro j b text _ _ htext
      rw [hindex] at htext
      cases htext
    · exact nofun
  | some text =>
    rw [startable_iff hsplit hpre hc hindex]
    simp only [Option.some.injEq,forall_eq']
    cases number text with
    | none => exact iff_of_true hqueue nofun
    | some v => simp

/-- `99999999999`: the exception passes through `startSession`, and the channel stays reserved. -/
theorem not_allOrNothing_outOfRange :
    ¬ ∀ (d : Device Unit) (settings : Settings) (fresh : RateP),
      AllOrNothing d settings fresh := by
  intro h
  obtain ⟨d',session,hrun,-⟩ := h (.createChannels 1)
    {args := [(Settings.indexName,.replicate 11 0x39)]} (.replicate 6 0)
  have hthrows : (Device.createChannels 1 : Device Unit).startSession
      {args := [(Settings.indexName,.replicate 11 0x39)]} (.replicate 6 0) =
        .error .outOfRange := by rfl
  rw [hthrows] at hrun
  cases hrun

end Start
end CodecServer.Ambe3K
