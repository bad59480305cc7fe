import CodecServer.Numeral
import CodecServer.Ambe3K.Device

/-! Sessions on a channel of the device: how the settings of a client set up the codec, and which
framing the channel has then. -/
namespace CodecServer.Ambe3K
open CodecServer.Numeral CodecServer.Ambe3K.Protocol

/-- `Settings.Direction`; a value that the protocol does not know is passed on as it is. -/
inductive Direction
  | encode
  | decode
  | unrecognized
  deriving Repr, DecidableEq

/-- `Settings`: the arguments, by their names, and the directions. -/
structure Settings where
  args : List (Text × Text) := []
  directions : List Direction := []
  deriving DecidableEq

namespace Settings

/-- The names `index` and `ratep`. -/
def indexName : Text := [0x69,0x6e,0x64,0x65,0x78]
def ratepName : Text := [0x72,0x61,0x74,0x65,0x70]

def index (s : Settings) : Option Text := s.args.lookup indexName
def ratep (s : Settings) : Option Text := s.args.lookup ratepName

/-- The direction byte that `renegotiate` puts together. -/
def direction (s : Settings) : Byte :=
  s.directions.foldl (fun direction dir =>
    match dir with
    | .encode => direction ||| directionEncode
    | .decode => direction ||| directionDecode
    | .unrecognized => direction) 0

end Settings

structure FramingHint where
  channelBits : ℕ
  channelBytes : ℕ
  audioSamples : ℕ
  audioBytes : ℕ
  deriving Repr, DecidableEq

/-- The parts of a text between colons. -/
def parts : Text → List Text
  | [] => [[]]
  | b::s =>
    if b = 0x3a then []::parts s
    else
      match parts s with
      | [] => [[b]]
      | part::rest => (b::part)::rest

/-- `Ambe3KSession::parseRatePString`; `fresh` is what `malloc` finds in the memory it returns. -/
def parseRatePString (fresh : RateP) (input : Text) : Option RateP :=
  if input.length ≠ 29 then none
  else if h : (parts input).length = 6 then
    if (parts input).all (·.length = 4) then
      some (Vector.ofFn fun i => extractShort fresh[i] ((parts input).get (i.cast h.symm)))
    else none
  else none

namespace Channel
variable {π : Type}

/-- `Ambe3KSession::getFraming`. -/
def getFraming (c : Channel π) : Option FramingHint :=
  if c.getFramingBits = 0 then none
  else some
    { channelBits := c.getFramingBits.toNat
      channelBytes := (c.getFramingBits.toNat+7)/8
      audioSamples := 160
      audioBytes := 320 }

/-- `Ambe3KSession::renegotiate` and the packets that it queues. An invalid `ratep` argument and
settings with neither argument are reported and otherwise ignored. -/
def renegotiate (c : Channel π) (settings : Settings) (fresh : RateP) :
    Except StoiError (Channel π × List Outgoing) :=
  match settings.index with
  | some indexStr => do
    let index ← stoi indexStr
    let (c,packet) := c.setup (BitVec.ofInt 8 index) settings.direction
    return (c,[packet])
  | none =>
    match settings.ratep with
    | some ratepStr =>
      match parseRatePString fresh ratepStr with
      | none => return (c,[])
      | some rateP =>
        let (c,packet) := c.setupRateP rateP settings.direction
        return (c,[packet])
    | none => return (c,[])

end Channel

namespace Device
variable {π : Type}

/-- The loop of `Device::startSession`: the first channel that is not busy is tried, and no other.
The result has the position of the channel of the session, if there is one. -/
def startChannels (settings : Settings) (fresh : RateP) :
    List (Channel π) → Except StoiError (List (Channel π) × Option (ℕ × List Outgoing))
  | [] => return ([],none)
  | c::cs =>
    if c.busy then do
      let (cs,session) ← startChannels settings fresh cs
      return (c::cs,session.map fun s => (s.1+1,s.2))
    else
      match c.reserve.renegotiate settings fresh with
      | .ok (c,packets) => return (c::cs,some (0,packets))
      | .error .invalidArgument => return (c.reserve.release::cs,none)
      | .error .outOfRange => throw .outOfRange

/-- `Device::startSession`. -/
def startSession (d : Device π) (settings : Settings) (fresh : RateP) :
    Except StoiError (Device π × Option (ℕ × List Outgoing)) := do
  let (channels,session) ← startChannels settings fresh d.channels
  return ({d with channels := channels},session)

end Device

/-- How the codec of a channel is set up: by the index of a rate, or by control words. -/
inductive Rate
  | index (index : Byte)
  | ratep (cwds : RateP)
  deriving DecidableEq

/-- The packet that sets up a channel with the rate. -/
def Rate.setup : Rate → Byte → Byte → Outgoing
  | .index codecIndex,channel,direction => .setupIndex channel codecIndex direction
  | .ratep cwds,channel,direction => .setupRateP channel cwds direction

/-- What `renegotiate` makes of settings; it does not depend on the channel. -/
def Settings.rate (settings : Settings) (fresh : RateP) : Except StoiError (Option Rate) :=
  match settings.index with
  | some indexStr => (stoi indexStr).map fun index => some (.index (BitVec.ofInt 8 index))
  | none => .ok (settings.ratep.bind fun s => (parseRatePString fresh s).map .ratep)

/-- What `renegotiate` does to a channel with it. -/
def Channel.applyRate {π : Type} (c : Channel π) (direction : Byte) :
    Option Rate → Channel π × List Outgoing
  | none => (c,[])
  | some (.index index) => ((c.setup index direction).1,[(c.setup index direction).2])
  | some (.ratep cwds) => ((c.setupRateP cwds direction).1,[(c.setupRateP cwds direction).2])

section
variable {π : Type} (settings : Settings) (fresh : RateP)

theorem renegotiate_eq (c : Channel π) :
    c.renegotiate settings fresh =
      (settings.rate fresh).map (c.applyRate settings.direction) := by
  unfold Channel.renegotiate Settings.rate
  cases settings.index with
  | some indexStr =>
    simp only
    cases stoi indexStr <;> rfl
  | none =>
    cases settings.ratep with
    | none => rfl
    | some ratepStr =>
      simp only [Option.bind_some]
      cases parseRatePString fresh ratepStr <;> rfl

/-- A channel set up at some rate has nothing but its rate changed. -/
theorem applyRate_channel (c : Channel π) (direction : Byte) (rate : Option Rate) :
    (c.applyRate direction rate).1.index = c.index ∧
      (c.applyRate direction rate).1.busy = c.busy ∧
      (c.applyRate direction rate).1.outQueue = c.outQueue := by
  rcases rate with _ | ⟨index⟩ | ⟨cwds⟩ <;> exact ⟨rfl,rfl,rfl⟩

namespace Device

theorem startChannels_busy (cs : List (Channel π)) (h : ∀ c ∈ cs, c.busy = true) :
    startChannels settings fresh cs = .ok (cs,none) := by
  induction cs with
  | nil => rfl
  | cons c cs ih =>
    rw [startChannels,if_pos (h c (by simp)),ih (fun c hc => h c (by simp [hc]))]
    rfl

/-- The first channel that is free gets the session, or is given back. -/
theorem startChannels_free (pre post : List (Channel π)) (c : Channel π)
    (hpre : ∀ c ∈ pre, c.busy = true) (hc : c.busy = false) :
    startChannels settings fresh (pre ++ c::post) =
      match settings.rate fresh with
      | .ok rate =>
        .ok (pre ++ (c.reserve.applyRate settings.direction rate).1::post,
          some (pre.length,(c.reserve.applyRate settings.direction rate).2))
      | .error .invalidArgument => .ok (pre ++ c.reserve.release::post,none)
      | .error .outOfRange => .error .outOfRange := by
  induction pre with
  | nil =>
    rw [List.nil_append,startChannels,if_neg (by simp [hc]),renegotiate_eq]
    cases settings.rate fresh with
    | ok rate => rfl
    | error e => cases e <;> rfl
  | cons b pre ih =>
    rw [List.cons_append,startChannels,if_pos (hpre b (by simp)),
      ih (fun c hc => hpre c (by simp [hc]))]
    cases settings.rate fresh with
    | ok rate => rfl
    | error e => cases e <;> rfl

/-- A channel of the device is free. -/
def HasFree (d : Device π) : Prop := ∃ c ∈ d.channels, c.busy = false

variable {d : Device π}

theorem exists_free (h : d.HasFree) :
    ∃ pre c post, d.channels = pre ++ c::post ∧ (∀ c ∈ pre, c.busy = true) ∧ c.busy = false := by
  obtain ⟨c,hc,hfree⟩ := h
  cases hfind : d.channels.find? (fun c => !c.busy) with
  | none =>
    have := List.find?_eq_none.mp hfind c hc
    simp [hfree] at this
  | some c =>
    obtain ⟨hbusy,pre,post,hsplit,hpre⟩ := List.find?_eq_some_iff_append.mp hfind
    exact ⟨pre,c,post,hsplit,by simpa using hpre,by simpa using hbusy⟩

theorem startSession_of_busy (h : ¬ d.HasFree) :
    d.startSession settings fresh = .ok (d,none) := by
  have hbusy : ∀ c ∈ d.channels, c.busy = true := by
    intro c hc
    by_contra hfree
    exact h ⟨c,hc,Bool.eq_false_iff.mpr hfree⟩
  rw [startSession,startChannels_busy settings fresh _ hbusy]
  rfl

/-- A free channel is set up at the rate of the settings, and is the channel of the session. -/
theorem startSession_of_rate {rate : Option Rate} (h : d.HasFree)
    (hrate : settings.rate fresh = .ok rate) :
    ∃ (j : ℕ) (c : Channel π) (d' : Device π),
      d.startSession settings fresh =
        .ok (d',some (j,(c.applyRate settings.direction rate).2)) ∧
      d'.channels[j]? = some (c.applyRate settings.direction rate).1 ∧
      d'.channels.length = d.channels.length := by
  obtain ⟨pre,c,post,hsplit,hpre,hc⟩ := exists_free h
  have hstart := startChannels_free settings fresh pre post c hpre hc
  simp only [hrate] at hstart
  refine ⟨pre.length,c.reserve,
    ⟨pre ++ (c.reserve.applyRate settings.direction rate).1::post⟩,?_,?_,?_⟩
  · rw [startSession,hsplit,hstart]
    rfl
  · rw [List.getElem?_append_right (Nat.le_refl _),Nat.sub_self]
    rfl
  · rw [hsplit]
    simp

/-- An index that is no number is turned down, and the channel is given back. -/
theorem startSession_invalid (h : settings.rate fresh = .error .invalidArgument) :
    ∃ d' : Device π, d.startSession settings fresh = .ok (d',none) ∧
      d'.channels.length = d.channels.length := by
  by_cases hfree : d.HasFree
  · obtain ⟨pre,c,post,hsplit,hpre,hc⟩ := exists_free hfree
    have hstart := startChannels_free settings fresh pre post c hpre hc
    simp only [h] at hstart
    refine ⟨⟨pre ++ c.reserve.release::post⟩,?_,?_⟩
    · rw [startSession,hsplit,hstart]
      rfl
    · rw [hsplit]
      simp
  · exact ⟨d,startSession_of_busy settings fresh hfree,rfl⟩

theorem startSession_outOfRange (h : d.HasFree)
    (hrate : settings.rate fresh = .error .outOfRange) :
    d.startSession settings fresh = .error .outOfRange := by
  obtain ⟨pre,c,post,hsplit,hpre,hc⟩ := exists_free h
  have hstart := startChannels_free settings fresh pre post c hpre hc
  simp only [hrate] at hstart
  rw [startSession,hsplit,hstart]
  rfl

/-- The channel that the next session gets, if its settings are accepted. -/
def firstFree (d : Device π) : Option ℕ := d.channels.findIdx? fun c => !c.busy

theorem firstFree_of_split {pre post : List (Channel π)} {c : Channel π}
    (h : d.channels = pre ++ c::post) (hpre : ∀ c ∈ pre, c.busy = true) (hc : c.busy = false) :
    d.firstFree = some pre.length := by
  have hnone : pre.findIdx? (fun c => !c.busy) = none :=
    List.findIdx?_eq_none_iff.mpr (by simpa using hpre)
  rw [firstFree,h,List.findIdx?_append,hnone]
  simp [List.findIdx?_cons,hc]

/-- What `startSession` does to the device, apart from nothing: the first free channel is set up for
the session, or reserved and given back. -/
theorem startSession_eq_ok {d' : Device π} {session : Option (ℕ × List Outgoing)}
    (h : d.startSession settings fresh = .ok (d',session)) :
    (d' = d ∧ session = none) ∨
    ∃ j c, d.firstFree = some j ∧ d.channels[j]? = some c ∧ c.busy = false ∧
      ((session = none ∧ d'.channels = d.channels.set j c.reserve.release) ∨
      ∃ rate, settings.rate fresh = .ok rate ∧
        session = some (j,(c.reserve.applyRate settings.direction rate).2) ∧
        d'.channels = d.channels.set j (c.reserve.applyRate settings.direction rate).1) := by
  by_cases hfree : d.HasFree
  · obtain ⟨pre,c,post,hsplit,hpre,hc⟩ := exists_free hfree
    have hstart := startChannels_free settings fresh pre post c hpre hc
    rw [startSession,hsplit,hstart] at h
    refine Or.inr ⟨pre.length,c,firstFree_of_split hsplit hpre hc,by simp [hsplit],hc,?_⟩
    cases hrate : settings.rate fresh with
    | ok rate =>
      rw [hrate] at h
      cases h
      exact Or.inr ⟨rate,rfl,rfl,by simp [hsplit]⟩
    | error e =>
      cases e with
      | invalidArgument =>
        rw [hrate] at h
        cases h
        exact Or.inl ⟨rfl,by simp [hsplit]⟩
      | outOfRange =>
        rw [hrate] at h
        cases h
  · rw [startSession_of_busy settings fresh hfree] at h
    cases h
    exact Or.inl ⟨rfl,rfl⟩

end Device
end
end CodecServer.Ambe3K
