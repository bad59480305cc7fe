import CodecServer.Connection.WireFormat
import CodecServer.Server.ClientConnection

/-! The messages that a client sends, as the `Any` that has been received gives them. -/
namespace CodecServer.Server
open CodecServer.Numeral CodecServer.Ambe3K

/-- The types that `ClientConnection::loop` knows. -/
inductive Kind
  | request
  | check
  | channelData
  | speechData
  | renegotiation
  deriving DecidableEq

def Message.kind : Message → Kind
  | .request _ _ => .request
  | .check _ => .check
  | .channelData _ => .channelData
  | .speechData _ => .speechData
  | .renegotiation _ => .renegotiation

/-- What `ClientConnection` uses of the messages that protobuf generates. -/
structure Schema (p : Protobuf) where
  /-- `Any::Is`. -/
  is : Kind → p.Any → Bool
  /-- `Any::UnpackTo`: what is in the new message, and the result. -/
  unpackTo : Kind → p.Any → Message × Bool
  value : p.Any → List (BitVec 8)
  /-- The message of a type that well-formed bytes encode. -/
  decode : Kind → List (BitVec 8) → Option Message

/-- What is assumed of the messages: an `Any` names one type; and `UnpackTo` fails if the value is
malformed, and otherwise gives what it encodes. -/
structure Schema.Lawful {p : Protobuf} (x : Schema p) : Prop where
  kind_eq : ∀ {any kind kind'}, x.is kind any → x.is kind' any → kind = kind'
  kind_unpackTo : ∀ kind any, (x.unpackTo kind any).1.kind = kind
  unpackTo_iff : ∀ {any kind}, x.is kind any → ∀ m,
    x.unpackTo kind any = (m,true) ↔ x.decode kind (x.value any) = some m

namespace Proto
open CodecServer.WireFormat

/-- `CodecServer.proto.`. -/
def packageName : Text :=
  [0x43,0x6f,0x64,0x65,0x63,0x53,0x65,0x72,0x76,0x65,0x72,0x2e,0x70,0x72,0x6f,0x74,0x6f,0x2e]

def name : Kind → Text
  | .request => packageName ++ [0x52,0x65,0x71,0x75,0x65,0x73,0x74]
  | .check => packageName ++ [0x43,0x68,0x65,0x63,0x6b]
  | .channelData => packageName ++ [0x43,0x68,0x61,0x6e,0x6e,0x65,0x6c,0x44,0x61,0x74,0x61]
  | .speechData => packageName ++ [0x53,0x70,0x65,0x65,0x63,0x68,0x44,0x61,0x74,0x61]
  | .renegotiation =>
    packageName ++ [0x52,0x65,0x6e,0x65,0x67,0x6f,0x74,0x69,0x61,0x74,0x69,0x6f,0x6e]

/-- The name of the type is what the URL ends with, behind a slash. -/
def is (kind : Kind) (any : Any) : Bool := (0x2f::name kind).isSuffixOf any.typeUrl

/-- A field of a `string` or `bytes` member, the last of which counts. -/
def text (number : ℕ) (old : Text) (f : Field) : Text :=
  match f.value with
  | .bytes data => if f.number=number then data else old
  | _ => old

def direction (v : ℕ) : Direction :=
  match v % 2^32 with
  | 0 => .encode
  | 1 => .decode
  | _ => .unrecognized

/-- Numbers that are packed into one field. -/
def varints : ℕ → List (BitVec 8) → List ℕ × Bool
  | 0,_ => ([],true)
  | n+1,bs =>
    if bs=[] then ([],true)
    else
      match Varint.read bs with
      | none => ([],false)
      | some (v,k) =>
        let (vs,ok) := varints n (bs.drop k)
        (v::vs,ok)

def settings (s : Settings) (f : Field) : Settings × Bool :=
  match f.number,f.value with
  | 1,.bytes data =>
    let (entry,ok) := parseFields (fun e f => ((text 1 e.1 f,text 2 e.2 f),true)) ([],[]) data
    (if ok then {s with args := entry::s.args} else s,ok)
  | 2,.varint v => ({s with directions := s.directions ++ [direction v]},true)
  | 2,.bytes data =>
    let (vs,ok) := varints data.length data
    ({s with directions := s.directions ++ vs.map direction},ok)
  | _,_ => (s,true)

/-- A member that is a message, of which all occurrences count. -/
def settingsField (number : ℕ) (s : Settings) (f : Field) : Settings × Bool :=
  match f.value with
  | .bytes data => if f.number=number then parseFields settings s data else (s,true)
  | _ => (s,true)

def parse (bs : List (BitVec 8)) : Kind → Message × Bool
  | .request =>
    let ((codec,s),ok) := parseFields (fun (codec,s) f =>
      let (s,ok) := settingsField 3 s f
      ((text 1 codec f,s),ok)) ([],{}) bs
    (.request codec s,ok)
  | .check =>
    let (codec,ok) := parseFields (fun codec f => (text 1 codec f,true)) [] bs
    (.check codec,ok)
  | .channelData =>
    let (data,ok) := parseFields (fun data f => (text 1 data f,true)) [] bs
    (.channelData data,ok)
  | .speechData =>
    let (data,ok) := parseFields (fun data f => (text 1 data f,true)) [] bs
    (.speechData data,ok)
  | .renegotiation =>
    let (s,ok) := parseFields (settingsField 1) {} bs
    (.renegotiation s,ok)

def schema : Schema protobuf where
  is := is
  unpackTo kind any := parse any.value kind
  value := Any.value
  decode kind bs := if (parse bs kind).2 then some (parse bs kind).1 else none

theorem kind_eq_of_suffix : ∀ kind kind' : Kind,
    (0x2f::name kind).isSuffixOf (0x2f::name kind') = true → kind = kind' := by
  intro kind kind'
  cases kind <;> cases kind' <;> decide

theorem lawful : schema.Lawful where
  kind_eq {any kind kind'} h h' := by
    have hsuffix := List.isSuffixOf_iff_suffix.mp h
    have hsuffix' := List.isSuffixOf_iff_suffix.mp h'
    cases List.suffix_or_suffix_of_suffix hsuffix hsuffix' with
    | inl hle => exact kind_eq_of_suffix _ _ (List.isSuffixOf_iff_suffix.mpr hle)
    | inr hle => exact (kind_eq_of_suffix _ _ (List.isSuffixOf_iff_suffix.mpr hle)).symm
  kind_unpackTo kind any := by
    cases kind <;> rfl
  unpackTo_iff {any kind} _ m := by
    change parse any.value kind = (m,true) ↔
      (if (parse any.value kind).2 then some (parse any.value kind).1 else none) = some m
    generalize parse any.value kind = parsed
    obtain ⟨message,ok⟩ := parsed
    cases ok <;> simp

end Proto
end CodecServer.Server
