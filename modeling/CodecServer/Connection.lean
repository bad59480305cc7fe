import CodecServer.Varint
import CodecServer.Stream

/-! `Connection`: a message is wrapped in an `Any` and sent behind its size; the receiver reads the
size and parses that many bytes. Protobuf is a parameter. -/
namespace CodecServer

/-- What a parse leaves: the message, the number of bytes consumed, the result, and
`ConsumedEntireMessage`. -/
structure Merge (α : Type) where
  any : α
  consumed : ℕ
  ok : Bool
  ended : Bool

/-- What `Connection` uses of protobuf. -/
structure Protobuf where
  Message : Type
  Any : Type
  packFrom : Message → Any
  serialize : Any → List (BitVec 8)
  /-- An `Any` in which nothing is set. -/
  empty : Any
  /-- `MergeFromCodedStream`, for the bytes up to the limit or the end of the input. -/
  merge : Any → List (BitVec 8) → Merge Any
  /-- The `Any` that well-formed bytes encode. -/
  decode : List (BitVec 8) → Option Any
  /-- The number of bytes to which `PushLimit` limits the input. -/
  pushLimit : ℤ → Option ℕ

namespace Protobuf

/-- What is assumed of protobuf: a parse fails if the bytes are malformed, and then it has consumed
some of them; otherwise it consumes all of them and gives what they encode; an `Any` encodes to
bytes that encode it, and one that is packed is not empty. -/
structure Lawful (p : Protobuf) : Prop where
  merge_ok_iff : ∀ any bs, (p.merge any bs).ok ↔ (p.decode bs).isSome
  merge_empty : ∀ bs any, p.decode bs = some any → (p.merge p.empty bs).any = any
  consumed_of_ok : ∀ any bs, (p.merge any bs).ok → (p.merge any bs).consumed = bs.length
  consumed_le : ∀ any bs, (p.merge any bs).consumed ≤ bs.length
  advanced : ∀ any bs, (p.merge any bs).ok = false → 0 < (p.merge any bs).consumed
  pushLimit_of_nonneg : ∀ l, 0 ≤ l → p.pushLimit l = some l.toNat
  decode_serialize : ∀ any, (p.serialize any).length < 2^31 → p.decode (p.serialize any) = some any
  serialize_packFrom : ∀ m, p.serialize (p.packFrom m) ≠ []

variable (p : Protobuf)

/-- `Connection::sendMessage`: the bytes that are sent, and the result. `SerializeToCodedStream`
refuses more than `INT_MAX` bytes. -/
def sendMessage (message : p.Message) : List (BitVec 8) × Bool :=
  let bytes := p.serialize (p.packFrom message)
  if bytes.length < 2^31 then (Varint.write bytes.length ++ bytes,true)
  else (Varint.write bytes.length,false)

/-- The `int` that a `uint64_t` is converted to. -/
def toInt (size : ℕ) : ℤ := ((BitVec.ofNat 64 size).setWidth 32).toInt

/-- The bytes that can be had when the size has been passed to `PushLimit`. -/
def limited (size : ℕ) (bs : List (BitVec 8)) : List (BitVec 8) :=
  match p.pushLimit (toInt size) with
  | some l => bs.take l
  | none => bs

/-- `ParseFromCodedStream` into an empty `Any`, and `MergeFromCodedStream` from where a parse has
stopped as long as it fails. -/
def parse : ℕ → p.Any → List (BitVec 8) → Merge p.Any
  | 0,any,bs => p.merge any bs
  | n+1,any,bs =>
    let r := p.merge any bs
    if r.ok || r.ended then r
    else
      let rest := parse n r.any (bs.drop r.consumed)
      {rest with consumed := r.consumed+rest.consumed}

/-- `Connection::receiveMessage` once `poll` has returned: the message, `none` for `nullptr`, and
the input that is left. -/
def receiveMessage (s : InStream (BitVec 8)) : Option p.Any × InStream (BitVec 8) :=
  match Varint.read s.content with
  | none => (none,s)
  | some (size,k) =>
    let s := s.advance k
    if size=0 then (none,s)
    else
      let bs := p.limited size s.content
      let r := p.parse bs.length p.empty bs
      (if r.ok then some r.any else none,s.advance r.consumed)

/-- A parse, and what the parses after it add where it has stopped, until one succeeds. -/
inductive Recovers : p.Any → List (BitVec 8) → p.Any → Prop
  | parsed {any bs} (h : (p.merge any bs).ok) : Recovers any bs (p.merge any bs).any
  | retried {any bs any'} (h : (p.merge any bs).ok = false) (hend : (p.merge any bs).ended = false)
      (hrest : Recovers (p.merge any bs).any (bs.drop (p.merge any bs).consumed) any') :
      Recovers any bs any'

/-- What the bytes behind a size that is not 0 amount to when parses that fail are retried. -/
def Salvageable (bs : List (BitVec 8)) (any : p.Any) : Prop :=
  ∃ size k, Varint.read bs = some (size,k) ∧ size ≠ 0 ∧
    p.Recovers p.empty (p.limited size (bs.drop k)) any

/-- The first parse of the bytes behind a size that is not 0 decides: it succeeds, or it stops where
they end. -/
def Decisive (bs : List (BitVec 8)) : Prop :=
  ∀ size k, Varint.read bs = some (size,k) → size ≠ 0 →
    (p.merge p.empty (p.limited size (bs.drop k))).ok ||
      (p.merge p.empty (p.limited size (bs.drop k))).ended

section
variable {p} {any any' : p.Any} {bs : List (BitVec 8)}

theorem toInt_of_lt {size : ℕ} (h : size < 2^31) : toInt size = size := by
  have hsize : ((BitVec.ofNat 64 size).setWidth 32).toNat = size := by
    rw [BitVec.toNat_setWidth,BitVec.toNat_ofNat]
    omega
  rw [toInt,BitVec.toInt_eq_toNat_of_lt (by omega),hsize]

theorem limited_of_lt (hp : p.Lawful) {size : ℕ} (h : size < 2^31) (bs : List (BitVec 8)) :
    p.limited size bs = bs.take size := by
  rw [limited,toInt_of_lt h,hp.pushLimit_of_nonneg _ (by omega),Int.toNat_natCast]

theorem parse_of_end (h : (p.merge any bs).ok || (p.merge any bs).ended) (n : ℕ) :
    p.parse n any bs = p.merge any bs := by
  cases n with
  | zero => rfl
  | succ n => rw [parse,if_pos h]

theorem parse_of_ok (h : (p.merge any bs).ok) (n : ℕ) : p.parse n any bs = p.merge any bs :=
  parse_of_end (by rw [h,Bool.true_or]) n

theorem Recovers.unique (h : p.Recovers any bs any') {any'' : p.Any}
    (h' : p.Recovers any bs any'') : any'' = any' := by
  induction h with
  | parsed hok =>
    cases h' with
    | parsed => rfl
    | retried hfail =>
      rw [hfail] at hok
      cases hok
  | retried hfail _ _ ih =>
    cases h' with
    | parsed hok =>
      rw [hfail] at hok
      cases hok
    | retried _ _ hrest => exact ih hrest

theorem Salvageable.unique (h : p.Salvageable bs any) (h' : p.Salvageable bs any') :
    any' = any := by
  obtain ⟨size,k,hread,-,hany⟩ := h
  obtain ⟨size',k',hread',-,hany'⟩ := h'
  obtain ⟨rfl,rfl⟩ := Prod.mk.inj (Option.some.inj (hread.symm.trans hread'))
  exact hany.unique hany'

theorem sendMessage_sent {m : p.Message} (h : (p.sendMessage m).2) :
    (p.serialize (p.packFrom m)).length < 2^31 ∧ (p.sendMessage m).1 =
      Varint.write (p.serialize (p.packFrom m)).length ++ p.serialize (p.packFrom m) := by
  by_cases hsize : (p.serialize (p.packFrom m)).length < 2^31
  · refine ⟨hsize,?_⟩
    rw [sendMessage,if_pos hsize]
  · rw [sendMessage,if_neg hsize] at h
    cases h

/-- A message that was sent is received, and its bytes are used. -/
theorem receiveMessage_sendMessage (hp : p.Lawful) {m : p.Message} {s : InStream (BitVec 8)}
    {rest : List (BitVec 8)} (hm : (p.sendMessage m).2)
    (hs : s.content = (p.sendMessage m).1 ++ rest) :
    p.receiveMessage s = (some (p.packFrom m),s.advance (p.sendMessage m).1.length) := by
  obtain ⟨hsize,hbytes⟩ := sendMessage_sent hm
  rw [hbytes,List.append_assoc] at hs
  rw [hbytes,List.length_append,← InStream.advance_advance]
  have hdecode := hp.decode_serialize _ hsize
  have hne := hp.serialize_packFrom m
  generalize p.serialize (p.packFrom m) = bytes at hsize hs hdecode hne
  have hok : (p.merge p.empty bytes).ok := by
    rw [hp.merge_ok_iff,hdecode]
    rfl
  have hread : Varint.read s.content = some (bytes.length,(Varint.write bytes.length).length) := by
    rw [hs,Varint.read_write (by omega)]
  have hlimited : p.limited bytes.length (s.advance (Varint.write bytes.length).length).content =
      bytes := by
    rw [limited_of_lt hp hsize,InStream.content_advance,hs,List.drop_left,List.take_left]
  simp only [receiveMessage,hread,List.length_eq_zero_iff,if_neg hne,hlimited,parse_of_ok hok,hok,
    if_true,hp.merge_empty bytes _ hdecode,hp.consumed_of_ok _ _ hok]

end
end Protobuf
end CodecServer
