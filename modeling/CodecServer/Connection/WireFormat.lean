import CodecServer.Connection

/-! The encoding of protobuf messages, as a sequence of numbered fields, and of `Any` in it. -/
namespace CodecServer.WireFormat

inductive Value
  | varint (v : ℕ)
  | fixed (data : List (BitVec 8))
  | bytes (data : List (BitVec 8))

structure Field where
  number : ℕ
  value : Value

/-- What follows the tag, by the wire type, and the bytes that it takes. Groups are not known. -/
def value (bs : List (BitVec 8)) : ℕ → Option (Value × ℕ)
  | 0 => (Varint.read bs).map fun (v,k) => (.varint v,k)
  | 1 => if 8 ≤ bs.length then some (.fixed (bs.take 8),8) else none
  | 2 => (Varint.read bs).bind fun (size,k) =>
    if k+size ≤ bs.length then some (.bytes ((bs.drop k).take size),k+size) else none
  | 5 => if 4 ≤ bs.length then some (.fixed (bs.take 4),4) else none
  | _ => none

/-- The field at the front of the bytes, and the bytes that it takes. -/
def field (bs : List (BitVec 8)) : Option (Field × ℕ) :=
  (Varint.read bs).bind fun (tag,k) =>
    if 8 ≤ tag ∧ tag < 2^32 then
      (value (bs.drop k) (tag%8)).map fun (v,j) => ({number := tag/8, value := v},k+j)
    else none

/-- The fields before the first that is malformed, and whether there is none. -/
def fieldsFrom : ℕ → List (BitVec 8) → List Field × Bool
  | 0,_ => ([],true)
  | n+1,bs =>
    if bs=[] then ([],true)
    else
      match field bs with
      | none => ([],false)
      | some (f,k) =>
        let (fs,ok) := fieldsFrom n (bs.drop k)
        (f::fs,ok)

def fields (bs : List (BitVec 8)) : List Field × Bool := fieldsFrom bs.length bs

/-- The fields are put into a value one by one, until one is malformed. -/
def putFields {α : Type} (put : α → Field → α × Bool) : α → List Field → α × Bool
  | a,[] => (a,true)
  | a,f::fs => if (put a f).2 then putFields put (put a f).1 fs else put a f

def parseFields {α : Type} (put : α → Field → α × Bool) (a : α) (bs : List (BitVec 8)) :
    α × Bool :=
  let (a,ok) := putFields put a (fields bs).1
  (a,ok && (fields bs).2)

/-- A field of type `string` or `bytes`, by its number. -/
def bytesField (part : ℕ × List (BitVec 8)) : List (BitVec 8) :=
  Varint.write (8*part.1+2) ++ (Varint.write part.2.length ++ part.2)

/-- `google::protobuf::Any`. -/
structure Any where
  typeUrl : List (BitVec 8) := []
  value : List (BitVec 8) := []
  deriving DecidableEq

namespace Any

def set (any : Any) (f : Field) : Any :=
  match f.number,f.value with
  | 1,.bytes data => {any with typeUrl := data}
  | 2,.bytes data => {any with value := data}
  | _,_ => any

/-- A parse that fails has taken what there was. -/
def merge (any : Any) (bs : List (BitVec 8)) : Merge Any :=
  { any := (fields bs).1.foldl set any
    consumed := bs.length
    ok := (fields bs).2
    ended := (fields bs).2 }

def decode (bs : List (BitVec 8)) : Option Any :=
  if (fields bs).2 then some ((fields bs).1.foldl set {}) else none

/-- The fields that are set. -/
def parts (any : Any) : List (ℕ × List (BitVec 8)) :=
  [(1,any.typeUrl),(2,any.value)].filter fun part => part.2 ≠ []

def serialize (any : Any) : List (BitVec 8) := any.parts.flatMap bytesField

end Any

/-- A message, by its full name and its encoding. -/
structure Packed where
  name : List (BitVec 8)
  data : List (BitVec 8)

/-- `type.googleapis.com/`. -/
def typeUrlPrefix : List (BitVec 8) :=
  [0x74,0x79,0x70,0x65,0x2e,0x67,0x6f,0x6f,0x67,0x6c,0x65,0x61,0x70,0x69,0x73,0x2e,0x63,0x6f,0x6d,
    0x2f]

def Packed.toAny (packed : Packed) : Any where
  typeUrl := typeUrlPrefix ++ packed.name
  value := packed.data

def protobuf : Protobuf where
  Message := Packed
  Any := Any
  packFrom := Packed.toAny
  serialize := Any.serialize
  empty := {}
  merge := Any.merge
  decode := Any.decode
  pushLimit l := if 0 ≤ l then some l.toNat else none

theorem value_bytes {data : List (BitVec 8)} (h : data.length < 2^64) (bs : List (BitVec 8)) :
    value (Varint.write data.length ++ (data ++ bs)) 2 =
      some (.bytes data,(Varint.write data.length).length+data.length) := by
  have hle : (Varint.write data.length).length+data.length ≤
      (Varint.write data.length ++ (data ++ bs)).length := by
    simp only [List.length_append]
    omega
  simp only [value,Varint.read_write h,Option.bind_some,if_pos hle,List.drop_left,List.take_left]

/-- The numbers and lengths that there are. -/
def Fits (part : ℕ × List (BitVec 8)) : Prop := 0 < part.1 ∧ part.1 < 2^29 ∧ part.2.length < 2^64

theorem field_bytesField {part : ℕ × List (BitVec 8)} (h : Fits part) (bs : List (BitVec 8)) :
    field (bytesField part ++ bs) =
      some ({number := part.1, value := .bytes part.2},(bytesField part).length) := by
  obtain ⟨hpos,hlt,hdata⟩ := h
  have htag : 8 ≤ 8*part.1+2 ∧ 8*part.1+2 < 2^32 := by omega
  have hwire : (8*part.1+2)%8=2 := by omega
  have hnumber : (8*part.1+2)/8=part.1 := by omega
  have hread := Varint.read_write (v := 8*part.1+2) (by omega)
  simp only [field,bytesField,List.append_assoc,hread,Option.bind_some,if_pos htag,List.drop_left,
    hwire,hnumber,value_bytes hdata,Option.map_some,List.length_append]

theorem bytesField_length_pos (part : ℕ × List (BitVec 8)) : 0 < (bytesField part).length := by
  have := Varint.write_length_pos (8*part.1+2)
  rw [bytesField,List.length_append]
  omega

theorem fieldsFrom_nil (n : ℕ) : fieldsFrom n [] = ([],true) := by
  cases n <;> rfl

/-- Fields that were written are read. -/
theorem fieldsFrom_flatMap {parts : List (ℕ × List (BitVec 8))} (h : ∀ part ∈ parts, Fits part)
    {n : ℕ} (hn : (parts.flatMap bytesField).length ≤ n) :
    fieldsFrom n (parts.flatMap bytesField) =
      (parts.map fun part => {number := part.1, value := .bytes part.2},true) := by
  induction parts generalizing n with
  | nil => exact fieldsFrom_nil n
  | cons part parts ih =>
    have hpos := bytesField_length_pos part
    rw [List.flatMap_cons,List.length_append] at hn
    have hne : (part::parts).flatMap bytesField ≠ [] := by
      rw [List.flatMap_cons,← List.length_pos_iff,List.length_append]
      omega
    cases n with
    | zero => omega
    | succ n =>
      rw [fieldsFrom,if_neg hne,List.flatMap_cons,field_bytesField (h part (by simp))]
      simp only [List.drop_left,ih (fun part hpart => h part (by simp [hpart])) (n := n) (by omega),
        List.map_cons]

theorem bytesField_length_le {part : ℕ × List (BitVec 8)} {parts : List (ℕ × List (BitVec 8))}
    (h : part ∈ parts) : (bytesField part).length ≤ (parts.flatMap bytesField).length := by
  obtain ⟨before,after,rfl⟩ := List.append_of_mem h
  rw [List.flatMap_append,List.flatMap_cons,List.length_append,List.length_append]
  omega

theorem mem_parts {any : Any} {part : ℕ × List (BitVec 8)} :
    part ∈ any.parts ↔ (part = (1,any.typeUrl) ∨ part = (2,any.value)) ∧ part.2 ≠ [] := by
  simp [Any.parts]

theorem parts_of_ne {any : Any} (htype : any.typeUrl ≠ []) (hvalue : any.value ≠ []) :
    any.parts = [(1,any.typeUrl),(2,any.value)] := by
  simp [Any.parts,htype,hvalue]

theorem decode_serialize {any : Any} (h : any.serialize.length < 2^31) :
    Any.decode any.serialize = some any := by
  have hfits : ∀ part ∈ any.parts, Fits part := by
    intro part hpart
    have hle := Nat.lt_of_le_of_lt (bytesField_length_le hpart) h
    rw [bytesField,List.length_append,List.length_append] at hle
    have hdata : part.2.length < 2^64 := by omega
    cases (mem_parts.mp hpart).1 with
    | inl htype => exact ⟨htype ▸ Nat.one_pos,htype ▸ (by decide : 1 < 2^29),hdata⟩
    | inr hvalue => exact ⟨hvalue ▸ Nat.two_pos,hvalue ▸ (by decide : 2 < 2^29),hdata⟩
  rw [Any.decode,fields,Any.serialize,fieldsFrom_flatMap hfits (Nat.le_refl _),if_pos rfl]
  obtain ⟨typeUrl,value⟩ := any
  by_cases htype : typeUrl = [] <;> by_cases hvalue : value = [] <;>
    simp [Any.parts,Any.set,htype,hvalue]

theorem lawful : protobuf.Lawful where
  merge_ok_iff any bs := by
    change (fields bs).2 = true ↔ (Any.decode bs).isSome
    unfold Any.decode
    split_ifs with h
    · simp [h]
    · simp [h]
  merge_empty bs any h := by
    change (fields bs).1.foldl Any.set {} = any
    change Any.decode bs = some any at h
    unfold Any.decode at h
    split_ifs at h
    exact Option.some.inj h
  consumed_of_ok _ _ _ := rfl
  consumed_le _ _ := Nat.le_refl _
  advanced any bs h := by
    cases bs with
    | nil => cases h
    | cons b bs => exact Nat.succ_pos _
  pushLimit_of_nonneg _ h := if_pos h
  decode_serialize _ h := decode_serialize h
  serialize_packFrom m := by
    change m.toAny.serialize ≠ []
    have hpart : (1,m.toAny.typeUrl) ∈ m.toAny.parts :=
      mem_parts.mpr ⟨Or.inl rfl,List.cons_ne_nil _ _⟩
    exact List.length_pos_iff.mp
      (Nat.lt_of_lt_of_le (bytesField_length_pos _) (bytesField_length_le hpart))

end CodecServer.WireFormat
