import CodecServer.PrefixCode
import CodecServer.Ambe3K.Protocol.ErrorDetection

/-! What `parse` accepts. The encodings of the fields are a prefix code, and a payload is cut into
them; what is behind the last of them is not looked at. -/
namespace CodecServer.Ambe3K.Protocol
open CodecServer.Memory CodecServer.Memory.Access

theorem exists_channel_of_isChannelOpcode {opcode : Byte} (h : IsChannelOpcode opcode) :
    ∃ c : Byte, c.toNat ≤ 2 ∧ opcode = 0x40+c := by
  rcases h with rfl | rfl | rfl
  · exact ⟨0,by decide,rfl⟩
  · exact ⟨1,by decide,rfl⟩
  · exact ⟨2,by decide,rfl⟩

/-- A string up to its first NUL. -/
theorem exists_append_of_nul {l : List Byte} (h : 0 ∈ l) :
    ∃ rest, l = l.takeWhile (·≠0) ++ 0::rest := by
  induction l with
  | nil => cases h
  | cons b l ih =>
    by_cases hb : b = 0
    · subst hb
      exact ⟨l,rfl⟩
    · have hl : 0 ∈ l := (List.mem_cons.mp h).resolve_left (Ne.symm hb)
      obtain ⟨rest,hrest⟩ := ih hl
      refine ⟨rest,?_⟩
      rw [List.takeWhile_cons_of_pos (by simpa using hb),List.cons_append,← hrest]

section
variable {t : PacketType} {current : ℕ} {l rest : List Byte} {f : Field}

/-- A field that is built, and that fits, is there in its encoding. -/
def IsWire (t : PacketType) (current : ℕ) (l : List Byte) (f : Field) : Prop :=
  ∃ (w : WireField) (rest : List Byte),
    w.WellFormed t ∧ l = w.encode t ++ rest ∧ f = w.field t current

theorem isWire_parity (checksum : Byte) :
    IsWire t current (parityByte::checksum::rest) (.checksum current) :=
  ⟨.parity checksum,rest,by cases t <;> trivial,rfl,rfl⟩

theorem isWire_channel {opcode : Byte} (ht : t ≠ .control) (h : IsChannelOpcode opcode) :
    IsWire t current (opcode::rest) (.channel current) := by
  obtain ⟨c,hc,rfl⟩ := exists_channel_of_isChannelOpcode h
  refine ⟨.channel c,rest,?_,?_,?_⟩
  · cases t <;> exact hc
  · rw [WireField.encode,if_neg ht]
    rfl
  · rw [WireField.field,if_neg ht]

/-- The fields that all packets can have. -/
theorem isWire_base {opcode : Byte} {s : Shape} (hs : baseShape opcode = some s)
    (ht : t = .control → ¬ IsChannelOpcode opcode) (hf : s.field current rest = some f)
    (hlen : f.getLength ≤ rest.length+1) : IsWire t current (opcode::rest) f := by
  rw [baseShape] at hs
  split_ifs at hs with hparity hchannel
  · obtain rfl := Option.some.inj hs
    obtain rfl := Option.some.inj hf
    rw [hparity]
    cases rest with
    | nil => simp [Field.getLength] at hlen
    | cons checksum rest => exact isWire_parity checksum
  · obtain rfl := Option.some.inj hs
    obtain rfl := Option.some.inj hf
    exact isWire_channel (fun h => ht h hchannel) hchannel

theorem isWire_status {opcode : Byte} {make : ℕ → Field} {w : WireField} (hw : w.WellFormed t)
    (hf : (Shape.status make).field current rest = some f) (hencode : w.encode t = [opcode,0])
    (hfield : w.field t current = make current) : IsWire t current (opcode::rest) f := by
  rw [Shape.field] at hf
  split_ifs at hf with hhead
  obtain rfl := Option.some.inj hf
  cases rest with
  | nil => cases hhead
  | cons b rest =>
    obtain rfl := Option.some.inj hhead
    exact ⟨w,rest,hw,by rw [hencode]; rfl,hfield.symm⟩

theorem isWire_control {opcode : Byte} {s : Shape} (hs : shape .control opcode = some s)
    (hf : s.field current rest = some f) (hlen : f.getLength ≤ rest.length+1) :
    IsWire .control current (opcode::rest) f := by
  rw [shape] at hs
  split_ifs at hs with hready hprodid hversion hratet hratep hinit hchannel
  · obtain rfl := Option.some.inj hs
    obtain rfl := Option.some.inj hf
    exact ⟨.ready,rest,trivial,by rw [hready]; rfl,rfl⟩
  · obtain rfl := Option.some.inj hs
    rw [Shape.field] at hf
    split_ifs at hf with hnul
    obtain rfl := Option.some.inj hf
    obtain ⟨tail,htail⟩ := exists_append_of_nul hnul
    refine ⟨.prodId (rest.takeWhile (·≠0)),tail,?_,?_,rfl⟩
    · intro hmem
      have hne := List.all_eq_true.mp List.all_takeWhile 0 hmem
      simp at hne
    · rw [hprodid]
      conv_lhs => rw [htail]
      simp [WireField.encode]
  · obtain rfl := Option.some.inj hs
    obtain rfl := Option.some.inj hf
    have h48 : 48 ≤ rest.length := Nat.le_of_succ_le_succ hlen
    refine ⟨.version (rest.take 48),rest.drop 48,List.length_take_of_le h48,?_,rfl⟩
    rw [hversion,WireField.encode,List.cons_append,List.take_append_drop]
  · obtain rfl := Option.some.inj hs
    exact isWire_status (w := .rateT) trivial hf (by rw [hratet]; rfl) rfl
  · obtain rfl := Option.some.inj hs
    exact isWire_status (w := .rateP) trivial hf (by rw [hratep]; rfl) rfl
  · obtain rfl := Option.some.inj hs
    exact isWire_status (w := .init) trivial hf (by rw [hinit]; rfl) rfl
  · obtain rfl := Option.some.inj hs
    obtain ⟨c,hc,rfl⟩ := exists_channel_of_isChannelOpcode hchannel
    exact isWire_status (w := .channel c) hc hf rfl rfl
  · exact isWire_base hs (fun _ => hchannel) hf hlen

theorem isWire_speech {opcode : Byte} {s : Shape} (hs : shape .speech opcode = some s)
    (hf : s.field current rest = some f) (hlen : f.getLength ≤ rest.length+1) :
    IsWire .speech current (opcode::rest) f := by
  rw [shape] at hs
  split_ifs at hs with hspeechd
  · obtain rfl := Option.some.inj hs
    cases rest with
    | nil => cases hf
    | cons count rest =>
      obtain rfl := Option.some.inj hf
      have hle : 2*count.toNat ≤ rest.length := by
        simp only [Field.getLength,List.length_cons] at hlen
        omega
      obtain ⟨samples,hcount,hsamples⟩ := exists_samples count.toNat (rest.take (2*count.toNat))
        (List.length_take_of_le hle)
      refine ⟨.speechD samples,rest.drop (2*count.toNat),?_,?_,?_⟩
      · have := count.isLt
        change samples.length ≤ 255
        omega
      · rw [WireField.encode,hcount,hsamples,hspeechd]
        simp
      · rw [WireField.field,hcount]
  · exact isWire_base hs (fun hcontrol => by cases hcontrol) hf hlen

theorem isWire_channelPacket {opcode : Byte} {s : Shape} (hs : shape .channel opcode = some s)
    (hf : s.field current rest = some f) (hlen : f.getLength ≤ rest.length+1) :
    IsWire .channel current (opcode::rest) f := by
  rw [shape] at hs
  split_ifs at hs with hchand
  · obtain rfl := Option.some.inj hs
    cases rest with
    | nil => cases hf
    | cons bits rest =>
      obtain rfl := Option.some.inj hf
      have hle : (bits.toNat+7)/8 ≤ rest.length := by
        simp only [Field.getLength,List.length_cons] at hlen
        omega
      refine ⟨.chanD bits (rest.take ((bits.toNat+7)/8)),rest.drop ((bits.toNat+7)/8),
        List.length_take_of_le hle,?_,rfl⟩
      rw [hchand,WireField.encode,List.cons_append,List.cons_append,List.take_append_drop]
  · exact isWire_base hs (fun hcontrol => by cases hcontrol) hf hlen

theorem frontField_isWire (h : frontField t current l = some f) : IsWire t current l f := by
  cases l with
  | nil => cases h
  | cons opcode rest =>
    obtain ⟨hbuilt,hlen⟩ := Option.filter_eq_some_iff.mp h
    obtain ⟨s,hs,hf⟩ := Option.bind_eq_some_iff.mp hbuilt
    replace hlen := of_decide_eq_true hlen
    cases t with
    | control => exact isWire_control hs hf hlen
    | speech => exact isWire_speech hs hf hlen
    | channel => exact isWire_channelPacket hs hf hlen

theorem frontField_eq_none_iff :
    frontField t current l = none ↔ ∀ w : WireField, w.WellFormed t → ¬ w.encode t <+: l := by
  constructor
  · rintro h w hw ⟨rest,rfl⟩
    cases (frontField_encode hw current rest).symm.trans h
  · intro h
    by_contra hne
    obtain ⟨f,hf⟩ := Option.ne_none_iff_exists'.mp hne
    obtain ⟨w,rest,hw,rfl,-⟩ := frontField_isWire hf
    exact h w hw (List.prefix_append ..)

end

theorem flatMap_htons_injective : ∀ {samples samples' : List (BitVec 16)},
    samples.flatMap htons = samples'.flatMap htons → samples = samples'
  | [],[],_ => rfl
  | [],_::_,h => by cases h
  | _::_,[],h => by cases h
  | w::samples,w'::samples',h => by
    simp only [List.flatMap_cons,htons,List.cons_append,List.nil_append,List.cons.injEq] at h
    obtain ⟨hhigh,hlow,hrest⟩ := h
    rw [← ntohs_htons w,hhigh,hlow,ntohs_htons,flatMap_htons_injective hrest]

theorem kind_eq_of_field_eq {t : PacketType} {v w : WireField} (h : v.field t 0 = w.field t 0) :
    v.kind = w.kind := by
  cases t <;> cases v <;> cases w <;> first | rfl | cases h

/-- Fields with the same bytes and the same kind of field object are the same. -/
theorem encode_injective {t : PacketType} {v w : WireField} (hkind : v.kind = w.kind)
    (h : v.encode t = w.encode t) : v = w := by
  cases v with
  | ready | rateT | rateP | init => cases w <;> first | rfl | cases hkind
  | prodId id =>
    cases w with
    | prodId id' => rw [List.append_cancel_right (List.tail_eq_of_cons_eq h)]
    | _ => cases hkind
  | version id =>
    cases w with
    | version id' => rw [List.tail_eq_of_cons_eq h]
    | _ => cases hkind
  | channel c =>
    cases w with
    | channel c' =>
      have hhead : (0x40 : Byte)+c = 0x40+c' := by cases t <;> exact List.head_eq_of_cons_eq h
      have hc : c = c' := by simpa using hhead
      rw [hc]
    | _ => cases hkind
  | speechD samples =>
    cases w with
    | speechD samples' =>
      rw [flatMap_htons_injective (List.tail_eq_of_cons_eq (List.tail_eq_of_cons_eq h))]
    | _ => cases hkind
  | chanD bits data =>
    cases w with
    | chanD bits' data' =>
      obtain ⟨rfl,rfl⟩ := List.cons.inj (List.tail_eq_of_cons_eq h)
      rfl
    | _ => cases hkind
  | parity checksum =>
    cases w with
    | parity checksum' => rw [List.head_eq_of_cons_eq (List.tail_eq_of_cons_eq h)]
    | _ => cases hkind

/-- The fields of a packet type, as the words of a code. -/
def code (t : PacketType) : PrefixCode Byte WireField where
  encode := WireField.encode t
  Valid := WireField.WellFormed t
  encode_ne_nil := fun w _ => List.length_pos_iff.mp encode_length_pos
  prefix_free := by
    rintro v w hv hw ⟨rest,h⟩
    have hfront := frontField_encode hw 0 []
    rw [List.append_nil,← h,frontField_encode hv] at hfront
    have hfield := Option.some.inj hfront
    have hlength := congrArg Field.getLength hfield
    rw [field_length hv,field_length hw,← h,List.length_append] at hlength
    have hrest : rest = [] := List.length_eq_zero_iff.mp (by omega)
    rw [hrest,List.append_nil] at h
    exact encode_injective (kind_eq_of_field_eq hfield) h

section
variable {t : PacketType} {l rest : List Byte} {ws : List WireField}

theorem frontField_splits_nil (h : (code t).Splits l [] rest) (current : ℕ) :
    frontField t current l = none := by
  rw [show l = rest from h.eq]
  exact frontField_eq_none_iff.mpr h.stops

/-- The first field is found, and the rest of the payload is cut into the others. -/
theorem frontField_splits_cons {w : WireField} (h : (code t).Splits l (w::ws) rest) (current : ℕ) :
    frontField t current l = some (w.field t current) ∧
    (code t).Splits (l.drop (w.field t current).getLength) ws rest ∧ FrontContained t l := by
  have hw := h.valid w List.mem_cons_self
  obtain ⟨l',rfl⟩ : ∃ l', l = w.encode t ++ l' :=
    ⟨_,h.eq.trans (by rw [List.flatMap_cons,List.append_assoc]; rfl)⟩
  refine ⟨frontField_encode hw current l',?_,frontContained_encode hw l'⟩
  rw [field_length hw,List.drop_left]
  refine ⟨fun v hv => h.valid v (List.mem_cons_of_mem w hv),?_,h.stops⟩
  have heq := h.eq
  rw [List.flatMap_cons,List.append_assoc] at heq
  exact List.append_cancel_left heq

/-- The walk finds the fields that the payload is cut into. -/
theorem fieldsFrom_splits (h : (code t).Splits l ws rest) (rounds current : ℕ)
    (hr : ws.length < rounds) : fieldsFrom t rounds current l = layout t current ws := by
  obtain ⟨rounds,rfl⟩ : ∃ k, rounds = k+1 := ⟨rounds-1,by omega⟩
  induction ws generalizing rounds current l with
  | nil => rw [fieldsFrom,frontField_splits_nil h,layout]
  | cons w ws ih =>
    rw [List.length_cons] at hr
    obtain ⟨rounds,rfl⟩ : ∃ k, rounds = k+1 := ⟨rounds-1,by omega⟩
    obtain ⟨hfront,hrest,-⟩ := frontField_splits_cons h current
    rw [fieldsFrom,hfront,layout]
    simp only
    rw [ih hrest _ _ (by omega),field_length (h.valid w List.mem_cons_self)]

/-- It stays in the payload exactly if it does so behind the last of them. -/
theorem containedFrom_splits (h : (code t).Splits l ws rest) (rounds current : ℕ)
    (hr : ws.length < rounds) : ContainedFrom t rounds current l ↔ FrontContained t rest := by
  obtain ⟨rounds,rfl⟩ : ∃ k, rounds = k+1 := ⟨rounds-1,by omega⟩
  induction ws generalizing rounds current l with
  | nil =>
    rw [ContainedFrom,frontField_splits_nil h,show l = rest from h.eq]
    exact and_iff_left trivial
  | cons w ws ih =>
    rw [List.length_cons] at hr
    obtain ⟨rounds,rfl⟩ : ∃ k, rounds = k+1 := ⟨rounds-1,by omega⟩
    obtain ⟨hfront,hrest,hcontained⟩ := frontField_splits_cons h current
    rw [ContainedFrom,hfront]
    exact (and_iff_right hcontained).trans (ih hrest _ _ (by omega))

/-- What the last parity field says. -/
def lastParity (ws : List WireField) : Option Byte :=
  ws.reverse.findSome? fun
    | .parity b => some b
    | _ => none

theorem lastParity_eq_none (h : .parity ∉ ws.map WireField.kind) : lastParity ws = none := by
  refine List.findSome?_eq_none_iff.mpr fun w hw => ?_
  cases w with
  | parity b => exact absurd (List.mem_map.mpr ⟨_,List.mem_reverse.mp hw,rfl⟩) h
  | _ => rfl

theorem lastParity_append {us vs : List WireField} {b : Byte} (h : .parity ∉ vs.map WireField.kind) :
    lastParity (us ++ .parity b::vs) = some b := by
  have hvs := lastParity_eq_none h
  rw [lastParity] at hvs ⊢
  rw [List.reverse_append,List.reverse_cons,List.append_assoc,List.findSome?_append,hvs]
  rfl

/-- A packet that says what the fields say: the last one where there are several of a kind. -/
structure Tells (t : PacketType) (ws : List WireField) (n : ℕ) (p : Packet) : Prop where
  type : p.kind.type = t
  present : ∀ k, p.has k = true ↔ ∃ w ∈ ws, w.kind = k
  shown : ∀ us w vs, ws = us ++ w::vs → w.kind ∉ vs.map WireField.kind → p.Shows n w

/-- The last field of each kind. -/
theorem exists_last {k : WireKind} (h : k ∈ ws.map WireField.kind) :
    ∃ us w vs, ws = us ++ w::vs ∧ w.kind = k ∧ k ∉ vs.map WireField.kind := by
  induction ws with
  | nil => cases h
  | cons v ws ih =>
    by_cases hmem : k ∈ ws.map WireField.kind
    · obtain ⟨us,w,vs,rfl,hw,hvs⟩ := ih hmem
      exact ⟨v::us,w,vs,rfl,hw,hvs⟩
    · have hv : v.kind = k := ((List.mem_cons.mp h).resolve_right hmem).symm
      exact ⟨[],v,ws,rfl,hv,hmem⟩

section
variable {bytes : List Byte} (h : (code t).Splits (bytes.drop 4) ws rest) (behind : List Byte)
include h

theorem slot_written {us vs : List WireField} {w : WireField} (hws : ws = us ++ w::vs)
    (hlast : w.kind ∉ vs.map WireField.kind) : (written t ws bytes behind).slot w.kind =
      some (w.field t (4+(us.flatMap (WireField.encode t)).length)) := by
  subst hws
  have hvs : ∀ v ∈ vs, v.WellFormed t := fun v hv => h.valid v (by simp [hv])
  rw [written,layout_append,List.foldl_append,layout,List.foldl_cons,
    Packet.slot_layout_of_not_mem vs hvs _ _ (by simp) _ hlast]
  have htype : (written t us bytes behind).kind.type = t := by simp [written]
  have hstore := Packet.slot_storeField _ w (htype ▸ h.valid w (by simp))
    (4+(us.flatMap (WireField.encode t)).length) w.kind
  rwa [htype,if_pos rfl] at hstore

/-- Where a field is in the string. -/
theorem drop_written (h4 : 4 ≤ bytes.length) {us vs : List WireField} {w : WireField}
    (hws : ws = us ++ w::vs) :
    bytes.drop (4+(us.flatMap (WireField.encode t)).length) =
      w.encode t ++ (vs.flatMap (WireField.encode t) ++ rest) ∧
    4+(us.flatMap (WireField.encode t)).length+(w.encode t).length ≤ bytes.length := by
  subst hws
  have heq := h.eq
  have hlength := congrArg List.length heq
  rw [← List.drop_drop,heq]
  simp only [code,List.flatMap_append,List.flatMap_cons,List.length_append,List.length_drop] at hlength ⊢
  refine ⟨by simp,by omega⟩

theorem written_tells (h4 : 4 ≤ bytes.length) : Tells t ws bytes.length (written t ws bytes behind) := by
  have htype : (written t ws bytes behind).kind.type = t := by simp [written]
  refine ⟨htype,fun k => ?_,fun us w vs hws hlast => ?_⟩
  · rw [Packet.has_eq,Option.isSome_iff_ne_none]
    by_cases hmem : k ∈ ws.map WireField.kind
    · obtain ⟨us,w,vs,hws,rfl,hlast⟩ := exists_last hmem
      rw [slot_written h behind hws hlast]
      exact iff_of_true (by simp) (List.mem_map.mp hmem)
    · rw [written,Packet.slot_layout_of_not_mem ws h.valid _ _ (Kind.type_empty t) _ hmem]
      refine iff_of_false ?_ (fun hex => hmem (List.mem_map.mpr hex))
      cases t <;> cases k <;> simp [Packet.slot,Packet.controlFields,Kind.empty]
  · obtain ⟨hdrop,hlength⟩ := drop_written h h4 hws
    have hw := h.valid w (by simp [hws])
    refine shows_of_slot (4+(us.flatMap (WireField.encode t)).length)
      (vs.flatMap (WireField.encode t) ++ rest ++ behind) (by rw [htype]; exact hw) ?_
      (by rw [htype]; exact hlength) ?_
    · rw [htype,written,Packet.foldl_storeField_data]
      change (bytes ++ behind).drop _ = _
      rw [List.drop_append_of_le_length (by omega),hdrop]
      simp
    · rw [htype]
      exact slot_written h behind hws hlast

theorem parityHolds_written (h4 : 4 ≤ bytes.length) :
    ParityHolds bytes (written t ws bytes behind) ↔ ∀ b ∈ lastParity ws, b = checksumOf bytes := by
  by_cases hmem : .parity ∈ ws.map WireField.kind
  · obtain ⟨us,w,vs,hws,hw,hlast⟩ := exists_last hmem
    obtain ⟨b,rfl⟩ : ∃ b, w = .parity b := by
      cases w with
      | parity b => exact ⟨b,rfl⟩
      | _ => cases hw
    have hslot := slot_written h behind hws hlast
    obtain ⟨data,hchecksum,hdata⟩ := Option.map_eq_some_iff.mp hslot
    obtain rfl := Field.checksum.inj hdata
    have hbyte := getElem?_of_drop (drop_written h h4 hws).1 1 (by simp [WireField.encode])
    rw [parityHolds_iff hchecksum,hbyte,hws,lastParity_append hlast]
    simp [WireField.encode]
  · have hnone := Packet.slot_layout_of_not_mem ws h.valid 4
      {data := bytes ++ behind, dataSize := bytes.length, kind := .empty t} (Kind.type_empty t) _ hmem
    rw [lastParity_eq_none hmem]
    refine iff_of_true (parityHolds_of_none ?_) fun b hb => by cases hb
    simpa [Packet.slot,written] using hnone

end

end

/-- What `parse` does with any byte string of a known type. There is one way to cut its payload into
fields from the front. It is read beyond its end exactly if a field is begun there whose extent or
status is not in it; and a packet is returned exactly if the last parity field agrees, and says what
the fields say. -/
theorem parse_recognises {t : PacketType} {bytes : List Byte} (h4 : 4 ≤ bytes.length)
    (ht : bytes[3]?.bind PacketType.ofByte = some t) (behind : List Byte) : ∃ ws rest,
    (code t).Splits (bytes.drop 4) ws rest ∧
    (∀ ws' rest', (code t).Splits (bytes.drop 4) ws' rest' → ws' = ws ∧ rest' = rest) ∧
    ((∃ r, Safe bytes.length (Packet.parse (bytes ++ behind) bytes.length) r) ↔
      FrontContained t rest) ∧
    ∀ r, (Packet.parse (bytes ++ behind) bytes.length).result = .ok r →
      (r.isSome ↔ ∀ b ∈ lastParity ws, b = checksumOf bytes) ∧
      ∀ p, r = some p → Tells t ws bytes.length p := by
  obtain ⟨ws,rest,h⟩ := (code t).exists_splits (bytes.drop 4)
  have hrounds : ws.length < (bytes.drop 4).length+1 := by
    have := length_le_flatMap_encode t ws
    rw [h.eq,List.length_append]
    simp only [code]
    omega
  have hscanned : scanned t bytes behind = written t ws bytes behind := by
    rw [scanned,fieldsOf,fieldsFrom_splits h _ _ hrounds,written]
  have hdecoded : decoded bytes behind =
      if ParityHolds bytes (written t ws bytes behind) then some (written t ws bytes behind)
      else none := by
    simp only [decoded,ht,hscanned]
  refine ⟨ws,rest,h,fun ws' rest' h' => h.unique h',?_,fun r hr => ?_⟩
  · rw [← containedFrom_splits h _ 4 hrounds]
    have hcontained : Contained bytes ↔ PayloadContained t (bytes.drop 4) := by
      simp [Contained,ht]
    refine Iff.trans ?_ ((safe_parse_iff behind h4).trans hcontained)
    refine ⟨?_,fun hsafe => ⟨_,hsafe⟩⟩
    rintro ⟨r,hsafe⟩
    exact parse_eq h4 hsafe.2 ▸ hsafe
  · rw [← parityHolds_written h behind h4,parse_eq h4 hr,hdecoded]
    split_ifs with hparity
    · refine ⟨iff_of_true rfl hparity,fun p hp => ?_⟩
      exact Option.some.inj hp ▸ written_tells h behind h4
    · exact ⟨iff_of_false Bool.false_ne_true hparity,fun p hp => by cases hp⟩

/-- Two channel fields, and an unknown byte behind them. -/
theorem parse_recognises_channels :
    let bytes : List Byte := [startByte,0x00,0x05,typeControl,0x40,0x00,0x42,0x00,0x7f]
    ∃ ws rest, (code .control).Splits [0x40,0x00,0x42,0x00,0x7f] ws rest ∧
      ∀ r, (Packet.parse (bytes ++ [0x00]) 9).result = .ok r →
        (r.isSome ↔ ∀ b ∈ lastParity ws, b = checksumOf bytes) ∧
        ∀ p, r = some p → Tells .control ws 9 p := by
  intro bytes
  obtain ⟨ws,rest,hsplits,-,-,hparse⟩ :=
    parse_recognises (show 4 ≤ bytes.length by decide) rfl [0x00]
  exact ⟨ws,rest,hsplits,hparse⟩

end CodecServer.Ambe3K.Protocol
