import CodecServer.Ambe3K.Protocol.Grammar

/-! `Packet::scanFields` stores exactly the fields of the payload. It reads nothing behind the
packet and fails no assertion if and only if the payload is contained. -/
namespace CodecServer.Ambe3K.Protocol
open CodecServer.Memory CodecServer.Memory.Access

/-- The constructor that `buildField` calls for a field of this shape. -/
def Shape.build (mem : List Byte) (current : ℕ) : Shape → Access Field
  | plain make => return make current
  | status make => statusField make mem current
  | counted make => countedField make mem current
  | text => prodIdResponseField mem current

theorem buildFieldBase_eq (mem : List Byte) (current : ℕ) (opcode : Byte) :
    (pure (Packet.buildFieldBase current opcode) : Access (Option Field)) =
      match baseShape opcode with
      | none => pure none
      | some s => some <$> s.build mem current := by
  unfold Packet.buildFieldBase baseShape
  split_ifs <;> rfl

/-- The three switches are the table of shapes. -/
theorem buildField_eq (t : PacketType) (mem : List Byte) (current : ℕ) :
    Packet.buildField t mem current = load mem current >>= fun opcode =>
      match shape t opcode with
      | none => pure none
      | some s => some <$> s.build mem current := by
  unfold Packet.buildField
  congr 1
  funext opcode
  cases t
  · simp only [Packet.buildFieldControl,shape]
    split_ifs
    all_goals first | rfl | exact buildFieldBase_eq mem current opcode
  · simp only [Packet.buildFieldSpeech,shape]
    split_ifs
    · rfl
    · exact buildFieldBase_eq mem current opcode
  · simp only [Packet.buildFieldChannel,shape]
    split_ifs
    · rfl
    · exact buildFieldBase_eq mem current opcode

section Front
variable {mem rest behind : List Byte} {current N : ℕ}

theorem getElem?_of_drop {l : List Byte} {i : ℕ} (h : mem.drop i = l ++ behind) (j : ℕ)
    (hj : j < l.length) : mem[i+j]? = some l[j] := by
  rw [← List.getElem?_drop,h,List.getElem?_append_left hj,List.getElem?_eq_getElem hj]

theorem getElem?_head_of_drop {i : ℕ} (h : mem.drop i = rest ++ behind) (hr : rest ≠ []) :
    mem[i]? = rest.head? := by
  have := getElem?_of_drop h 0 (List.length_pos_iff.mpr hr)
  rw [List.head?_eq_getElem?,List.getElem?_eq_getElem (List.length_pos_iff.mpr hr)]
  simpa using this

/-- A field built from bytes that may lie behind the payload, once its length has been compared
with what remains, is the field that the payload alone gives. -/
theorem build_filter {s : Shape} (hs : s.HasLength) (hm : mem.drop (current+1) = rest ++ behind)
    {f : Field} (h : Safe N (s.build mem current) f) :
    (some f).filter (·.getLength ≤ rest.length+1) =
      (s.field current rest).filter (·.getLength ≤ rest.length+1) := by
  cases s with
  | plain make =>
    simp only [Shape.build,safe_pure] at h
    rw [Shape.field,h]
  | status make =>
    simp only [Shape.build,statusField,safe_bind,safe_load,safe_require,safe_pure] at h
    obtain ⟨b,⟨-,hb⟩,-,rfl,rfl⟩ := h
    by_cases hr : rest = []
    · simp [hr,Shape.field,hs current]
    · rw [getElem?_head_of_drop hm hr] at hb
      rw [Shape.field,if_pos hb]
  | counted make =>
    simp only [Shape.build,countedField,safe_bind,safe_load,safe_pure] at h
    obtain ⟨b,⟨-,hb⟩,rfl⟩ := h
    by_cases hr : rest = []
    · have := hs current b.toNat
      simp only [hr,Shape.field,List.head?_nil,Option.map_none,Option.filter_none,
        Option.filter_eq_none_iff,List.length_nil]
      simp
      omega
    · rw [getElem?_head_of_drop hm hr] at hb
      rw [Shape.field,hb,Option.map_some]
  | text =>
    simp only [Shape.build,prodIdResponseField,safe_bind,safe_loadUntil,safe_pure,hm] at h
    obtain ⟨s,⟨tail,hl,h0,-⟩,rfl⟩ := h
    by_cases hlen : s.length < rest.length
    · obtain ⟨u,rfl⟩ : s <+: rest := List.prefix_of_prefix_length_le
        (hl ▸ List.prefix_append s _) (List.prefix_append rest behind) (by omega)
      rw [List.append_assoc] at hl
      cases u with
      | nil => simp at hlen
      | cons b u =>
        obtain ⟨rfl,-⟩ := List.cons.inj (List.append_cancel_left hl)
        have hp : ∀ x ∈ s, decide (x ≠ 0) = true := by
          intro x hx
          simpa using fun h : x = 0 => h0 (h ▸ hx)
        rw [Shape.field,if_pos (by simp),List.takeWhile_append_of_pos hp]
        simp
    · have hr : 0 ∉ rest := fun h => h0 <| (List.prefix_of_prefix_length_le
        (List.prefix_append rest behind) (hl ▸ List.prefix_append s _) (by omega)).subset h
      simp only [Shape.field,if_neg hr,Option.filter_none,Option.filter_eq_none_iff]
      simp [Field.getLength]
      omega

/-- The constructor of a field stays in the packet exactly if the payload contains it. -/
theorem exists_build_iff (s : Shape) (hm : mem.drop (current+1) = rest ++ behind) :
    (∃ f, Safe (current+1+rest.length) (s.build mem current) f) ↔ s.Contained rest := by
  cases s with
  | plain make => simp [Shape.build,Shape.Contained]
  | status make =>
    simp only [Shape.build,statusField,safe_bind,safe_load,safe_require,safe_pure,Shape.Contained]
    constructor
    · rintro ⟨f,b,⟨hi,hb⟩,-,rfl,-⟩
      rwa [getElem?_head_of_drop hm (by rintro rfl; simp at hi)] at hb
    · intro h
      have hr : rest ≠ [] := by rintro rfl; simp at h
      have := List.length_pos_iff.mpr hr
      exact ⟨_,0,⟨by omega,by rw [getElem?_head_of_drop hm hr,h]⟩,(),rfl,rfl⟩
  | counted make =>
    simp only [Shape.build,countedField,safe_bind,safe_load,safe_pure,Shape.Contained]
    constructor
    · rintro ⟨f,b,⟨hi,-⟩,-⟩ rfl
      simp at hi
    · intro hr
      have := List.length_pos_iff.mpr hr
      exact ⟨_,_,⟨by omega,getElem?_of_drop hm 0 this⟩,rfl⟩
  | text =>
    simp only [Shape.build,prodIdResponseField,safe_bind,safe_loadUntil,safe_pure,hm,
      Shape.Contained]
    constructor
    · rintro ⟨f,s,⟨tail,hl,-,hn⟩,-⟩
      obtain ⟨u,rfl⟩ : s <+: rest := List.prefix_of_prefix_length_le
        (hl ▸ List.prefix_append s _) (List.prefix_append rest behind) (by omega)
      cases u with
      | nil => simp at hn
      | cons b u =>
        rw [List.append_assoc] at hl
        obtain ⟨rfl,-⟩ := List.cons.inj (List.append_cancel_left hl)
        simp
    · intro h
      obtain ⟨s,u,rfl,h0⟩ := List.eq_append_cons_of_mem h
      exact ⟨_,s,⟨u ++ behind,by simp,h0,by simp⟩,rfl⟩

/-- One round of the scan: the field that `buildField` returns, once its length has been compared
with what remains, is the field at the front of the payload. -/
theorem buildField_filter {t : PacketType} {l : List Byte} (hl : l ≠ [])
    (hm : mem.drop current = l ++ behind) {r : Option Field}
    (h : Safe N (Packet.buildField t mem current) r) :
    r.filter (·.getLength ≤ l.length) = frontField t current l := by
  cases l with
  | nil => exact absurd rfl hl
  | cons opcode rest =>
    simp only [buildField_eq,safe_bind,safe_load,getElem?_head_of_drop hm hl,List.head?_cons,
      Option.some.injEq] at h
    obtain ⟨_,⟨-,rfl⟩,h⟩ := h
    simp only [frontField,List.length_cons]
    cases hs : shape t opcode with
    | none =>
      simp only [hs,safe_pure] at h
      rw [← h,Option.bind_none]
    | some s =>
      simp only [hs,safe_map] at h
      obtain ⟨f,hf,rfl⟩ := h
      have hm' : mem.drop (current+1) = rest ++ behind := by
        rw [← List.drop_drop,hm]; rfl
      exact build_filter (shape_hasLength hs) hm' hf

theorem exists_buildField_iff (t : PacketType) {l : List Byte} (hl : l ≠ [])
    (hm : mem.drop current = l ++ behind) :
    (∃ r, Safe (current+l.length) (Packet.buildField t mem current) r) ↔ FrontContained t l := by
  cases l with
  | nil => exact absurd rfl hl
  | cons opcode rest =>
    have hm' : mem.drop (current+1) = rest ++ behind := by
      rw [← List.drop_drop,hm]; rfl
    have hn : current+(opcode::rest).length = current+1+rest.length := by
      simp only [List.length_cons]; omega
    simp only [buildField_eq,safe_bind,safe_load,getElem?_head_of_drop hm hl,hn,FrontContained,
      List.head?_cons,Option.some.injEq]
    constructor
    · rintro ⟨r,_,⟨-,rfl⟩,h⟩ s hs
      simp only [Option.mem_def.mp hs,safe_map] at h
      obtain ⟨f,hf,-⟩ := h
      exact (exists_build_iff s hm').mp ⟨f,hf⟩
    · intro h
      cases hs : shape t opcode with
      | none => exact ⟨none,opcode,⟨by omega,rfl⟩,by simp [hs]⟩
      | some s =>
        obtain ⟨f,hf⟩ := (exists_build_iff s hm').mpr (h s hs)
        exact ⟨some f,opcode,⟨by omega,rfl⟩,by simpa [hs,safe_map] using hf⟩

end Front

namespace Packet

@[simp] theorem storeField_data (p : Packet) (f : Field) : (p.storeField f).data = p.data := by
  rcases p with ⟨data,dataSize,checksum,channel,fields | speechD | chanD⟩ <;> cases f <;> rfl

@[simp] theorem storeField_dataSize (p : Packet) (f : Field) :
    (p.storeField f).dataSize = p.dataSize := by
  rcases p with ⟨data,dataSize,checksum,channel,fields | speechD | chanD⟩ <;> cases f <;> rfl

@[simp] theorem storeField_type (p : Packet) (f : Field) :
    (p.storeField f).kind.type = p.kind.type := by
  rcases p with ⟨data,dataSize,checksum,channel,fields | speechD | chanD⟩ <;> cases f <;> rfl

end Packet

section Loop
variable {behind : List Byte} {N : ℕ}

/-- A round of the scan over a nonempty payload. -/
theorem safe_scanLoop_succ (rounds : ℕ) (p q : Packet) (current : ℕ) {l : List Byte} (hl : l ≠ [])
    (hm : p.data.drop current = l ++ behind) :
    Safe N (Packet.scanLoop (rounds+1) p current l.length) q ↔
      (∃ r, Safe N (Packet.buildField p.kind.type p.data current) r) ∧
      match frontField p.kind.type current l with
      | none => p = q
      | some f => Safe N (Packet.scanLoop rounds (p.storeField f) (current+f.getLength)
          (l.drop f.getLength).length) q := by
  have hpos := List.length_pos_iff.mpr hl
  rw [Packet.scanLoop,if_neg (by omega),safe_bind,← exists_and_right]
  refine exists_congr fun r => and_congr_right fun hr => ?_
  have hfront := buildField_filter hl hm hr
  cases r with
  | none =>
    rw [← hfront,Option.filter_none]
    exact safe_pure N p q
  | some f =>
    by_cases hlen : f.getLength ≤ l.length
    · have hf : frontField p.kind.type current l = some f := by
        rw [← hfront]; simpa using hlen
      simp [hf,Nat.not_lt.mpr hlen]
    · have hf : frontField p.kind.type current l = none := by
        rw [← hfront]; simpa using hlen
      simp [hf,Nat.lt_of_not_le hlen]

theorem drop_field {t : PacketType} {mem l : List Byte} {current : ℕ} {f : Field}
    (hm : mem.drop current = l ++ behind) (hf : frontField t current l = some f) :
    mem.drop (current+f.getLength) = l.drop f.getLength ++ behind := by
  rw [← List.drop_drop,hm,List.drop_append_of_le_length (frontField_length hf)]

/-- Whatever lies behind the payload, a scan that returns has stored the fields of the payload. -/
theorem scanLoop_eq (rounds : ℕ) (p q : Packet) (current : ℕ) (l : List Byte)
    (hm : p.data.drop current = l ++ behind)
    (h : Safe N (Packet.scanLoop rounds p current l.length) q) :
    q = (fieldsFrom p.kind.type rounds current l).foldl Packet.storeField p := by
  induction rounds generalizing p current l with
  | zero => simp [Packet.scanLoop] at h
  | succ rounds ih =>
    by_cases hl : l = []
    · subst hl
      simpa [Packet.scanLoop,fieldsFrom,frontField] using h.2.symm
    · rw [safe_scanLoop_succ rounds p q current hl hm] at h
      cases hf : frontField p.kind.type current l with
      | none =>
        simp only [hf] at h
        simp only [fieldsFrom,hf,List.foldl_nil,h.2.symm]
      | some f =>
        simp only [hf] at h
        have := ih (p.storeField f) _ _ (by rw [Packet.storeField_data,drop_field hm hf]) h.2
        simpa only [fieldsFrom,hf,List.foldl_cons,Packet.storeField_type] using this

/-- The scan of a payload stays in the packet and fails no assertion exactly if the payload is
contained. -/
theorem exists_scanLoop_iff (rounds : ℕ) (p : Packet) (current : ℕ) (l : List Byte)
    (hm : p.data.drop current = l ++ behind) (hrounds : l.length < rounds) :
    (∃ q, Safe (current+l.length) (Packet.scanLoop rounds p current l.length) q) ↔
      ContainedFrom p.kind.type rounds current l := by
  induction rounds generalizing p current l with
  | zero => omega
  | succ rounds ih =>
    by_cases hl : l = []
    · subst hl
      simp [Packet.scanLoop,ContainedFrom,FrontContained,frontField]
    · simp only [safe_scanLoop_succ rounds p _ current hl hm,exists_and_left,
        exists_buildField_iff p.kind.type hl hm,ContainedFrom]
      refine and_congr_right fun _ => ?_
      cases hf : frontField p.kind.type current l with
      | none => simp
      | some f =>
        have hlen := frontField_length hf
        have hpos := f.getLength_pos
        have hn : current+l.length = current+f.getLength+(l.drop f.getLength).length := by
          rw [List.length_drop]; omega
        rw [hn,← Packet.storeField_type p f]
        exact ih _ _ _ (by rw [Packet.storeField_data,drop_field hm hf])
          (by rw [List.length_drop]; omega)

end Loop
end CodecServer.Ambe3K.Protocol
