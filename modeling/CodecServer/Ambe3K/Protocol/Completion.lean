import CodecServer.Ambe3K.Protocol.Recognition

/-! Payloads that break off. Whether there are bytes that complete them to a packet is decided by what
has been received, where the walk has got to by then, and by how many bytes are missing. -/
namespace CodecServer.Ambe3K.Protocol
open CodecServer.Memory CodecServer.Memory.Access CodecServer.Parity

/-- The walk has come to a field whose status is not zero. -/
def BadStatus (t : PacketType) (rest : List Byte) : Prop :=
  ∃ opcode make status tail, rest = opcode::status::tail ∧ shape t opcode = some (.status make) ∧
    status ≠ 0

/-- The walk has come to a field whose status is still to come. -/
def AwaitsStatus (t : PacketType) (rest : List Byte) : Prop :=
  ∃ opcode make, rest = [opcode] ∧ shape t opcode = some (.status make)

/-- What is received cannot be completed: the type is unknown; a status is not zero; the parity field
that will be the last one is wrong, and all that counts for the checksum has been received, which the
last byte does not, or is a status, which has to be zero; or the parity itself and one byte more are
missing, and it would have to be its own checksum. -/
inductive Spoilt (received : List Byte) (missing : ℕ) : Prop
  | type (h : received[3]?.bind PacketType.ofByte = none)
  | status {t : PacketType} {ws : List WireField} {rest : List Byte}
      (ht : received[3]?.bind PacketType.ofByte = some t)
      (hcut : (code t).Splits (received.drop 4) ws rest) (h : BadStatus t rest)
  | parity {t : PacketType} {ws : List WireField} {rest : List Byte} {b : Byte}
      (ht : received[3]?.bind PacketType.ofByte = some t)
      (hcut : (code t).Splits (received.drop 4) ws rest) (hrest : rest ≠ [parityByte])
      (hb : lastParity ws = some b) (hne : b ≠ parity (received.drop 1))
      (hmissing : missing = 1 ∨ missing = 2 ∧ AwaitsStatus t rest)
  | opcode {t : PacketType} {ws : List WireField}
      (ht : received[3]?.bind PacketType.ofByte = some t)
      (hcut : (code t).Splits (received.drop 4) ws [parityByte]) (hmissing : missing = 2)
      (hne : parity (received.drop 1) ≠ 0)

/-- There are bytes, and others behind them in memory, that complete what is received to a packet. -/
def Completable (received : List Byte) (missing : ℕ) : Prop :=
  ∃ fill behind p, fill.length = missing ∧
    (Packet.parse (received ++ fill ++ behind) (received.length+missing)).result = .ok (some p)

theorem lastParity_append_eq (us vs : List WireField) :
    lastParity (us ++ vs) = (lastParity vs).or (lastParity us) := by
  rw [lastParity,lastParity,lastParity,List.reverse_append,List.findSome?_append]

theorem lastParity_append_of_not_mem {us vs : List WireField} (h : .parity ∉ vs.map WireField.kind) :
    lastParity (us ++ vs) = lastParity us := by
  rw [lastParity_append_eq,lastParity_eq_none h,Option.none_or]

theorem lastParity_concat (us : List WireField) (b : Byte) :
    lastParity (us ++ [.parity b]) = some b :=
  lastParity_append (List.not_mem_nil)

/-- All bytes but the first and the last count for the checksum. -/
theorem checksumOf_append {received fill : List Byte} (h4 : 4 ≤ received.length) (hfill : fill ≠ []) :
    checksumOf (received ++ fill) = parity (received.drop 1) ^^^ parity fill.dropLast := by
  have hpos := List.length_pos_iff.mpr hfill
  rw [checksumOf,← parity_append,List.drop_append_of_le_length (by omega),List.length_append,
    List.take_append,List.length_drop,List.take_of_length_le (by rw [List.length_drop]; omega),
    List.dropLast_eq_take]
  congr 3
  omega

section
variable {t : PacketType} {rest tail : List Byte} {opcode : Byte} {make : ℕ → Field}

theorem parity_ne_of_status (h : shape t opcode = some (.status make)) : opcode ≠ parityByte := by
  rintro rfl
  cases t <;> cases h

/-- A field with a status of zero. -/
theorem exists_status (h : shape t opcode = some (.status make)) :
    ∃ w : WireField, w.WellFormed t ∧ w.encode t = [opcode,0] := by
  have hlength := shape_hasLength h
  have hfront : frontField t 0 [opcode,0] = some (make 0) := by
    rw [frontField,h]
    simp [Shape.field,hlength 0]
  obtain ⟨w,rest,hw,heq,hfield⟩ := frontField_isWire hfront
  refine ⟨w,hw,?_⟩
  have hlen : (w.encode t).length = 2 := by
    rw [← field_length hw 0,← hfield]
    exact hlength 0
  have hrest : rest = [] := by
    have := congrArg List.length heq
    simp only [List.length_append,hlen,List.length_cons,List.length_nil] at this
    exact List.length_eq_zero_iff.mp (by omega)
  rw [heq,hrest,List.append_nil]

/-- Where the status is not zero, the walk goes no further. -/
theorem BadStatus.splits (h : BadStatus t rest) : (code t).Splits rest [] rest := by
  obtain ⟨opcode,make,status,tail,rfl,hshape,hstatus⟩ := h
  apply PrefixCode.splits_nil
  have hhead : (status::tail).head? ≠ some 0 := fun h => hstatus (Option.some.inj h)
  refine frontField_eq_none_iff.mp (?_ : frontField t 0 _ = none)
  rw [frontField,hshape,Option.bind_some,Shape.field,if_neg hhead,Option.filter_none]

theorem not_safe_buildField {mem behind : List Byte} {current N : ℕ} {r : Option Field}
    (h : BadStatus t rest) (hm : mem.drop current = rest ++ behind) :
    ¬ Safe N (Packet.buildField t mem current) r := by
  obtain ⟨opcode,make,status,tail,rfl,hshape,hstatus⟩ := h
  intro hsafe
  simp only [buildField_eq,safe_bind,safe_load,getElem?_head_of_drop hm (List.cons_ne_nil _ _),
    List.head?_cons,Option.some.injEq] at hsafe
  obtain ⟨_,⟨-,rfl⟩,hsafe⟩ := hsafe
  simp only [hshape,safe_map,Shape.build,statusField,safe_bind,safe_load,safe_require] at hsafe
  obtain ⟨_,⟨b,⟨-,hb⟩,_,hzero,-⟩,-⟩ := hsafe
  have hnext := getElem?_of_drop (l := opcode::status::tail) hm 1 (by simp)
  rw [hb] at hnext
  exact hstatus ((Option.some.inj hnext).symm.trans hzero)

/-- The scan fails an assertion when it comes to such a field. -/
theorem not_safe_scanLoop {l behind : List Byte} {ws : List WireField} {N : ℕ} (h : BadStatus t rest)
    (hcut : (code t).Splits l ws rest) (rounds : ℕ) (p q : Packet) (hp : p.kind.type = t)
    (current : ℕ) (hm : p.data.drop current = l ++ behind) :
    ¬ Safe N (Packet.scanLoop rounds p current l.length) q := by
  induction ws generalizing rounds p current l with
  | nil =>
    obtain rfl : l = rest := hcut.eq
    have hne : l ≠ [] := by
      obtain ⟨opcode,make,status,tail,rfl,-⟩ := h
      exact List.cons_ne_nil _ _
    cases rounds with
    | zero => simp [Packet.scanLoop]
    | succ rounds =>
      rw [safe_scanLoop_succ rounds p q current hne hm,hp]
      rintro ⟨⟨r,hr⟩,-⟩
      exact not_safe_buildField h hm hr
  | cons w ws ih =>
    obtain ⟨hfront,hnext,-⟩ := frontField_splits_cons hcut current
    have hne : l ≠ [] := by
      rintro rfl
      cases hfront
    cases rounds with
    | zero => simp [Packet.scanLoop]
    | succ rounds =>
      rw [safe_scanLoop_succ rounds p q current hne hm,hp,hfront]
      rintro ⟨-,hsafe⟩
      refine ih hnext rounds _ ((Packet.storeField_type ..).trans hp) _ ?_ hsafe
      rw [Packet.storeField_data,drop_field hm hfront]

theorem not_parse_of_badStatus {bytes behind : List Byte} {ws : List WireField}
    {r : Option Packet} (h4 : 4 ≤ bytes.length) (ht : bytes[3]?.bind PacketType.ofByte = some t)
    (hcut : (code t).Splits (bytes.drop 4) ws rest) (h : BadStatus t rest) :
    (Packet.parse (bytes ++ behind) bytes.length).result ≠ .ok r := by
  intro hr
  obtain ⟨N,hN⟩ := exists_safe hr
  have h3 : 3 < bytes.length := by omega
  rw [List.getElem?_eq_getElem h3,Option.bind_some] at ht
  simp only [Packet.parse,safe_bind,safe_load,List.getElem?_append_left h3,
    List.getElem?_eq_getElem h3,Option.some.injEq] at hN
  obtain ⟨_,⟨-,rfl⟩,hN⟩ := hN
  simp only [ht,Packet.new,safe_bind,safe_require,safe_pure] at hN
  obtain ⟨_,⟨_,-,rfl⟩,q,hq,-⟩ := hN
  rw [Packet.scanFields,← List.length_drop] at hq
  exact not_safe_scanLoop h hcut _ _ q (Kind.type_empty t) 4 (List.drop_append_of_le_length h4) hq

end

section
variable {t : PacketType} {received rest : List Byte} {ws : List WireField}

theorem splits_word {w : WireField} (hw : w.WellFormed t) : (code t).Splits (w.encode t) [w] [] := by
  have h := (PrefixCode.splits_of_nil (C := code t)).cons (w := w) hw
  rwa [List.append_nil] at h

/-- A word that the next bytes complete has begun in front of them. -/
theorem prefix_of_stopped {fill : List Byte} {w : WireField} (hw : w.WellFormed t)
    (hstop : ∀ w : WireField, w.WellFormed t → ¬ w.encode t <+: rest)
    (h : w.encode t <+: rest ++ fill) :
    ∃ j, 0 < j ∧ j ≤ fill.length ∧ w.encode t = rest ++ fill.take j := by
  have hprefix : rest <+: w.encode t := by
    refine List.prefix_of_prefix_length_le (List.prefix_append rest fill) h ?_
    by_contra hlt
    exact hstop w hw (List.prefix_of_prefix_length_le h (List.prefix_append rest fill) (by omega))
  obtain ⟨more,hmore⟩ := hprefix
  rw [← hmore,List.prefix_append_right_inj] at h
  refine ⟨more.length,List.length_pos_iff.mpr ?_,h.length_le,?_⟩
  · rintro rfl
    rw [List.append_nil] at hmore
    exact hstop w hw (hmore ▸ List.prefix_rfl)
  · rw [← hmore,List.prefix_iff_eq_take.mp h,List.length_take,Nat.min_eq_left h.length_le]

/-- A parity field that the next bytes complete has its opcode in front of them. -/
theorem kind_ne_parity (fill : List Byte) {w : WireField} {j : ℕ} (hpos : 0 < j)
    (hle : j ≤ fill.length) (hone : rest = [] → j = 1) (hrest : rest ≠ [parityByte])
    (h : w.encode t = rest ++ fill.take j) : w.kind ≠ .parity := by
  intro hkind
  cases w with
  | parity b =>
    have hlength := congrArg List.length h
    rw [List.length_append,List.length_take,Nat.min_eq_left hle] at hlength
    change 2 = _ at hlength
    cases rest with
    | nil =>
      rw [hone rfl] at hlength
      cases hlength
    | cons opcode tail =>
      rw [List.cons_append] at h
      rw [List.length_cons] at hlength
      obtain rfl : tail = [] := List.length_eq_zero_iff.mp (by omega)
      exact hrest (congrArg (fun b => [b]) (List.cons.inj h).1.symm)
  | _ => cases hkind

/-- One byte more completes one field, or none. -/
theorem splits_of_one {x : Byte} {vs : List WireField} {r : List Byte}
    (hstop : ∀ w : WireField, w.WellFormed t → ¬ w.encode t <+: rest)
    (hcut : (code t).Splits (rest ++ [x]) vs r) :
    vs = [] ∨ ∃ w : WireField, w.WellFormed t ∧ vs = [w] ∧ w.encode t = rest ++ [x] := by
  by_cases h : ∃ w : WireField, w.WellFormed t ∧ w.encode t <+: rest ++ [x]
  · obtain ⟨w,hw,hfront⟩ := h
    obtain ⟨j,hpos,hle,hencode⟩ := prefix_of_stopped hw hstop hfront
    obtain rfl : j = 1 := Nat.le_antisymm hle hpos
    refine Or.inr ⟨w,hw,?_,hencode⟩
    exact ((splits_word hw).unique
      ((congrArg (fun l => (code t).Splits l vs r) hencode).mpr hcut)).1
  · push Not at h
    exact Or.inl ((PrefixCode.splits_nil h).unique hcut).1

/-- It does not make a parity field, unless the opcode is there. -/
theorem parity_not_mem_of_one {x : Byte} {vs : List WireField} {r : List Byte}
    (hstop : ∀ w : WireField, w.WellFormed t → ¬ w.encode t <+: rest)
    (hrest : rest ≠ [parityByte]) (hcut : (code t).Splits (rest ++ [x]) vs r) :
    .parity ∉ vs.map WireField.kind := by
  rcases splits_of_one hstop hcut with rfl | ⟨w,-,rfl,hencode⟩
  · exact List.not_mem_nil
  · intro hmem
    exact kind_ne_parity (j := 1) [x] Nat.one_pos (Nat.le_refl 1) (fun _ => rfl) hrest hencode
      (List.mem_singleton.mp hmem).symm

end

section
variable {t : PacketType} {received rest fill behind : List Byte} {ws : List WireField} {p : Packet}
variable (h4 : 4 ≤ received.length) (ht : received[3]?.bind PacketType.ofByte = some t)
variable (hcut : (code t).Splits (received.drop 4) ws rest)
include h4

theorem type_append (fill : List Byte) :
    (received ++ fill)[3]?.bind PacketType.ofByte = received[3]?.bind PacketType.ofByte := by
  rw [List.getElem?_append_left (by omega)]

theorem length_append_ge (fill : List Byte) : 4 ≤ (received ++ fill).length := by
  rw [List.length_append]
  omega

include hcut

/-- The walk goes on where it has got to. -/
theorem splits_received (fill : List Byte) {vs : List WireField} {r : List Byte}
    (h : (code t).Splits (rest ++ fill) vs r) :
    (code t).Splits ((received ++ fill).drop 4) (ws ++ vs) r := by
  rw [List.drop_append_of_le_length h4]
  exact hcut.append h

include ht

/-- The last parity field of a packet that comes out is right. -/
theorem parity_of_parse {vs : List WireField} {r : List Byte} (hfill : fill ≠ [])
    (h : (code t).Splits (rest ++ fill) vs r)
    (hp : (Packet.parse (received ++ fill ++ behind) (received.length+fill.length)).result =
      .ok (some p)) :
    ∀ b ∈ lastParity (ws ++ vs), b = parity (received.drop 1) ^^^ parity fill.dropLast := by
  rw [← List.length_append] at hp
  obtain ⟨ws',r',-,hunique,-,hparse⟩ := parse_recognises (length_append_ge h4 fill)
    ((type_append h4 fill).trans ht) behind
  obtain ⟨hws,-⟩ := hunique _ _ (splits_received h4 hcut _ h)
  rw [← checksumOf_append h4 hfill,hws]
  exact (hparse _ hp).1.mp rfl

/-- With the right parity, and where the walk stays in the bytes, a packet comes out. -/
theorem completable_of_splits (fill : List Byte) {vs : List WireField} {r : List Byte}
    (hfill : fill ≠ []) (h : (code t).Splits (rest ++ fill) vs r) (hcontained : FrontContained t r)
    (hparity : ∀ b ∈ lastParity (ws ++ vs), b = parity (received.drop 1) ^^^ parity fill.dropLast) :
    Completable received fill.length := by
  obtain ⟨ws',r',-,hunique,hsafe,hparse⟩ := parse_recognises (length_append_ge h4 fill)
    ((type_append h4 fill).trans ht) []
  obtain ⟨hws,hr⟩ := hunique _ _ (splits_received h4 hcut _ h)
  obtain ⟨result,hresult⟩ := hsafe.mpr (hr ▸ hcontained)
  rw [← checksumOf_append h4 hfill,hws] at hparity
  obtain ⟨p,rfl⟩ := Option.isSome_iff_exists.mp ((hparse _ hresult.2).1.mpr hparity)
  refine ⟨fill,[],p,rfl,?_⟩
  rw [← List.length_append]
  exact hresult.2

/-- A status that is not zero leaves no packet. -/
theorem not_parse_of_status (h : BadStatus t (rest ++ fill)) :
    (Packet.parse (received ++ fill ++ behind) (received.length+fill.length)).result ≠
      .ok (some p) := by
  rw [← List.length_append]
  exact not_parse_of_badStatus (length_append_ge h4 fill)
    ((type_append h4 fill).trans ht) (splits_received h4 hcut _ h.splits) h

/-- Where only the last byte is missing, the last parity field has been received. -/
theorem parity_of_parse_one {x : Byte} (hrest : rest ≠ [parityByte])
    (hp : (Packet.parse (received ++ [x] ++ behind) (received.length+1)).result = .ok (some p)) :
    ∀ b ∈ lastParity ws, b = parity (received.drop 1) := by
  obtain ⟨vs,r,h⟩ := (code t).exists_splits (rest ++ [x])
  have hparity := parity_of_parse h4 ht hcut (List.cons_ne_nil x []) h hp
  rw [lastParity_append_of_not_mem (parity_not_mem_of_one hcut.stops hrest h)] at hparity
  simpa using hparity

end

section
variable {t : PacketType} {rest : List Byte}

/-- The field that waits for its status gets a zero. -/
theorem AwaitsStatus.splits (h : AwaitsStatus t rest) :
    ∃ w : WireField, w.kind ≠ .parity ∧ (code t).Splits (rest ++ [0]) [w] [] := by
  obtain ⟨opcode,make,rfl,hshape⟩ := h
  obtain ⟨w,hw,hencode⟩ := exists_status hshape
  refine ⟨w,?_,(congrArg (fun l => (code t).Splits l [w] []) hencode).mp (splits_word hw)⟩
  have hfield : w.encode t = [opcode] ++ [0].take 1 := hencode
  exact kind_ne_parity [0] Nat.one_pos (Nat.le_refl 1) (fun h => by cases h)
    (fun h => parity_ne_of_status hshape (List.cons.inj h).1) hfield

/-- The parity field whose opcode is there gets its parity. -/
theorem splits_parity (t : PacketType) (b : Byte) :
    (code t).Splits ([parityByte] ++ [b]) [.parity b] [] :=
  splits_word (w := .parity b) (by cases t <;> trivial)

end

/-- Nothing completes what is spoilt. -/
theorem Spoilt.not_completable {received : List Byte} {missing : ℕ} (h4 : 4 ≤ received.length)
    (h : Spoilt received missing) : ¬ Completable received missing := by
  rintro ⟨fill,behind,p,rfl,hp⟩
  cases h with
  | type ht =>
    rw [← List.length_append] at hp
    have hdecoded := parse_eq (length_append_ge h4 fill) hp
    rw [decoded,type_append h4 fill,ht] at hdecoded
    cases hdecoded
  | status ht hcut hbad =>
    obtain ⟨opcode,make,status,tail,rfl,hshape,hstatus⟩ := hbad
    exact not_parse_of_status h4 ht hcut ⟨opcode,make,status,tail ++ fill,rfl,hshape,hstatus⟩ hp
  | parity ht hcut hrest hb hne hmissing =>
    rcases hmissing with hone | ⟨htwo,hawaits⟩
    · obtain ⟨x,rfl⟩ := List.length_eq_one_iff.mp hone
      exact hne (parity_of_parse_one h4 ht hcut hrest hp _ hb)
    · obtain ⟨status,x,rfl⟩ := List.length_eq_two.mp htwo
      by_cases hstatus : status = 0
      · subst hstatus
        obtain ⟨w,hw,hsplits⟩ := hawaits.splits
        have hlast := parity_of_parse_one (x := x) (length_append_ge h4 [0])
          ((type_append h4 [0]).trans ht) (splits_received h4 hcut _ hsplits) (by simp)
            (by simpa [Nat.add_assoc] using hp)
        rw [lastParity_append_of_not_mem (by simpa using hw.symm),
          List.drop_append_of_le_length (by omega)] at hlast
        refine hne ((hlast _ hb).trans ?_)
        simp
      · obtain ⟨opcode,make,rfl,hshape⟩ := hawaits
        exact not_parse_of_status h4 ht hcut ⟨opcode,make,status,[x],rfl,hshape,hstatus⟩ hp
  | opcode ht hcut hmissing hne =>
    obtain ⟨b,x,rfl⟩ := List.length_eq_two.mp hmissing
    have hlast := parity_of_parse_one (x := x) (length_append_ge h4 [b])
      ((type_append h4 [b]).trans ht) (splits_received h4 hcut _ (splits_parity _ b)) (by simp)
      (by simpa [Nat.add_assoc] using hp) b (lastParity_concat ..)
    rw [List.drop_append_of_le_length (by omega),parity_append,parity_cons,parity_nil,
      BitVec.xor_zero] at hlast
    rw [BitVec.xor_comm] at hlast
    exact hne (xor_left_cancel (hlast.symm.trans BitVec.xor_zero.symm))

theorem Completable.of_append {received fill : List Byte} {missing : ℕ}
    (h : Completable (received ++ fill) missing) : Completable received (fill.length+missing) := by
  obtain ⟨more,behind,p,rfl,hp⟩ := h
  refine ⟨fill ++ more,behind,p,List.length_append,?_⟩
  rwa [← List.append_assoc,← Nat.add_assoc,← List.length_append]

/-- An opcode that stands for no field. -/
def PacketType.padding : PacketType → Byte
  | control => 0x00
  | _ => 0xff

/-- An opcode that is a field of its own. -/
def PacketType.single : PacketType → Byte
  | control => controlReady
  | _ => 0x40

theorem shape_padding (t : PacketType) : shape t t.padding = none := by
  cases t <;> decide

theorem shape_ff (t : PacketType) : shape t 0xff = none := by
  cases t <;> decide

theorem exists_single (t : PacketType) :
    ∃ w : WireField, w.WellFormed t ∧ w.encode t = [t.single] ∧ w.kind ≠ .parity := by
  cases t with
  | control => exact ⟨.ready,trivial,rfl,by decide⟩
  | speech => exact ⟨.channel 0,by decide,rfl,by decide⟩
  | channel => exact ⟨.channel 0,by decide,rfl,by decide⟩

/-- No field begins with such an opcode. -/
theorem splits_of_shape {t : PacketType} {l : List Byte} (h : ∀ b ∈ l, shape t b = none) :
    (code t).Splits l [] l ∧ FrontContained t l := by
  cases l with
  | nil => exact ⟨PrefixCode.splits_of_nil,trivial⟩
  | cons opcode tail =>
    have hopcode := h opcode List.mem_cons_self
    refine ⟨PrefixCode.splits_nil (frontField_eq_none_iff.mp (?_ : frontField t 0 _ = none)),?_⟩
    · rw [frontField,hopcode]
      rfl
    · rintro s hs
      rw [hopcode] at hs
      cases hs

section
variable {t : PacketType} {received rest : List Byte} {ws : List WireField}
variable (h4 : 4 ≤ received.length) (ht : received[3]?.bind PacketType.ofByte = some t)

include h4 ht in
/-- Behind whole fields, a field of one byte and in the end a parity field can follow. -/
theorem completable_boundary (missing : ℕ) (hcut : (code t).Splits (received.drop 4) ws []) :
    Completable received (missing+2) := by
  induction missing generalizing received ws with
  | zero =>
    let b := parity (received.drop 1) ^^^ parityByte
    refine completable_of_splits h4 ht hcut [parityByte,b] (by simp) (splits_parity t b)
      trivial ?_
    rw [lastParity_concat]
    rintro _ ⟨⟩
    simp [b]
  | succ missing ih =>
    obtain ⟨w,hw,hencode,-⟩ := exists_single t
    have hnext := splits_received h4 hcut [t.single]
      ((congrArg (fun l => (code t).Splits l [w] []) hencode).mp (splits_word hw))
    have h := (ih (length_append_ge h4 _) ((type_append h4 _).trans ht) hnext).of_append
    rwa [List.length_singleton,Nat.add_comm 1] at h

include h4 ht in
/-- Behind whole fields, the last byte can be one that stands for no field. -/
theorem completable_padding (hcut : (code t).Splits (received.drop 4) ws [])
    (hparity : ∀ b ∈ lastParity ws, b = parity (received.drop 1)) : Completable received 1 := by
  obtain ⟨hsplits,hcontained⟩ := splits_of_shape (t := t) (l := [t.padding])
    (fun b hb => List.mem_singleton.mp hb ▸ shape_padding t)
  refine completable_of_splits h4 ht hcut [t.padding] (by simp) hsplits hcontained ?_
  simpa using hparity

/-- A field that has begun, and does not wait for its parity or for a status, comes to its end, or
to no end, without another one behind it. -/
theorem splits_pads {a : Byte} (pad : List Byte) (hne : rest ≠ []) (hrest : rest ≠ [parityByte])
    (hstop : ∀ w : WireField, w.WellFormed t → ¬ w.encode t <+: rest)
    (hstatus : ∀ opcode make, rest.head? = some opcode → shape t opcode ≠ some (.status make))
    (hpad : ∀ b ∈ pad, shape t b = none) (hzero : t = .control → 0 ∈ a::pad) :
    ∃ vs r, (code t).Splits (rest ++ a::pad) vs r ∧ FrontContained t r ∧
      .parity ∉ vs.map WireField.kind := by
  by_cases h : ∃ w : WireField, w.WellFormed t ∧ w.encode t <+: rest ++ a::pad
  · obtain ⟨w,hw,hfront⟩ := h
    obtain ⟨j,hpos,hle,hencode⟩ := prefix_of_stopped hw hstop hfront
    have hshape (b : Byte) (hb : b ∈ (a::pad).drop j) : shape t b = none := by
      obtain ⟨k,rfl⟩ : ∃ k, j = k+1 := ⟨j-1,by omega⟩
      exact hpad b (List.mem_of_mem_drop hb)
    obtain ⟨hsplits,hcontained⟩ := splits_of_shape hshape
    refine ⟨[w],(a::pad).drop j,?_,hcontained,?_⟩
    · have hcons := hsplits.cons (w := w) hw
      rw [show (code t).encode w = _ from hencode,List.append_assoc,List.take_append_drop] at hcons
      exact hcons
    · intro hmem
      exact kind_ne_parity _ hpos hle (fun h => absurd h hne) hrest hencode
        (List.mem_singleton.mp hmem).symm
  · push Not at h
    refine ⟨[],_,PrefixCode.splits_nil h,?_,List.not_mem_nil⟩
    cases rest with
    | nil => exact absurd rfl hne
    | cons opcode tail =>
      intro s hs
      cases s with
      | plain make => trivial
      | status make => exact absurd hs (hstatus opcode make rfl)
      | counted make => simp [Shape.Contained]
      | text =>
        have hcontrol : t = .control := by
          cases t with
          | control => rfl
          | _ =>
            simp only [shape,baseShape] at hs
            split_ifs at hs <;> cases hs
        exact List.mem_append_right _ (hzero hcontrol)

include h4 ht in
/-- The next byte completes a field. -/
theorem completable_next {x : Byte} {w : WireField} (missing : ℕ)
    (hcut : (code t).Splits (received.drop 4) ws rest) (h : (code t).Splits (rest ++ [x]) [w] [])
    (hone : missing = 0 → ∀ b ∈ lastParity (ws ++ [w]), b = parity (received.drop 1))
    (htwo : missing = 1 → ∀ b ∈ lastParity (ws ++ [w]), b = parity (received.drop 1) ^^^ x) :
    Completable received (missing+1) := by
  have h4' := length_append_ge h4 [x]
  have ht' := (type_append h4 [x]).trans ht
  have hnext := splits_received h4 hcut _ h
  rcases missing with - | - | missing
  · refine completable_of_splits h4 ht hcut [x] (by simp) h trivial ?_
    simpa using hone rfl
  · refine (completable_padding h4' ht' hnext ?_).of_append
    rw [List.drop_append_of_le_length (by omega),parity_append,parity_cons,parity_nil,
      BitVec.xor_zero]
    exact htwo rfl
  · have hmore := (completable_boundary h4' ht' missing hnext).of_append
    rwa [List.length_singleton,Nat.add_comm 1] at hmore

include h4 ht in
/-- A field that has begun can be completed, if its parity and its status are not at stake. -/
theorem completable_pads {missing : ℕ} (hpos : 0 < missing)
    (hcut : (code t).Splits (received.drop 4) ws rest) (hne : rest ≠ []) (hrest : rest ≠ [parityByte])
    (hstatus : ∀ opcode make, rest.head? = some opcode → shape t opcode ≠ some (.status make))
    (hparity : missing = 1 → ∀ b ∈ lastParity ws, b = parity (received.drop 1)) :
    Completable received missing := by
  rcases missing with - | - | missing
  · cases hpos
  · obtain ⟨vs,r,hsplits,hcontained,hmem⟩ := splits_pads (a := 0) [] hne hrest hcut.stops
      hstatus (by simp) (by simp)
    refine completable_of_splits h4 ht hcut [0] (by simp) hsplits hcontained ?_
    rw [lastParity_append_of_not_mem hmem]
    simpa using hparity rfl
  · -- the first byte makes the checksum what the last parity field says
    let pad := List.replicate missing (0xff : Byte)
    let a := parity (received.drop 1) ^^^ (parity pad ^^^ (lastParity ws).getD 0)
    have hpad (b : Byte) (hb : b ∈ pad ++ [t.padding]) : shape t b = none := by
      rcases List.mem_append.mp hb with hb | hb
      · exact List.eq_of_mem_replicate hb ▸ shape_ff t
      · exact List.mem_singleton.mp hb ▸ shape_padding t
    have hzero (hcontrol : t = .control) : 0 ∈ a::(pad ++ [t.padding]) := by
      subst hcontrol
      simp [PacketType.padding]
    obtain ⟨vs,r,hsplits,hcontained,hmem⟩ :=
      splits_pads _ hne hrest hcut.stops hstatus hpad hzero
    have hfill : (a::(pad ++ [t.padding])).length = missing+2 := by simp [pad]
    rw [← hfill]
    refine completable_of_splits h4 ht hcut _ (List.cons_ne_nil _ _) hsplits hcontained ?_
    rw [lastParity_append_of_not_mem hmem,← List.cons_append,List.dropLast_concat,parity_cons]
    intro b hb
    have hlast : (lastParity ws).getD 0 = b := by rw [hb,Option.getD_some]
    simp only [a,hlast]
    rw [← BitVec.xor_assoc,← BitVec.xor_assoc,BitVec.xor_self,BitVec.zero_xor,BitVec.xor_comm,
      ← BitVec.xor_assoc,BitVec.xor_self,BitVec.zero_xor]

end

/-- Exactly what is spoilt cannot be completed. -/
theorem spoilt_iff {received : List Byte} {missing : ℕ} (h4 : 4 ≤ received.length)
    (hpos : 0 < missing) : Spoilt received missing ↔ ¬ Completable received missing := by
  refine ⟨Spoilt.not_completable h4,fun hnot => ?_⟩
  by_contra hgood
  refine hnot ?_
  obtain ⟨t,ht⟩ : ∃ t, received[3]?.bind PacketType.ofByte = some t :=
    Option.ne_none_iff_exists'.mp fun h => hgood (.type h)
  obtain ⟨ws,rest,hcut⟩ := (code t).exists_splits (received.drop 4)
  obtain ⟨missing,rfl⟩ : ∃ k, missing = k+1 := ⟨missing-1,by omega⟩
  by_cases hopcode : rest = [parityByte]
  · subst hopcode
    by_cases hmissing : missing = 0
    · refine completable_next h4 ht missing hcut (splits_parity t (parity (received.drop 1))) ?_
        fun h => by omega
      rw [lastParity_concat]
      rintro - _ ⟨⟩
      rfl
    · refine completable_next h4 ht missing hcut (splits_parity t 0) (fun h => absurd h hmissing) ?_
      rw [lastParity_concat]
      rintro rfl _ ⟨⟩
      by_contra hne
      refine hgood (.opcode ht hcut rfl fun hzero => hne ?_)
      rw [hzero,BitVec.xor_self]
      rfl
  have hparity (hmissing : missing = 0 ∨ missing = 1 ∧ AwaitsStatus t rest) :
      ∀ b ∈ lastParity ws, b = parity (received.drop 1) := by
    intro b hb
    by_contra hne
    exact hgood (.parity ht hcut hopcode hb hne
      (hmissing.imp (congrArg (·+1)) (And.imp_left (congrArg (·+1)))))
  by_cases hawaits : AwaitsStatus t rest
  · obtain ⟨w,hw,hnext⟩ := hawaits.splits
    have hlast : lastParity (ws ++ [w]) = lastParity ws :=
      lastParity_append_of_not_mem (by simpa using hw.symm)
    refine completable_next h4 ht missing hcut hnext (fun h => ?_) (fun h => ?_) <;> rw [hlast]
    · exact hparity (Or.inl h)
    · simpa using hparity (Or.inr ⟨h,hawaits⟩)
  by_cases hne : rest = []
  · subst hne
    rcases missing with - | missing
    · exact completable_padding h4 ht hcut (hparity (Or.inl rfl))
    · exact completable_boundary h4 ht missing hcut
  · refine completable_pads h4 ht hpos hcut hne hopcode ?_ fun h => hparity (Or.inl (by omega))
    intro opcode make hhead hshape
    obtain ⟨tail,rfl⟩ : ∃ tail, rest = opcode::tail := List.head?_eq_some_iff.mp hhead
    cases tail with
    | nil => exact hawaits ⟨opcode,make,rfl,hshape⟩
    | cons status tail =>
      by_cases hstatus : status = 0
      · obtain ⟨w,hwell,hencode⟩ := exists_status hshape
        refine hcut.stops w hwell ?_
        change w.encode t <+: _
        rw [hencode,hstatus]
        exact List.prefix_append [opcode,0] tail
      · exact hgood (.status ht hcut ⟨opcode,make,status,tail,rfl,hshape,hstatus⟩)

end CodecServer.Ambe3K.Protocol
