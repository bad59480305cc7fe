import Mathlib.Algebra.GroupWithZero.Nat
import Mathlib.Data.List.Pairwise
import CodecServer.Ambe3K.Protocol.Parse

/-! Where the fields of a received packet lie. The scan goes through the payload from one field to
the next, whatever lies behind it, and what is read through a field that is kept stays in the
packet. -/
namespace CodecServer.Ambe3K.Protocol
open CodecServer.Memory CodecServer.Memory.Access

/-- The pointer of a field, as an index. -/
def Field.data : Field → ℕ
  | .checksum data => data
  | .ready data => data
  | .reset data => data
  | .prodIdRequest data => data
  | .prodIdResponse data _ => data
  | .versionStringRequest data => data
  | .versionStringResponse data => data
  | .channel data => data
  | .channelResponse data => data
  | .rateTRequest data => data
  | .rateTResponse data => data
  | .ratePRequest data => data
  | .ratePResponse data => data
  | .initRequest data => data
  | .initResponse data => data
  | .chanD data _ => data
  | .speechD data _ => data

/-- Of the two fields, one lies behind the other. -/
def Field.Apart (f g : Field) : Prop :=
  f.data+f.getLength ≤ g.data ∨ g.data+g.getLength ≤ f.data

instance : Std.Symm Field.Apart := ⟨fun _ _ h => h.symm⟩

/-- The fields that a `ControlPacket`, a `SpeechPacket` or a `ChannelPacket` keeps. -/
def Kind.fields : Kind → List Field
  | .control c =>
    (c.ready.map .ready).toList ++
    (c.prodid.map fun prodid => .prodIdResponse prodid.1 prodid.2).toList ++
    (c.version.map .versionStringResponse).toList ++
    (c.rateTResponse.map .rateTResponse).toList ++
    (c.ratePResponse.map .ratePResponse).toList ++
    (c.initResponse.map .initResponse).toList ++
    (c.channelResponse.map .channelResponse).toList
  | .speech speechD => (speechD.map fun d => .speechD d.1 d.2).toList
  | .channel chanD => (chanD.map fun d => .chanD d.1 d.2).toList

/-- The fields that `storeField` has kept and that no later field has replaced. -/
def Packet.fields (p : Packet) : List Field :=
  (p.checksum.map .checksum).toList ++ (p.channel.map .channel).toList ++ p.kind.fields

/-- The bytes that the fields take. -/
def consumed (fs : List Field) : ℕ := (fs.map Field.getLength).sum

/-- The packet object before the scan. -/
def unscanned (t : PacketType) (bytes behind : List Byte) : Packet :=
  {data := bytes ++ behind, dataSize := bytes.length, kind := .empty t}

/-- The loop of `scanFields` is at its test, with these fields stored, and with these values of
`current` and `remaining`. -/
inductive ScanHead (p : Packet) : List Field → ℕ → ℕ → Prop
  | start : ScanHead p [] 4 (p.dataSize-4)
  | round {fs : List Field} {current remaining : ℕ} {f : Field}
      (head : ScanHead p fs current remaining) (enter : 0 < remaining)
      (build : (Packet.buildField p.kind.type p.data current).result = .ok (some f))
      (fits : ¬ remaining < f.getLength) :
      ScanHead p (fs ++ [f]) (current+f.getLength) (remaining-f.getLength)

/-- The fields fill the payload of a packet of `n` bytes from its start up to `current`, one behind
the other, and what remains is the rest of it. -/
structure Placed (n : ℕ) (fs : List Field) (current remaining : ℕ) : Prop where
  front : current = 4+consumed fs
  rest : remaining+consumed fs = n-4
  positive : ∀ f ∈ fs, 1 ≤ f.getLength
  inside : ∀ f ∈ fs, 4 ≤ f.data ∧ f.data+f.getLength ≤ current
  apart : fs.Pairwise fun f g => f.data+f.getLength ≤ g.data

/-- Every field that is kept lies in the payload, apart from the others. -/
structure Packet.FieldsInside (n : ℕ) (p : Packet) : Prop where
  inside : ∀ f ∈ p.fields, 4 ≤ f.data ∧ f.data+f.getLength ≤ n
  apart : ∀ f ∈ p.fields, ∀ g ∈ p.fields, f ≠ g → f.Apart g

/-- Nothing is read from index `n` on. -/
def Within {α : Type} (n : ℕ) (x : Access α) : Prop := ∀ i ∈ x.reads, i < n

structure Packet.ReadsWithin (n : ℕ) (p : Packet) : Prop where
  isChecksumValid : Within n p.isChecksumValid
  getChannel : Within n p.getChannel
  getVersionString : Within n p.getVersionString
  getChannelData : Within n p.getChannelData
  getSpeechData : Within n p.getSpeechData

section Scan
variable {p q : Packet} {fs : List Field} {current remaining : ℕ}

@[simp] theorem consumed_append (fs : List Field) (f : Field) :
    consumed (fs ++ [f]) = consumed fs+f.getLength := by
  simp [consumed]

/-- No field comes without a byte to be built from, but the memory may end. -/
theorem build_ne_diverged {s : Shape} {mem : List Byte} :
    (s.build mem current).result ≠ .error .diverged := by
  cases s with
  | plain make => nofun
  | status make =>
    rw [Shape.build,statusField,Ne,result_bind_error]
    rintro (h | ⟨status,-,h⟩)
    · exact load_ne_diverged h
    · rw [result_bind_error] at h
      rcases h with h | ⟨u,-,h⟩
      · exact require_ne_diverged h
      · cases h
  | counted make =>
    rw [Shape.build,countedField,Ne,result_bind_error]
    rintro (h | ⟨count,-,h⟩)
    · exact load_ne_diverged h
    · cases h
  | text =>
    rw [Shape.build,prodIdResponseField,Ne,result_bind_error]
    rintro (h | ⟨productId,-,h⟩)
    · exact loadUntil_ne_diverged h
    · cases h

theorem buildField_ne_diverged {t : PacketType} {mem : List Byte} :
    (Packet.buildField t mem current).result ≠ .error .diverged := by
  rw [buildField_eq,Ne,result_bind_error]
  rintro (h | ⟨opcode,-,h⟩)
  · exact load_ne_diverged h
  · cases hs : shape t opcode with
    | none =>
      rw [hs] at h
      cases h
    | some s =>
      simp only [hs,result_map_error] at h
      exact build_ne_diverged h

theorem shape_data {t : PacketType} {opcode : Byte} {s : Shape} {mem : List Byte} {f : Field}
    (hs : shape t opcode = some s) (hf : (s.build mem current).result = .ok f) :
    f.data = current := by
  cases t <;> simp only [shape,baseShape] at hs <;> split_ifs at hs <;> cases hs <;>
    simp only [Shape.build,statusField,countedField,prodIdResponseField,result_bind,result_pure,
      Except.ok.injEq] at hf <;> grind [Field.data]

/-- A field has been built where the scan is. -/
theorem buildField_data {t : PacketType} {mem : List Byte} {f : Field}
    (h : (Packet.buildField t mem current).result = .ok (some f)) : f.data = current := by
  rw [buildField_eq,result_bind] at h
  obtain ⟨opcode,-,h⟩ := h
  cases hs : shape t opcode with
  | none =>
    rw [hs] at h
    cases h
  | some s =>
    simp only [hs,result_map] at h
    obtain ⟨g,hg,hgf⟩ := h
    obtain rfl := Option.some.inj hgf
    exact shape_data hs hg

/-- Whatever the bytes are, the fields that are stored lie one behind the other. -/
theorem ScanHead.placed (h : ScanHead p fs current remaining) :
    Placed p.dataSize fs current remaining := by
  induction h with
  | start =>
    refine ⟨rfl,rfl,?_,?_,List.Pairwise.nil⟩
    · intro f hf
      cases hf
    · intro f hf
      cases hf
  | @round fs current remaining f head enter build fits ih =>
    have hdata := buildField_data build
    have hfront := ih.front
    have hrest := ih.rest
    refine ⟨?_,?_,?_,?_,?_⟩
    · rw [consumed_append]
      omega
    · rw [consumed_append]
      omega
    · intro g hg
      exact g.getLength_pos
    · intro g hg
      rcases List.mem_append.mp hg with hg | hg
      · obtain ⟨hlow,hhigh⟩ := ih.inside g hg
        exact ⟨hlow,by omega⟩
      · obtain rfl := List.mem_singleton.mp hg
        exact ⟨by omega,by omega⟩
    · apply List.pairwise_append.mpr
      refine ⟨ih.apart,List.pairwise_singleton _ _,?_⟩
      intro g hg g' hg'
      obtain rfl := List.mem_singleton.mp hg'
      rw [hdata]
      exact (ih.inside g hg).2

/-- The loop ends at one of its heads, with the fields stored that it has stored there. -/
theorem scanLoop_head (rounds : ℕ) (head : ScanHead p fs current remaining)
    (h : (Packet.scanLoop rounds (fs.foldl Packet.storeField p) current remaining).result = .ok q) :
    ∃ fs current remaining, ScanHead p fs current remaining ∧ q = fs.foldl Packet.storeField p := by
  induction rounds generalizing fs current remaining with
  | zero => cases h
  | succ rounds ih =>
    rw [Packet.scanLoop] at h
    by_cases hremaining : remaining = 0
    · rw [if_pos hremaining] at h
      exact ⟨fs,current,remaining,head,(Except.ok.inj h).symm⟩
    · rw [if_neg hremaining,result_bind,Packet.foldl_storeField_type,
        Packet.foldl_storeField_data] at h
      obtain ⟨built,hbuild,h⟩ := h
      cases built with
      | none => exact ⟨fs,current,remaining,head,(Except.ok.inj h).symm⟩
      | some f =>
        simp only at h
        by_cases hfits : remaining < f.getLength
        · rw [if_pos hfits] at h
          exact ⟨fs,current,remaining,head,(Except.ok.inj h).symm⟩
        · rw [if_neg hfits] at h
          have hnext := head.round (by omega) hbuild hfits
          apply ih hnext
          rw [List.foldl_append]
          exact h

/-- The bytes run out before the rounds do. -/
theorem scanLoop_terminates (rounds : ℕ) (p : Packet) (current remaining : ℕ)
    (hrounds : remaining < rounds) :
    (Packet.scanLoop rounds p current remaining).result ≠ .error .diverged := by
  induction rounds generalizing p current remaining with
  | zero => omega
  | succ rounds ih =>
    rw [Packet.scanLoop]
    by_cases hremaining : remaining = 0
    · rw [if_pos hremaining]
      simp
    · rw [if_neg hremaining,Ne,result_bind_error]
      rintro (h | ⟨built,-,h⟩)
      · exact buildField_ne_diverged h
      · cases built with
        | none => cases h
        | some f =>
          simp only at h
          by_cases hfits : remaining < f.getLength
          · rw [if_pos hfits] at h
            cases h
          · rw [if_neg hfits] at h
            have hpos := f.getLength_pos
            exact ih _ _ _ (by omega) h

end Scan

section Kept
variable {p : Packet} {bytes behind : List Byte} {n : ℕ}

/-- Storing a field keeps no field that was not kept before, except for that one. -/
theorem mem_fields_storeField {f g : Field} (h : g ∈ (p.storeField f).fields) :
    g = f ∨ g ∈ p.fields := by
  rcases p with ⟨data,dataSize,checksum,channel,fields | speechD | chanD⟩ <;> cases f <;>
    simp only [Packet.storeField,Packet.storeFieldControl,Packet.storeFieldSpeech,
      Packet.storeFieldChannel,Packet.storeFieldBase,Packet.fields,Kind.fields,List.mem_append,
      Option.mem_toList,Option.map_some] at h ⊢ <;> grind

theorem mem_fields_foldl {fs : List Field} {g : Field}
    (h : g ∈ (fs.foldl Packet.storeField p).fields) : g ∈ fs ∨ g ∈ p.fields := by
  induction fs generalizing p with
  | nil => exact Or.inr h
  | cons f fs ih =>
    rcases ih h with hg | hg
    · exact Or.inl (List.mem_cons_of_mem f hg)
    · rcases mem_fields_storeField hg with rfl | hg
      · exact Or.inl List.mem_cons_self
      · exact Or.inr hg

theorem fields_unscanned (t : PacketType) : (unscanned t bytes behind).fields = [] := by
  cases t <;> rfl

theorem apart_of_mem {fs : List Field}
    (h : fs.Pairwise fun f g => f.data+f.getLength ≤ g.data) {f g : Field} (hf : f ∈ fs)
    (hg : g ∈ fs) (hne : f ≠ g) : f.Apart g := by
  have hapart : fs.Pairwise Field.Apart := h.imp Or.inl
  exact hapart.forall hf hg hne

theorem fieldsInside_of_head {fs : List Field} {current remaining : ℕ} (h4 : 4 ≤ bytes.length)
    {t : PacketType} (h : ScanHead (unscanned t bytes behind) fs current remaining) :
    (fs.foldl Packet.storeField (unscanned t bytes behind)).FieldsInside bytes.length := by
  have hplaced := h.placed
  have hfront := hplaced.front
  have hrest := hplaced.rest
  have hmem : ∀ f ∈ (fs.foldl Packet.storeField (unscanned t bytes behind)).fields, f ∈ fs := by
    intro f hf
    rcases mem_fields_foldl hf with hf | hf
    · exact hf
    · rw [fields_unscanned] at hf
      cases hf
  change remaining+consumed fs = bytes.length-4 at hrest
  constructor
  · intro f hf
    obtain ⟨hlow,hhigh⟩ := hplaced.inside f (hmem f hf)
    exact ⟨hlow,by omega⟩
  · intro f hf g hg hne
    exact apart_of_mem hplaced.apart (hmem f hf) (hmem g hg) hne

end Kept

section Accessors
variable {p : Packet} {n : ℕ}

theorem exists_safe_loadBlock {mem : List Byte} (i count : ℕ) (hin : i+count ≤ n)
    (hlen : n ≤ mem.length) :
    ∃ block, block.length = count ∧ Safe n (loadBlock mem i count) block := by
  have hlength : ((mem.drop i).take count).length = count := by
    rw [List.length_take,List.length_drop]
    omega
  exact ⟨(mem.drop i).take count,hlength,(safe_loadBlock ..).mpr ⟨rfl,hlength,Or.inr hin⟩⟩

theorem exists_safe_load {mem : List Byte} {i : ℕ} (hin : i < n) (hlen : n ≤ mem.length) :
    ∃ b, Safe n (load mem i) b := by
  have hi : i < mem.length := by omega
  exact ⟨mem[i],(safe_load ..).mpr ⟨hin,List.getElem?_eq_getElem hi⟩⟩

theorem exists_safe_fieldSamples {mem : List Byte} (hlen : n ≤ mem.length) (samples src : ℕ)
    (hin : src+samples*2 ≤ n) :
    ∃ output, output.length = samples ∧ Safe n (fieldSamples mem src samples) output := by
  induction samples generalizing src with
  | zero => exact ⟨[],rfl,(safe_pure ..).mpr rfl⟩
  | succ samples ih =>
    obtain ⟨high,hhigh⟩ := exists_safe_load (i := src) (by omega) hlen
    obtain ⟨low,hlow⟩ := exists_safe_load (i := src+1) (by omega) hlen
    obtain ⟨tail,hlength,htail⟩ := ih (src+2) (by omega)
    refine ⟨ntohs high low::tail,congrArg (· + 1) hlength,?_⟩
    simp only [fieldSamples,safe_bind,safe_pure]
    exact ⟨high,hhigh,low,hlow,tail,htail,rfl⟩

/-- A block of samples or of channel data that lies in the packet can be copied. -/
theorem exists_safe_fieldSpeechData {mem : List Byte} {index samples : ℕ}
    (hin : index+(Field.speechD index samples).getLength ≤ n) (hlen : n ≤ mem.length) :
    ∃ output, output.length = samples ∧
      Safe n (fieldSpeechData mem index samples) (output,samples*2) := by
  rw [Field.getLength] at hin
  obtain ⟨output,hlength,houtput⟩ := exists_safe_fieldSamples hlen samples (index+2) (by omega)
  refine ⟨output,hlength,?_⟩
  simp only [fieldSpeechData,safe_bind,safe_pure]
  exact ⟨output,houtput,rfl⟩

theorem exists_safe_fieldChannelData {mem : List Byte} {index bits : ℕ}
    (hin : index+(Field.chanD index bits).getLength ≤ n) (hlen : n ≤ mem.length) :
    ∃ output, output.length = (bits+7)/8 ∧
      Safe n (fieldChannelData mem index bits) (output,(bits+7)/8) := by
  rw [Field.getLength] at hin
  obtain ⟨output,hlength,houtput⟩ := exists_safe_loadBlock (index+2) ((bits+7)/8) (by omega) hlen
  refine ⟨output,hlength,?_⟩
  simp only [fieldChannelData,safe_bind,safe_pure]
  exact ⟨output,houtput,rfl⟩

theorem within_getSpeechData (hp : p.FieldsInside n) (hlen : n ≤ p.data.length) :
    Within n p.getSpeechData := by
  rcases p with ⟨data,dataSize,checksum,channel,fields | speechD | chanD⟩
  · nofun
  · cases speechD with
    | none => nofun
    | some d =>
      have hin := (hp.inside (.speechD d.1 d.2) (by simp [Packet.fields,Kind.fields])).2
      obtain ⟨output,-,houtput⟩ := exists_safe_fieldSpeechData hin hlen
      exact houtput.1
  · nofun

theorem within_getChannelData (hp : p.FieldsInside n) (hlen : n ≤ p.data.length) :
    Within n p.getChannelData := by
  rcases p with ⟨data,dataSize,checksum,channel,fields | speechD | chanD⟩
  · nofun
  · nofun
  · cases chanD with
    | none => nofun
    | some d =>
      have hin := (hp.inside (.chanD d.1 d.2) (by simp [Packet.fields,Kind.fields])).2
      obtain ⟨output,-,houtput⟩ := exists_safe_fieldChannelData hin hlen
      exact houtput.1

theorem exists_safe_fieldChannel {mem : List Byte} {data : ℕ} (hin : data < n)
    (hlen : n ≤ mem.length) : ∃ c, Safe n (fieldChannel mem data) c := by
  obtain ⟨b,hb⟩ := exists_safe_load hin hlen
  refine ⟨b-0x40,?_⟩
  simp only [fieldChannel,safe_bind,safe_pure]
  exact ⟨b,hb,rfl⟩

/-- Without a channel field, a control packet has a null pointer there, and no byte is read. -/
theorem within_getChannel (hp : p.FieldsInside n) (hlen : n ≤ p.data.length) :
    Within n p.getChannel := by
  have hfield : ∀ f ∈ p.fields, ∃ c, Safe n (fieldChannel p.data f.data) c := by
    intro f hf
    have hpos := f.getLength_pos
    have hin := (hp.inside f hf).2
    exact exists_safe_fieldChannel (by omega) hlen
  rcases p with ⟨data,dataSize,checksum,channel,fields | speechD | chanD⟩
  · cases hc : fields.channelResponse with
    | none => simp [Within,Packet.getChannel,hc,fail]
    | some index =>
      obtain ⟨c,hsafe⟩ := hfield (.channelResponse index) (by simp [Packet.fields,Kind.fields,hc])
      rw [Packet.getChannel]
      simp only [hc]
      exact hsafe.1
  · cases channel with
    | none => simp [Within,Packet.getChannel]
    | some index =>
      obtain ⟨c,hsafe⟩ := hfield (.channel index) (by simp [Packet.fields])
      exact hsafe.1
  · cases channel with
    | none => simp [Within,Packet.getChannel]
    | some index =>
      obtain ⟨c,hsafe⟩ := hfield (.channel index) (by simp [Packet.fields])
      exact hsafe.1

theorem within_getVersionString (hp : p.FieldsInside n) (hlen : n ≤ p.data.length) :
    Within n p.getVersionString := by
  rw [Packet.getVersionString]
  cases hversion : p.controlFields.version with
  | none => simp [Within,fail]
  | some index =>
    have hmem : Field.versionStringResponse index ∈ p.fields := by
      rcases p with ⟨data,dataSize,checksum,channel,fields | speechD | chanD⟩
      · simp only [Packet.controlFields] at hversion
        simp [Packet.fields,Kind.fields,hversion]
      · cases hversion
      · cases hversion
    have hin := (hp.inside _ hmem).2
    simp only [Field.data,Field.getLength] at hin
    obtain ⟨block,-,hblock⟩ := exists_safe_loadBlock (index+1) 48 (by omega) hlen
    exact hblock.1

end Accessors

section Parsed
variable {bytes behind : List Byte}

theorem readsWithin_scanned {t : PacketType} (h4 : 4 ≤ bytes.length)
    (h : (scanned t bytes behind).FieldsInside bytes.length) :
    (scanned t bytes behind).ReadsWithin bytes.length := by
  have hlen : bytes.length ≤ (scanned t bytes behind).data.length := by
    rw [scanned_data,List.length_append]
    omega
  exact
    { isChecksumValid := ((safe_isChecksumValid t h4 (Nat.le_refl _) _).mpr rfl).1
      getChannel := within_getChannel h hlen
      getVersionString := within_getVersionString h hlen
      getChannelData := within_getChannelData h hlen
      getSpeechData := within_getSpeechData h hlen }

/-- `parse` returns the packet that the scan returns, or none. -/
theorem parse_scanFields {r : Option Packet} {t : PacketType}
    (h : (Packet.parse (bytes ++ behind) bytes.length).result = .ok r) (h4 : 4 ≤ bytes.length)
    (ht : bytes[3]?.bind PacketType.ofByte = some t) :
    ∃ q, (unscanned t bytes behind).scanFields.result = .ok q ∧ (r = none ∨ r = some q) := by
  have h3 : 3 < bytes.length := by omega
  rw [List.getElem?_eq_getElem h3,Option.bind_some] at ht
  simp only [Packet.parse,result_bind] at h
  obtain ⟨type,htype,h⟩ := h
  have hload : load (bytes ++ behind) 3 = ⟨[3],.ok bytes[3]⟩ := by
    rw [load,List.getElem?_append_left h3,List.getElem?_eq_getElem h3]
  rw [hload] at htype
  obtain rfl := Except.ok.inj htype
  simp only [ht,Packet.new,result_bind,result_pure] at h
  obtain ⟨p,⟨_,-,hp⟩,q,hq,valid,-,hr⟩ := h
  obtain rfl := Except.ok.inj hp
  refine ⟨q,hq,?_⟩
  cases valid with
  | false => exact Or.inl (Except.ok.inj hr).symm
  | true => exact Or.inr (Except.ok.inj hr).symm

/-- What the scan comes to, if `parse` returns. -/
theorem scan_fieldsInside {r : Option Packet} {t : PacketType} (h4 : 4 ≤ bytes.length)
    (h : (Packet.parse (bytes ++ behind) bytes.length).result = .ok r)
    (ht : bytes[3]?.bind PacketType.ofByte = some t) :
    ∃ q, (unscanned t bytes behind).scanFields.result = .ok q ∧ (r = none ∨ r = some q) ∧
      (∃ fs current remaining, ScanHead (unscanned t bytes behind) fs current remaining ∧
        q = fs.foldl Packet.storeField (unscanned t bytes behind)) ∧
      q.FieldsInside bytes.length ∧ q.ReadsWithin bytes.length := by
  obtain ⟨q,hq,hr⟩ := parse_scanFields h h4 ht
  obtain ⟨fs,current,remaining,head,hfs⟩ := scanLoop_head _ .start hq
  have hinside : q.FieldsInside bytes.length := hfs ▸ fieldsInside_of_head h4 head
  obtain ⟨N,hN⟩ := exists_safe hq
  obtain rfl := safe_scanFields_eq h4 hN
  exact ⟨_,hq,hr,⟨fs,current,remaining,head,hfs⟩,hinside,readsWithin_scanned h4 hinside⟩

theorem returned_fieldsInside {p : Packet} (h4 : 4 ≤ bytes.length)
    (h : (Packet.parse (bytes ++ behind) bytes.length).result = .ok (some p)) :
    p.FieldsInside bytes.length ∧ p.ReadsWithin bytes.length := by
  obtain ⟨t,ht,-⟩ := parse_scanned h4 h
  obtain ⟨q,-,hr,-,hinside⟩ := scan_fieldsInside h4 h ht
  rcases hr with hr | hr
  · cases hr
  · exact Option.some.inj hr ▸ hinside

/-- The scan of a byte string comes to an end. If `parse` returns, the scan has gone through the
payload field by field, and what it has kept, and what is read through that, lies in the packet. -/
theorem parse_fieldsInside {r : Option Packet} (h4 : 4 ≤ bytes.length)
    (h : (Packet.parse (bytes ++ behind) bytes.length).result = .ok r) :
    (∀ p, r = some p → p.FieldsInside bytes.length ∧ p.ReadsWithin bytes.length) ∧
    ∀ t, bytes[3]?.bind PacketType.ofByte = some t →
      (unscanned t bytes behind).scanFields.result ≠ .error .diverged ∧
      (∀ fs current remaining, ScanHead (unscanned t bytes behind) fs current remaining →
        Placed bytes.length fs current remaining) ∧
      ∃ q, (unscanned t bytes behind).scanFields.result = .ok q ∧ (r = none ∨ r = some q) ∧
        (∃ fs current remaining, ScanHead (unscanned t bytes behind) fs current remaining ∧
          q = fs.foldl Packet.storeField (unscanned t bytes behind)) ∧
        q.FieldsInside bytes.length ∧ q.ReadsWithin bytes.length := by
  constructor
  · rintro p rfl
    exact returned_fieldsInside h4 h
  · intro t ht
    refine ⟨scanLoop_terminates _ _ _ _ (Nat.lt_succ_self _),?_,scan_fieldsInside h4 h ht⟩
    intro fs current remaining head
    exact head.placed

/-- A channel number, two samples and the parity, with the start of another packet behind them. -/
theorem parse_fieldsInside_speech :
    ∃ p, (Packet.parse
        ([startByte,0x00,0x09,typeAudio,0x40,speechSpeechd,0x02,0x01,0x02,0x03,0x04,parityByte,
          0x62] ++ [startByte]) 13).result = .ok (some p) ∧
      p.fields = [.checksum 11,.channel 4,.speechD 5 2] ∧ p.FieldsInside 13 ∧ p.ReadsWithin 13 := by
  have h : (Packet.parse
      ([startByte,0x00,0x09,typeAudio,0x40,speechSpeechd,0x02,0x01,0x02,0x03,0x04,parityByte,
        0x62] ++ [startByte]) 13).result = .ok (some
          { data := [startByte,0x00,0x09,typeAudio,0x40,speechSpeechd,0x02,0x01,0x02,0x03,0x04,
              parityByte,0x62,startByte]
            dataSize := 13
            checksum := some 11
            channel := some 4
            kind := .speech (some (5,2)) }) := by
    decide
  exact ⟨_,h,rfl,(parse_fieldsInside (by decide) h).1 _ rfl⟩

end Parsed
end CodecServer.Ambe3K.Protocol
