import CodecServer.Ambe3K.Protocol.Receiving
import CodecServer.Ambe3K.Protocol.Completion

/-! Packets whose payload does not come in full. After its loop, `Packet::receiveFrom` does not look
at what remains: the rest of the payload is what the buffer happened to hold. -/
namespace CodecServer.Ambe3K.Protocol
open CodecServer.Memory ReadOutcome

/-- A packet without the memory that lies behind it. -/
def Packet.contents (p : Packet) : Packet := {p with data := p.data.take p.dataSize}

/-- A packet is returned only when that many bytes have been received. It is returned whatever the
buffer held before, and what lies behind the buffer makes no difference to its contents. -/
def RejectsTruncated (os : List ReadOutcome) : Prop :=
  ∀ heap x line p, receiveFrom heap (.ofOutcomes os []) = .ok (x,line) → x.result = .ok (some p) →
    p.dataSize+line.pending.length ≤ (received os).length ∧
    (∀ fresh, receiveFrom {heap with fresh := fresh} (.ofOutcomes os []) = .ok (x,line)) ∧
    ∀ heap' x' line' p', receiveFrom heap' (.ofOutcomes os []) = .ok (x',line') →
      x'.result = .ok (some p') → p'.contents = p.contents

/-- Behind a header with a start byte, the payload that it announces is received in full, or what is
received is spoilt already. -/
def Whole (os : List ReadOutcome) : Prop :=
  ∀ head rest, collect 4 10 [] 4 os = some (head,0,rest) → head.head? = some startByte →
    ∀ n : ℕ, announced head = n →
      ∀ got remain rest', collect (4+n) 10 head n rest = some (got,remain,rest') →
        got.length = 4+n ∨ Spoilt got (4+n-got.length)

section Contents
variable {bytes behind : List Byte}

theorem storeField_data_congr (p : Packet) (data : List Byte) (f : Field) :
    ({p with data := data}).storeField f = {p.storeField f with data := data} := by
  rcases p with ⟨_,dataSize,checksum,channel,fields | speechD | chanD⟩ <;> cases f <;> rfl

theorem foldl_storeField_data_congr (fs : List Field) (p : Packet) (data : List Byte) :
    fs.foldl Packet.storeField {p with data := data} =
      {fs.foldl Packet.storeField p with data := data} := by
  induction fs generalizing p with
  | nil => rfl
  | cons f fs ih => rw [List.foldl_cons,List.foldl_cons,storeField_data_congr,ih]

/-- The fields of a packet are pointers into it. -/
theorem scanned_contents (t : PacketType) :
    (scanned t bytes behind).contents = scanned t bytes [] := by
  have htake : (scanned t bytes behind).data.take (scanned t bytes behind).dataSize = bytes := by
    rw [scanned_data,scanned_dataSize,List.take_left]
  rw [Packet.contents,htake,scanned,scanned,List.append_nil]
  exact (foldl_storeField_data_congr (fieldsOf t (bytes.drop 4))
    {data := bytes ++ behind, dataSize := bytes.length, kind := .empty t} bytes).symm

/-- A packet that `parse` returns is the scan of its bytes. -/
theorem parse_contents (h4 : 4 ≤ bytes.length) {behind' : List Byte} {p p' : Packet}
    (h : (Packet.parse (bytes ++ behind) bytes.length).result = .ok (some p))
    (h' : (Packet.parse (bytes ++ behind') bytes.length).result = .ok (some p')) :
    p'.contents = p.contents := by
  obtain ⟨t,ht,rfl⟩ := parse_scanned h4 h
  obtain ⟨t',ht',rfl⟩ := parse_scanned h4 h'
  rw [scanned_contents,scanned_contents,Option.some.inj (ht.symm.trans ht')]

/-- `parse` looks at the type byte, and asserts that there is a whole header. -/
theorem parse_header {data : List Byte} {size : ℕ} {p : Packet}
    (h : (Packet.parse data size).result = .ok (some p)) : 3 < data.length ∧ 4 ≤ size := by
  obtain ⟨N,hN⟩ := Access.exists_safe h
  simp only [Packet.parse,Access.safe_bind,Access.safe_load] at hN
  obtain ⟨type,⟨-,htype⟩,hN⟩ := hN
  refine ⟨(List.getElem?_eq_some_iff.mp htype).1,?_⟩
  cases ht : PacketType.ofByte type with
  | none =>
    simp [ht] at hN
  | some t =>
    simp only [ht,Packet.new,Access.safe_bind,Access.safe_require,Access.safe_pure] at hN
    obtain ⟨_,⟨_,h4,-⟩,-⟩ := hN
    exact h4

end Contents

section Receive
variable {os rest rest' : List ReadOutcome} {head got : List Byte} {n : ℕ} {remain : ℤ}

theorem collect_payload_length (h : Receivable os)
    (hheader : collect 4 10 [] 4 os = some (head,0,rest)) (hn : announced head = n)
    (hpayload : collect (4+n) 10 head n rest = some (got,remain,rest')) :
    head.length = 4 ∧ 4 ≤ got.length ∧ got.length ≤ 4+n ∧
      got.length+(received rest').length ≤ head.length+(received rest).length := by
  obtain ⟨hhead,hlt,hpossible⟩ := h.payload hheader hn
  have hstanding : Standing (4+n) head n := ⟨by omega,by omega,by omega,Or.inr (by omega)⟩
  have hbase : ((4+n : ℕ) : ℤ) = 4+n := Int.natCast_add 4 n
  have hlength := collect_length 10 hstanding hpossible (by rw [hbase]; exact hpayload)
  exact ⟨hhead,hhead ▸ hlength.1,hlength.2⟩

/-- Behind a complete header, `parse` is called with what is received and the rest of the buffer. -/
theorem receiveFrom_eq (h : Receivable os) (hheader : collect 4 10 [] 4 os = some (head,0,rest))
    (hstart : head.head? = some startByte) (hn : announced head = n)
    (hpayload : collect (4+n) 10 head n rest = some (got,remain,rest')) (heap : Heap) :
    receiveFrom heap (.ofOutcomes os []) =
      .ok (Packet.parse (got ++ heap.cells got.length (4+n-got.length) ++ heap.behind) (4+n),
        .ofOutcomes rest' (callsOf 4 1024 10 4 os ++ callsOf (4+n) (n+4) 10 n rest)) := by
  obtain ⟨hhead,hlt,hpossible⟩ := h.payload hheader hn
  have hbytes := receiveBytes_eq heap h.1
  rw [hheader] at hbytes
  simp only [hstart,and_self,if_true] at hbytes
  rw [hn,receivePayload_eq heap hhead hlt hpossible,hpayload] at hbytes
  rw [receiveFrom,hbytes,Nat.add_comm 4 n,List.append_assoc]
  rfl

/-- A length that is negative leaves nothing for `parse` to make a packet of. -/
theorem receivePayload_packet {heap : Heap} {buf data : List Byte} {payloadLength : ℤ} {size : ℕ}
    {calls : List ReadCall} {line : Line} {p : Packet}
    (h : receivePayload heap buf payloadLength (.ofOutcomes rest calls) =
      .ok (some (data,size),line))
    (hp : (Packet.parse data size).result = .ok (some p)) : 0 ≤ payloadLength := by
  obtain ⟨hdata,hsize⟩ := parse_header hp
  obtain ⟨⟨buf',hlen,hargs⟩,-⟩ := receivePayload_ok h
  cases hargs
  by_contra hneg
  by_cases hwrap : payloadLength+4 < 0
  · rw [Heap.realloc,if_pos hwrap] at hlen
    rw [List.length_eq_zero_iff.mp hlen,Heap.mapped,if_pos rfl] at hdata
    exact absurd hdata (Nat.not_lt_zero 3)
  · rw [toSize,Int.emod_eq_of_lt (by omega) (by omega)] at hsize
    omega

/-- A packet comes out only behind a complete header, and of a length that is not negative. -/
theorem receiveFrom_packet {heap : Heap} {x : Access (Option Packet)} {line : Line} {p : Packet}
    (h : Receivable os) (hreceive : receiveFrom heap (.ofOutcomes os []) = .ok (x,line))
    (hx : x.result = .ok (some p)) :
    ∃ head rest, collect 4 10 [] 4 os = some (head,0,rest) ∧ head.head? = some startByte ∧
      ∃ n : ℕ, announced head = n ∧
        ∃ got remain rest', collect (4+n) 10 head n rest = some (got,remain,rest') := by
  rw [receiveFrom] at hreceive
  cases hbytes : receiveBytes heap (.ofOutcomes os []) with
  | error e =>
    rw [hbytes] at hreceive
    cases hreceive
  | ok result =>
    obtain ⟨args,line'⟩ := result
    rw [hbytes,ok_bind] at hreceive
    cases hreceive
    cases args with
    | none => cases hx
    | some args =>
      obtain ⟨data,size⟩ := args
      rw [receiveBytes_eq heap h.1] at hbytes
      cases hheader : collect 4 10 [] 4 os with
      | none =>
        rw [hheader] at hbytes
        cases hbytes
      | some result =>
        obtain ⟨head,remain,rest⟩ := result
        rw [hheader] at hbytes
        by_cases hparse : remain = 0 ∧ head.head? = some startByte
        · obtain ⟨rfl,hstart⟩ := hparse
          simp only [hstart,and_self,if_true] at hbytes
          obtain ⟨n,hn⟩ := Int.eq_ofNat_of_zero_le (receivePayload_packet hbytes hx)
          refine ⟨head,rest,rfl,hstart,n,hn,?_⟩
          obtain ⟨hhead,hlt,hpossible⟩ := h.payload hheader hn
          rw [hn,receivePayload_eq heap hhead hlt hpossible] at hbytes
          cases hpayload : collect (4+n) 10 head n rest with
          | none =>
            rw [hpayload] at hbytes
            cases hbytes
          | some result => exact ⟨result.1,result.2.1,result.2.2,rfl⟩
        · simp only [if_neg hparse] at hbytes
          cases hbytes

theorem cells_map (heap : Heap) (f : Byte → Byte) (start count : ℕ) :
    Heap.cells {heap with fresh := fun i => f (heap.fresh i)} start count =
      (heap.cells start count).map f := by
  rw [Heap.cells,Heap.cells,List.map_map]
  rfl

theorem cells_of_fill (fill behind : List Byte) (start : ℕ) :
    Heap.cells ⟨fun i => fill.getD (i-start) 0,behind⟩ start fill.length = fill := by
  apply List.ext_getElem (cells_length ..)
  intro i hi hi'
  simp only [Heap.cells,List.getElem_map,List.getElem_range']
  rw [Nat.one_mul,Nat.add_sub_cancel_left]
  rw [List.getD_eq_getElem?_getD,List.getElem?_eq_getElem hi',Option.getD_some]

theorem map_add_one_ne {fill : List Byte} (h : fill ≠ []) : fill.map (· + 1) ≠ fill := by
  cases fill with
  | nil => exact absurd rfl h
  | cons b fill =>
    intro heq
    have hhead := (List.cons.inj heq).1
    bv_omega

/-- A packet that the rest of the buffer had a part in is another packet when the rest is another. -/
theorem parse_fill_ne {fill behind : List Byte} {p : Packet} (h4 : 4 ≤ got.length+fill.length)
    (hfill : fill ≠ [])
    (h : (Packet.parse (got ++ fill ++ behind) (got.length+fill.length)).result = .ok (some p)) :
    Packet.parse (got ++ fill.map (· + 1) ++ behind) (got.length+fill.length) ≠
      Packet.parse (got ++ fill ++ behind) (got.length+fill.length) := by
  intro heq
  have hother := h
  rw [← heq] at hother
  have hlen : got.length+fill.length = (got ++ fill).length := List.length_append.symm
  have hlen' : got.length+fill.length = (got ++ fill.map (· + 1)).length := by
    rw [List.length_append,List.length_map]
  rw [hlen] at h h4
  rw [hlen'] at hother
  have hdata := (parse_data h4 h).1
  rw [(parse_data (by rw [← hlen',hlen]; exact h4) hother).1] at hdata
  exact map_add_one_ne hfill (List.append_cancel_left (List.append_cancel_right hdata))

/-- Truncated packets are rejected exactly if nothing can complete them. -/
theorem rejectsTruncated_iff (h : Receivable os) : RejectsTruncated os ↔ Whole os := by
  constructor
  · intro hrejects head rest hheader hstart n hn got remain rest' hpayload
    by_cases hfull : got.length = 4+n
    · exact Or.inl hfull
    · obtain ⟨-,h4,hle,-⟩ := collect_payload_length h hheader hn hpayload
      refine Or.inr ((spoilt_iff h4 (by omega)).mpr ?_)
      rintro ⟨fill,behind,p,hmissing,hp⟩
      have hlen : got.length+fill.length = 4+n := by omega
      rw [← hmissing] at hp
      let heap : Heap := ⟨fun i => fill.getD (i-got.length) 0,behind⟩
      have hcells : heap.cells got.length fill.length = fill := cells_of_fill fill behind got.length
      have hcells' : Heap.cells {heap with fresh := fun i => heap.fresh i+1} got.length fill.length =
          fill.map (· + 1) := by
        rw [cells_map heap (· + 1),hcells]
      have hreceive := receiveFrom_eq h hheader hstart hn hpayload heap
      rw [← hmissing,hcells,← hlen] at hreceive
      have hsame := (hrejects heap _ _ p hreceive hp).2.1 (fun i => heap.fresh i+1)
      rw [receiveFrom_eq h hheader hstart hn hpayload,← hmissing,hcells',← hlen] at hsame
      refine parse_fill_ne (by omega) ?_ hp (Prod.mk.inj (Except.ok.inj hsame)).1
      intro hnil
      rw [hnil] at hlen
      exact hfull hlen
  · intro hwhole heap x line p hreceive hp
    obtain ⟨head,rest,hheader,hstart,n,hn,got,remain,rest',hpayload⟩ :=
      receiveFrom_packet h hreceive hp
    have hhead := collect_length 10 standing_header h.1 hheader
    have hgot := collect_payload_length h hheader hn hpayload
    have hall := receiveFrom_eq h hheader hstart hn hpayload
    rcases hwhole head rest hheader hstart n hn got remain rest' hpayload with hfull | hnone
    · have hrun (heap : Heap) : receiveFrom heap (.ofOutcomes os []) =
          .ok (Packet.parse (got ++ heap.behind) got.length,.ofOutcomes rest'
            (callsOf 4 1024 10 4 os ++ callsOf (4+n) (n+4) 10 n rest)) := by
        rw [hall heap,← hfull,Nat.sub_self]
        simp only [Heap.cells,List.range'_zero,List.map_nil,List.append_nil]
      rw [hrun heap] at hreceive
      cases hreceive
      have h4 : 4 ≤ got.length := by omega
      refine ⟨?_,fun fresh => hrun _,?_⟩
      · rw [(parse_data h4 hp).2]
        change got.length+(received rest').length ≤ _
        rw [List.length_nil] at hhead
        omega
      · intro heap' x' line' p' hreceive' hp'
        rw [hrun heap'] at hreceive'
        cases hreceive'
        exact parse_contents h4 hp hp'
    · rw [hall heap] at hreceive
      cases hreceive
      have hlen := cells_length heap got.length (4+n-got.length)
      refine absurd ⟨_,heap.behind,p,hlen,?_⟩ (hnone.not_completable hgot.2.1)
      rwa [Nat.add_sub_cancel' hgot.2.2.1]

/-- A packet of one field, in two pieces. -/
theorem rejectsTruncated_iff_ready :
    RejectsTruncated [.bytes [startByte,0x00,0x01,0x00],.bytes [controlReady]] := by
  refine (rejectsTruncated_iff ⟨by decide,?_⟩).mpr ?_
  · rintro _ _ ⟨⟩
    decide
  · rintro _ _ ⟨⟩ - n hn _ _ _ hpayload
    obtain rfl : n = 1 := Int.ofNat.inj hn.symm
    cases hpayload
    exact Or.inl rfl

/-- The payload never comes, and the buffer happens to hold one. -/
theorem not_rejectsTruncated_timeout : Receivable [.bytes [startByte,0x00,0x01,0x00]] ∧
    ¬ RejectsTruncated [.bytes [startByte,0x00,0x01,0x00]] := by
  have h : Receivable [.bytes [startByte,0x00,0x01,0x00]] := by
    refine ⟨by decide,?_⟩
    rintro _ _ ⟨⟩
    decide
  refine ⟨h,?_⟩
  intro hrejects
  have hreceive := receiveFrom_eq (n := 1) h rfl rfl rfl rfl ⟨fun _ => controlReady,[]⟩
  have hreceived := (hrejects _ _ _ _ hreceive rfl).1
  exact absurd hreceived (by decide)

end Receive

end CodecServer.Ambe3K.Protocol
