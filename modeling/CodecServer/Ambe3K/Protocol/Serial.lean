import Mathlib.Algebra.Group.Int.Defs
import Mathlib.Algebra.Group.Nat.Defs
import CodecServer.Ambe3K.Protocol.Wire

/-! `Packet::receiveFrom`: a header and a payload, each put together by a bounded loop of `read(2)`
calls. However the calls cut the stream of bytes, it is packets that come out of it. -/
namespace CodecServer.Ambe3K.Protocol
open CodecServer.Memory

/-- Conversion to `short`. -/
def toShort (z : ℤ) : ℤ := z.bmod 65536

/-- Conversion to `size_t`. -/
def toSize (z : ℤ) : ℕ := (z%2^64).toNat

/-- What a call of `read(2)` is asked for: `count` bytes from `offset` on, into a buffer of
`allocated` bytes. -/
structure ReadCall where
  offset : ℤ
  count : ℤ
  allocated : ℕ
  deriving Repr, DecidableEq

/-- The tty: the bytes that have still to be read, what the next calls of `read(2)` return, and the
calls there have been. With `VMIN = 0`, a call that runs into the timeout returns 0. -/
structure Line where
  pending : List Byte
  results : List ℤ
  calls : List ReadCall := []
  deriving DecidableEq

/-- `read(2)`: the value returned and the bytes that go with it. -/
def Line.read (line : Line) (call : ReadCall) : ℤ × List Byte × Line :=
  let n := line.results.headD 0
  (n,line.pending.take n.toNat,
    {pending := line.pending.drop n.toNat
     results := line.results.tail
     calls := line.calls ++ [call]})

/-- What a buffer that the allocator hands out holds in each place, and what lies behind it. -/
structure Heap where
  fresh : ℕ → Byte
  behind : List Byte

def Heap.malloc (heap : Heap) (size : ℕ) : List Byte := (List.range size).map heap.fresh

/-- `realloc`: a size that has wrapped around is refused, and the buffer is a null pointer then. -/
def Heap.realloc (heap : Heap) (buf : List Byte) (size : ℤ) : List Byte :=
  if size < 0 then [] else
    (buf ++ (List.range' buf.length (size.toNat-buf.length)).map heap.fresh).take size.toNat

/-- The memory from a buffer on. A buffer of no size is a null pointer, and nothing is mapped there. -/
def Heap.mapped (heap : Heap) (buf : List Byte) : List Byte :=
  if buf = [] then [] else buf ++ heap.behind

/-- The bytes of a `read(2)` call, stored where it was told to. -/
def deposit (buf : List Byte) (offset : ℤ) (block : List Byte) : Except Fault (List Byte) :=
  if block = [] then .ok buf
  else if offset < 0 then .error .overrun
  else store buf offset.toNat block

/-- A loop of at most `rounds` calls, until nothing remains; `base` is the end of the target. -/
def receiveLoop (base : ℤ) : ℕ → List Byte → ℤ → Line → Except Fault (List Byte × ℤ × Line)
  | 0,buf,remain,line => .ok (buf,remain,line)
  | rounds+1,buf,remain,line => do
    let (n,block,line) := line.read ⟨base-remain,remain,buf.length⟩
    let buf ← deposit buf (base-remain) block
    let remain := toShort (remain-n)
    if remain = 0 then return (buf,remain,line) else receiveLoop base rounds buf remain line

/-- The second half of `Packet::receiveFrom`: the arguments of the call of `parse` at its end. -/
def receivePayload (heap : Heap) (buf : List Byte) (payloadLength : ℤ) (line : Line) :
    Except Fault (Option (List Byte × ℕ) × Line) := do
  let buf := heap.realloc buf (payloadLength+4)
  let (buf,_,line) ← receiveLoop (4+payloadLength) 10 buf payloadLength line
  return (some (heap.mapped buf,toSize (payloadLength+4)),line)

/-- `Packet::receiveFrom`, as far as `parse`: the arguments of that call, if it gets there. -/
def receiveBytes (heap : Heap) (line : Line) :
    Except Fault (Option (List Byte × ℕ) × Line) := do
  let (buf,remain,line) ← receiveLoop 4 10 (heap.malloc 1024) 4 line
  match buf with
  | start::high::low::_ =>
    if 0 < remain ∨ start ≠ startByte then return (none,line)
    else receivePayload heap buf (ntohs high low).toInt line
  | _ => .error .segfault

/-- `Packet::receiveFrom`: the run of `parse` it ends with, if it gets that far. -/
def receiveFrom (heap : Heap) (line : Line) :
    Except Fault (Access (Option Packet) × Line) := do
  let (args,line) ← receiveBytes heap line
  return (args.elim (pure none) fun args => Packet.parse args.1 args.2,line)

/-- So many calls of `receiveFrom` in a row, each with the memory that it finds. -/
def receiveAll (heap : ℕ → Heap) : ℕ → ℕ → Line →
    Except Fault (List (Access (Option Packet) × Line))
  | 0,_,_ => .ok []
  | count+1,i,line => do
    let (r,line) ← receiveFrom (heap i) line
    let rest ← receiveAll heap count (i+1) line
    return (r,line)::rest

/-- Results of `read(2)` calls, each between 0 and the count asked for, after which a loop of at
most `rounds` calls has received all that remained and stops. -/
def Completes : ℕ → ℕ → List ℕ → Prop
  | 0,_,_ => False
  | _,_,[] => False
  | rounds+1,remain,n::ns =>
    n ≤ remain ∧ if n = remain then ns = [] else Completes rounds (remain-n) ns

instance Completes.decidable : ∀ rounds remain ns, Decidable (Completes rounds remain ns)
  | 0,_,_ => isFalse id
  | _+1,_,[] => isFalse id
  | rounds+1,remain,n::ns =>
    have := Completes.decidable rounds (remain-n) ns
    inferInstanceAs
      (Decidable (n ≤ remain ∧ if n = remain then ns = [] else Completes rounds (remain-n) ns))

/-- A packet on the line, and how it happens to be cut by the calls that read it. -/
structure Transmission where
  type : Byte
  payload : List Byte
  payload_le : payload.length ≤ 32767
  headerReads : List ℕ
  payloadReads : List ℕ
  headerReads_completes : Completes 10 4 headerReads
  payloadReads_completes : Completes 10 payload.length payloadReads

namespace Transmission

def bytes (p : Transmission) : List Byte :=
  startByte::htons (BitVec.ofNat 16 p.payload.length) ++ p.type::p.payload

def reads (p : Transmission) : List ℤ :=
  (p.headerReads ++ p.payloadReads).map Int.ofNat

end Transmission

theorem toShort_eq {z : ℤ} (h : -32768 ≤ z) (h' : z < 32768) : toShort z = z := by
  rw [toShort,Int.bmod_eq_of_le (by omega) (by omega)]

theorem deposit_append (pre mid post block : List Byte) (h : block.length = mid.length) :
    deposit (pre ++ (mid ++ post)) pre.length block = .ok (pre ++ (block ++ post)) := by
  by_cases hb : block = []
  · subst hb
    rw [List.eq_nil_of_length_eq_zero h.symm]
    rfl
  · rw [deposit,if_neg hb,if_neg (by omega),Int.toNat_natCast,store_append pre mid post block h]

theorem Line.read_append (block tail : List Byte) (n : ℕ) (hn : n ≤ block.length) (ns : List ℕ)
    (more : List ℤ) (calls : List ReadCall) (call : ReadCall) :
    Line.read ⟨block ++ tail,(n::ns).map Int.ofNat ++ more,calls⟩ call =
      ((n : ℤ),block.take n,
        ⟨block.drop n ++ tail,ns.map Int.ofNat ++ more,calls ++ [call]⟩) := by
  simp only [Line.read,List.map_cons,List.cons_append,List.headD_cons,List.tail_cons,
    Int.ofNat_eq_natCast,Int.toNat_natCast,List.take_append_of_le_length hn,
    List.drop_append_of_le_length hn]

/-- A loop that completes has filled its target with the next bytes of the line, and has taken no
more of them. -/
theorem receiveLoop_completes (rounds remain : ℕ) (ns : List ℕ) (h : Completes rounds remain ns)
    (hremain : remain ≤ 32767) (pre mid post block tail : List Byte) (more : List ℤ)
    (calls : List ReadCall) (hmid : mid.length = remain) (hblock : block.length = remain) :
    ∃ calls', receiveLoop (pre.length+remain) rounds (pre ++ (mid ++ post)) remain
        ⟨block ++ tail,ns.map Int.ofNat ++ more,calls⟩ =
      .ok (pre ++ (block ++ post),0,⟨tail,more,calls'⟩) := by
  induction rounds generalizing remain ns pre mid block calls with
  | zero => exact h.elim
  | succ rounds ih =>
    cases ns with
    | nil => exact h.elim
    | cons n ns =>
      obtain ⟨hn,hnext⟩ := h
      have hoffset : ((pre.length+remain : ℤ)-remain) = pre.length := by omega
      have hdeposit := deposit_append pre (mid.take n) (mid.drop n ++ post) (block.take n)
        (by simp only [List.length_take]; omega)
      rw [← List.append_assoc (mid.take n),List.take_append_drop] at hdeposit
      have hshort : toShort ((remain : ℤ)-n) = ((remain-n : ℕ) : ℤ) := by
        rw [toShort_eq (by omega) (by omega)]
        omega
      rw [receiveLoop,Line.read_append block tail n (by omega)]
      change ∃ calls', (deposit _ _ _ >>= _) = _
      rw [hoffset,hdeposit,ok_bind,hshort]
      let call : ReadCall := ⟨pre.length,remain,(pre ++ (mid ++ post)).length⟩
      by_cases hend : n = remain
      · rw [if_pos hend] at hnext
        subst hnext
        refine ⟨calls ++ [call],?_⟩
        rw [if_pos (by omega),List.take_of_length_le (by omega),List.drop_of_length_le (by omega),
          List.drop_of_length_le (by omega),show remain-n = 0 by omega]
        rfl
      · rw [if_neg hend] at hnext
        obtain ⟨calls',hrun⟩ := ih (remain-n) ns hnext (by omega) (pre ++ block.take n)
          (mid.drop n) (block.drop n) (calls ++ [call]) (by simp only [List.length_drop]; omega)
          (by simp only [List.length_drop]; omega)
        have hbase : (((pre ++ block.take n).length : ℤ)+((remain-n : ℕ) : ℤ)) =
            pre.length+remain := by
          rw [List.length_append,List.length_take]
          omega
        have hblock : pre ++ block.take n ++ (block.drop n ++ post) = pre ++ (block ++ post) := by
          rw [List.append_assoc,← List.append_assoc (block.take n),List.take_append_drop]
        rw [hbase,hblock,List.append_assoc] at hrun
        rw [if_neg (by omega)]
        exact ⟨calls',hrun⟩

theorem Heap.realloc_append (heap : Heap) (pre post : List Byte) (n : ℕ) :
    ∃ mid, heap.realloc (pre ++ post) (n+pre.length) = pre ++ mid ∧ mid.length = n := by
  let extra :=
    (List.range' (pre ++ post).length (n+pre.length-(pre ++ post).length)).map heap.fresh
  refine ⟨(post ++ extra).take n,?_,?_⟩
  · have hsize : ((n : ℤ)+pre.length).toNat = n+pre.length := by omega
    rw [Heap.realloc,if_neg (by omega),hsize,List.append_assoc,Nat.add_comm n,
      List.take_length_add_append,Nat.add_comm pre.length]
  · simp only [List.length_take,List.length_append,List.length_map,List.length_range',extra]
    omega

theorem toInt_ntohs {n : ℕ} (h : n ≤ 32767) :
    (ntohs ((BitVec.ofNat 16 n).extractLsb' 8 8) ((BitVec.ofNat 16 n).extractLsb' 0 8)).toInt =
      n := by
  rw [ntohs_htons,BitVec.toInt_ofNat']
  exact Int.bmod_eq_of_le (by omega) (by omega)

/-- The bytes of a packet are what `parse` is called with. -/
theorem receiveBytes_transmission (heap : Heap) (p : Transmission) (tail : List Byte)
    (more : List ℤ) (calls : List ReadCall) :
    ∃ calls', receiveBytes heap ⟨p.bytes ++ tail,p.reads ++ more,calls⟩ =
      .ok (some (p.bytes ++ heap.behind,p.bytes.length),⟨tail,more,calls'⟩) := by
  let head := startByte::htons (BitVec.ofNat 16 p.payload.length) ++ [p.type]
  have hbytes : p.bytes = head ++ p.payload := by simp [Transmission.bytes,head]
  obtain ⟨calls₁,hheader⟩ := receiveLoop_completes 10 4 p.headerReads p.headerReads_completes
    (by omega) [] ((heap.malloc 1024).take 4) ((heap.malloc 1024).drop 4) head
    (p.payload ++ tail) (p.payloadReads.map Int.ofNat ++ more) calls (by simp [Heap.malloc]) rfl
  rw [List.nil_append,List.nil_append,List.take_append_drop] at hheader
  obtain ⟨mid,hrealloc,hmid⟩ :=
    heap.realloc_append head ((heap.malloc 1024).drop 4) p.payload.length
  obtain ⟨calls₂,hpayload⟩ := receiveLoop_completes 10 p.payload.length p.payloadReads
    p.payloadReads_completes p.payload_le head mid [] p.payload tail more calls₁ hmid rfl
  rw [List.append_nil,List.append_nil] at hpayload
  refine ⟨calls₂,?_⟩
  have hline : (⟨p.bytes ++ tail,p.reads ++ more,calls⟩ : Line) =
      ⟨head ++ (p.payload ++ tail),
        p.headerReads.map Int.ofNat ++ (p.payloadReads.map Int.ofNat ++ more),calls⟩ := by
    rw [hbytes,Transmission.reads,List.map_append,List.append_assoc head,
      List.append_assoc (p.headerReads.map Int.ofNat)]
  change receiveLoop 4 10 (heap.malloc 1024) 4 _ = _ at hheader
  rw [hline,receiveBytes,hheader,ok_bind]
  change (if 0 < (0 : ℤ) ∨ startByte ≠ startByte then _ else _) = _
  rw [if_neg (by simp),toInt_ntohs p.payload_le]
  change receiveLoop (4+p.payload.length) 10 (head ++ mid) p.payload.length _ = _ at hpayload
  have hsize : toSize (p.payload.length+4) = p.bytes.length := by
    have := p.payload_le
    have hlen : p.bytes.length = 4+p.payload.length := by rw [hbytes,List.length_append]; rfl
    rw [toSize,Int.emod_eq_of_lt (by omega) (by omega),hlen]
    omega
  change receiveLoop _ 10 (heap.realloc _ (p.payload.length+head.length)) _ _ >>= _ = _
  rw [hrealloc,hpayload,ok_bind,← hbytes,hsize]
  rfl

/-- One call of `receiveFrom` takes one packet off the line and parses exactly its bytes. -/
theorem receiveFrom_transmission (heap : Heap) (p : Transmission) (tail : List Byte)
    (more : List ℤ) (calls : List ReadCall) :
    ∃ calls', receiveFrom heap ⟨p.bytes ++ tail,p.reads ++ more,calls⟩ =
      .ok (Packet.parse (p.bytes ++ heap.behind) p.bytes.length,⟨tail,more,calls'⟩) := by
  obtain ⟨calls',hbytes⟩ := receiveBytes_transmission heap p tail more calls
  refine ⟨calls',?_⟩
  rw [receiveFrom,hbytes]
  rfl

/-- Packets sent back to back are received one by one: the `i`-th call leaves exactly the packets
behind the `i`-th on the line, and returns what `parse` makes of the bytes of the `i`-th alone. -/
theorem receiveAll_transmissions (heap : ℕ → Heap) (ps : List Transmission) (first : ℕ)
    (tail : List Byte) (more : List ℤ) (calls : List ReadCall) :
    ∃ rs, receiveAll heap ps.length first
        ⟨ps.flatMap Transmission.bytes ++ tail,ps.flatMap Transmission.reads ++ more,calls⟩ =
          .ok rs ∧ rs.length = ps.length ∧
      ∀ i (h : i < ps.length), ∃ line,
        rs[i]? = some (Packet.parse (ps[i].bytes ++ (heap (first+i)).behind) ps[i].bytes.length,
          line) ∧
        line.pending = (ps.drop (i+1)).flatMap Transmission.bytes ++ tail ∧
        line.results = (ps.drop (i+1)).flatMap Transmission.reads ++ more := by
  induction ps generalizing first calls with
  | nil => exact ⟨[],rfl,rfl,fun i h => absurd h (Nat.not_lt_zero i)⟩
  | cons p ps ih =>
    obtain ⟨calls₁,hfirst⟩ := receiveFrom_transmission (heap first) p
      (ps.flatMap Transmission.bytes ++ tail) (ps.flatMap Transmission.reads ++ more) calls
    obtain ⟨rs,hrest,hlen,hall⟩ := ih (first+1) calls₁
    rw [← List.append_assoc,← List.append_assoc] at hfirst
    let line : Line := ⟨ps.flatMap Transmission.bytes ++ tail,
      ps.flatMap Transmission.reads ++ more,calls₁⟩
    refine ⟨(Packet.parse (p.bytes ++ (heap first).behind) p.bytes.length,line)::rs,?_,?_,?_⟩
    · rw [List.length_cons,receiveAll,List.flatMap_cons,List.flatMap_cons,hfirst,ok_bind]
      change (receiveAll heap ps.length (first+1) _ >>= _) = _
      rw [hrest]
      rfl
    · rw [List.length_cons,List.length_cons,hlen]
    · intro i h
      cases i with
      | zero => exact ⟨line,rfl,rfl,rfl⟩
      | succ i =>
        obtain ⟨line,hline,hpending,hresults⟩ := hall i (Nat.lt_of_succ_lt_succ h)
        refine ⟨line,?_,hpending,hresults⟩
        rw [show first+(i+1) = first+1+i by omega]
        exact hline

/-- A packet with a ready field whose header comes in two pieces with a timeout between them, and one
with an empty payload. -/
def ready : Transmission where
  type := typeControl
  payload := [controlReady]
  payload_le := by decide
  headerReads := [1,0,3]
  payloadReads := [1]
  headerReads_completes := by decide
  payloadReads_completes := by decide

def hollow : Transmission where
  type := typeControl
  payload := []
  payload_le := by decide
  headerReads := [4]
  payloadReads := [0]
  headerReads_completes := by decide
  payloadReads_completes := by decide

theorem receiveAll_transmissions_ready : ∃ rs,
    receiveAll (fun _ => ⟨fun _ => 0,[]⟩) 2 0 ⟨ready.bytes ++ hollow.bytes,ready.reads ++ hollow.reads,[]⟩ =
      .ok rs ∧ rs.length = 2 ∧
    ∃ line, rs[1]? = some (Packet.parse hollow.bytes 4,line) ∧ line.pending = [] := by
  obtain ⟨rs,hrs,hlen,hall⟩ :=
    receiveAll_transmissions (fun _ => ⟨fun _ => 0,[]⟩) [ready,hollow] 0 [] [] []
  obtain ⟨line,hline,hpending,-⟩ := hall 1 (by decide)
  exact ⟨rs,hrs,hlen,line,hline,hpending⟩

end CodecServer.Ambe3K.Protocol
