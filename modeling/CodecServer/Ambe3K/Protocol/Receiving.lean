import CodecServer.Ambe3K.Protocol.Serial

/-! The loops of `Packet::receiveFrom` for all that its calls of `read(2)` can come to. Whatever the
order of short reads, timeouts and errors, what has been received is the beginning of the buffer. -/
namespace CodecServer.Ambe3K.Protocol
open CodecServer.Memory

/-- What a call of `read(2)` comes to: -1, or bytes, none of them when it runs into the timeout. -/
inductive ReadOutcome
  | error
  | bytes (block : List Byte)
  deriving Repr, DecidableEq

namespace ReadOutcome

def result : ReadOutcome → ℤ
  | error => -1
  | bytes block => block.length

def block : ReadOutcome → List Byte
  | error => []
  | bytes block => block

/-- The outcome of the next call; when no more are listed it is the timeout. -/
def next (os : List ReadOutcome) : ReadOutcome := os.headD (.bytes [])

/-- All bytes that are received. -/
def received (os : List ReadOutcome) : List Byte := os.flatMap block

end ReadOutcome

open ReadOutcome

/-- A line on which the next calls come to the given outcomes. -/
def Line.ofOutcomes (os : List ReadOutcome) (calls : List ReadCall) : Line :=
  {pending := received os, results := os.map result, calls := calls}

/-- Outcomes that the calls of a loop can come to: no more bytes are returned than were asked for. -/
def Possible : ℕ → ℤ → List ReadOutcome → Prop
  | 0,_,_ => True
  | rounds+1,remain,os =>
    (next os).block.length ≤ remain.toNat ∧
    (toShort (remain-(next os).result) ≠ 0 →
      Possible rounds (toShort (remain-(next os).result)) os.tail)

instance Possible.decidable : ∀ rounds remain os, Decidable (Possible rounds remain os)
  | 0,_,_ => isTrue trivial
  | rounds+1,remain,os =>
    have := Possible.decidable rounds (toShort (remain-(next os).result)) os.tail
    inferInstanceAs (Decidable ((next os).block.length ≤ remain.toNat ∧
      (toShort (remain-(next os).result) ≠ 0 →
        Possible rounds (toShort (remain-(next os).result)) os.tail)))

/-- The calls that a loop makes. -/
def callsOf (base : ℤ) (allocated : ℕ) : ℕ → ℤ → List ReadOutcome → List ReadCall
  | 0,_,_ => []
  | rounds+1,remain,os =>
    ⟨base-remain,remain,allocated⟩::
      (if toShort (remain-(next os).result) = 0 then []
      else callsOf base allocated rounds (toShort (remain-(next os).result)) os.tail)

/-- A block received at a place, in or at the end of what was received before. -/
def put (known : List Byte) (i : ℕ) (block : List Byte) : List Byte :=
  known.take i ++ block ++ known.drop (i+block.length)

/-- The loop with nothing but the received bytes in place of the buffer. It ends early with a block
that is received in front of the buffer. -/
def collect (base : ℤ) :
    ℕ → List Byte → ℤ → List ReadOutcome → Option (List Byte × ℤ × List ReadOutcome)
  | 0,known,remain,os => some (known,remain,os)
  | rounds+1,known,remain,os =>
    if (next os).block ≠ [] ∧ base < remain then none
    else
      let known := put known (base-remain).toNat (next os).block
      let remain := toShort (remain-(next os).result)
      if remain = 0 then some (known,remain,os.tail) else collect base rounds known remain os.tail

/-- The number of payload bytes that a header announces, as the `short` that it is. -/
def announced : List Byte → ℤ
  | _::high::low::_ => (ntohs high low).toInt
  | _ => 0

/-- Outcomes that the calls of one `receiveFrom` can come to. -/
def Receivable (os : List ReadOutcome) : Prop :=
  Possible 10 4 os ∧ ∀ head rest, collect 4 10 [] 4 os = some (head,0,rest) →
    Possible 10 (announced head) rest

/-- Where a loop stands: a counter in the range of `short`, and the next byte goes behind the
received ones at most. A counter that is negative has wrapped around. -/
structure Standing (base : ℕ) (known : List Byte) (remain : ℤ) : Prop where
  low : -32768 ≤ remain
  high : remain < 32768
  known_le : known.length ≤ base
  position : remain < 0 ∨ base-remain ≤ known.length

section Outcome
variable (os : List ReadOutcome)

theorem read_ofOutcomes (calls : List ReadCall) (call : ReadCall) :
    (Line.ofOutcomes os calls).read call =
      ((next os).result,(next os).block,.ofOutcomes os.tail (calls ++ [call])) := by
  cases os with
  | nil => rfl
  | cons o os =>
    cases o with
    | error => rfl
    | bytes block =>
      simp [Line.ofOutcomes,Line.read,received,ReadOutcome.block,ReadOutcome.result,next]

theorem received_eq : received os = (next os).block ++ received os.tail := by
  cases os with
  | nil => rfl
  | cons o os => rfl

theorem result_eq (o : ReadOutcome) :
    (o.result = -1 ∧ o.block = []) ∨ o.result = o.block.length := by
  cases o with
  | error => exact Or.inl ⟨rfl,rfl⟩
  | bytes block => exact Or.inr rfl

end Outcome

theorem toShort_range (z : ℤ) : -32768 ≤ toShort z ∧ toShort z < 32768 := by
  have hlow := Int.le_bmod (x := z) (m := 65536) (by omega)
  have hhigh := Int.bmod_lt (x := z) (m := 65536) (by omega)
  unfold toShort
  omega

section Put
variable {known unknown block : List Byte} {i : ℕ}

theorem put_nil (known : List Byte) (i : ℕ) : put known i [] = known := by simp [put]

theorem put_length (known block : List Byte) {i : ℕ} (h : i ≤ known.length) :
    (put known i block).length = max known.length (i+block.length) := by
  simp only [put,List.length_append,List.length_take,List.length_drop]
  omega

/-- A block is stored into the received bytes, and beyond them as far as it goes. -/
theorem deposit_put (h : i ≤ known.length) (hfits : i+block.length ≤ known.length+unknown.length) :
    deposit (known ++ unknown) i block =
      .ok (put known i block ++ unknown.drop ((put known i block).length-known.length)) := by
  by_cases hblock : block = []
  · subst hblock
    rw [put_nil,Nat.sub_self,List.drop_zero]
    rfl
  · rw [deposit,if_neg hblock,if_neg (by omega),Int.toNat_natCast,store,
      if_pos (by rw [List.length_append]; exact hfits),put_length known block h,
      List.take_append_of_le_length h,List.drop_append]
    have hsub : max known.length (i+block.length)-known.length = i+block.length-known.length := by
      omega
    rw [hsub,put,List.append_assoc,List.append_assoc,List.append_assoc]

end Put

section Loop
variable {base : ℕ} {known : List Byte} {remain : ℤ} {os : List ReadOutcome}

/-- A call that receives nothing leaves the buffer, and may take the counter up by one. -/
theorem Standing.of_empty (h : Standing base known remain) (hblock : (next os).block = [])
    (hne : toShort (remain-(next os).result) ≠ 0) :
    Standing base known (toShort (remain-(next os).result)) := by
  have hrange := toShort_range (remain-(next os).result)
  refine ⟨hrange.1,hrange.2,h.known_le,?_⟩
  have hresult : (next os).result = -1 ∨ (next os).result = 0 := by
    rcases result_eq (next os) with ⟨herror,-⟩ | hlen
    · exact Or.inl herror
    · rw [hblock] at hlen
      exact Or.inr hlen
  have hlow := h.low
  have hhigh := h.high
  have hposition := h.position
  by_cases hwrap : remain-(next os).result < 32768
  · rw [toShort_eq (by omega) hwrap] at hne ⊢
    omega
  · have hshort : toShort (remain-(next os).result) = -32768 := by
      rw [show remain-(next os).result = 32768 by omega]
      rfl
    exact Or.inl (by omega)

/-- A block ends where the next one is to begin. -/
theorem Standing.of_block (h : Standing base known remain) (hblock : (next os).block ≠ [])
    (hpossible : (next os).block.length ≤ remain.toNat) (hfront : remain ≤ base) :
    Standing base (put known (base-remain).toNat (next os).block)
      (toShort (remain-(next os).result)) := by
  have hpos := List.length_pos_iff.mpr hblock
  have hresult : (next os).result = (next os).block.length := by
    rcases result_eq (next os) with ⟨-,hempty⟩ | hlen
    · exact absurd hempty hblock
    · exact hlen
  have hhigh := h.high
  have hposition := h.position
  have hknown := h.known_le
  have hplace : ((base : ℤ)-remain).toNat ≤ known.length := by omega
  have hlen := put_length known (next os).block hplace
  rw [toShort_eq (by omega) (by omega)]
  exact ⟨by omega,by omega,by omega,Or.inr (by omega)⟩

theorem put_bounds (h : Standing base known remain)
    (hpossible : (next os).block.length ≤ remain.toNat)
    (hfront : ¬ ((next os).block ≠ [] ∧ (base : ℤ) < remain)) :
    known.length ≤ (put known (base-remain).toNat (next os).block).length ∧
      (put known (base-remain).toNat (next os).block).length ≤ base ∧
      (put known (base-remain).toNat (next os).block).length ≤
        known.length+(next os).block.length := by
  have hknown := h.known_le
  by_cases hblock : (next os).block = []
  · rw [hblock,put_nil]
    exact ⟨Nat.le_refl _,hknown,Nat.le_refl _⟩
  · have hpos := List.length_pos_iff.mpr hblock
    have hposition := h.position
    have hle : remain ≤ base := by
      by_contra hgt
      exact hfront ⟨hblock,by omega⟩
    rw [put_length known _ (by omega)]
    omega

theorem Standing.step (h : Standing base known remain)
    (hpossible : (next os).block.length ≤ remain.toNat)
    (hfront : ¬ ((next os).block ≠ [] ∧ (base : ℤ) < remain))
    (hne : toShort (remain-(next os).result) ≠ 0) :
    Standing base (put known (base-remain).toNat (next os).block)
      (toShort (remain-(next os).result)) := by
  by_cases hblock : (next os).block = []
  · rw [hblock,put_nil]
    exact h.of_empty hblock hne
  · have hle : remain ≤ base := by
      by_contra hgt
      exact hfront ⟨hblock,by omega⟩
    exact h.of_block hblock hpossible hle

theorem collect_succ (base : ℤ) (rounds : ℕ) (known : List Byte) (remain : ℤ)
    (os : List ReadOutcome) :
    collect base (rounds+1) known remain os =
      if (next os).block ≠ [] ∧ base < remain then none
      else if toShort (remain-(next os).result) = 0 then
        some (put known (base-remain).toNat (next os).block,toShort (remain-(next os).result),os.tail)
      else collect base rounds (put known (base-remain).toNat (next os).block)
        (toShort (remain-(next os).result)) os.tail := rfl

/-- What has been received grows, by no more than the bytes that are taken off the line. -/
theorem collect_length (rounds : ℕ) (h : Standing base known remain)
    (hpossible : Possible rounds remain os) {known' : List Byte} {remain' : ℤ}
    {os' : List ReadOutcome} (hrun : collect base rounds known remain os = some (known',remain',os')) :
    known.length ≤ known'.length ∧ known'.length ≤ base ∧
      known'.length+(received os').length ≤ known.length+(received os).length := by
  induction rounds generalizing known remain os with
  | zero =>
    cases hrun
    exact ⟨Nat.le_refl _,h.known_le,Nat.le_refl _⟩
  | succ rounds ih =>
    have hreceived := congrArg List.length (received_eq os)
    rw [List.length_append] at hreceived
    rw [collect_succ] at hrun
    split_ifs at hrun with hfront hzero
    · have hbounds := put_bounds h hpossible.1 hfront
      cases hrun
      omega
    · have hbounds := put_bounds h hpossible.1 hfront
      have hrest := ih (h.step hpossible.1 hfront hzero) (hpossible.2 hzero) hrun
      omega

/-- A counter with room for an error in every round does not wrap around, and it is 0 only when all
has been received. -/
theorem collect_position (rounds : ℕ) (h : Standing base known remain)
    (hpossible : Possible rounds remain os) (hlow : 0 ≤ remain) (hroom : remain+rounds < 32768)
    {known' : List Byte} {remain' : ℤ} {os' : List ReadOutcome}
    (hrun : collect base rounds known remain os = some (known',remain',os')) :
    0 ≤ remain' ∧ base-remain' ≤ known'.length := by
  induction rounds generalizing known remain os with
  | zero =>
    cases hrun
    have hposition := h.position
    omega
  | succ rounds ih =>
    have hlen := hpossible.1
    have hresult : (next os).result ≤ remain ∧ -1 ≤ (next os).result := by
      rcases result_eq (next os) with ⟨herror,-⟩ | hblock <;> omega
    have hshort := toShort_eq (z := remain-(next os).result) (by omega) (by omega)
    rw [collect_succ] at hrun
    split_ifs at hrun with hfront hzero
    · cases hrun
      have hposition := h.position
      rw [hzero]
      refine ⟨Int.le_refl 0,?_⟩
      by_cases hblock : (next os).block = []
      · rw [hblock,put_nil]
        rcases result_eq (next os) with ⟨herror,-⟩ | hres
        · omega
        · rw [hblock] at hres
          change (next os).result = 0 at hres
          omega
      · have hpos := List.length_pos_iff.mpr hblock
        have hle : remain ≤ base := by
          by_contra hgt
          exact hfront ⟨hblock,by omega⟩
        rcases result_eq (next os) with ⟨-,hempty⟩ | hres
        · exact absurd hempty hblock
        · rw [put_length known _ (by omega)]
          omega
    · exact ih (h.step hpossible.1 hfront hzero) (hpossible.2 hzero) (by omega) (by omega) hrun

theorem drop_drop_growth (l : List Byte) {a b c : ℕ} (hab : a ≤ b) (hbc : b ≤ c) :
    (l.drop (b-a)).drop (c-b) = l.drop (c-a) := by
  rw [List.drop_drop]
  congr 1
  omega

/-- The loop in the buffer receives what the loop without it collects; behind that, the buffer is as
it was. -/
theorem receiveLoop_eq (rounds : ℕ) (unknown : List Byte) (calls : List ReadCall)
    (h : Standing base known remain) (hbase : base ≤ known.length+unknown.length)
    (hpossible : Possible rounds remain os) :
    receiveLoop base rounds (known ++ unknown) remain (.ofOutcomes os calls) =
      match collect base rounds known remain os with
      | none => .error .overrun
      | some (known',remain',os') =>
        .ok (known' ++ unknown.drop (known'.length-known.length),remain',
          .ofOutcomes os'
            (calls ++ callsOf base (known.length+unknown.length) rounds remain os)) := by
  induction rounds generalizing known unknown remain os calls with
  | zero => simp [receiveLoop,collect,callsOf]
  | succ rounds ih =>
    rw [receiveLoop,read_ofOutcomes,collect_succ,callsOf]
    simp only [List.length_append]
    by_cases hfront : (next os).block ≠ [] ∧ (base : ℤ) < remain
    · rw [if_pos hfront,deposit,if_neg hfront.1,if_pos (by omega)]
      rfl
    rw [if_neg hfront]
    have hbounds := put_bounds h hpossible.1 hfront
    have hdeposit : deposit (known ++ unknown) (base-remain) (next os).block =
        .ok (put known (base-remain).toNat (next os).block ++
          unknown.drop ((put known (base-remain).toNat (next os).block).length-known.length)) := by
      by_cases hblock : (next os).block = []
      · rw [hblock,put_nil,Nat.sub_self,List.drop_zero]
        rfl
      · have hpos := List.length_pos_iff.mpr hblock
        have hlen := hpossible.1
        have hposition := h.position
        have hle : remain ≤ base := by
          by_contra hgt
          exact hfront ⟨hblock,by omega⟩
        rw [← deposit_put (by omega) (by omega),Int.toNat_of_nonneg (by omega)]
    rw [hdeposit,ok_bind]
    by_cases hzero : toShort (remain-(next os).result) = 0
    · simp only [if_pos hzero]
      rfl
    · simp only [if_neg hzero]
      have hrest := ih (unknown.drop
        ((put known (base-remain).toNat (next os).block).length-known.length))
        (calls ++ [⟨base-remain,remain,known.length+unknown.length⟩])
        (h.step hpossible.1 hfront hzero) (by rw [List.length_drop]; omega) (hpossible.2 hzero)
      have htotal : (put known (base-remain).toNat (next os).block).length+(unknown.drop
          ((put known (base-remain).toNat (next os).block).length-known.length)).length =
            known.length+unknown.length := by
        rw [List.length_drop]
        omega
      rw [hrest,htotal,List.append_assoc,List.singleton_append]
      cases hrun : collect base rounds (put known (base-remain).toNat (next os).block)
          (toShort (remain-(next os).result)) os.tail with
      | none => rfl
      | some result =>
        obtain ⟨known',remain',os'⟩ := result
        have hgrowth := collect_length rounds (h.step hpossible.1 hfront hzero)
          (hpossible.2 hzero) hrun
        simp only [drop_drop_growth unknown hbounds.1 hgrowth.1]

theorem deposit_length {buf buf' block : List Byte} {offset : ℤ}
    (h : deposit buf offset block = .ok buf') : buf'.length = buf.length := by
  unfold deposit store at h
  split_ifs at h with hblock hoffset hfits
  · cases h
    rfl
  · cases h
    simp only [List.length_append,List.length_take,List.length_drop]
    omega

/-- A loop that returns has made its calls, and the buffer is as long as before. -/
theorem receiveLoop_ok {base : ℤ} (rounds : ℕ) (buf : List Byte) (calls : List ReadCall)
    {buf' : List Byte} {remain' : ℤ} {line' : Line}
    (h : receiveLoop base rounds buf remain (.ofOutcomes os calls) = .ok (buf',remain',line')) :
    buf'.length = buf.length ∧ ∃ os',
      line' = .ofOutcomes os' (calls ++ callsOf base buf.length rounds remain os) := by
  induction rounds generalizing buf remain os calls with
  | zero =>
    cases h
    exact ⟨rfl,os,by rw [callsOf,List.append_nil]⟩
  | succ rounds ih =>
    rw [receiveLoop,read_ofOutcomes] at h
    simp only at h
    cases hdeposit : deposit buf (base-remain) (next os).block with
    | error e =>
      rw [hdeposit] at h
      cases h
    | ok buf₁ =>
      have hlen := deposit_length hdeposit
      rw [hdeposit,ok_bind] at h
      rw [callsOf]
      by_cases hzero : toShort (remain-(next os).result) = 0
      · rw [if_pos hzero] at h ⊢
        cases h
        exact ⟨hlen,os.tail,rfl⟩
      · rw [if_neg hzero] at h ⊢
        obtain ⟨hlen',os',hline⟩ := ih buf₁ _ h
        refine ⟨hlen'.trans hlen,os',?_⟩
        rw [hline,hlen,List.append_assoc,List.singleton_append]

end Loop

/-- The cells of a new buffer from a place on. -/
def Heap.cells (heap : Heap) (start count : ℕ) : List Byte :=
  (List.range' start count).map heap.fresh

section Heap
variable (heap : Heap)

@[simp] theorem cells_length (start count : ℕ) : (heap.cells start count).length = count := by
  rw [Heap.cells,List.length_map,List.length_range']

theorem malloc_eq (size : ℕ) : heap.malloc size = heap.cells 0 size := by
  rw [Heap.malloc,Heap.cells,List.range_eq_range']

theorem cells_append (start m n : ℕ) :
    heap.cells start (m+n) = heap.cells start m ++ heap.cells (start+m) n := by
  rw [Heap.cells,Heap.cells,Heap.cells,← List.map_append,List.range'_append_1]

theorem drop_cells (start n : ℕ) {count : ℕ} (h : n ≤ count) :
    (heap.cells start count).drop n = heap.cells (start+n) (count-n) := by
  obtain ⟨m,rfl⟩ := Nat.exists_eq_add_of_le h
  rw [cells_append,List.drop_left' (cells_length heap start n),Nat.add_sub_cancel_left]

theorem take_cells (start n : ℕ) {count : ℕ} (h : n ≤ count) :
    (heap.cells start count).take n = heap.cells start n := by
  obtain ⟨m,rfl⟩ := Nat.exists_eq_add_of_le h
  rw [cells_append,List.take_left' (cells_length heap start n)]

/-- A buffer that is cut or grown has new cells behind the received bytes, as it had before. -/
theorem realloc_cells (known : List Byte) (count size : ℕ) (h : known.length ≤ size) :
    heap.realloc (known ++ heap.cells known.length count) size =
      known ++ heap.cells known.length (size-known.length) := by
  have hgrown : known ++ heap.cells known.length count ++
      (List.range' (known ++ heap.cells known.length count).length
        (size-(known ++ heap.cells known.length count).length)).map heap.fresh =
      known ++ heap.cells known.length (count+(size-(known.length+count))) := by
    rw [List.append_assoc,List.length_append,cells_length,cells_append]
    rfl
  rw [Heap.realloc,if_neg (by omega),Int.toNat_natCast,hgrown,List.take_append,
    List.take_of_length_le h,take_cells _ _ _ (by omega)]

end Heap

section Packet
variable {os : List ReadOutcome} {heap : Heap}

theorem standing_header : Standing 4 [] 4 :=
  ⟨by decide,by decide,by decide,Or.inr (by decide)⟩

theorem announced_range (head : List Byte) : -32768 ≤ announced head ∧ announced head < 32768 := by
  unfold announced
  split
  · exact ⟨BitVec.le_toInt _,BitVec.toInt_lt⟩
  · decide

/-- A header that is complete has four bytes. -/
theorem collect_header (h : Possible 10 4 os) {known : List Byte} {remain : ℤ}
    {rest : List ReadOutcome} (hrun : collect 4 10 [] 4 os = some (known,remain,rest)) :
    0 ≤ remain ∧ (remain = 0 → known.length = 4) := by
  have hposition := collect_position 10 standing_header h (by decide) (by decide) hrun
  have hlength := collect_length 10 standing_header h hrun
  omega

/-- Behind a complete header, the outcomes are such as its payload can have. -/
theorem Receivable.payload (h : Receivable os) {head : List Byte} {rest : List ReadOutcome} {n : ℕ}
    (hheader : collect 4 10 [] 4 os = some (head,0,rest)) (hn : announced head = n) :
    head.length = 4 ∧ n < 32768 ∧ Possible 10 n rest := by
  have hrange := announced_range head
  have hpossible := h.2 head rest hheader
  rw [hn] at hpossible
  exact ⟨(collect_header h.1 hheader).2 rfl,by omega,hpossible⟩

theorem receiveHeader_eq (heap : Heap) (h : Possible 10 4 os) :
    receiveLoop 4 10 (heap.malloc 1024) 4 (.ofOutcomes os []) =
      match collect 4 10 [] 4 os with
      | none => .error .overrun
      | some (known,remain,rest) =>
        .ok (known ++ heap.cells known.length (1024-known.length),remain,
          .ofOutcomes rest (callsOf 4 1024 10 4 os)) := by
  rw [malloc_eq]
  have hrun := receiveLoop_eq 10 (heap.cells 0 1024) [] standing_header
    (by rw [cells_length]; decide) h
  have hfour : ((4 : ℕ) : ℤ) = 4 := rfl
  rw [cells_length,hfour,List.nil_append] at hrun
  rw [hrun]
  cases hcollect : collect 4 10 [] 4 os with
  | none => rfl
  | some result =>
    obtain ⟨known,remain,rest⟩ := result
    have hlength := collect_length 10 standing_header h hcollect
    simp only [List.length_nil,Nat.sub_zero,Nat.zero_add,List.nil_append]
    rw [drop_cells heap 0 known.length (by omega),Nat.zero_add]

theorem eq_of_length_four {l : List Byte} (h : l.length = 4) : ∃ a b c d, l = [a,b,c,d] := by
  obtain ⟨a,l,rfl⟩ := List.exists_cons_of_length_eq_add_one h
  obtain ⟨b,c,d,rfl⟩ := List.length_eq_three.mp (Nat.succ.inj h)
  exact ⟨a,b,c,d,rfl⟩

/-- Without a complete header, or without a start byte, `parse` is not called. -/
theorem receiveBytes_eq (heap : Heap) (h : Possible 10 4 os) :
    receiveBytes heap (.ofOutcomes os []) =
      match collect 4 10 [] 4 os with
      | none => .error .overrun
      | some (known,remain,rest) =>
        if remain = 0 ∧ known.head? = some startByte then
          receivePayload heap (known ++ heap.cells 4 1020) (announced known)
            (.ofOutcomes rest (callsOf 4 1024 10 4 os))
        else .ok (none,.ofOutcomes rest (callsOf 4 1024 10 4 os)) := by
  rw [receiveBytes,receiveHeader_eq heap h]
  cases hcollect : collect 4 10 [] 4 os with
  | none => rfl
  | some result =>
    obtain ⟨known,remain,rest⟩ := result
    obtain ⟨hlow,hcomplete⟩ := collect_header h hcollect
    have hlength := collect_length 10 standing_header h hcollect
    simp only [ok_bind]
    by_cases hremain : remain = 0
    · have hknown := hcomplete hremain
      obtain ⟨start,high,low,type,rfl⟩ := eq_of_length_four hknown
      subst hremain
      by_cases hstart : start = startByte
      · subst hstart
        rw [if_pos ⟨rfl,rfl⟩]
        exact if_neg (by simp)
      · rw [if_neg (by simp [hstart])]
        exact if_pos (Or.inr hstart)
    · have hbuf : (known ++ heap.cells known.length (1024-known.length)).length = 1024 := by
        rw [List.length_append,cells_length]
        omega
      generalize known ++ heap.cells known.length (1024-known.length) = buf at hbuf
      rw [if_neg (fun hand => hremain hand.1)]
      cases buf with
      | nil => cases hbuf
      | cons start buf =>
        cases buf with
        | nil => cases hbuf
        | cons high buf =>
          cases buf with
          | nil => cases hbuf
          | cons low buf => exact if_pos (Or.inl (by omega))

/-- When the payload phase ends, `parse` is called with what the buffer is then. -/
theorem receivePayload_ok {buf : List Byte} {payloadLength : ℤ} {rest : List ReadOutcome}
    {calls : List ReadCall} {args : Option (List Byte × ℕ)} {line : Line}
    (h : receivePayload heap buf payloadLength (.ofOutcomes rest calls) = .ok (args,line)) :
    (∃ buf', buf'.length = (heap.realloc buf (payloadLength+4)).length ∧
      args = some (heap.mapped buf',toSize (payloadLength+4))) ∧
    ∃ os', line = .ofOutcomes os' (calls ++ callsOf (4+payloadLength)
      (heap.realloc buf (payloadLength+4)).length 10 payloadLength rest) := by
  rw [receivePayload] at h
  cases hloop : receiveLoop (4+payloadLength) 10 (heap.realloc buf (payloadLength+4)) payloadLength
      (.ofOutcomes rest calls) with
  | error e =>
    simp only [hloop] at h
    cases h
  | ok result =>
    obtain ⟨buf',remain',line'⟩ := result
    simp only [hloop,ok_bind] at h
    obtain ⟨hlen,hline⟩ := receiveLoop_ok 10 _ calls hloop
    cases h
    exact ⟨⟨buf',hlen,rfl⟩,hline⟩

/-- With a header that announces a length that is not negative, the payload is received behind it. -/
theorem receivePayload_eq (heap : Heap) {head : List Byte} {rest : List ReadOutcome} {n : ℕ}
    (hhead : head.length = 4) (hn : n < 32768) (h : Possible 10 n rest) (calls : List ReadCall) :
    receivePayload heap (head ++ heap.cells 4 1020) n (.ofOutcomes rest calls) =
      match collect (4+n) 10 head n rest with
      | none => .error .overrun
      | some (got,_,rest') =>
        .ok (some (got ++ (heap.cells got.length (n+4-got.length) ++ heap.behind),n+4),
          .ofOutcomes rest' (calls ++ callsOf (4+n) (n+4) 10 n rest)) := by
  have hstanding : Standing (4+n) head n :=
    ⟨by omega,by omega,by omega,Or.inr (by omega)⟩
  have hsize : toSize ((n : ℤ)+4) = n+4 := by
    rw [toSize,Int.emod_eq_of_lt (by omega) (by omega)]
    omega
  have hrealloc : heap.realloc (head ++ heap.cells 4 1020) ((n : ℤ)+4) =
      head ++ heap.cells 4 n := by
    have := realloc_cells heap head 1020 (n+4) (by omega)
    rw [hhead,Nat.add_sub_cancel] at this
    exact this
  have hbase : ((4+n : ℕ) : ℤ) = 4+n := Int.natCast_add 4 n
  have hrun := receiveLoop_eq 10 (heap.cells 4 n) calls hstanding
    (by rw [cells_length]; omega) h
  rw [cells_length,hhead,hbase,Nat.add_comm 4 n] at hrun
  rw [receivePayload,hrealloc,hrun]
  cases hcollect : collect (4+n) 10 head n rest with
  | none => rfl
  | some result =>
    obtain ⟨got,remain,rest'⟩ := result
    have hlength := collect_length 10 hstanding h (by rw [hbase]; exact hcollect)
    have hbuf : got ++ (heap.cells 4 n).drop (got.length-4) =
        got ++ heap.cells got.length (n+4-got.length) := by
      rw [drop_cells heap 4 _ (by omega)]
      congr 2 <;> omega
    have hne : got ++ heap.cells got.length (n+4-got.length) ≠ [] := by
      apply List.ne_nil_of_length_pos
      rw [List.length_append]
      omega
    simp only [hbuf]
    change Except.ok (some (heap.mapped _,toSize _),_) = _
    rw [Heap.mapped,if_neg hne,hsize,List.append_assoc]

end Packet

end CodecServer.Ambe3K.Protocol
