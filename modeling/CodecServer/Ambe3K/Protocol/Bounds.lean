import CodecServer.Ambe3K.Protocol.Receiving

/-! Where the `read(2)` calls of `Packet::receiveFrom` are sent. The counters are of type `short`,
and what `read` returns is subtracted from them as it is, so that an error makes them larger. -/
namespace CodecServer.Ambe3K.Protocol
open CodecServer.Memory ReadOutcome

/-- A call that asks for a number of bytes that is not negative, into the buffer that it has. -/
def ReadCall.InRange (call : ReadCall) : Prop :=
  0 ≤ call.count ∧ 0 ≤ call.offset ∧ call.offset+call.count ≤ call.allocated

instance (call : ReadCall) : Decidable call.InRange := by
  unfold ReadCall.InRange; infer_instance

/-- All calls of `read` are in range, and `parse` is not called with less than a header. -/
def ReadsInRange (heap : Heap) (os : List ReadOutcome) : Prop :=
  ∃ args line, receiveBytes heap (.ofOutcomes os []) = .ok (args,line) ∧
    (∀ call ∈ line.calls, call.InRange) ∧ ∀ data size, args = some (data,size) → 4 ≤ size

/-- Whenever another byte is asked for, what the calls have returned adds up to `least` or more. The
calls end when it adds up to `count`, or after so many `rounds`. -/
def KeepsUp (least count : ℤ) : ℕ → ℤ → List ReadOutcome → Prop
  | 0,_,_ => True
  | rounds+1,sum,os =>
    least ≤ sum ∧
      (sum+(next os).result ≠ count → KeepsUp least count rounds (sum+(next os).result) os.tail)

instance KeepsUp.decidable (least count : ℤ) :
    ∀ rounds sum os, Decidable (KeepsUp least count rounds sum os)
  | 0,_,_ => isTrue trivial
  | rounds+1,sum,os =>
    have := KeepsUp.decidable least count rounds (sum+(next os).result) os.tail
    inferInstanceAs (Decidable (least ≤ sum ∧
      (sum+(next os).result ≠ count →
        KeepsUp least count rounds (sum+(next os).result) os.tail)))

/-- Errors never outnumber the bytes of the header. The length that it announces is not negative,
and in the payload errors outnumber the bytes by four at most, as far as `short` reaches. -/
def Orderly (os : List ReadOutcome) : Prop :=
  KeepsUp 0 4 10 0 os ∧ ∀ head rest, collect 4 10 [] 4 os = some (head,0,rest) →
    head.head? = some startByte →
      0 ≤ announced head ∧
      KeepsUp (max (-4) (announced head-32767)) (announced head) 10 0 rest

section Calls
variable {base : ℤ} {allocated rounds : ℕ} {os : List ReadOutcome}

theorem inRange_iff {remain : ℤ} (h : base ≤ allocated) :
    ReadCall.InRange ⟨base-remain,remain,allocated⟩ ↔ 0 ≤ remain ∧ remain ≤ base := by
  simp only [ReadCall.InRange]
  omega

/-- A block that is received in front of the buffer was asked for there. -/
theorem collect_ne_none (known : List Byte) {remain : ℤ}
    (h : ∀ call ∈ callsOf base allocated rounds remain os, call.InRange) :
    collect base rounds known remain os ≠ none := by
  induction rounds generalizing known remain os with
  | zero => exact Option.some_ne_none _
  | succ rounds ih =>
    rw [callsOf] at h
    have hfirst : 0 ≤ base-remain := (h _ (List.mem_cons_self ..)).2.1
    rw [collect_succ,if_neg (fun hand => absurd hand.2 (by omega))]
    by_cases hzero : toShort (remain-(next os).result) = 0
    · rw [if_pos hzero]
      exact Option.some_ne_none _
    · rw [if_neg hzero] at h ⊢
      apply ih
      intro call hcall
      exact h call (List.mem_cons_of_mem _ hcall)

/-- The calls of a loop are in range exactly if the bytes keep up with the errors. -/
theorem calls_inRange_iff {count sum : ℤ} (hbase : base ≤ allocated) (hlow : sum ≤ count)
    (hhigh : count-sum ≤ 32768) (h : Possible rounds (toShort (count-sum)) os) :
    (∀ call ∈ callsOf base allocated rounds (toShort (count-sum)) os, call.InRange) ↔
      KeepsUp (max (count-base) (count-32767)) count rounds sum os := by
  induction rounds generalizing sum os with
  | zero => simp [callsOf,KeepsUp]
  | succ rounds ih =>
    rw [callsOf,KeepsUp,List.forall_mem_cons,inRange_iff hbase]
    by_cases hwrap : count-sum = 32768
    · have hshort : toShort (count-sum) = -32768 := by
        rw [hwrap]
        rfl
      rw [hshort]
      constructor
      · intro hcalls
        exact absurd hcalls.1.1 (by decide)
      · intro hkeeps
        exact absurd hkeeps.1 (by omega)
    · have hshort := toShort_eq (z := count-sum) (by omega) (by omega)
      rw [Possible,hshort] at h
      rw [hshort]
      have hresult : (next os).result ≤ count-sum ∧ -1 ≤ (next os).result := by
        have hlen := h.1
        rcases result_eq (next os) with ⟨herror,-⟩ | hblock <;> omega
      have hnext : count-sum-(next os).result = count-(sum+(next os).result) := by omega
      rw [hnext] at h ⊢
      have hzero : toShort (count-(sum+(next os).result)) = 0 ↔ sum+(next os).result = count := by
        by_cases hfull : count-(sum+(next os).result) = 32768
        · rw [hfull]
          exact iff_of_false (by decide) (by omega)
        · rw [toShort_eq (by omega) (by omega)]
          omega
      apply and_congr (by omega)
      by_cases hend : sum+(next os).result = count
      · rw [if_pos (hzero.mpr hend)]
        exact iff_of_true (by simp) (fun hne => absurd hend hne)
      · rw [if_neg (fun hand => hend (hzero.mp hand)),
          ih (by omega) (by omega) (h.2 (fun hand => hend (hzero.mp hand)))]
        exact ⟨fun hkeeps _ => hkeeps,fun hkeeps => hkeeps hend⟩

end Calls

section Packet
variable {heap : Heap} {os : List ReadOutcome}

theorem header_inRange_iff (h : Possible 10 4 os) :
    (∀ call ∈ callsOf 4 1024 10 4 os, call.InRange) ↔ KeepsUp 0 4 10 0 os := by
  have hshort : toShort (4-0) = 4 := by decide
  have hiff : (∀ call ∈ callsOf 4 1024 10 (toShort (4-0)) os, call.InRange) ↔
      KeepsUp (max (4-4) (4-32767)) 4 10 0 os :=
    calls_inRange_iff (by decide) (by decide) (by decide) (by rw [hshort]; exact h)
  rw [hshort] at hiff
  exact hiff

theorem payload_inRange_iff {n : ℕ} (hn : n < 32768) (h : Possible 10 n os) :
    (∀ call ∈ callsOf (4+n) (n+4) 10 n os, call.InRange) ↔
      KeepsUp (max (-4) (n-32767)) n 10 0 os := by
  have hshort : toShort ((n : ℤ)-0) = n := by
    rw [Int.sub_zero]
    exact toShort_eq (by omega) (by omega)
  have hiff : (∀ call ∈ callsOf (4+n) (n+4) 10 (toShort (n-0)) os, call.InRange) ↔
      KeepsUp (max (n-(4+n)) (n-32767)) n 10 0 os :=
    calls_inRange_iff (by omega) (by omega) (by omega) (by rw [hshort]; exact h)
  rw [hshort,show (n : ℤ)-(4+n) = -4 by omega] at hiff
  exact hiff

/-- With a length that is negative, the first call for the payload asks for so many bytes. -/
theorem receivePayload_negative {buf : List Byte} {payloadLength : ℤ} {calls : List ReadCall}
    {args : Option (List Byte × ℕ)} {line : Line} (hneg : payloadLength < 0)
    (h : receivePayload heap buf payloadLength (.ofOutcomes os calls) = .ok (args,line)) :
    ∃ call ∈ line.calls, ¬ call.InRange := by
  obtain ⟨-,os',hline⟩ := receivePayload_ok h
  rw [hline]
  refine ⟨⟨4+payloadLength-payloadLength,payloadLength,
    (heap.realloc buf (payloadLength+4)).length⟩,?_,?_⟩
  · exact List.mem_append_right _ (List.mem_cons_self ..)
  · intro hrange
    exact absurd hrange.1 (Int.not_le.mpr hneg)

/-- The payload phase, for every length that a header can announce. -/
theorem receivePayload_inRange_iff {head : List Byte} {rest : List ReadOutcome}
    {calls : List ReadCall} (hhead : head.length = 4) (h : Possible 10 (announced head) rest) :
    (∃ args line, receivePayload heap (head ++ heap.cells 4 1020) (announced head)
        (.ofOutcomes rest calls) = .ok (args,line) ∧
      (∀ call ∈ line.calls, call.InRange) ∧ ∀ data size, args = some (data,size) → 4 ≤ size) ↔
    (∀ call ∈ calls, call.InRange) ∧ 0 ≤ announced head ∧
      KeepsUp (max (-4) (announced head-32767)) (announced head) 10 0 rest := by
  have hrange := announced_range head
  generalize announced head = payloadLength at h hrange
  by_cases hneg : payloadLength < 0
  · constructor
    · rintro ⟨args,line,hbytes,hcalls,-⟩
      obtain ⟨call,hcall,hout⟩ := receivePayload_negative hneg hbytes
      exact absurd (hcalls call hcall) hout
    · rintro ⟨-,hlow,-⟩
      exact absurd hlow (Int.not_le.mpr hneg)
  · obtain ⟨n,rfl⟩ := Int.eq_ofNat_of_zero_le (Int.not_lt.mp hneg)
    have hn : n < 32768 := by omega
    rw [receivePayload_eq heap hhead hn h calls,← payload_inRange_iff hn h]
    cases hcollect : collect (4+n) 10 head n rest with
    | none =>
      apply iff_of_false
      · rintro ⟨args,line,herror,-⟩
        cases herror
      · rintro ⟨-,-,hcalls⟩
        exact collect_ne_none head hcalls hcollect
    | some result =>
      constructor
      · rintro ⟨args,line,hbytes,hcalls,-⟩
        cases hbytes
        have hsplit := List.forall_mem_append.mp hcalls
        exact ⟨hsplit.1,Int.natCast_nonneg n,hsplit.2⟩
      · rintro ⟨hheader,-,hpayload⟩
        refine ⟨_,_,rfl,List.forall_mem_append.mpr ⟨hheader,hpayload⟩,?_⟩
        intro data size hargs
        cases hargs
        exact Nat.le_add_left 4 n

/-- The reads stay in the buffer exactly if errors do not get ahead of the bytes and the header does
not announce a negative length. -/
theorem readsInRange_iff (heap : Heap) (h : Receivable os) :
    ReadsInRange heap os ↔ Orderly os := by
  rw [ReadsInRange,Orderly,receiveBytes_eq heap h.1,← header_inRange_iff h.1]
  cases hcollect : collect 4 10 [] 4 os with
  | none =>
    apply iff_of_false
    · rintro ⟨args,line,herror,-⟩
      cases herror
    · rintro ⟨hcalls,-⟩
      exact collect_ne_none [] hcalls hcollect
  | some result =>
    obtain ⟨head,remain,rest⟩ := result
    by_cases hparse : remain = 0 ∧ head.head? = some startByte
    · obtain ⟨rfl,hstart⟩ := hparse
      have hhead := (collect_header h.1 hcollect).2 rfl
      simp only [hstart,and_self,if_true]
      rw [receivePayload_inRange_iff hhead (h.2 head rest hcollect)]
      apply and_congr_right
      intro _
      constructor
      · rintro hpayload _ _ ⟨⟩ -
        exact hpayload
      · intro hpayload
        exact hpayload head rest rfl hstart
    · simp only [if_neg hparse]
      constructor
      · rintro ⟨args,line,hbytes,hcalls,-⟩
        cases hbytes
        refine ⟨hcalls,?_⟩
        rintro _ _ ⟨⟩ hstart
        exact absurd ⟨rfl,hstart⟩ hparse
      · rintro ⟨hcalls,-⟩
        exact ⟨none,_,rfl,hcalls,fun data size hargs => by cases hargs⟩

/-- A header in two pieces with a timeout between them, and the byte of payload that it announces. -/
theorem readsInRange_iff_timeout : ReadsInRange ⟨fun _ => 0,[]⟩
    [.bytes [startByte,0x00],.bytes [],.bytes [0x01,0x02],.bytes [0x40]] := by
  refine (readsInRange_iff _ ⟨by decide,?_⟩).mpr ⟨by decide,?_⟩
  · rintro _ _ ⟨⟩
    decide
  · rintro _ _ ⟨⟩ -
    decide

/-- A header announces 0xffff bytes, and -1 of them are asked for. -/
theorem not_readsInRange_negative : Receivable [.bytes [startByte,0xff,0xff,0x02]] ∧
    ¬ ReadsInRange ⟨fun _ => 0,[]⟩ [.bytes [startByte,0xff,0xff,0x02]] := by
  have hpossible : Possible 10 4 [.bytes [startByte,0xff,0xff,0x02]] := by decide
  refine ⟨⟨hpossible,?_⟩,?_⟩
  · rintro _ _ ⟨⟩
    decide
  · rintro ⟨args,line,hbytes,hcalls,-⟩
    rw [receiveBytes_eq _ hpossible] at hbytes
    obtain ⟨call,hcall,hout⟩ := receivePayload_negative (by decide) hbytes
    exact hout (hcalls call hcall)

end Packet

end CodecServer.Ambe3K.Protocol
