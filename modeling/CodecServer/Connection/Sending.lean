import CodecServer.Connection.WireFormat
import CodecServer.Output

/-! `Connection::sendMessage` down to its calls of `write`. The result is that of the serialization,
and what the stream holds back is written after it, when the stream is destroyed. -/
namespace CodecServer

/-- `FileOutputStream` with the block size that it has by default. -/
def OutStream.file : OutStream := .ofBlock 8192 (by decide)

namespace Protobuf
variable (p : Protobuf) (o : OutStream)

/-- The bytes that a message is sent as. -/
def frame (m : p.Message) : List (BitVec 8) :=
  Varint.write (p.serialize (p.packFrom m)).length ++ p.serialize (p.packFrom m)

/-- `Connection::sendMessage` on a stream: the bytes that are written, and the result. -/
def transmit (m : p.Message) (os : List WriteOutcome) : Option (List (BitVec 8) × Bool) :=
  (o.send (p.sendMessage m).1 os).map fun r => (r.1,r.2 && (p.sendMessage m).2)

/-- With these outcomes, `true` is returned only if all bytes are written. -/
def ReportsLoss (m : p.Message) (os : List WriteOutcome) : Prop :=
  ∀ sent, p.transmit o m os = some (sent,true) → sent = p.frame m

section
variable {p} {o} {m : p.Message} {os : List WriteOutcome}

theorem sendMessage_of_lt (h : (p.serialize (p.packFrom m)).length < 2^31) :
    p.sendMessage m = (p.frame m,true) := by
  rw [sendMessage,if_pos h,frame]

theorem sendMessage_of_le (h : ¬ (p.serialize (p.packFrom m)).length < 2^31) :
    (p.sendMessage m).2 = false := by
  rw [sendMessage,if_neg h]

/-- When no call fails, this is `sendMessage`. -/
theorem transmit_of_room (hroom : room os = none) {sent : List (BitVec 8)} {rc : Bool}
    (h : p.transmit o m os = some (sent,rc)) : (sent,rc) = p.sendMessage m := by
  obtain ⟨⟨bytes,ok⟩,hsend,hr⟩ := Option.map_eq_some_iff.mp h
  obtain ⟨rfl,rfl⟩ := o.send_of_room hroom hsend
  rw [← hr,Bool.true_and]

theorem transmit_of_lt (hsize : (p.serialize (p.packFrom m)).length < 2^31) :
    p.transmit o m os = o.send (p.frame m) os := by
  rw [transmit,sendMessage_of_lt hsize]
  simp only [Bool.and_true]
  exact Option.map_id'

/-- A loss is reported exactly if some of the bytes that are lost are not among those that the stream
holds back. -/
theorem reportsLoss_iff (h : (p.transmit o m os).isSome) :
    p.ReportsLoss o m os ↔ ((p.serialize (p.packFrom m)).length < 2^31 →
      ∀ k, room os = some k →
        k < o.early (p.frame m).length*o.block ∨ (p.frame m).length ≤ k) := by
  by_cases hsize : (p.serialize (p.packFrom m)).length < 2^31
  · rw [transmit_of_lt hsize] at h
    obtain ⟨⟨sent,ok⟩,hsend⟩ := Option.isSome_iff_exists.mp h
    have hreports : p.ReportsLoss o m os ↔ (ok = true → sent = p.frame m) := by
      rw [ReportsLoss,transmit_of_lt hsize,hsend]
      constructor
      · rintro hsent rfl
        exact hsent sent rfl
      · rintro hsent _ ⟨⟩
        exact hsent rfl
    rw [hreports,o.send_reports_iff hsend]
    exact ⟨fun hroom _ => hroom,fun hroom => hroom hsize⟩
  · apply iff_of_true
    · intro sent hsent
      obtain ⟨r,-,hr⟩ := Option.map_eq_some_iff.mp hsent
      have hok := (Prod.mk.inj hr).2
      rw [sendMessage_of_le hsize,Bool.and_false] at hok
      cases hok
    · intro hlt
      exact absurd hlt hsize

/-- A short count and an interruption are made good. -/
theorem reportsLoss_iff_short :
    WireFormat.protobuf.ReportsLoss .file ⟨[0x78],[]⟩ [.wrote 3,.interrupted] := by
  refine (reportsLoss_iff (by decide)).mpr ?_
  intro _ k hk
  cases hk

/-- The connection is gone, and the message is reported as sent. -/
theorem not_reportsLoss_failed :
    ¬ WireFormat.protobuf.ReportsLoss .file ⟨[0x78],[]⟩ [.failed] := by
  intro hreports
  have hsent := hreports [] (by decide)
  exact absurd hsent (by decide)

end

end Protobuf
end CodecServer
