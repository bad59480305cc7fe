import CodecServer.Ambe3K.Driver
import CodecServer.Ambe3K.Protocol.RoundTrip
import CodecServer.Ambe3K.Protocol.Frame
import CodecServer.Ambe3K.Protocol.Serial
import CodecServer.Ambe3K.Reception

/-! The constructor of a device: the tty is set up, and the chip has to answer three requests, one
after the other. What it answers decides how many channels there are. -/
namespace CodecServer.Ambe3K.Initialization
open CodecServer.Memory CodecServer.Ambe3K.Protocol

/-- The tty: what can be read from it, and the packets that have been written to it. -/
structure Tty where
  line : Line
  output : List (List Byte) := []
  deriving DecidableEq

/-- What ends the constructor early: a fault, or an exception with its text. -/
inductive Failure
  | fault (f : Fault)
  | exception (e : Exception) (message : String)
  deriving DecidableEq

/-- What the constructor does with the tty. -/
def Action (α : Type) : Type := Tty → Except Failure α × Tty

instance : Monad Action where
  pure a := fun tty => (.ok a,tty)
  bind x f := fun tty =>
    match x tty with
    | (.ok a,tty) => f a tty
    | (.error e,tty) => (.error e,tty)

def raise {α : Type} (message : String) : Action α :=
  fun tty => (.error (.exception .deviceException message),tty)

/-- A call that leaves the tty alone. -/
def evaluate {α : Type} (x : Except Fault α) : Action α :=
  fun tty => (x.mapError .fault,tty)

/-- `writeTo(fd)` of a new packet. -/
def write (packet : Outgoing) : Action Unit := fun tty =>
  match packet.new >>= Packet.writeTo with
  | .error f => (.error (.fault f),tty)
  | .ok (_,bytes) => (.ok (),{tty with output := tty.output ++ [bytes]})

/-- `Packet::receiveFrom(fd)`. -/
def receive (heap : Heap) : Action (Option Packet) := fun tty =>
  match receiveFrom heap tty.line with
  | .error f => (.error (.fault f),tty)
  | .ok (x,line) => (x.result.mapError .fault,{tty with line := line})

/-- A request, and a response that has to be a control packet with a certain field. -/
def exchange (heap : Heap) (request : Outgoing) (has : Packet → Bool)
    (noResponse missing : String) : Action Packet := do
  write request
  let response ← receive heap
  match response with
  | none => raise noResponse
  | some packet =>
    if packet.kind.type ≠ .control then raise "unexpected response from stick"
    else if has packet then return packet
    else raise missing

/-- `Device::init`. The strings are printed before the channels are created. -/
def init (heap : ℕ → Heap) (π : Type) : Action (Device π) := do
  let _ ← exchange (heap 0) .reset Packet.hasReadyField
    "device did not respond to reset" "device is not ready after reset"
  let prodid ← exchange (heap 1) .prodIdRequest Packet.hasProductId
    "device did not respond to product id request"
    "device did not respond with product id as expected"
  let versionString ← exchange (heap 2) .versionStringRequest Packet.hasVersionString
    "device did not respond to version string request"
    "device did not response with version string as expected"
  let id ← evaluate prodid.getProductId.result
  let _ ← evaluate versionString.getVersionString.result
  return .createChannels (Device.channelCount id)

/-- What the calls of `open` come to, each with the text of its error if it fails. -/
structure Calls where
  openTty : Except String Unit
  tcgetattr : Except String Unit
  cfsetispeed : Except String Unit
  cfsetospeed : Except String Unit
  tcsetattr : Except String Unit

/-- `DeviceException(message, errno)`. -/
def check (message : String) (call : Except String Unit) : Action Unit :=
  match call with
  | .ok () => return ()
  | .error err => raise (message ++ ": " ++ err)

/-- `Device::open`. -/
def openDevice (calls : Calls) (baudRate : BitVec 32) : Action Unit := do
  match convertBaudrate baudRate with
  | .error e => fun tty => (.error (.exception e "invalid baud rate"),tty)
  | .ok _ =>
    check "could not open TTY" calls.openTty
    check "tcgetattr error" calls.tcgetattr
    check "cfsetispeed error" calls.cfsetispeed
    check "cfsetospeed error" calls.cfsetospeed
    check "tcsetattr error" calls.tcsetattr

/-- The constructor `Device(const std::string&, unsigned int)`. -/
def build (calls : Calls) (heap : ℕ → Heap) (π : Type) (baudRate : BitVec 32) :
    Action (Device π) := do
  openDevice calls baudRate
  init heap π

/-- All of the calls succeed. -/
def Calls.work (calls : Calls) : Bool :=
  calls.openTty.isOk && calls.tcgetattr.isOk && calls.cfsetispeed.isOk && calls.cfsetospeed.isOk &&
    calls.tcsetattr.isOk

/-- The requests of the constructor. -/
def requests : List Outgoing := [.reset,.prodIdRequest,.versionStringRequest]

/-- What a chip answers: a well-formed control packet, with its fields in any order and each of them
once at most, whose header and payload come within ten calls of `read` each. -/
structure Answer where
  fields : List WireField
  wellFormed : ∀ w ∈ fields, w.WellFormed .control
  nodup : (fields.map WireField.kind).Nodup
  accepted : Accepted .control (image .control fields)
  short : (fields.flatMap (WireField.encode .control)).length ≤ 32767
  headerReads : List ℕ
  payloadReads : List ℕ
  headerReads_completes : Completes 10 4 headerReads
  payloadReads_completes :
    Completes 10 (fields.flatMap (WireField.encode .control)).length payloadReads

namespace Answer

def transmission (a : Answer) : Transmission where
  type := PacketType.control.toByte
  payload := a.fields.flatMap (WireField.encode .control)
  payload_le := a.short
  headerReads := a.headerReads
  payloadReads := a.payloadReads
  headerReads_completes := a.headerReads_completes
  payloadReads_completes := a.payloadReads_completes

theorem transmission_bytes (a : Answer) : a.transmission.bytes = image .control a.fields := by
  simp [Transmission.bytes,transmission,image,header]

/-- The tty on which the chip gives these answers. -/
def line (answers : List Answer) (tail : List Byte) (more : List ℤ) (calls : List ReadCall) : Line :=
  ⟨answers.flatMap (fun a => a.transmission.bytes) ++ tail,
    answers.flatMap (fun a => a.transmission.reads) ++ more,calls⟩

def has (a : Answer) (kind : WireKind) : Bool := kind ∈ a.fields.map WireField.kind

def productId (a : Answer) : Option (List Byte) :=
  a.fields.findSome? fun
    | .prodId id => some id
    | _ => none

theorem has_iff (a : Answer) (kind : WireKind) : a.has kind = true ↔ ∃ w ∈ a.fields, w.kind = kind := by
  simp [has]

theorem productId_eq_none {a : Answer} (h : a.productId = none) : a.has .prodId = false := by
  rw [Bool.eq_false_iff,Ne,has_iff]
  rintro ⟨w,hw,hkind⟩
  have hnone := List.findSome?_eq_none_iff.mp h w hw
  cases w <;> simp [WireField.kind] at hkind hnone

theorem productId_eq_some {a : Answer} {id : List Byte} (h : a.productId = some id) :
    .prodId id ∈ a.fields := by
  obtain ⟨w,hw,hid⟩ := List.exists_of_findSome?_eq_some h
  cases w with
  | prodId id' =>
    obtain rfl := Option.some.inj hid
    exact hw
  | _ => cases hid

end Answer

section
variable {π : Type} {heap : Heap} {tty tty' : Tty}

theorem bind_of_ok {α β : Type} {x : Action α} {f : α → Action β} {a : α}
    (h : x tty = (.ok a,tty')) : (x >>= f) tty = f a tty' := by
  change (match x tty with | (.ok a,tty) => f a tty | (.error e,tty) => (.error e,tty)) = _
  rw [h]

theorem bind_of_error {α β : Type} {x : Action α} {f : α → Action β} {e : Failure}
    (h : x tty = (.error e,tty')) : (x >>= f) tty = (.error e,tty') := by
  change (match x tty with | (.ok a,tty) => f a tty | (.error e,tty) => (.error e,tty)) = _
  rw [h]

theorem write_eq {packet : Outgoing} (h : packet.Admitted) (tty : Tty) :
    write packet tty = (.ok (),{tty with output := tty.output ++ [packet.image]}) := by
  obtain ⟨p,q,hnew,-,-,hwrite,-⟩ := packet.new_writeTo h
  rw [write,hnew,ok_bind,hwrite]

theorem evaluate_ok {α : Type} {x : Except Fault α} {a : α} (h : x = .ok a) (tty : Tty) :
    evaluate x tty = (.ok a,tty) := by
  rw [evaluate,h]
  rfl

/-- An answer is received as a control packet that has its fields, and nothing is taken off the tty
but the answer. -/
theorem receive_answer (heap : Heap) (a : Answer) (rest : List Answer) (tail : List Byte)
    (more : List ℤ) (calls : List ReadCall) (output : List (List Byte)) : ∃ p calls',
    receive heap ⟨Answer.line (a::rest) tail more calls,output⟩ =
      (.ok (some p),⟨Answer.line rest tail more calls',output⟩) ∧
    Recovers .control a.fields (image .control a.fields).length p := by
  have hlength : 4 ≤ (image .control a.fields).length := by
    rw [image_length]
    omega
  have hdrop := image_drop .control a.fields
  have hparse := (safe_parse_payload a.wellFormed hlength (image_type .control a.fields) hdrop
    heap.behind).2
  rw [← scanned_of_payload a.wellFormed hdrop,if_pos ((parityHolds_scanned_iff .control).mpr a.accepted),
    scanned_of_payload a.wellFormed hdrop] at hparse
  obtain ⟨calls',hreceive⟩ := receiveFrom_transmission heap a.transmission
    (rest.flatMap (fun a => a.transmission.bytes) ++ tail)
    (rest.flatMap (fun a => a.transmission.reads) ++ more) calls
  rw [Answer.transmission_bytes] at hreceive
  refine ⟨_,calls',?_,written_recovers a.wellFormed a.nodup hlength hdrop heap.behind⟩
  have hline : Answer.line (a::rest) tail more calls =
      ⟨image .control a.fields ++ (rest.flatMap (fun a => a.transmission.bytes) ++ tail),
        a.transmission.reads ++ (rest.flatMap (fun a => a.transmission.reads) ++ more),calls⟩ := by
    simp [Answer.line,Answer.transmission_bytes]
  rw [receive,hline,hreceive]
  simp only [hparse]
  rfl

/-- A request that is answered: the next one is made only if the answer has the field. -/
theorem exchange_answer (heap : Heap) (request : Outgoing) (hrequest : request.Admitted)
    (kind : WireKind) (noResponse missing : String) (a : Answer) (rest : List Answer)
    (tail : List Byte) (more : List ℤ) (calls : List ReadCall) (output : List (List Byte)) : ∃ p calls',
    exchange heap request (fun p => p.has kind) noResponse missing
        ⟨Answer.line (a::rest) tail more calls,output⟩ =
      (if a.has kind then .ok p else .error (.exception .deviceException missing),
        ⟨Answer.line rest tail more calls',output ++ [request.image]⟩) ∧
    Recovers .control a.fields (image .control a.fields).length p := by
  obtain ⟨p,calls',hreceive,hp⟩ := receive_answer heap a rest tail more calls
    (output ++ [request.image])
  refine ⟨p,calls',?_,hp⟩
  have hhas : p.has kind = a.has kind :=
    Bool.eq_iff_iff.mpr ((hp.present kind).trans (a.has_iff kind).symm)
  rw [exchange,bind_of_ok (write_eq hrequest _),bind_of_ok hreceive]
  simp only [hp.type,ne_eq,not_true_eq_false,if_false,hhas]
  cases a.has kind <;> rfl

/-- The constructor asks the chip three times, each time only if the answer before has what it needs,
and nothing but the answers is taken off the tty. The product id decides how many channels there are;
otherwise a `DeviceException` says what is missing. -/
theorem init_answers (heap : ℕ → Heap) (a₀ a₁ a₂ : Answer) (tail : List Byte) (more : List ℤ)
    (calls : List ReadCall) (output : List (List Byte)) : ∃ calls',
    init heap π ⟨Answer.line [a₀,a₁,a₂] tail more calls,output⟩ =
      if a₀.has .ready = false then
        (.error (.exception .deviceException "device is not ready after reset"),
          ⟨Answer.line [a₁,a₂] tail more calls',output ++ [Outgoing.reset.image]⟩)
      else
        match a₁.productId with
        | none =>
          (.error (.exception .deviceException
              "device did not respond with product id as expected"),
            ⟨Answer.line [a₂] tail more calls',
              output ++ [Outgoing.reset.image,Outgoing.prodIdRequest.image]⟩)
        | some id =>
          (if a₂.has .version then .ok (.createChannels (Device.channelCount id))
            else .error (.exception .deviceException
              "device did not response with version string as expected"),
            ⟨Answer.line [] tail more calls',output ++ [Outgoing.reset.image,
              Outgoing.prodIdRequest.image,Outgoing.versionStringRequest.image]⟩) := by
  obtain ⟨p₀,calls₀,hready,-⟩ := exchange_answer (heap 0) .reset trivial .ready
    "device did not respond to reset" "device is not ready after reset" a₀ [a₁,a₂] tail more calls
    output
  obtain ⟨p₁,calls₁,hprodid,hp₁⟩ := exchange_answer (heap 1) .prodIdRequest trivial .prodId
    "device did not respond to product id request"
    "device did not respond with product id as expected" a₁ [a₂] tail more calls₀
    (output ++ [Outgoing.reset.image])
  obtain ⟨p₂,calls₂,hversion,hp₂⟩ := exchange_answer (heap 2) .versionStringRequest trivial .version
    "device did not respond to version string request"
    "device did not response with version string as expected" a₂ [] tail more calls₁
    (output ++ [Outgoing.reset.image] ++ [Outgoing.prodIdRequest.image])
  cases h₀ : a₀.has .ready with
  | false =>
    rw [h₀] at hready
    exact ⟨calls₀,bind_of_error hready⟩
  | true =>
    rw [h₀] at hready
    simp only [Bool.true_eq_false,if_false]
    cases hid : a₁.productId with
    | none =>
      rw [Answer.productId_eq_none hid] at hprodid
      refine ⟨calls₁,(bind_of_ok hready).trans ((bind_of_error hprodid).trans ?_)⟩
      simp
    | some id =>
      have hmem := Answer.productId_eq_some hid
      rw [(a₁.has_iff .prodId).mpr ⟨_,hmem,rfl⟩] at hprodid
      have hshown := (hp₁.shown _ hmem).2.2
      refine ⟨calls₂,(bind_of_ok hready).trans ((bind_of_ok hprodid).trans ?_)⟩
      cases h₂ : a₂.has .version with
      | false =>
        rw [h₂] at hversion
        refine (bind_of_error hversion).trans ?_
        simp
      | true =>
        rw [h₂] at hversion
        obtain ⟨w,hw,hkind⟩ := (a₂.has_iff .version).mp h₂
        obtain ⟨v,rfl⟩ : ∃ v, w = .version v := by
          cases w with
          | version v => exact ⟨v,rfl⟩
          | _ => cases hkind
        have hprinted := (hp₂.shown _ hw).2.2
        refine (bind_of_ok hversion).trans ?_
        refine (bind_of_ok (evaluate_ok hshown _)).trans ?_
        refine (bind_of_ok (evaluate_ok hprinted _)).trans ?_
        simp
        rfl

/-- A chip that is ready, with the header in two pieces and a timeout between them. -/
def readyAnswer : Answer where
  fields := [.ready]
  wellFormed := fun w hw => List.mem_singleton.mp hw ▸ (by decide)
  nodup := List.nodup_singleton _
  accepted := by rintro _ ⟨⟩
  short := by decide
  headerReads := [3,0,1]
  payloadReads := [1]
  headerReads_completes := by decide
  payloadReads_completes := by decide

/-- `AMBE3003`. -/
def productIdAnswer : Answer where
  fields := [.prodId [0x41,0x4d,0x42,0x45,0x33,0x30,0x30,0x33]]
  wellFormed := fun w hw => List.mem_singleton.mp hw ▸ (by decide)
  nodup := List.nodup_singleton _
  accepted := by rintro _ ⟨⟩
  short := by decide
  headerReads := [2,2]
  payloadReads := [6,4]
  headerReads_completes := by decide
  payloadReads_completes := by decide

def versionAnswer : Answer where
  fields := [.version (List.replicate 48 0x56)]
  wellFormed := fun w hw => List.mem_singleton.mp hw ▸ (by decide)
  nodup := List.nodup_singleton _
  accepted := by rintro _ ⟨⟩
  short := by decide
  headerReads := [0,4]
  payloadReads := [49]
  headerReads_completes := by decide
  payloadReads_completes := by decide

/-- It has three channels. -/
theorem init_answers_chip : ∃ calls, init (fun _ => ⟨fun _ => 0,[]⟩) Packet
    ⟨Answer.line [readyAnswer,productIdAnswer,versionAnswer] [] [] [],[]⟩ =
      (.ok (.createChannels 3),⟨Answer.line [] [] [] calls,requests.map Outgoing.image⟩) :=
  init_answers (fun _ => ⟨fun _ => 0,[]⟩) readyAnswer productIdAnswer versionAnswer [] [] [] []

/-- The requests are made in order, all of them if there is a result, and the only exception is a
`DeviceException`. -/
def Asks {α : Type} (x : Action α) (asked : List Outgoing) : Prop :=
  ∀ tty, ∃ k ≤ asked.length,
    (x tty).2.output = tty.output ++ (asked.take k).map Outgoing.image ∧
    ((x tty).1.isOk → k = asked.length) ∧
    ∀ e message, (x tty).1 = .error (.exception e message) → e = .deviceException

theorem Asks.bind {α β : Type} {x : Action α} {f : α → Action β} {asked asked' : List Outgoing}
    (hx : Asks x asked) (hf : ∀ a, Asks (f a) asked') : Asks (x >>= f) (asked ++ asked') := by
  intro tty
  obtain ⟨k,hk,houtput,hall,hexception⟩ := hx tty
  rcases hr : x tty with ⟨r,tty'⟩
  rw [hr] at houtput hall hexception
  cases r with
  | error e =>
    rw [bind_of_error hr]
    have hle : k ≤ (asked ++ asked').length := by
      rw [List.length_append]
      omega
    refine ⟨k,hle,?_,(fun h => by cases h),fun e' message h => ?_⟩
    · rw [List.take_append_of_le_length hk]
      exact houtput
    · obtain rfl := Except.error.inj h
      exact hexception _ message rfl
  | ok a =>
    obtain rfl := hall rfl
    obtain ⟨k',hk',houtput',hall',hexception'⟩ := hf a tty'
    rw [bind_of_ok hr]
    refine ⟨asked.length + k',by rw [List.length_append]; omega,?_,fun h => ?_,hexception'⟩
    · simp only at houtput
      rw [houtput',houtput,List.take_length,List.take_length_add_append,List.map_append,
        List.append_assoc]
    · rw [hall' h,List.length_append]

/-- Whether a step of `open` fails is decided by its calls, and it leaves the tty alone. -/
def Settles (x : Action Unit) (works : Bool) : Prop :=
  ∀ tty, if works then x tty = (.ok (),tty)
    else ∃ message, x tty = (.error (.exception .deviceException message),tty)

theorem Settles.bind {x y : Action Unit} {works works' : Bool} (hx : Settles x works)
    (hy : Settles y works') : Settles (x >>= fun _ => y) (works && works') := by
  intro tty
  cases works with
  | false =>
    obtain ⟨message,h⟩ := hx tty
    exact ⟨message,bind_of_error h⟩
  | true =>
    rw [bind_of_ok (hx tty)]
    exact hy tty

end

end CodecServer.Ambe3K.Initialization
