import CodecServer.Config
import CodecServer.Registry

/-! How devices are built from a section of the configuration, and the two registries that know about
them: that of the server, and that of the driver, by their node. -/
namespace CodecServer.Ambe3K
open CodecServer.Numeral

/-- The types of the exceptions that are thrown; a `DeviceException` is a `runtime_error`. -/
inductive Exception
  | invalidArgument
  | outOfRange
  | runtimeError
  | deviceException
  deriving DecidableEq

/-- `Registration`; a device is known by a number of its own. -/
structure Registration where
  config : Section
  device : Option ℕ := none

/-- The core registry, `Registry::devices` of the driver, and the number of the next device. -/
structure System where
  core : Registry Text ℕ := {}
  devices : Dictionary Text Registration := ∅
  fresh : ℕ := 0

/-- The keys `driver`, `tty` and `baudrate`. -/
def driverKey : Text := [0x64,0x72,0x69,0x76,0x65,0x72]
def ttyKey : Text := [0x74,0x74,0x79]
def baudrateKey : Text := [0x62,0x61,0x75,0x64,0x72,0x61,0x74,0x65]

/-- `Driver::getIdentifier`. -/
def identifier : Text := [0x61,0x6d,0x62,0x65,0x33,0x6b]

/-- `Device::getCodecs`. -/
def getCodecs : List Text := [[0x61,0x6d,0x62,0x65]]

/-- The rates that `Device::convertBaudrate` knows. -/
def baudrates : List ℕ :=
  [9600,19200,38400,57600,115200,230400,460800,500000,576000,921600,1000000,1152000,1500000,2000000,
    2500000,3000000,3500000,4000000]

def convertBaudrate (baud : BitVec 32) : Except Exception ℕ :=
  if baud.toNat ∈ baudrates then .ok baud.toNat else .error .runtimeError

/-- The constructor of `Device`, if the calls for the tty and the answers of the device are as they
should be, or if they are not. -/
def construct (baudRate : BitVec 32) (works : Bool) : Except Exception Unit := do
  let _ ← convertBaudrate baudRate
  if works then return () else throw .deviceException

namespace System

/-- `Driver::buildFromConfiguration`. The registration is made before the device is. -/
def buildFromConfiguration (s : System) (config : Section) (works : Bool) :
    System × Except Exception (Option ℕ) :=
  match config.lookup ttyKey,config.lookup baudrateKey with
  | some tty,some baudrate =>
    match stoul baudrate with
    | .error .invalidArgument => (s,.ok none)
    | .error .outOfRange => (s,.error .outOfRange)
    | .ok v =>
      match construct (v.setWidth 32) works with
      | .error e => ({s with devices := s.devices.insert tty {config := config}},.error e)
      | .ok () =>
        ({ s with
            devices := s.devices.insert tty {config := config, device := some s.fresh}
            fresh := s.fresh+1 },
          .ok (some s.fresh))
  | _,_ => (s,.ok none)

/-- `Registry::loadDeviceFromConfig`; it catches a `DeviceException` only. -/
def loadDeviceFromConfig (s : System) (config : Section) (works : Bool) :
    System × Except Exception Unit :=
  if config.lookup driverKey = some identifier then
    match s.buildFromConfiguration config works with
    | (s,.ok (some device)) =>
      ({s with core := s.core.registerDevice device getCodecs},.ok ())
    | (s,.ok none) => (s,.ok ())
    | (s,.error .deviceException) => (s,.ok ())
    | (s,.error e) => (s,.error e)
  else (s,.ok ())

/-- What becomes of a section: nothing is done with it, it raises an exception that is not caught, its
registration stays without a device, or a device is registered. -/
inductive Load
  | skipped
  | raised (e : Exception)
  | failed (tty : Text)
  | loaded (tty : Text)
  deriving DecidableEq

/-- What becomes of a section does not depend on the others. -/
def loadOf (config : Section) (works : Bool) : Load :=
  if config.lookup driverKey = some identifier then
    match config.lookup ttyKey,config.lookup baudrateKey with
    | some tty,some baudrate =>
      match stoul baudrate with
      | .error .invalidArgument => .skipped
      | .error .outOfRange => .raised .outOfRange
      | .ok v =>
        if (v.setWidth 32).toNat ∈ baudrates then if works then .loaded tty else .failed tty
        else .raised .runtimeError
    | _,_ => .skipped
  else .skipped

/-- A section that is not skipped leaves a registration behind, and maybe a device. -/
theorem loadDeviceFromConfig_eq (s : System) (config : Section) (works : Bool) :
    match loadOf config works with
    | .skipped => s.loadDeviceFromConfig config works = (s,.ok ())
    | .raised e => (s.loadDeviceFromConfig config works).2 = .error e
    | .failed tty =>
      s.loadDeviceFromConfig config works =
        ({s with devices := s.devices.insert tty {config := config}},.ok ())
    | .loaded tty =>
      s.loadDeviceFromConfig config works =
        ({ core := s.core.registerDevice s.fresh getCodecs
           devices := s.devices.insert tty {config := config, device := some s.fresh}
           fresh := s.fresh+1 },.ok ()) := by
  unfold loadOf loadDeviceFromConfig buildFromConfiguration
  by_cases hdriver : config.lookup driverKey = some identifier
  · simp only [hdriver,if_true]
    cases config.lookup ttyKey with
    | none => rfl
    | some tty =>
      cases config.lookup baudrateKey with
      | none => rfl
      | some baudrate =>
        simp only
        cases stoul baudrate with
        | error e => cases e <;> rfl
        | ok v =>
          simp only [construct,convertBaudrate]
          by_cases hbaud : (v.setWidth 32).toNat ∈ baudrates
          · simp only [hbaud,if_true]
            cases works <;> rfl
          · simp only [hbaud,if_false]
            rfl
  · simp only [hdriver,if_false]

end System
end CodecServer.Ambe3K
