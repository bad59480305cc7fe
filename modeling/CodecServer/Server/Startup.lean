import CodecServer.Ambe3K.Driver

/-! The start of the server: the devices and the server sockets that its configuration names, one
section after the other. -/
namespace CodecServer.Server.Startup
open CodecServer.Numeral CodecServer.Ambe3K

/-- What the system does for the sections: the tty works and the device answers as it should; the
socket can be had; what is there at its path can be removed; it can be bound and listened to. -/
structure Environment where
  device : Text → Bool
  socket : Text → Bool
  clear : Text → Bool
  bind : Text → Bool

/-- What can end the loading phase: an exception, or a write behind the end of `sun_path`. -/
inductive Failure
  | exception (e : Exception)
  | overflow
  deriving DecidableEq

/-- `UnixDomainSocketServer`, `Tcp4Server` and `Tcp6Server`. -/
inductive SocketServer
  | unix (socketPath : Text)
  | tcp4 (port : BitVec 16) (bindAddr : Text)
  | tcp6 (port : BitVec 16) (bindAddr : Text)
  deriving DecidableEq

namespace SocketServer

/-- The keys `port`, `bind` and `socket`. -/
def portKey : Text := [0x70,0x6f,0x72,0x74]
def bindKey : Text := [0x62,0x69,0x6e,0x64]
def socketKey : Text := [0x73,0x6f,0x63,0x6b,0x65,0x74]

/-- The types `tcp` and `unixdomainsockets`. -/
def tcp : Text := [0x74,0x63,0x70]
def unixdomainsockets : Text :=
  [0x75,0x6e,0x69,0x78,0x64,0x6f,0x6d,0x61,0x69,0x6e,0x73,0x6f,0x63,0x6b,0x65,0x74,0x73]

/-- The path `/tmp/codecserver.sock`, and the addresses `0.0.0.0` and `::`. -/
def defaultPath : Text :=
  [0x2f,0x74,0x6d,0x70,0x2f,0x63,0x6f,0x64,0x65,0x63,0x73,0x65,0x72,0x76,0x65,0x72,0x2e,0x73,0x6f,
    0x63,0x6b]
def anyAddress4 : Text := [0x30,0x2e,0x30,0x2e,0x30,0x2e,0x30]
def anyAddress6 : Text := [0x3a,0x3a]

/-- The server for a type, as it is created. -/
def create (type : Text) : Option SocketServer :=
  if type = unixdomainsockets then some (.unix defaultPath)
  else if type = tcp ++ [0x34] then some (.tcp4 1073 anyAddress4)
  else if type = tcp ∨ type = tcp ++ [0x36] then some (.tcp6 1073 anyAddress6)
  else none

/-- The port of `TcpServer::readConfig`; the number is cut to an `unsigned short`. -/
def readPort (port : BitVec 16) (config : Section) : Except Exception (BitVec 16) :=
  match config.lookup portKey with
  | none => .ok port
  | some text =>
    match stoul text with
    | .ok v => .ok (v.setWidth 16)
    | .error .invalidArgument => .error .invalidArgument
    | .error .outOfRange => .error .outOfRange

def readConfig (config : Section) : SocketServer → Except Exception SocketServer
  | .unix path => .ok (.unix ((config.lookup socketKey).getD path))
  | .tcp4 port addr => do
    let port ← readPort port config
    return .tcp4 port ((config.lookup bindKey).getD addr)
  | .tcp6 port addr => do
    let port ← readPort port config
    return .tcp6 port ((config.lookup bindKey).getD addr)

/-- `bind` and `listen`. The path is copied to `sun_path`, which has 108 bytes. -/
def bind (env : Environment) (name : Text) : SocketServer → Except Failure Unit
  | .unix path =>
    if env.clear name = false then .error (.exception .runtimeError)
    else if 108 < path.length then .error .overflow
    else if env.bind name then .ok ()
    else .error (.exception .runtimeError)
  | _ => if env.bind name then .ok () else .error (.exception .runtimeError)

def setupSocket (env : Environment) (name : Text) (server : SocketServer) : Except Failure Unit :=
  if env.socket name then server.bind env name else .error (.exception .runtimeError)

end SocketServer

/-- The body of the loop over the servers; only a `runtime_error` of `setupSocket` is caught. -/
def startServer (env : Environment) (name : Text) (config : Section) :
    Except Failure (Option SocketServer) :=
  match SocketServer.create name with
  | none => .ok none
  | some server =>
    match server.readConfig config with
    | .error e => .error (.exception e)
    | .ok server =>
      match server.setupSocket env name with
      | .ok () => .ok (some server)
      | .error (.exception .runtimeError) => .ok none
      | .error (.exception .deviceException) => .ok none
      | .error e => .error e

/-- The devices that are there, with the names of the sections that they come from, and the servers
that are ready. -/
structure Loaded where
  system : System := {}
  devices : List Text := []
  servers : List (Text × SocketServer) := []

def loadDevices (env : Environment) (config : Config) :
    List Text → Loaded → Except Failure Loaded
  | [],loaded => .ok loaded
  | name::names,loaded =>
    match loaded.system.loadDeviceFromConfig (config.getDeviceConfig name) (env.device name) with
    | (_,.error e) => .error (.exception e)
    | (system,.ok ()) =>
      loadDevices env config names
        { loaded with
          system := system
          devices :=
            if system.fresh = loaded.system.fresh then loaded.devices
            else loaded.devices ++ [name] }

def startServers (env : Environment) (config : Config) :
    List Text → Loaded → Except Failure Loaded
  | [],loaded => .ok loaded
  | name::names,loaded =>
    match startServer env name (config.getServerConfig name) with
    | .error e => .error e
    | .ok none => startServers env config names loaded
    | .ok (some server) =>
      startServers env config names {loaded with servers := loaded.servers ++ [(name,server)]}

/-- The loading phase of `Server::main`. -/
def load (env : Environment) (config : Config) : Except Failure Loaded := do
  let loaded ← loadDevices env config config.getDevices {}
  startServers env config config.getServers loaded

/-- The configuration with nothing but one section. -/
def alone (name : Text) (config : Section) : Config := AList.singleton name config

def deviceName (key : Text) : Text := Config.deviceType ++ [0x3a] ++ key
def serverName (key : Text) : Text := Config.serverType ++ [0x3a] ++ key

/-- A baud rate that there is. -/
def Supported (v : ℤ) : Prop := ∃ baud : ℕ, v = baud ∧ baud ∈ baudrates

/-- A number that can be a port. -/
def IsPort (v : ℤ) : Prop := ∃ port : ℕ, v = port ∧ port < 2^16

/-- The baud rate of a device is no number or is not supported, or there is an error of the
device. -/
def FaultyDevice (config : Section) (works : Bool) : Prop :=
  (∃ text, config.lookup baudrateKey = some text ∧ ∀ v, number text = some v → ¬ Supported v) ∨
    works = false

/-- The port of a server is no number or is out of range, or there is an error of the socket. -/
def FaultyServer (env : Environment) (name : Text) (config : Section) : Prop :=
  match SocketServer.create name with
  | none => True
  | some (.unix _) => env.socket name = false ∨ env.clear name = false ∨ env.bind name = false
  | some _ =>
    (∃ text, config.lookup SocketServer.portKey = some text ∧
      ∀ v, number text = some v → ¬ IsPort v) ∨
    env.socket name = false ∨ env.bind name = false

/-- The loading phase gets to its end, with every device and every server that there is if its
section is alone; and a section that is faulty leads to none. -/
def Independent (env : Environment) (config : Config) : Prop :=
  ∃ loaded, load env config = .ok loaded ∧
    (∀ name ∈ config.getDevices,
      (∃ l, load env (alone (deviceName name) (config.getDeviceConfig name)) = .ok l ∧
        name ∈ l.devices) → name ∈ loaded.devices) ∧
    (∀ name ∈ config.getServers, ∀ server,
      (∃ l, load env (alone (serverName name) (config.getServerConfig name)) = .ok l ∧
        (name,server) ∈ l.servers) → (name,server) ∈ loaded.servers) ∧
    (∀ name ∈ config.getDevices, FaultyDevice (config.getDeviceConfig name) (env.device name) →
      name ∉ loaded.devices) ∧
    (∀ name ∈ config.getServers, FaultyServer env name (config.getServerConfig name) →
      ∀ server, (name,server) ∉ loaded.servers)

/-- The baud rate of a device of the driver is no number, or it is supported; or what remains of it
modulo 2^32 is supported and the device does not work anyway. -/
def FineDevice (config : Section) (works : Bool) : Prop :=
  config.lookup driverKey = some identifier → (config.lookup ttyKey).isSome →
    ∀ text, config.lookup baudrateKey = some text → ∀ v, number text = some v →
      Supported v ∨ (v.natAbs < 2^64 ∧ (BitVec.ofInt 32 v).toNat ∈ baudrates ∧ works = false)

/-- The path of a server that gets there fits into `sun_path`; its port is a number below 2^16, or one
that fits into an `unsigned long` when there is an error of the socket anyway. -/
def FineServer (env : Environment) (name : Text) (config : Section) : Prop :=
  match SocketServer.create name with
  | none => True
  | some (.unix path) =>
    env.socket name = true → env.clear name = true →
      ((config.lookup SocketServer.socketKey).getD path).length ≤ 108
  | some _ =>
    ∀ text, config.lookup SocketServer.portKey = some text → ∃ v, number text = some v ∧
      (IsPort v ∨ (v.natAbs < 2^64 ∧ (env.socket name = false ∨ env.bind name = false)))

section Device
variable {config : Section} {works : Bool}

theorem lt_of_mem_baudrates : ∀ baud ∈ baudrates, baud < 2^32 := by decide

theorem setWidth_ofInt (v : ℤ) : (BitVec.ofInt 64 v).setWidth 32 = BitVec.ofInt 32 v := by
  apply BitVec.eq_of_toNat_eq
  rw [BitVec.toNat_setWidth,BitVec.toNat_ofInt,BitVec.toNat_ofInt]
  omega

theorem Supported.fits {v : ℤ} (h : Supported v) :
    v.natAbs < 2^64 ∧ (BitVec.ofInt 32 v).toNat ∈ baudrates := by
  obtain ⟨baud,rfl,hbaud⟩ := h
  have hlt := lt_of_mem_baudrates baud hbaud
  have hcut : (BitVec.ofInt 32 baud).toNat = baud := by
    rw [BitVec.ofInt_natCast,BitVec.toNat_ofNat]
    omega
  rw [hcut]
  exact ⟨by omega,hbaud⟩

/-- What becomes of a section with a tty and the text of a baud rate, by its number. -/
theorem loadOf_eq {tty text : Text} (hdriver : config.lookup driverKey = some identifier)
    (htty : config.lookup ttyKey = some tty) (htext : config.lookup baudrateKey = some text) :
    System.loadOf config works =
      match number text with
      | none => .skipped
      | some v =>
        if v.natAbs < 2^64 then
          if (BitVec.ofInt 32 v).toNat ∈ baudrates then if works then .loaded tty else .failed tty
          else .raised .runtimeError
        else .raised .outOfRange := by
  unfold System.loadOf
  rw [if_pos hdriver,htty,htext]
  simp only [stoul_eq]
  cases number text with
  | none => rfl
  | some v =>
    by_cases hfits : v.natAbs < 2^64
    · simp only [hfits,if_true,setWidth_ofInt]
    · simp only [hfits,if_false]

theorem loadOf_skipped (h : config.lookup driverKey ≠ some identifier ∨
    config.lookup ttyKey = none ∨ config.lookup baudrateKey = none) :
    System.loadOf config works = .skipped := by
  unfold System.loadOf
  by_cases hdriver : config.lookup driverKey = some identifier
  · rw [if_pos hdriver]
    rcases h.resolve_left (not_not.mpr hdriver) with hnone | hnone
    · rw [hnone]
    · rw [hnone]
      cases config.lookup ttyKey <;> rfl
  · rw [if_neg hdriver]

/-- A section is fine exactly if it raises nothing, and is not loaded if it is faulty. -/
theorem fineDevice_iff : FineDevice config works ↔
    (∀ e, System.loadOf config works ≠ .raised e) ∧
    (FaultyDevice config works → ∀ tty, System.loadOf config works ≠ .loaded tty) := by
  by_cases hskip : config.lookup driverKey ≠ some identifier ∨
      config.lookup ttyKey = none ∨ config.lookup baudrateKey = none
  · rw [loadOf_skipped hskip]
    refine iff_of_true (fun hdriver htty text htext => ?_) ⟨nofun,fun _ => nofun⟩
    rcases hskip with h | h | h
    · exact absurd hdriver h
    · rw [h] at htty
      cases htty
    · rw [h] at htext
      cases htext
  obtain ⟨hdriver,hrest⟩ := not_or.mp hskip
  obtain ⟨htty,htext⟩ := not_or.mp hrest
  rw [not_not] at hdriver
  obtain ⟨tty,htty⟩ := Option.ne_none_iff_exists'.mp htty
  obtain ⟨text,htext⟩ := Option.ne_none_iff_exists'.mp htext
  rw [loadOf_eq hdriver htty htext]
  simp only [FineDevice,FaultyDevice,hdriver,htty,htext,Option.isSome_some,forall_true_left,
    Option.some.injEq,forall_eq',exists_eq_left']
  cases number text with
  | none => simp
  | some v =>
    simp only [Option.some.injEq,forall_eq']
    by_cases hfits : v.natAbs < 2^64
    · by_cases hbaud : (BitVec.ofInt 32 v).toNat ∈ baudrates
      · rw [if_pos hfits,if_pos hbaud]
        cases works with
        | false => exact iff_of_true (Or.inr ⟨hfits,hbaud,rfl⟩) ⟨nofun,fun _ => nofun⟩
        | true =>
          constructor
          · intro h
            have hsupported : Supported v := h.resolve_right fun h => by cases h.2.2
            refine ⟨nofun,fun hfaulty => ?_⟩
            rcases hfaulty with hfaulty | hfaulty
            · exact absurd hsupported hfaulty
            · cases hfaulty
          · intro ⟨_,h⟩
            left
            by_contra hsupported
            exact h (Or.inl hsupported) tty rfl
      · rw [if_pos hfits,if_neg hbaud]
        refine iff_of_false ?_ fun h => h.1 _ rfl
        rintro (h | h)
        · exact hbaud h.fits.2
        · exact hbaud h.2.1
    · rw [if_neg hfits]
      refine iff_of_false ?_ fun h => h.1 _ rfl
      rintro (h | h)
      · exact hfits h.fits.1
      · exact hfits h.1

end Device

section Server
variable {env : Environment} {name : Text} {config : Section}

theorem readPort_eq (port : BitVec 16) (config : Section) :
    SocketServer.readPort port config =
      match config.lookup SocketServer.portKey with
      | none => .ok port
      | some text =>
        match number text with
        | none => .error .invalidArgument
        | some v =>
          if v.natAbs < 2^64 then .ok ((BitVec.ofInt 64 v).setWidth 16)
          else .error .outOfRange := by
  unfold SocketServer.readPort
  cases config.lookup SocketServer.portKey with
  | none => rfl
  | some text =>
    simp only [stoul_eq]
    cases number text with
    | none => rfl
    | some v =>
      simp only
      split_ifs <;> rfl

/-- Both kinds of servers with a port. -/
theorem startServer_tcp {server : SocketServer} (port : BitVec 16)
    (make : BitVec 16 → SocketServer) (hcreate : SocketServer.create name = some server)
    (hread : server.readConfig config = (SocketServer.readPort port config).map make)
    (hsetup : ∀ port, (make port).setupSocket env name =
      if env.socket name = true ∧ env.bind name = true then .ok ()
      else .error (.exception .runtimeError)) :
    startServer env name config =
      match SocketServer.readPort port config with
      | .error e => .error (.exception e)
      | .ok port =>
        .ok (if env.socket name = true ∧ env.bind name = true then some (make port) else none) := by
  unfold startServer
  rw [hcreate]
  simp only [hread]
  cases SocketServer.readPort port config with
  | error e => rfl
  | ok port =>
    simp only [Except.map,hsetup]
    by_cases hready : env.socket name = true ∧ env.bind name = true
    · simp only [hready,and_self,if_true]
    · simp only [if_neg hready]

theorem setupSocket_port {server : SocketServer} (h : ∀ path, server ≠ .unix path) :
    server.setupSocket env name =
      if env.socket name = true ∧ env.bind name = true then .ok ()
      else .error (.exception .runtimeError) := by
  unfold SocketServer.setupSocket
  cases server with
  | unix path => exact absurd rfl (h path)
  | _ =>
    simp only [SocketServer.bind]
    by_cases hsocket : env.socket name = true
    · by_cases hbind : env.bind name = true
      · rw [if_pos hsocket,if_pos hbind,if_pos ⟨hsocket,hbind⟩]
      · rw [if_pos hsocket,if_neg hbind,if_neg fun h => hbind h.2]
    · rw [if_neg hsocket,if_neg fun h => hsocket h.1]

/-- A server with a port starts, and does not start if it is faulty, exactly if its port is one, or
can be read and there is an error anyway. -/
theorem fine_port_iff {port : BitVec 16} {make : BitVec 16 → SocketServer}
    {started : Except Failure (Option SocketServer)}
    (hstart : started =
      match SocketServer.readPort port config with
      | .error e => .error (.exception e)
      | .ok port =>
        .ok (if env.socket name = true ∧ env.bind name = true then some (make port) else none)) :
    (∀ text, config.lookup SocketServer.portKey = some text → ∃ v, number text = some v ∧
      (IsPort v ∨ (v.natAbs < 2^64 ∧ (env.socket name = false ∨ env.bind name = false)))) ↔
    (∃ r, started = .ok r) ∧
    ((∃ text, config.lookup SocketServer.portKey = some text ∧
      ∀ v, number text = some v → ¬ IsPort v) ∨ env.socket name = false ∨ env.bind name = false →
      started = .ok none) := by
  have hnot : (env.socket name = false ∨ env.bind name = false) ↔
      ¬ (env.socket name = true ∧ env.bind name = true) := by
    rw [not_and_or,Bool.not_eq_true,Bool.not_eq_true]
  rw [hnot,hstart,readPort_eq]
  cases config.lookup SocketServer.portKey with
  | none =>
    refine iff_of_true nofun ⟨⟨_,rfl⟩,fun h => ?_⟩
    have hready := h.resolve_left nofun
    simp only [if_neg hready]
  | some text =>
    simp only [Option.some.injEq,forall_eq',exists_eq_left']
    cases number text with
    | none =>
      refine iff_of_false nofun fun h => ?_
      obtain ⟨⟨r,hr⟩,-⟩ := h
      cases hr
    | some v =>
      simp only [Option.some.injEq,forall_eq',exists_eq_left']
      by_cases hfits : v.natAbs < 2^64
      · rw [if_pos hfits]
        by_cases hready : env.socket name = true ∧ env.bind name = true
        · simp only [hready,and_self,not_true,and_false,or_false]
          constructor
          · intro hport
            exact ⟨⟨_,rfl⟩,fun h => absurd hport h⟩
          · intro ⟨_,h⟩
            by_contra hport
            cases h hport
        · simp only [if_neg hready]
          exact iff_of_true (Or.inr ⟨hfits,hready⟩) ⟨⟨_,rfl⟩,fun _ => trivial⟩
      · rw [if_neg hfits]
        refine iff_of_false ?_ fun h => ?_
        · rintro (⟨port,rfl,hport⟩ | h)
          · omega
          · exact hfits h.1
        · obtain ⟨⟨r,hr⟩,-⟩ := h
          cases hr

theorem startServer_unix {path : Text} (hcreate : SocketServer.create name = some (.unix path)) :
    startServer env name config =
      if env.socket name = true ∧ env.clear name = true then
        if 108 < ((config.lookup SocketServer.socketKey).getD path).length then .error .overflow
        else .ok (if env.bind name = true then
          some (.unix ((config.lookup SocketServer.socketKey).getD path)) else none)
      else .ok none := by
  unfold startServer
  rw [hcreate]
  simp only [SocketServer.readConfig,SocketServer.setupSocket,SocketServer.bind]
  by_cases hlen : 108 < ((config.lookup SocketServer.socketKey).getD path).length <;>
    cases env.socket name <;> cases env.clear name <;> cases env.bind name <;> simp [hlen]

theorem fine_path_iff {path : Text} {started : Except Failure (Option SocketServer)}
    (hstart : started =
      if env.socket name = true ∧ env.clear name = true then
        if 108 < path.length then .error .overflow
        else .ok (if env.bind name = true then some (.unix path) else none)
      else .ok none) :
    (env.socket name = true → env.clear name = true → path.length ≤ 108) ↔
    (∃ r, started = .ok r) ∧
    (env.socket name = false ∨ env.clear name = false ∨ env.bind name = false →
      started = .ok none) := by
  rw [hstart]
  by_cases hlen : 108 < path.length <;>
    cases env.socket name <;> cases env.clear name <;> cases env.bind name <;> simp [hlen] <;> omega

theorem fineServer_iff : FineServer env name config ↔
    (∃ r, startServer env name config = .ok r) ∧
    (FaultyServer env name config → startServer env name config = .ok none) := by
  unfold FineServer FaultyServer
  cases hcreate : SocketServer.create name with
  | none =>
    have hstart : startServer env name config = .ok none := by rw [startServer,hcreate]
    exact iff_of_true trivial ⟨⟨_,hstart⟩,fun _ => hstart⟩
  | some server =>
    cases server with
    | tcp4 port addr =>
      refine fine_port_iff (startServer_tcp port
        (fun port => .tcp4 port ((config.lookup SocketServer.bindKey).getD addr)) hcreate ?_ ?_)
      · rw [SocketServer.readConfig]
        cases SocketServer.readPort port config <;> rfl
      · exact fun _ => setupSocket_port nofun
    | tcp6 port addr =>
      refine fine_port_iff (startServer_tcp port
        (fun port => .tcp6 port ((config.lookup SocketServer.bindKey).getD addr)) hcreate ?_ ?_)
      · rw [SocketServer.readConfig]
        cases SocketServer.readPort port config <;> rfl
      · exact fun _ => setupSocket_port nofun
    | unix path => exact fine_path_iff (startServer_unix hcreate)

end Server

/-- A device is registered for the section. -/
def Loads (env : Environment) (config : Config) (name : Text) : Prop :=
  ∃ tty, System.loadOf (config.getDeviceConfig name) (env.device name) = .loaded tty

section
variable (env : Environment) (config : Config)

theorem loadDevices_raised {name : Text} (names : List Text) (loaded : Loaded) {e : Exception}
    (h : System.loadOf (config.getDeviceConfig name) (env.device name) = .raised e) :
    loadDevices env config (name::names) loaded = .error (.exception e) := by
  have hload := loaded.system.loadDeviceFromConfig_eq (config.getDeviceConfig name)
    (env.device name)
  rw [h] at hload
  rw [loadDevices]
  split
  · rename_i heq
    rw [heq] at hload
    cases hload
    rfl
  · rename_i heq
    rw [heq] at hload
    cases hload

/-- A section that raises nothing adds its device, if there is one. -/
theorem loadDevices_cons {name : Text} (names : List Text) (loaded : Loaded)
    (h : ∀ e, System.loadOf (config.getDeviceConfig name) (env.device name) ≠ .raised e) :
    ∃ l, loadDevices env config (name::names) loaded = loadDevices env config names l ∧
      l.servers = loaded.servers ∧ ∀ name', name' ∈ l.devices ↔
        name' ∈ loaded.devices ∨ (name' = name ∧ Loads env config name) := by
  have hload := loaded.system.loadDeviceFromConfig_eq (config.getDeviceConfig name)
    (env.device name)
  unfold Loads
  rw [loadDevices]
  cases hout : System.loadOf (config.getDeviceConfig name) (env.device name) with
  | raised e => exact absurd hout (h e)
  | skipped =>
    rw [hout] at hload
    simp only [hload,if_true]
    exact ⟨_,rfl,rfl,by simp⟩
  | failed tty =>
    rw [hout] at hload
    simp only [hload,if_true]
    exact ⟨_,rfl,rfl,by simp⟩
  | loaded tty =>
    rw [hout] at hload
    simp only [hload,if_neg (Nat.succ_ne_self _)]
    exact ⟨_,rfl,rfl,by simp⟩

/-- The loop over the devices gets to its end exactly if no section raises anything, and then it has
loaded those that there are. -/
theorem loadDevices_spec (names : List Text) (loaded : Loaded) :
    ((∃ l, loadDevices env config names loaded = .ok l) ↔
      ∀ name ∈ names, ∀ e,
        System.loadOf (config.getDeviceConfig name) (env.device name) ≠ .raised e) ∧
    ∀ l, loadDevices env config names loaded = .ok l → l.servers = loaded.servers ∧
      ∀ name, name ∈ l.devices ↔ name ∈ loaded.devices ∨ (name ∈ names ∧ Loads env config name) := by
  induction names generalizing loaded with
  | nil =>
    refine ⟨iff_of_true ⟨loaded,rfl⟩ nofun,fun l hl => ?_⟩
    cases hl
    simp
  | cons name names ih =>
    by_cases hraised : ∀ e,
        System.loadOf (config.getDeviceConfig name) (env.device name) ≠ .raised e
    · obtain ⟨l',heq,hservers,hdevices⟩ := loadDevices_cons env config names loaded hraised
      obtain ⟨hiff,hspec⟩ := ih l'
      rw [heq,List.forall_mem_cons]
      refine ⟨hiff.trans ⟨fun h => ⟨hraised,h⟩,And.right⟩,fun l hl => ?_⟩
      obtain ⟨hs,hd⟩ := hspec l hl
      refine ⟨hs.trans hservers,fun name' => ?_⟩
      rw [hd,hdevices,or_assoc,List.mem_cons]
      apply or_congr_right
      constructor
      · rintro (⟨rfl,h⟩ | ⟨hmem,h⟩)
        · exact ⟨Or.inl rfl,h⟩
        · exact ⟨Or.inr hmem,h⟩
      · rintro ⟨rfl | hmem,h⟩
        · exact Or.inl ⟨rfl,h⟩
        · exact Or.inr ⟨hmem,h⟩
    · obtain ⟨e,he⟩ := not_forall_not.mp hraised
      rw [loadDevices_raised env config names loaded he]
      exact ⟨iff_of_false nofun fun h => h name List.mem_cons_self e he,nofun⟩

theorem startServers_spec (names : List Text) (loaded : Loaded) :
    ((∃ l, startServers env config names loaded = .ok l) ↔
      ∀ name ∈ names, ∃ r, startServer env name (config.getServerConfig name) = .ok r) ∧
    ∀ l, startServers env config names loaded = .ok l → l.devices = loaded.devices ∧
      ∀ name server, (name,server) ∈ l.servers ↔ (name,server) ∈ loaded.servers ∨
        (name ∈ names ∧ startServer env name (config.getServerConfig name) = .ok (some server)) := by
  induction names generalizing loaded with
  | nil =>
    refine ⟨iff_of_true ⟨loaded,rfl⟩ nofun,fun l hl => ?_⟩
    cases hl
    simp
  | cons name names ih =>
    cases hout : startServer env name (config.getServerConfig name) with
    | error e =>
      have hfail : startServers env config (name::names) loaded = .error e := by
        rw [startServers]
        simp only [hout]
      rw [hfail]
      refine ⟨iff_of_false nofun fun h => ?_,nofun⟩
      obtain ⟨r,hr⟩ := h name List.mem_cons_self
      rw [hout] at hr
      cases hr
    | ok r =>
      have hnext : startServers env config (name::names) loaded = startServers env config names
          {loaded with servers := loaded.servers ++ (r.map fun server => (name,server)).toList} := by
        rw [startServers]
        simp only [hout]
        cases r with
        | none => simp
        | some server => rfl
      obtain ⟨hiff,hspec⟩ :=
        ih {loaded with servers := loaded.servers ++ (r.map fun server => (name,server)).toList}
      rw [hnext,List.forall_mem_cons]
      refine ⟨hiff.trans ⟨fun h => ⟨⟨r,hout⟩,h⟩,And.right⟩,fun l hl => ?_⟩
      obtain ⟨hd,hs⟩ := hspec l hl
      refine ⟨hd,fun name' server => ?_⟩
      rw [hs,List.mem_append,or_assoc,List.mem_cons]
      apply or_congr_right
      constructor
      · rintro (hmem | ⟨hmem,h⟩)
        · obtain ⟨server',hr,heq⟩ := Option.map_eq_some_iff.mp (Option.mem_toList.mp hmem)
          cases heq
          exact ⟨Or.inl rfl,hr ▸ hout⟩
        · exact ⟨Or.inr hmem,h⟩
      · rintro ⟨rfl | hmem,h⟩
        · rw [hout] at h
          cases h
          exact Or.inl (by simp)
        · exact Or.inr ⟨hmem,h⟩

/-- The loading phase as a whole. -/
theorem load_spec : ((∃ l, load env config = .ok l) ↔
      (∀ name ∈ config.getDevices, ∀ e,
        System.loadOf (config.getDeviceConfig name) (env.device name) ≠ .raised e) ∧
      ∀ name ∈ config.getServers,
        ∃ r, startServer env name (config.getServerConfig name) = .ok r) ∧
    ∀ l, load env config = .ok l →
      (∀ name, name ∈ l.devices ↔ name ∈ config.getDevices ∧ Loads env config name) ∧
      ∀ name server, (name,server) ∈ l.servers ↔ name ∈ config.getServers ∧
        startServer env name (config.getServerConfig name) = .ok (some server) := by
  obtain ⟨hiff,hspec⟩ := loadDevices_spec env config config.getDevices {}
  unfold load
  cases hdevices : loadDevices env config config.getDevices {} with
  | error e =>
    rw [hdevices] at hiff
    refine ⟨iff_of_false nofun fun h => ?_,nofun⟩
    obtain ⟨l,hl⟩ := hiff.mpr h.1
    cases hl
  | ok l =>
    obtain ⟨hiff',hspec'⟩ := startServers_spec env config config.getServers l
    obtain ⟨hservers,hd⟩ := hspec l hdevices
    rw [hdevices] at hiff
    have hraised := hiff.mp ⟨l,rfl⟩
    refine ⟨hiff'.trans ⟨fun h => ⟨hraised,h⟩,And.right⟩,fun l' hl' => ?_⟩
    obtain ⟨hdevices',hs⟩ := hspec' l' hl'
    refine ⟨fun name => ?_,fun name server => ?_⟩
    · rw [hdevices',hd]
      simp
    · rw [hs,hservers]
      simp

theorem getSection_alone (name : Text) (section' : Section) :
    (alone name section').getSection name = section' := by
  rw [Config.getSection,alone,← AList.insert_empty,AList.lookup_insert]
  rfl

theorem getSections_alone (type name : Text) (section' : Section) :
    (alone (type ++ [0x3a] ++ name) section').getSections type = [name] := by
  rw [Config.getSections,alone,AList.keys_singleton,List.filterMap_cons,List.take_left,if_pos rfl,
    List.drop_left]
  rfl

/-- A section is a device or a server, and not both. -/
theorem getSections_alone_ne (type type' : Text) (hlen : type.length = type'.length)
    (hne : type ≠ type') (name : Text) (section' : Section) :
    (alone (type ++ [0x3a] ++ name) section').getSections type' = [] := by
  have htake : (type ++ [0x3a] ++ name).take (type' ++ [0x3a]).length = type ++ [0x3a] := by
    rw [List.length_append,← hlen,← List.length_append,List.take_left]
  rw [Config.getSections,alone,AList.keys_singleton,List.filterMap_cons,htake,
    if_neg fun h => hne (List.append_cancel_right h)]
  rfl

theorem getDeviceConfig_alone (name : Text) (section' : Section) :
    (alone (deviceName name) section').getDeviceConfig name = section' :=
  getSection_alone _ _

theorem getServerConfig_alone (name : Text) (section' : Section) :
    (alone (serverName name) section').getServerConfig name = section' :=
  getSection_alone _ _

/-- A device is loaded alone exactly if it is loaded together with others. -/
theorem loads_alone_iff (name : Text) :
    (∃ l, load env (alone (deviceName name) (config.getDeviceConfig name)) = .ok l ∧
      name ∈ l.devices) ↔ Loads env config name := by
  obtain ⟨hiff,hspec⟩ := load_spec env
    (alone (deviceName name) (config.getDeviceConfig name))
  have hdevices : (alone (deviceName name) (config.getDeviceConfig name)).getDevices = [name] :=
    getSections_alone _ _ _
  have hservers : (alone (deviceName name) (config.getDeviceConfig name)).getServers = [] :=
    getSections_alone_ne Config.deviceType Config.serverType rfl (by decide) _ _
  rw [hdevices,hservers] at hiff hspec
  unfold Loads at hspec ⊢
  constructor
  · intro ⟨l,hl,hmem⟩
    obtain ⟨-,tty,htty⟩ := ((hspec l hl).1 name).mp hmem
    rw [getDeviceConfig_alone] at htty
    exact ⟨tty,htty⟩
  · intro ⟨tty,htty⟩
    have hfine : ∀ name' ∈ [name], ∀ e, System.loadOf
        ((alone (deviceName name) (config.getDeviceConfig name)).getDeviceConfig name')
        (env.device name') ≠ .raised e := by
      intro name' hname' e
      obtain rfl := List.mem_singleton.mp hname'
      rw [getDeviceConfig_alone,htty]
      exact nofun
    obtain ⟨l,hl⟩ := hiff.mpr ⟨hfine,nofun⟩
    refine ⟨l,hl,((hspec l hl).1 name).mpr ⟨List.mem_singleton_self _,tty,?_⟩⟩
    rw [getDeviceConfig_alone,htty]

theorem starts_alone_iff (name : Text) (server : SocketServer) :
    (∃ l, load env (alone (serverName name) (config.getServerConfig name)) = .ok l ∧
      (name,server) ∈ l.servers) ↔
    startServer env name (config.getServerConfig name) = .ok (some server) := by
  obtain ⟨hiff,hspec⟩ := load_spec env
    (alone (serverName name) (config.getServerConfig name))
  have hservers : (alone (serverName name) (config.getServerConfig name)).getServers = [name] :=
    getSections_alone _ _ _
  have hdevices : (alone (serverName name) (config.getServerConfig name)).getDevices = [] :=
    getSections_alone_ne Config.serverType Config.deviceType rfl (by decide) _ _
  rw [hdevices,hservers] at hiff hspec
  constructor
  · intro ⟨l,hl,hmem⟩
    have hstart := (((hspec l hl).2 name server).mp hmem).2
    rwa [getServerConfig_alone] at hstart
  · intro hstart
    have hfine : ∀ name' ∈ [name], ∃ r, startServer env name'
        ((alone (serverName name) (config.getServerConfig name)).getServerConfig name') =
          .ok r := by
      intro name' hname'
      obtain rfl := List.mem_singleton.mp hname'
      rw [getServerConfig_alone]
      exact ⟨_,hstart⟩
    obtain ⟨l,hl⟩ := hiff.mpr ⟨nofun,hfine⟩
    refine ⟨l,hl,((hspec l hl).2 name server).mpr ⟨List.mem_singleton_self _,?_⟩⟩
    rw [getServerConfig_alone,hstart]

end

/-- The sections are independent of each other exactly if every one of them is fine. -/
theorem independent_iff (env : Environment) (config : Config) : Independent env config ↔
    (∀ name ∈ config.getDevices, FineDevice (config.getDeviceConfig name) (env.device name)) ∧
    ∀ name ∈ config.getServers, FineServer env name (config.getServerConfig name) := by
  obtain ⟨hiff,hspec⟩ := load_spec env config
  simp only [fineDevice_iff,fineServer_iff]
  constructor
  · intro ⟨loaded,hload,_,_,hdevices,hservers⟩
    obtain ⟨hd,hs⟩ := hspec loaded hload
    obtain ⟨hraised,hstarts⟩ := hiff.mp ⟨loaded,hload⟩
    refine ⟨fun name hname => ⟨hraised name hname,fun hfaulty tty htty => ?_⟩,
      fun name hname => ⟨hstarts name hname,fun hfaulty => ?_⟩⟩
    · exact hdevices name hname hfaulty ((hd name).mpr ⟨hname,tty,htty⟩)
    · obtain ⟨r,hr⟩ := hstarts name hname
      cases r with
      | none => exact hr
      | some server =>
        exact absurd ((hs name server).mpr ⟨hname,hr⟩) (hservers name hname hfaulty server)
  · intro ⟨hdevices,hservers⟩
    obtain ⟨loaded,hload⟩ := hiff.mpr
      ⟨fun name hname => (hdevices name hname).1,fun name hname => (hservers name hname).1⟩
    obtain ⟨hd,hs⟩ := hspec loaded hload
    refine ⟨loaded,hload,fun name hname halone => ?_,fun name hname server halone => ?_,
      fun name hname hfaulty hmem => ?_,fun name hname hfaulty server hmem => ?_⟩
    · exact (hd name).mpr ⟨hname,(loads_alone_iff env config name).mp halone⟩
    · exact (hs name server).mpr ⟨hname,(starts_alone_iff env config name server).mp halone⟩
    · obtain ⟨tty,htty⟩ := ((hd name).mp hmem).2
      exact (hdevices name hname).2 hfaulty tty htty
    · have hnone := (hservers name hname).2 hfaulty
      rw [((hs name server).mp hmem).2] at hnone
      cases hnone

/-- A configuration with a server at a port that is no number. -/
def badPort : Config :=
  alone (serverName SocketServer.tcp) (AList.singleton SocketServer.portKey [0x78])

/-- The server does not start at all then, whatever works. -/
theorem not_independent_port :
    ¬ ∀ (env : Environment) (config : Config), Independent env config := by
  intro h
  obtain ⟨loaded,hload,-⟩ := h ⟨fun _ => true,fun _ => true,fun _ => true,fun _ => true⟩ badPort
  cases hload

end CodecServer.Server.Startup
