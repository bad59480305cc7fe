import CodecServer.Dictionary
import CodecServer.Numeral

/-! The configuration: sections with a name, of values with a key. -/
namespace CodecServer
open CodecServer.Numeral

/-- A section of the configuration file. -/
abbrev Section := Dictionary Text Text

/-- `Config::sections`. -/
abbrev Config := Dictionary Text Section

namespace Config

def newline : BitVec 8 := 0x0a
def equalsSign : BitVec 8 := 0x3d
def openBracket : BitVec 8 := 0x5b
def closeBracket : BitVec 8 := 0x5d

/-- A semicolon and a hash. -/
def commentChars : List (BitVec 8) := [0x3b,0x23]

/-- `getline`: what comes before the next newline, and what comes behind it. At the end of the file
it fails. -/
def getline : Text → Option (Text × Text)
  | [] => none
  | c::input => some ((c::input).takeWhile (· ≠ newline),((c::input).dropWhile (· ≠ newline)).drop 1)

/-- All that `getline` returns, up to the end of the file. -/
def getlines : Text → List Text
  | [] => []
  | c::input =>
    if c = newline then []::getlines input
    else
      match getlines input with
      | [] => [[c]]
      | line::lines => (c::line)::lines

/-- What `Config::read` keeps from line to line: the section that it is in is not among `sections`
yet. -/
structure Reader where
  sections : Config := ∅
  currentMap : Section := ∅
  currentName : Text := []

namespace Reader

/-- `sections` with the section that has been read; a name that is empty stands for none. -/
def commit (r : Reader) : Config :=
  if r.currentName = [] then r.sections else r.sections.insert r.currentName r.currentMap

/-- The body of the loop of `Config::read`; a line that has no meaning is reported and skipped. -/
def readLine (r : Reader) (line : Text) : Reader :=
  match line.head? with
  | none => r
  | some first =>
    if first ∈ commentChars then r
    else if first = openBracket ∧ line.getLast? = some closeBracket then
      { sections := r.commit
        currentMap := ∅
        currentName := (line.drop 1).take (line.length-2) }
    else
      match line.idxOf? equalsSign with
      | none => r
      | some pos => {r with currentMap := r.currentMap.insert (line.take pos) (line.drop (pos+1))}

end Reader

/-- `Config::read`. -/
def read (input : Text) : Config := ((getlines input).foldl Reader.readLine {}).commit

/-- `Config::getSections`: the rest of the names that start with the type and a colon. -/
def getSections (config : Config) (type : Text) : List Text :=
  config.keys.filterMap fun name =>
    if name.take (type ++ [0x3a]).length = type ++ [0x3a] then
      some (name.drop (type ++ [0x3a]).length)
    else none

/-- `Config::getSection`; a section that is not there is empty. -/
def getSection (config : Config) (name : Text) : Section := (config.lookup name).getD ∅

/-- The types `device` and `server`. -/
def deviceType : Text := [0x64,0x65,0x76,0x69,0x63,0x65]
def serverType : Text := [0x73,0x65,0x72,0x76,0x65,0x72]

/-- `ServerConfig::getDevices`. -/
def getDevices (config : Config) : List Text := config.getSections deviceType

/-- `ServerConfig::getDeviceConfig`. -/
def getDeviceConfig (config : Config) (key : Text) : Section :=
  config.getSection (deviceType ++ [0x3a] ++ key)

def getServers (config : Config) : List Text := config.getSections serverType

def getServerConfig (config : Config) (key : Text) : Section :=
  config.getSection (serverType ++ [0x3a] ++ key)

end Config
end CodecServer
