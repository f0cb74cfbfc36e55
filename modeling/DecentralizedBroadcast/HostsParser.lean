import DecentralizedBroadcast.InputText
import Mathlib.Data.List.Sort

/-! The command line and the hosts file, and what `main` builds of them: the receiver of this
process and its links. All later routing takes entry `i` of the links for process `i + 1`. -/
set_option autoImplicit false

namespace DecentralizedBroadcast

structure Host where
  id : Nat
  ip : Nat
  port : Nat
  deriving DecidableEq

/-- How the parser gives up: with its usage and `exit`, or throwing. -/
inductive ParserError where
  | exitFailure (usage : Str)
  | invalidArgument (what : Str)

structure Parsed where
  id : Nat
  hostsPath : Str
  outputPath : Str
  configPath : Str
  deriving DecidableEq

namespace Parser

def isPositiveNumber (s : Str) : Bool := s ≠ [] ∧ s.all Char.isDigit

/-- The argument behind the `i`-th one, if that is `flag`. -/
def argumentOf (argv : List Str) (i : Nat) (flag : Str) : Option Str :=
  if argv[i]? = some flag then argv[i + 1]? else none

def parseID (argv : List Str) : Option Nat := do
  let id ← argumentOf argv 1 ['-', '-', 'i', 'd']
  if isPositiveNumber id then (stoul id).toOption else none

def parseHostPath (argv : List Str) : Option Str :=
  argumentOf argv 3 ['-', '-', 'h', 'o', 's', 't', 's']

def parseOutputPath (argv : List Str) : Option Str :=
  argumentOf argv 5 ['-', '-', 'o', 'u', 't', 'p', 'u', 't']

def parseConfigPath (argv : List Str) (withConfig : Bool) : Option Str :=
  if withConfig then argv[7]? else some []

def parseInternal (argv : List Str) (withConfig : Bool) : Option Parsed := do
  let id ← parseID argv
  let hostsPath ← parseHostPath argv
  let outputPath ← parseOutputPath argv
  let configPath ← parseConfigPath argv withConfig
  pure ⟨id, hostsPath, outputPath, configPath⟩

def help (argv : List Str) (withConfig : Bool) : Str :=
  "Usage: ".toList ++ argv.headD [] ++ " --id ID --hosts HOSTS --output OUTPUT".toList ++
    if withConfig then " CONFIG\n".toList else "\n".toList

def parse (argv : List Str) (withConfig : Bool) : Except ParserError Parsed :=
  match parseInternal argv withConfig with
  | some parsed => .ok parsed
  | none => .error (.exitFailure (help argv withConfig))

def ltrim (s : Str) : Str := s.dropWhile isspace

def rtrim (s : Str) : Str := (s.reverse.dropWhile isspace).reverse

def trim (s : Str) : Str := rtrim (ltrim s)

/-- On a little-endian machine. -/
def htons (port : Nat) : Nat := port % 256 * 256 + port / 256

/-- `iss >> id >> ip >> port`; `resolve` looks the name up, and is taken to find every name: where
the lookup fails, the constructor of `Host` throws. -/
def readHost (resolve : Str → Nat) (line : Str) : Option Host := do
  let (id, s) ← readUnsigned ulongMax line
  let (ip, s) ← readWord s
  let (port, _) ← readUnsigned ushortMax s
  pure ⟨id, resolve ip, htons port⟩

/-- The loop over the lines of the file, `lineNum` of which are done. -/
def hostsLoop (resolve : Str → Nat) (path : Str) :
    Nat → List Str → Except ParserError (List Host)
  | _, [] => .ok []
  | lineNum, line :: rest =>
      if trim line = [] then hostsLoop resolve path (lineNum + 1) rest
      else
        match readHost resolve line with
        | none => .error (.invalidArgument ("Parsing for `".toList ++ path ++
            "` failed at line ".toList ++ decimal (lineNum + 1)))
        | some host =>
            match hostsLoop resolve path (lineNum + 1) rest with
            | .ok hosts => .ok (host :: hosts)
            | .error e => .error e

/-- `std::sort` by id, which puts equal ones in any order. -/
structure HostSort where
  sort : List Host → List Host
  perm : ∀ hosts, (sort hosts).Perm hosts
  sorted : ∀ hosts, ((sort hosts).map Host.id).Pairwise (· ≤ ·)

/-- `files` gives the content of what is there under a path. -/
def hosts (sorting : HostSort) (resolve : Str → Nat) (files : Str → Option Str) (parsed : Parsed) :
    Except ParserError (List Host) :=
  match files parsed.hostsPath with
  | none => .error (.invalidArgument ("`".toList ++ parsed.hostsPath ++ "` does not exist.".toList))
  | some content =>
      match hostsLoop resolve parsed.hostsPath 0 (getlines '\n' content) with
      | .error e => .error e
      | .ok hosts =>
          let ids := hosts.map Host.id
          if hosts.length < 2 then
            .error (.invalidArgument ("`".toList ++ parsed.hostsPath ++
              "` must contain at least two hosts".toList))
          else if ids.min? ≠ some 1 ∨ ids.max? ≠ some hosts.length then
            .error (.invalidArgument ("In `".toList ++ parsed.hostsPath ++
              "` IDs of processes have to start from 1 and be compact".toList))
          else .ok (sorting.sort hosts)

end Parser

structure Endpoint where
  ip : Nat
  port : Nat
  id : Int
  deriving DecidableEq

def castInt (n : Nat) : Int := Int.bmod n (2 ^ 32)

def mainArguments (sorting : Parser.HostSort) (resolve : Str → Nat) (files : Str → Option Str)
    (argv : List Str) : Except ParserError (Parsed × List Host) :=
  match Parser.parse argv true with
  | .error e => .error e
  | .ok parsed =>
      match Parser.hosts sorting resolve files parsed with
      | .error e => .error e
      | .ok hosts => .ok (parsed, hosts)

/-- The `Receiver` of `hosts[my_id - 1]`, where the index is an `unsigned long`. -/
def thisProcess (hosts : List Host) (myId : Nat) : Except Fault Endpoint :=
  match hosts[(myId + ulongMax) % (ulongMax + 1)]? with
  | some host => .ok ⟨host.ip, host.port, castInt myId⟩
  | none => .error .badIndex

/-- The loop that fills `links`: null for this process, else a link with its `Sender`. -/
def mainLinks (hosts : List Host) (myId : Nat) : List (Option Endpoint) :=
  hosts.map fun host =>
    if host.id ≠ myId then some ⟨host.ip, host.port, castInt host.id⟩ else none

end DecentralizedBroadcast
