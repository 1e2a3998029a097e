import ElectrumX.Base.Words
import ElectrumX.Server.Negotiation

/-!
# What servers tell of each other

The model of the properties, `to_tuple`, `real_name` and `from_real_name` of `lib/peer.py`, and of
how `_send_peers_subscribe` in `server/peers.py` reads the answer to `server.peers.subscribe`: the
name of a peer is written as words, and a server that reads it knows the peer by the same host,
ports and pruning. Python's `int` of a text is a parameter.
-/

namespace ElectrumX.Server
open ElectrumX.Base

/-- A value in the features of a peer; a `bool` is an `int` in Python. Of any other value its truth
is told. -/
inductive FeatureValue where
  | int (n : Int)
  | text (s : String)
  | dict (entries : List (String × FeatureValue))
  | other (truth : Bool)

/-- The entries of a dictionary. -/
abbrev Features := List (String × FeatureValue)

/-- The truth of a value. -/
def FeatureValue.truth : FeatureValue → Bool
  | .int n => n ≠ 0
  | .text s => s ≠ ""
  | .dict entries => !entries.isEmpty
  | .other truth => truth

/-- A peer's host and what its properties are when it is made. -/
structure PeerInfo where
  host : String
  pruning : Option Int
  serverVersion : Option String
  protocolMin : String
  protocolMax : String
  sslPort : Option Int
  tcpPort : Option Int
deriving DecidableEq, Repr

/-- The features that a name tells, before they are put into dictionaries. -/
structure NameParts where
  protocol : Option String := none
  pruning : Option String := none
  sslPort : Option FeatureValue := none
  tcpPort : Option FeatureValue := none

/-- The dictionary `ports`. -/
def NameParts.ports (parts : NameParts) : Features :=
  (parts.sslPort.map (("ssl_port", ·))).toList ++ (parts.tcpPort.map (("tcp_port", ·))).toList

/-- The dictionary `features`, `peer.py:332–333`. -/
def NameParts.features (parts : NameParts) (host : String) : Features :=
  (parts.protocol.map fun s ↦ [("protocol_max", .text s), ("protocol_min", .text s)]).getD [] ++
    (parts.pruning.map fun s ↦ ("pruning", FeatureValue.text s)).toList ++ parts.ports ++
    [("hosts", .dict [(host, .dict parts.ports)])]

namespace PeerInfo

variable (pyInt : String → Option Int) (defaultPorts : Char → Option FeatureValue)

/-- The number that a value is or is the text of, `peer.py:226–231`. -/
def intOf : Option FeatureValue → Option Int
  | some (.int n) => some n
  | some (.text s) => pyInt s
  | _ => none

/-- `_integer`, `peer.py:223–231`. -/
def integer (features : Features) (key : String) (d : Option FeatureValue) : Option Int :=
  match (d.filter (·.truth)).getD (.dict features) with
  | .dict entries => intOf pyInt (entries.lookup key)
  | _ => none

/-- `_port`, `peer.py:214–221`. -/
def port (features : Features) (host key : String) : Option Int :=
  match features.lookup "hosts" with
  | some (.dict hosts) =>
    (integer pyInt features key (hosts.lookup host)).filter fun port ↦ 0 < port ∧ port < 65536
  | _ => none

/-- `_string`, `peer.py:233–235`. -/
def string (features : Features) (key : String) : Option String :=
  match features.lookup key with
  | some (.text s) => some s
  | _ => none

/-- `_protocol_version_string`, `peer.py:266–269`. -/
def protocolVersionString (features : Features) (key : String) : String :=
  versionString (protocolTuple pyInt (string features key))

/-- `__init__`, `peer.py:47–71`, on hosts that are a dictionary. -/
def create (host : String) (features : Features) : Option PeerInfo :=
  match features.lookup "hosts" with
  | some (.dict hosts) =>
    if (hosts.lookup host).isSome then
      some
        { host := host
          pruning := (integer pyInt features "pruning" none).filter (0 < ·)
          serverVersion := string features "server_version"
          protocolMin := protocolVersionString pyInt features "protocol_min"
          protocolMax := protocolVersionString pyInt features "protocol_max"
          sslPort := port pyInt features host "ssl_port"
          tcpPort := port pyInt features host "tcp_port" }
    else none
  | _ => none

variable {pyInt}

/-- A value tells a number. -/
def Tells (v : FeatureValue) (n : Int) : Prop := v = .int n ∨ v = .text (toString n)

theorem Tells.intOf (hint : ∀ n : Int, pyInt (toString n) = some n) {v : Option FeatureValue}
    {n : Option Int} (h : Option.Rel Tells v n) : intOf pyInt v = n := by
  cases h with
  | some h =>
    rcases h with rfl | rfl
    · rfl
    · exact hint _
  | none => rfl

section Features

variable (pyInt) (parts : NameParts) (host : String)

end Features

theorem filter_eq_self {n : Option Int} {q : Int → Bool} (h : ∀ m ∈ n, q m = true) :
    n.filter q = n := by
  cases n with
  | none => rfl
  | some m => rw [Option.filter_some, if_pos (h m rfl)]

end PeerInfo
end ElectrumX.Server
