import BgpReceiver.IpAddr

/-!
# The configuration of a session

`Config` and `Config::validate` of `session.rs`. The delays are floating-point
numbers of seconds; `F64` has what the checks on them can tell apart.
-/

namespace Session

/-- A double-precision number. -/
inductive F64 where
  | nan
  | inf (negative : Bool)
  | finite (value : ℚ)
  deriving DecidableEq

namespace F64

/-- `is_finite`. -/
def isFinite : F64 → Bool
  | finite _ => true
  | _ => false

/-- `<` on a number and a finite number. -/
def lt (x : F64) (y : ℚ) : Bool :=
  match x with
  | nan => false
  | inf negative => negative
  | finite v => v < y

/-- `>` on a number and a finite number. -/
def gt (x : F64) (y : ℚ) : Bool :=
  match x with
  | nan => false
  | inf negative => !negative
  | finite v => v > y

/-- `==` on a number and a finite number. -/
def eq (x : F64) (y : ℚ) : Bool := x = finite y

end F64

/-- An `Ipv4Addr`. -/
structure Ipv4Addr where
  octets : Vector UInt8 4
  deriving DecidableEq

/-- `Ipv4Addr::to_string`. -/
def Ipv4Addr.text (a : Ipv4Addr) : String := IpAddr.ipv4Text a.octets.toList

/-- The configuration of a session, with the types of its fields. A delay is a number of seconds. -/
structure Config where
  localAs : UInt32
  routerId : Ipv4Addr
  peerIp : Ipv4Addr
  peerAs : UInt32
  holdTime : UInt16
  reconnectDelay : F64
  connectTimeout : F64
  activeRetryDelay : F64
  listenPort : UInt16
  jsonOutput : Option String
  deriving DecidableEq

namespace Config

/-- The check of one delay. -/
def validateDelay (name : String) (value : F64) (allowZero : Bool) : Except String Unit :=
  if !value.isFinite || value.lt 0 || (!allowZero && value.eq 0) || value.gt 86400 then
    .error ("Invalid " ++ name ++ ": expected " ++ (if allowZero then "0" else "positive")
      ++ "..86400 seconds")
  else .ok ()

/-- `validate`. -/
def validate (config : Config) : Except String Unit := do
  if config.localAs = 0 ∨ config.peerAs = 0 then
    throw "AS numbers must be positive"
  if config.holdTime ≠ 0 ∧ config.holdTime < 3 then
    throw "Hold time must be zero or at least 3 seconds"
  if config.listenPort = 0 then
    throw "Listen port must be positive"
  validateDelay "reconnect_delay" config.reconnectDelay true
  validateDelay "connect_timeout" config.connectTimeout false
  validateDelay "active_retry_delay" config.activeRetryDelay false

end Config

end Session
