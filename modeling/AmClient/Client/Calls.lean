import AmClient.Osc.Message
import AmClient.Foundation.Runs

/-!
# AssetManagerClient

The public calls as state transformers. What the calls hand to `tcp_client_->Send` and
`udp_client_->Send` is kept in `tcpSent` and `udpSent`. `tcp_bundle_` is never used, and
`BlockUntilQueuesAreEmpty` changes no member.
-/

namespace AmClient.Client
open Foundation Osc
set_option autoImplicit false

def MAX_MESSAGE_SIZE : Nat := 1500

inductive Setting where
  | CORE_USE_UDP
  deriving DecidableEq, Repr

def Setting.value : Setting → BitVec 32
  | .CORE_USE_UDP => 1#32 <<< 0

/-- The members of `AssetManagerClient`, and the messages handed to the two clients.
`overrun` records that `voscpack` wrote behind the end of its buffer. -/
structure State where
  baseAddress : Bytes
  options : BitVec 32 := 0
  startBundle : Bool := false
  udpBundle : Bytes := []
  tcpSent : List Bytes := []
  udpSent : List Bytes := []
  overrun : Bool := false
  deriving DecidableEq

/-- The value of `20*log10(volume)`: which overload of `log10` there is decides whether
a `float` or a `double` is appended. -/
inductive Decibels where
  | float (bits : BitVec 32)
  | double (bits : BitVec 64)

/-- `0.0f <= volume && volume <= 1.0f` on the bit pattern of `volume`: the numbers from
zero to one, and the negative zero. -/
def inRange (volume : BitVec 32) : Bool := volume ≤ 0x3F800000#32 || volume = 0x80000000#32

def systemMuteMessage (mute : Bool) : Bytes :=
  let msg : Message := { address := ascii "/AM/Mute" }
  (msg.appendInt32 (if mute then 1 else 0)).byteArray

def appendDecibels (msg : Message) : Decibels → Message
  | .float bits => msg.appendFloat bits
  | .double bits => msg.appendDouble bits

def systemVolumeMessage (db : Decibels) : Bytes :=
  let msg : Message := { address := ascii "/AM/Volume" }
  (appendDecibels msg db).byteArray

def loadMessage (baseAddress : Bytes) : Bytes :=
  let msg : Message := { address := ascii "/AM/Load" }
  (msg.appendString baseAddress).byteArray

def unloadMessage (baseAddress : Bytes) : Bytes :=
  let msg : Message := { address := ascii "/AM/Unload" }
  (msg.appendString baseAddress).byteArray

def muteMessage (baseAddress : Bytes) (mute : Bool) : Bytes :=
  let msg : Message := { address := ascii "/AM/Project/Mute" }
  ((msg.appendString baseAddress).appendInt32 (if mute then 1 else 0)).byteArray

def volumeMessage (baseAddress : Bytes) (db : Decibels) : Bytes :=
  let msg : Message := { address := ascii "/AM/Project/Volume" }
  (appendDecibels (msg.appendString baseAddress) db).byteArray

/-- The buffer of a custom call after `voscpack`, and what `voscpack` returned. Bytes
written behind the end of the buffer are not in it. -/
structure Packed where
  buf : Bytes
  size : Int
  overrun : Bool

/-- `std::vector<char> buf(MAX_MESSAGE_SIZE)` and the call of `voscpack`; none when the
arguments do not match the format. -/
def pack (baseAddress url : Bytes) (format : CString) (args : List Arg) : Option Packed :=
  (voscpack (cstr (baseAddress ++ url)) format args).map fun (written, size) =>
    { buf := resize written MAX_MESSAGE_SIZE, size := size,
      overrun := decide (MAX_MESSAGE_SIZE < written.length) }

/-- `NewBundle`. Of an old bundle the bytes between the name and the last byte stay. -/
def newBundle (bundle : Bytes) : Bytes :=
  let id := ascii "#bundle"
  (id ++ (resize bundle 16).drop id.length).set 15 1

namespace State

def setOption (s : State) (option : Setting) : State :=
  { s with options := s.options ^^^ option.value }

def appendBundle (s : State) (message : Bytes) : State :=
  let s :=
    if s.udpBundle.length + message.length > MAX_MESSAGE_SIZE then
      { s with udpSent := s.udpSent ++ [s.udpBundle], udpBundle := newBundle s.udpBundle }
    else s
  if message.length ≠ 0 then
    let a := leBytes 4 (hton 4 message.length)
    { s with udpBundle := s.udpBundle ++ a ++ message }
  else s

def coreUsesUdp (s : State) : Bool := s.options &&& Setting.CORE_USE_UDP.value ≠ 0

def sendCoreMessage (s : State) (msg : Bytes) : State :=
  if s.coreUsesUdp then
    if s.startBundle then s.appendBundle msg
    else { s with udpSent := s.udpSent ++ [msg] }
  else { s with tcpSent := s.tcpSent ++ [msg] }

def setSystemMute (s : State) (mute : Bool) : State := s.sendCoreMessage (systemMuteMessage mute)

def setSystemVolume (s : State) (volume : BitVec 32) (db : Decibels) : State :=
  if inRange volume then s.sendCoreMessage (systemVolumeMessage db) else s

def load (s : State) : State := s.sendCoreMessage (loadMessage s.baseAddress)

def unload (s : State) : State := s.sendCoreMessage (unloadMessage s.baseAddress)

def setMute (s : State) (mute : Bool) : State :=
  s.sendCoreMessage (muteMessage s.baseAddress mute)

def setVolume (s : State) (volume : BitVec 32) (db : Decibels) : State :=
  if inRange volume then s.sendCoreMessage (volumeMessage s.baseAddress db) else s

def sendCustomTCP (s : State) (url : Bytes) (format : CString) (args : List Arg) :
    Option State :=
  (pack s.baseAddress url format args).map fun p =>
    let s := { s with overrun := s.overrun || p.overrun }
    if p.size > 0 then
      let buf := resize p.buf p.size.toNat
      { s with tcpSent := s.tcpSent ++ [buf] }
    else s

def sendCustomUDP (s : State) (url : Bytes) (format : CString) (args : List Arg) :
    Option State :=
  (pack s.baseAddress url format args).map fun p =>
    let s := { s with overrun := s.overrun || p.overrun }
    if p.size > 0 then
      let buf := resize p.buf p.size.toNat
      if s.startBundle then s.appendBundle buf
      else { s with udpSent := s.udpSent ++ [buf] }
    else s

def endBundle (s : State) : State :=
  let s :=
    if s.udpBundle.length > 16 then
      { s with udpSent := s.udpSent ++ [s.udpBundle], udpBundle := [] }
    else s
  { s with startBundle := false }

def beginBundle (s : State) : State :=
  let s := if s.startBundle then s.endBundle else s
  { s with udpBundle := newBundle s.udpBundle, startBundle := true }

end State

inductive Call where
  | setOption (option : Setting)
  | setSystemMute (mute : Bool)
  | setSystemVolume (volume : BitVec 32)
  | load
  | unload
  | setMute (mute : Bool)
  | setVolume (volume : BitVec 32)
  | sendCustomTCP (url : Bytes) (format : CString) (args : List Arg)
  | sendCustomUDP (url : Bytes) (format : CString) (args : List Arg)
  | startBundle
  | endBundle
  deriving DecidableEq

/-- One call; `none` when the arguments of a custom call do not match its format.
`decibels` is the expression `20*log10(volume)`. -/
def step (decibels : BitVec 32 → Decibels) (s : State) : Call → Option State
  | .setOption option => some (s.setOption option)
  | .setSystemMute mute => some (s.setSystemMute mute)
  | .setSystemVolume volume => some (s.setSystemVolume volume (decibels volume))
  | .load => some s.load
  | .unload => some s.unload
  | .setMute mute => some (s.setMute mute)
  | .setVolume volume => some (s.setVolume volume (decibels volume))
  | .sendCustomTCP url format args => s.sendCustomTCP url format args
  | .sendCustomUDP url format args => s.sendCustomUDP url format args
  | .startBundle => some s.beginBundle
  | .endBundle => some s.endBundle

def init (baseAddress : Bytes) : State := { baseAddress := baseAddress }

end AmClient.Client
