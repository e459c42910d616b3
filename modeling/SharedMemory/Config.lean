import SharedMemory.Clock
import SharedMemory.Fault

/-! # Configurations of elimination arrays and request logs -/
namespace SharedMemory

structure EliminationConfig where
  slots : UInt64 := 16
  timeout : Duration := Duration.ofMicros 100
  deriving DecidableEq

namespace EliminationConfig

/-- The moment at which an exchange begun at `now` gives up. -/
def deadline? (config : EliminationConfig) (now : Instant) : Option Instant :=
  now.add? config.timeout

/-- The first fault, with the clock at `now`. -/
def fault? (config : EliminationConfig) (now : Instant) : Option ConfigFault :=
  if config.slots = 0 then some .noSlots
  else if config.timeout.isZero then some .zeroTimeout
  else if (config.deadline? now).isNone then some .deadlineOverflow
  else none

def validate (config : EliminationConfig) (now : Instant) : Except Error Unit :=
  match config.fault? now with
  | some fault => .error (.ofFault fault)
  | none => .ok ()

inductive Setting | slots (count : UInt64) | timeout (wait : Duration) deriving DecidableEq

def set (config : EliminationConfig) : Setting → EliminationConfig
  | .slots count => { config with slots := count }
  | .timeout wait => { config with timeout := wait }

/-- The defaults changed by the settings in order, checked once at the end. -/
def build (settings : List Setting) (now : Instant) : Except Error EliminationConfig := do
  let config := settings.foldl set {}
  config.validate now
  return config

end EliminationConfig

structure LogConfig where
  capacity : UInt64 := 100000
  deriving DecidableEq

namespace LogConfig

def validate (config : LogConfig) : Except Error Unit :=
  if config.capacity = 0 then .error (.ofFault .noLogCapacity) else .ok ()

def build (capacities : List UInt64) : Except Error LogConfig := do
  let config := capacities.foldl (fun _ capacity => ⟨capacity⟩) {}
  config.validate
  return config

end LogConfig

end SharedMemory
