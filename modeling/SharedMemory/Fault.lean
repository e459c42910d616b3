import SharedMemory.DebugText

/-! # Errors a container reports, and the panics that end a thread -/
namespace SharedMemory

/-- Why a configuration is refused. -/
inductive ConfigFault
  | noSlots | zeroTimeout | deadlineOverflow | noLogCapacity | noParties
  deriving DecidableEq

def ConfigFault.message : ConfigFault → String
  | .noSlots => "elimination array needs at least one slot"
  | .zeroTimeout => "elimination timeout must be non-zero"
  | .deadlineOverflow => "elimination timeout overflows a deadline"
  | .noLogCapacity => "request log capacity must be non-zero"
  | .noParties => "a barrier needs at least one party"

inductive Error | logFull (capacity : UInt64) | invalidConfig (message : String)
  deriving DecidableEq

namespace Error

def ofFault (fault : ConfigFault) : Error := .invalidConfig fault.message

def display : Error → String
  | .logFull capacity =>
    "flat-combining request log is full (capacity " ++ toString capacity.toNat ++ ")"
  | .invalidConfig message => "invalid configuration: " ++ message

def debug : Error → String
  | .logFull capacity => "LogFull \x7b capacity: " ++ toString capacity.toNat ++ " \x7d"
  | .invalidConfig message => "InvalidConfig(" ++ DebugText.quoted message ++ ")"

end Error

/-- What ends a thread. `workerLost` is met by the thread that joins a panicked one, `scopeLost` by
the thread whose scope ends with a panicked thread that nobody joined. -/
inductive Panic
  | error (cause : Error)
  | addOverflow | multiplyOverflow | deadlineOverflow
  | foreignGuard | emptyAfterInsert | nullNode
  | outOfOrder (producer : Nat) (value last : Value)
  | workerLost | scopeLost
  | mismatch (label : Option String) (left right : String)
  deriving DecidableEq

/-- A word that is not the one it has to be. -/
def Panic.wrongWord (found expected : UInt64) : Panic :=
  .mismatch none (toString found.toNat) (toString expected.toNat)

def Panic.message : Panic → String
  | .error cause => cause.display
  | .addOverflow => "attempt to add with overflow"
  | .multiplyOverflow => "attempt to multiply with overflow"
  | .deadlineOverflow => "overflow when adding duration to instant"
  | .foreignGuard => "guard of another lock"
  | .emptyAfterInsert => "removal right after an insert"
  | .outOfOrder producer value last =>
    "producer " ++ toString producer ++ ": " ++ DebugText.ofValue value ++ " after " ++
      DebugText.ofValue last
  | .nullNode => "the sentinel of a non-empty queue has no successor"
  | .workerLost => "called `Result::unwrap()` on an `Err` value: Any \x7b .. \x7d"
  | .scopeLost => "a scoped thread panicked"
  | .mismatch label left right =>
    "assertion `left == right` failed" ++ (label.map (": " ++ ·)).getD "" ++
      "\n  left: " ++ left ++ "\n right: " ++ right

end SharedMemory
