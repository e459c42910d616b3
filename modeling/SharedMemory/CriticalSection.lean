import SharedMemory.Lock

/-!
# Data under a lock

A critical section reads and writes the data it guards in separate steps and leaves with a result.
`Lock.guarding` takes the lock from a given label on, works through the section with the token in
hand, and gives that token back. A refused attempt leaves lock and data alone and answers `none`.
-/
namespace SharedMemory

inductive Section (Data Result : Type)
  | leave (result : Result)
  | read (next : Data → Section Data Result)
  | write (data : Data) (next : Section Data Result)

namespace Section

variable {Data Result : Type}

/-- The whole section at once. -/
def run : Section Data Result → Data → Data × Result
  | .leave result, data => (data, result)
  | .read next, data => (next data).run data
  | .write data next, _ => next.run data

/-- One update computed from what is read. -/
def update (f : Data → Data × Result) : Section Data Result :=
  .read fun data => .write (f data).1 (.leave (f data).2)

def inspect (f : Data → Result) : Section Data Result := .read fun data => .leave (f data)

@[simp] theorem run_update (f : Data → Data × Result) (data : Data) : (update f).run data = f data := rfl

@[simp] theorem run_inspect (f : Data → Result) (data : Data) :
    (inspect f).run data = (data, f data) := rfl

end Section

structure Guarded (Memory Data : Type) where
  lock : Memory
  data : Data

inductive SectionLabel (Label Token Data Result : Type)
  | entering (l : Label) (body : Section Data Result)
  | inside (token : Token) (body : Section Data Result)
  | leaving (l : Label) (result : Result)

namespace Lock

variable {Memory Label Token Data Result : Type}

def guardedStep (lock : Lock Memory Label Token) :
    SectionLabel Label Token Data Result → Guarded Memory Data →
      Effect (Guarded Memory Data) (SectionLabel Label Token Data Result) (Option Result)
  | .entering l body, ⟨m, data⟩ =>
    let (m, s) := lock.step l m
    ⟨⟨m, data⟩, match s with
      | .running l => .running (.entering l body)
      | .returned (.acquired token) => .running (.inside token body)
      | .returned _ => .returned none, []⟩
  | .inside token (.leave result), m => ⟨m, .running (.leaving (lock.release token) result), []⟩
  | .inside token (.read next), m => ⟨m, .running (.inside token (next m.data)), []⟩
  | .inside token (.write data next), m => ⟨⟨m.lock, data⟩, .running (.inside token next), []⟩
  | .leaving l result, ⟨m, data⟩ =>
    let (m, s) := lock.step l m
    ⟨⟨m, data⟩, match s with
      | .running l => .running (.leaving l result)
      | .returned _ => .returned (some result), []⟩

/-- A call names the label its acquisition begins at. -/
def guarding (lock : Lock Memory Label Token) :
    Algorithm (Guarded Memory Data) (Label × Section Data Result)
      (SectionLabel Label Token Data Result) Unit (Option Result) where
  enter call := .entering call.1 call.2
  step _ := lock.guardedStep

end Lock

end SharedMemory
