import SharedMemory.Answer
import SharedMemory.Interleaving

/-!
# An elimination array and the threads that offer values on it

Offers are made by threads of their own that never lose patience; every other exchange runs on the
calling thread, which gives up as soon as it may. After each step the offering threads run until
they wait, the oldest first.
-/
namespace SharedMemory

namespace EliminationArray

/-- Enough steps to claim, offer and free one slot, or to take one offer. -/
def exchangeSteps : Nat := 24

def report (m : Memory) : SlotReport where
  slots := m.slots.size
  free := m.freeSlots
  claims := m.claims
  offered := Value.sort m.offers
  only := if m.slots.size = 1 then m.slots[0]? else none

def answer : Answer → SharedMemory.Answer
  | .pushed eliminated => .flag eliminated
  | .popped found => .found found
  | .broken word expected => .refused (.panic (.wrongWord word expected))

/-- An exchange on the calling thread, begun at `now`. -/
def exchange (config : EliminationConfig) (now : Instant) (c : Call) (m : Memory) :
    Memory × Response :=
  match config.deadline? now with
  | none => (m, ⟨.refused (.panic .deadlineOverflow), []⟩)
  | some _ =>
    let r := algorithm.call impatient exchangeSteps c m
    (r.memory, ⟨.ofReturn answer r.status, r.trace.reverse⟩)

/-- A pusher and a popper that try until they have met. -/
def meet (v : Value) (m : Memory) : Memory × Response :=
  let crew := (Crew.start algorithm m [.push v, .pop]).rounds algorithm patient (2 * exchangeSteps)
  (crew.memory, ⟨match crew.answers? with
    | some [_, .popped (some v)] => .value v
    | _ => .refused .wouldBlock, crew.trace.reverse⟩)

end EliminationArray

namespace ArraySession

open EliminationArray

/-- The threads whose offers have not been joined, oldest first. -/
structure Session where
  config : EliminationConfig
  memory : Memory
  offers : List (Status Label EliminationArray.Answer) := []

inductive Step
  | freeSlots | config | report | reset
  | exchangePush (v : Value) | exchangePop
  | offer (v : Value) | take | takeAll | meet (v : Value)

def new (config : EliminationConfig) (now : Instant) : Except Error Session := do
  config.validate now
  return { config, memory := .ofConfig config }

namespace Session

/-- Runs the offering threads, and forgets those whose offer has been taken. -/
def settle (s : Session) (trace : List Event) : Session × List EliminationArray.Answer × List Event :=
  let crew := Crew.inTurn algorithm patient exchangeSteps ⟨s.memory, s.offers, trace⟩
  ({ s with memory := crew.memory, offers := crew.threads.filter (·.answer?.isNone) },
    crew.threads.filterMap Status.answer?, crew.trace)

def offer (v : Value) (s : Session) : Session × List Event :=
  let (s, _, trace) := { s with offers := s.offers ++ [Status.running (Label.pushProbe v)] }.settle []
  (s, trace.reverse)

/-- The thread that offered the taken value is joined before waiting offers move up. -/
def take (s : Session) : Session × Option TakenOffer × List Event :=
  if s.offers.isEmpty then (s, none, [])
  else
    let r := algorithm.call patient exchangeSteps .pop s.memory
    let (s, joined, trace) := { s with memory := r.memory }.settle r.trace
    let (s, _, trace) := s.settle trace
    (s, match r.status, joined with
      | .returned (.popped (some popped)), .pushed pushed :: _ => some ⟨popped, pushed⟩
      | _, _ => none, trace.reverse)

def takeUpTo : Nat → Session → Session × List TakenOffer × List Event
  | 0, s => (s, [], [])
  | n + 1, s =>
    match s.take with
    | (s, none, events) => (s, [], events)
    | (s, some t, events) =>
      let (s, ts, more) := takeUpTo n s
      (s, t :: ts, events ++ more)

def takeAll (s : Session) : Session × List TakenOffer × List Event :=
  let (s, ts, events) := s.takeUpTo s.offers.length
  (s, ts.mergeSort (fun a b => decide (a.popped ≤ b.popped)), events)

def exchange (now : Instant) (c : Call) (s : Session) : Session × Response :=
  let (m, response) := EliminationArray.exchange s.config now c s.memory
  let (s, _, trace) := { s with memory := m }.settle response.events.reverse
  (s, ⟨response.answer, trace.reverse⟩)

def perform (now : Instant) (s : Session) : Step → Session × Response
  | .freeSlots => (s, ⟨.number s.memory.freeSlots, []⟩)
  | .config => (s, ⟨.config s.config, []⟩)
  | .report => (s, ⟨.slots (EliminationArray.report s.memory), []⟩)
  | .reset =>
    if s.offers.isEmpty then ({ s with memory := s.memory.reset }, ⟨.ok, []⟩)
    else (s, ⟨.refused .busy, []⟩)
  | .exchangePush v => s.exchange now (.push v)
  | .exchangePop => s.exchange now .pop
  | .offer v => let (s, events) := s.offer v; (s, ⟨.ok, events⟩)
  | .take => let (s, t, events) := s.take; (s, ⟨.taken t, events⟩)
  | .takeAll => let (s, ts, events) := s.takeAll; (s, ⟨.allTaken ts, events⟩)
  | .meet v =>
    let (m, response) := EliminationArray.meet v s.memory
    ({ s with memory := m }, response)

end Session

end ArraySession

end SharedMemory
