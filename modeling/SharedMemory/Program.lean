import SharedMemory.Algorithm

/-! # Finite programs: a thread that makes one call after another -/
namespace SharedMemory

/-- `inside` is `none` between two calls. The answers are listed newest first. -/
structure ProgramLabel (Call Label Answer : Type) where
  inside : Option Label
  left : List Call
  answers : List Answer

namespace Algorithm

variable {Memory Call Label Choice Answer : Type}

def program (alg : Algorithm Memory Call Label Choice Answer) :
    Algorithm Memory (List Call) (ProgramLabel Call Label Answer) Choice (List Answer) where
  enter calls := ⟨none, calls, []⟩
  step choice l m :=
    match l.inside, l.left with
    | none, [] => ⟨m, .returned l.answers.reverse, []⟩
    | none, c :: left => ⟨m, .running ⟨some (alg.enter c), left, l.answers⟩, []⟩
    | some inner, left =>
      let e := alg.step choice inner m
      match e.status with
      | .running inner => ⟨e.memory, .running ⟨some inner, left, l.answers⟩, e.events⟩
      | .returned a => ⟨e.memory, .running ⟨none, left, a :: l.answers⟩, e.events⟩

end Algorithm

end SharedMemory
