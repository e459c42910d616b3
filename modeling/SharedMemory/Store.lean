import SharedMemory.Value

/-!
# The sequential container

A discipline says at which end values enter. `Discipline.insert` and `Discipline.remove` say what that
means on a list whose head leaves next; a `Store` holds the same list in two halves, so that entering
at the far end costs no walk.
-/
namespace SharedMemory

inductive Discipline | lifo | fifo deriving DecidableEq

namespace Discipline

def insert (v : Value) : Discipline → List Value → List Value
  | .lifo, values => v :: values
  | .fifo, values => values ++ [v]

def remove : List Value → Option Value × List Value
  | [] => (none, [])
  | v :: values => (some v, values)

/-- One request against the list: what is found and what is left. -/
def serve (d : Discipline) : Request → List Value → Option Value × List Value
  | .insert v, values => (none, d.insert v values)
  | .remove, values => remove values

/-- All requests in order: what each found, and what is left. -/
def serveAll (d : Discipline) : List Request → List Value → List (Option Value) × List Value
  | [], values => ([], values)
  | r :: rest, values =>
    let (found, left) := d.serve r values
    let (more, final) := serveAll d rest left
    (found :: more, final)

end Discipline

/-- The list `near ++ far.reverse`, whose head leaves next. -/
structure Store where
  near : List Value := []
  far : List Value := []
  deriving DecidableEq

namespace Store

def toList (s : Store) : List Value := s.near ++ s.far.reverse

def ofList (values : List Value) : Store := ⟨values, []⟩

def isEmpty (s : Store) : Bool := s.near.isEmpty && s.far.isEmpty

def size (s : Store) : Nat := s.near.length + s.far.length

def insert (d : Discipline) (v : Value) (s : Store) : Store :=
  match d with
  | .lifo => { s with near := v :: s.near }
  | .fifo => { s with far := v :: s.far }

def remove (s : Store) : Option Value × Store :=
  match s.near with
  | v :: near => (some v, { s with near })
  | [] =>
    match s.far.reverse with
    | v :: near => (some v, ⟨near, []⟩)
    | [] => (none, s)

def serve (d : Discipline) (s : Store) : Request → Option Value × Store
  | .insert v => (none, s.insert d v)
  | .remove => s.remove

/-- Bottom of a stack or front of a queue first. -/
def inOrder (d : Discipline) (s : Store) : List Value :=
  match d with
  | .lifo => s.toList.reverse
  | .fifo => s.toList

@[simp] theorem toList_ofList (values : List Value) : (ofList values).toList = values := by
  simp [ofList, toList]

@[simp] theorem toList_empty : ({} : Store).toList = [] := rfl

@[simp] theorem toList_insert (d : Discipline) (v : Value) (s : Store) :
    (s.insert d v).toList = d.insert v s.toList := by
  cases d <;> simp [insert, toList, Discipline.insert]

@[simp] theorem size_eq (s : Store) : s.size = s.toList.length := by simp [size, toList]

@[simp] theorem isEmpty_eq (s : Store) : s.isEmpty = s.toList.isEmpty := by
  obtain ⟨near, far⟩ := s
  cases near <;> cases far <;> simp [isEmpty, toList]

theorem remove_eq (s : Store) :
    (s.remove.1, s.remove.2.toList) = Discipline.remove s.toList := by
  obtain ⟨near, far⟩ := s
  cases near with
  | cons v near => simp [remove, toList, Discipline.remove]
  | nil =>
    simp only [remove, toList, List.nil_append]
    generalize hr : far.reverse = back
    cases back with
    | nil => simp [Discipline.remove, hr]
    | cons v back => simp [Discipline.remove]

theorem serve_eq (d : Discipline) (s : Store) (r : Request) :
    ((s.serve d r).1, (s.serve d r).2.toList) = d.serve r s.toList := by
  cases r with
  | insert v => simp [serve, Discipline.serve]
  | remove => exact remove_eq s

end Store

end SharedMemory
