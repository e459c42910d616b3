import SharedMemory.Value

/-! # The text of values in messages: options, lists and quoted strings -/
namespace SharedMemory.DebugText

def ofValue (v : Value) : String := toString v.toInt

def ofOption : Option Value → String
  | some v => "Some(" ++ ofValue v ++ ")"
  | none => "None"

def ofList (values : List Value) : String := "[" ++ ", ".intercalate (values.map ofValue) ++ "]"

/-- The escape of one ASCII character inside double quotes. A control character without a letter of
its own is written by its number in base sixteen. -/
def escape (c : Char) : List Char :=
  if c = '"' then ['\\', '"']
  else if c = '\\' then ['\\', '\\']
  else if c = '\n' then ['\\', 'n']
  else if c = '\r' then ['\\', 'r']
  else if c = '\t' then ['\\', 't']
  else if c = '\x00' then ['\\', '0']
  else if c.toNat < 32 ∨ c.toNat = 127 then
    ['\\', 'u', '\x7b'] ++ Nat.toDigits 16 c.toNat ++ ['\x7d']
  else [c]

def quoted (text : String) : String := "\"" ++ String.ofList (text.toList.flatMap escape) ++ "\""

end SharedMemory.DebugText
