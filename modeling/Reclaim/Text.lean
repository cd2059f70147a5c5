set_option autoImplicit false

namespace Reclaim.Text

def record (name : String) (fields : List (String × String)) : String :=
  name ++ " \x7b " ++ ", ".intercalate (fields.map fun f => f.1 ++ ": " ++ f.2) ++ " \x7d"

def sequence (items : List String) : String :=
  "[" ++ ", ".intercalate items ++ "]"

def bool (b : Bool) : String :=
  if b then "true" else "false"

def option : Option String → String
  | none => "None"
  | some s => "Some(" ++ s ++ ")"

def hexadecimal (n : Nat) : String :=
  "0x" ++ String.ofList (Nat.toDigits 16 n)

end Reclaim.Text
