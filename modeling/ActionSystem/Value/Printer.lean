import ActionSystem.Value.Basic
import ActionSystem.Text.Quoted

/-!
# The text of values

Sets stand in braces, sequences in double angle brackets, and a function over names is written as
a record; any other function is a chain of single bindings.
-/

namespace ActionSystem.Value

def isRecord (es : List (Value × Value)) : Bool := es.all fun e => e.1.kind = .str

def joined (between : String) (pieces : List (List Char)) : List Char :=
  between.toList.intercalate pieces

mutual

def chars : Value → List Char
  | .bool true => "TRUE".toList
  | .bool false => "FALSE".toList
  | .int n => Integer.render n
  | .str s => Text.quote s
  | .set xs => '\x7b' :: (joined ", " (charsAll xs) ++ ['\x7d'])
  | .seq xs => '<' :: '<' :: (joined ", " (charsAll xs) ++ ['>', '>'])
  | .fn es =>
    if isRecord es then '[' :: (joined ", " (fieldChars es) ++ [']'])
    else '(' :: (joined " @@ " (bindingChars es) ++ [')'])
termination_by structural v => v

def charsAll : List Value → List (List Char)
  | [] => []
  | x :: xs => chars x :: charsAll xs
termination_by structural xs => xs

def fieldChars : List (Value × Value) → List (List Char)
  | [] => []
  | (.str name, v) :: es => (name.toList ++ (" |-> ".toList ++ chars v)) :: fieldChars es
  | (k, v) :: es => (chars k ++ (" |-> ".toList ++ chars v)) :: fieldChars es
termination_by structural es => es

def bindingChars : List (Value × Value) → List (List Char)
  | [] => []
  | (k, v) :: es => (chars k ++ (" :> ".toList ++ chars v)) :: bindingChars es
termination_by structural es => es

end

def render (v : Value) : String := String.ofList v.chars

end ActionSystem.Value
