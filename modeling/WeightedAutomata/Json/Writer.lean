import WeightedAutomata.Decimal.Digits
import WeightedAutomata.Json.Value

/-!
Writing JSON texts.
-/
namespace WeightedAutomata.Json

def Numeral.render (n : Numeral) : String :=
  let magnitude := String.ofList (n.whole ++ Decimal.fractionText n.fraction)
  let power := n.power.elim "" fun power => s!"e{power}"
  (if n.negative then "-" else "") ++ magnitude ++ power

/-- Positional where the point falls at most 16 places behind the first digit or fewer than 5
before it, with one digit after the point at least; else with one digit before the point. -/
def Numeral.ofScientific (negative : Bool) (s : Decimal.Scientific) : Numeral :=
  if -5 < s.pointPlace ∧ s.pointPlace ≤ 16 then
    let (whole, fraction) := s.parts
    ⟨negative, whole, if fraction.isEmpty then ['0'] else fraction, none⟩
  else
    let digits := Nat.toDigits 10 s.digits
    ⟨negative, digits.take 1, digits.drop 1, some (s.pointPlace - 1)⟩

def hexDigits (n : Nat) : List Char :=
  let digits := Nat.toDigits 16 n
  List.replicate (4 - digits.length) '0' ++ digits

/-- The letter behind the backslash, for the characters that have a short escape. -/
def shortEscape? : Char → Option Char
  | '"' => some '"'
  | '\\' => some '\\'
  | '\x08' => some 'b'
  | '\x0c' => some 'f'
  | '\n' => some 'n'
  | '\r' => some 'r'
  | '\t' => some 't'
  | _ => none

def escapeChar (c : Char) : List Char :=
  match shortEscape? c with
  | some letter => ['\\', letter]
  | none => if c.toNat < 0x20 then '\\' :: 'u' :: hexDigits c.toNat else [c]

def quote (text : String) : String :=
  String.ofList ('"' :: text.toList.flatMap escapeChar ++ ['"'])

/-- An unreadable string is written as null. -/
def renderText : Option String → String
  | none => "null"
  | some text => quote text

mutual

def Value.render : Value → String
  | .null => "null"
  | .bool true => "true"
  | .bool false => "false"
  | .number n => n.render
  | .string text => renderText text
  | .array items => "[" ++ ",".intercalate (renderItems items) ++ "]"
  | .object members => "\x7b" ++ ",".intercalate (renderMembers members) ++ "\x7d"

def renderItems : List Value → List String
  | [] => []
  | v :: rest => v.render :: renderItems rest

def renderMembers : List (Option String × Value) → List String
  | [] => []
  | (key, v) :: rest => (renderText key ++ ":" ++ v.render) :: renderMembers rest

end

end WeightedAutomata.Json
