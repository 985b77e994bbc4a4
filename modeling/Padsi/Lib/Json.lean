import Padsi.Lib.Python

/-! # JSON values in Python

Each operation is defined for some kinds of values and raises an exception for the
others. Numbers are integers.
-/
namespace Padsi.Python
open Text

inductive Json where
  | null
  | bool (b : Bool)
  | num (n : ℤ)
  | str (s : Str)
  | arr (items : List Json)
  | obj (fields : List (Str × Json))
deriving Repr

inductive Fault where
  | key
  | type
  | attribute
  | index
deriving DecidableEq, Repr

namespace Json

def field (key : Str) : List (Str × Json) → Option Json
  | [] => none
  | (k,v) :: fields => if k = key then some v else field key fields

def get (key : Str) : Json → Except Fault (Option Json)
  | .obj fields =>
    match field key fields with
    | some .null => .ok none
    | r => .ok r
  | _ => .error .attribute

def getOr (key : Str) (j default : Json) : Except Fault Json :=
  match j with
  | .obj fields => .ok ((field key fields).getD default)
  | _ => .error .attribute

def index (key : Str) : Json → Except Fault Json
  | .obj fields =>
    match field key fields with
    | some v => .ok v
    | none => .error .key
  | _ => .error .type

def item (i : ℕ) : Json → Except Fault Json
  | .arr items =>
    match items.drop i with
    | v :: _ => .ok v
    | [] => .error .index
  | .str s =>
    match s.drop i with
    | c :: _ => .ok (.str [c])
    | [] => .error .index
  | .obj _ => .error .key
  | _ => .error .type

def isStr (s : Str) : Json → Bool
  | .str t => decide (t = s)
  | _ => false

def has (key : Str) : Json → Except Fault Bool
  | .obj fields => .ok (field key fields).isSome
  | .str s => .ok (contains key s)
  | .arr items => .ok (items.any (isStr key))
  | _ => .error .type

def elements : Json → Except Fault (List Json)
  | .arr items => .ok items
  | .str s => .ok (s.map fun c => .str [c])
  | .obj fields => .ok (fields.map fun f => .str f.1)
  | _ => .error .type

def asInt : Json → Option ℤ
  | .num n => some n
  | .bool b => some (if b then 1 else 0)
  | _ => none

mutual

def text : Json → Str
  | .null => "None"
  | .bool b => if b then "True" else "False"
  | .num n => if n < 0 then '-' :: Nat.toDigits 10 n.natAbs else Nat.toDigits 10 n.natAbs
  | .str s => '\'' :: s ++ ['\'']
  | .arr items => '[' :: ", ".toList.intercalate (texts items) ++ [']']
  | .obj fields => '\x7b' :: ", ".toList.intercalate (fieldTexts fields) ++ ['\x7d']

def texts : List Json → List Str
  | [] => []
  | j :: items => j.text :: texts items

def fieldTexts : List (Str × Json) → List Str
  | [] => []
  | (k,v) :: fields => ('\'' :: k ++ "': " ++ v.text) :: fieldTexts fields

end

def format : Json → Str
  | .str s => s
  | j => j.text

def unicodeEscape (n : ℕ) : Str := '\\' :: 'u' :: [n / 4096,n / 256,n / 16,n].map fun d => Nat.digitChar (d % 16)

def escape (c : Char) : Str :=
  match c with
  | '"' => ['\\','"']
  | '\\' => ['\\','\\']
  | '\n' => ['\\','n']
  | '\r' => ['\\','r']
  | '\t' => ['\\','t']
  | '\x08' => ['\\','b']
  | '\x0c' => ['\\','f']
  | c =>
    if 0x20 ≤ c.toNat ∧ c.toNat < 0x7f then [c]
    else if c.toNat < 0x10000 then unicodeEscape c.toNat
    else unicodeEscape (0xd800 + (c.toNat - 0x10000) / 0x400) ++ unicodeEscape (0xdc00 + (c.toNat - 0x10000) % 0x400)

def quoted (s : Str) : Str := '"' :: s.flatMap escape ++ ['"']

mutual

def dumps : Json → Str
  | .null => "null"
  | .bool b => if b then "true" else "false"
  | .num n => if n < 0 then '-' :: Nat.toDigits 10 n.natAbs else Nat.toDigits 10 n.natAbs
  | .str s => quoted s
  | .arr items => '[' :: ", ".toList.intercalate (dumpsItems items) ++ [']']
  | .obj fields => '\x7b' :: ", ".toList.intercalate (dumpsFields fields) ++ ['\x7d']

def dumpsItems : List Json → List Str
  | [] => []
  | j :: items => j.dumps :: dumpsItems items

def dumpsFields : List (Str × Json) → List Str
  | [] => []
  | (k,v) :: fields => (quoted k ++ ": " ++ v.dumps) :: dumpsFields fields

end

theorem get_obj {key : Str} {fields : List (Str × Json)} (h : field key fields = none) :
    get key (.obj fields) = .ok none := by
  rw [get,h]

end Json

end Padsi.Python
