import Bdtrace.Types
import Mathlib.Data.Nat.Digits.Defs
import Mathlib.Data.Nat.Digits.Lemmas

/-! The JSON writer of the web server, and a parser that reads its text back. -/
namespace Bdtrace

/-- What a `const char*` can hold. -/
abbrev CStr := { s : Str // '\x00' ∉ s }

/-! ### The writer -/

structure JsonWriter where
  buf : Str := []
  stack : List Bool := []
  needComma : Bool := false

def hexDigit (n : Nat) : Char := if n < 10 then Char.ofNat (48 + n) else Char.ofNat (87 + n)

/-- One character of the `switch` in `escape_`. -/
def escapeChar (c : Char) : Str :=
  if c = '\"' then ['\\', '\"']
  else if c = '\\' then ['\\', '\\']
  else if c = '\x08' then ['\\', 'b']
  else if c = '\x0c' then ['\\', 'f']
  else if c = '\n' then ['\\', 'n']
  else if c = '\r' then ['\\', 'r']
  else if c = '\t' then ['\\', 't']
  else if c.toNat < 0x20 then ['\\', 'u', '0', '0', hexDigit (c.toNat / 16), hexDigit (c.toNat % 16)]
  else [c]

/-- The loop stops at the terminating NUL. -/
def escape (s : Str) : Str := '\"' :: (s.takeWhile (· ≠ '\x00')).flatMap escapeChar ++ ['\"']

/-- What `%d` and `%lld` print. -/
def decimal (v : Int) : Str :=
  (if v < 0 then ['-'] else []) ++
    if v = 0 then ['0'] else (Nat.digits 10 v.natAbs).reverse.map fun d => Char.ofNat (48 + d)

namespace JsonWriter
variable (w : JsonWriter)

def comma : JsonWriter := if w.needComma then { w with buf := w.buf ++ [','] } else w

/-- A scalar after its comma. -/
def put (text : Str) : JsonWriter := { w.comma with buf := w.comma.buf ++ text, needComma := true }

def beginObject : JsonWriter :=
  { buf := w.comma.buf ++ ['\x7b'], stack := false :: w.comma.stack, needComma := false }

def endObject : JsonWriter := { buf := w.buf ++ ['\x7d'], stack := w.stack.tail, needComma := true }

def beginArray : JsonWriter :=
  { buf := w.comma.buf ++ ['['], stack := false :: w.comma.stack, needComma := false }

def endArray : JsonWriter := { buf := w.buf ++ [']'], stack := w.stack.tail, needComma := true }

def key (k : Str) : JsonWriter := { w.comma with buf := w.comma.buf ++ escape k ++ [':'], needComma := false }

def valStr (s : Str) : JsonWriter := w.put (escape s)

def valInt (v : BitVec 32) : JsonWriter := w.put (decimal v.toInt)

def valInt64 (v : BitVec 64) : JsonWriter := w.put (decimal v.toInt)

def valBool (v : Bool) : JsonWriter := w.put (if v then "true".toList else "false".toList)

def nullVal : JsonWriter := w.put "null".toList

def str : Str := w.buf

end JsonWriter

/-- A tree of values as a caller writes it. -/
inductive JsonTree where
  | str (s : CStr)
  | int (v : BitVec 32)
  | int64 (v : BitVec 64)
  | bool (v : Bool)
  | null
  | arr (items : List JsonTree)
  | obj (members : List (CStr × JsonTree))

namespace JsonWriter

mutual

/-- The balanced calls for a tree. -/
def write : JsonTree → JsonWriter → JsonWriter
  | .str s, w => w.valStr s.1
  | .int v, w => w.valInt v
  | .int64 v, w => w.valInt64 v
  | .bool v, w => w.valBool v
  | .null, w => w.nullVal
  | .arr items, w => (writeItems items w.beginArray).endArray
  | .obj members, w => (writeMembers members w.beginObject).endObject

def writeItems : List JsonTree → JsonWriter → JsonWriter
  | [], w => w
  | t :: ts, w => writeItems ts (write t w)

def writeMembers : List (CStr × JsonTree) → JsonWriter → JsonWriter
  | [], w => w
  | (k, t) :: ms, w => writeMembers ms (write t (w.key k.1))

end

end JsonWriter

/-! ### The parser -/

inductive Json where
  | str (s : Str)
  | num (v : Int)
  | bool (v : Bool)
  | null
  | arr (items : List Json)
  | obj (members : List (Str × Json))

mutual

/-- What a tree means: an integer of either width is a number. -/
def JsonTree.json : JsonTree → Json
  | .str s => .str s.1
  | .int v => .num v.toInt
  | .int64 v => .num v.toInt
  | .bool v => .bool v
  | .null => .null
  | .arr items => .arr (jsonItems items)
  | .obj members => .obj (jsonMembers members)

def jsonItems : List JsonTree → List Json
  | [] => []
  | t :: ts => t.json :: jsonItems ts

def jsonMembers : List (CStr × JsonTree) → List (Str × Json)
  | [] => []
  | (k, t) :: ms => (k.1, t.json) :: jsonMembers ms

end

namespace Json

def isWs (c : Char) : Bool := c = ' ' || c = '\t' || c = '\n' || c = '\r'

def skipWs (s : Str) : Str := s.dropWhile isWs

def hexValue (c : Char) : Option Nat :=
  if '0' ≤ c ∧ c ≤ '9' then some (c.toNat - 48)
  else if 'a' ≤ c ∧ c ≤ 'f' then some (c.toNat - 87)
  else if 'A' ≤ c ∧ c ≤ 'F' then some (c.toNat - 55)
  else none

/-- The bytes of a code point below 0x10000. -/
def utf8 (n : Nat) : Str :=
  if n < 0x80 then [Char.ofNat n]
  else if n < 0x800 then [Char.ofNat (0xc0 + n / 64), Char.ofNat (0x80 + n % 64)]
  else [Char.ofNat (0xe0 + n / 4096), Char.ofNat (0x80 + n / 64 % 64), Char.ofNat (0x80 + n % 64)]

/-- The rest of a string after its opening quote. Surrogates are refused. -/
def parseString : Str → Option (Str × Str)
  | '\"' :: rest => some ([], rest)
  | '\\' :: 'u' :: a :: b :: c :: d :: rest =>
    match hexValue a, hexValue b, hexValue c, hexValue d with
    | some a, some b, some c, some d =>
      let n := ((a * 16 + b) * 16 + c) * 16 + d
      if 0xd800 ≤ n ∧ n < 0xe000 then none
      else (parseString rest).map fun p => (utf8 n ++ p.1, p.2)
    | _, _, _, _ => none
  | '\\' :: c :: rest =>
    let decoded : Option Char :=
      if c = '\"' ∨ c = '\\' ∨ c = '/' then some c
      else if c = 'b' then some '\x08'
      else if c = 'f' then some '\x0c'
      else if c = 'n' then some '\n'
      else if c = 'r' then some '\r'
      else if c = 't' then some '\t'
      else none
    match decoded with
    | none => none
    | some c => (parseString rest).map fun p => (c :: p.1, p.2)
  | c :: rest => if c.toNat < 0x20 then none else (parseString rest).map fun p => (c :: p.1, p.2)
  | [] => none

def isDigit (c : Char) : Bool := decide ('0' ≤ c ∧ c ≤ '9')

/-- Digits without a leading zero, and no fraction or exponent after them. -/
def parseNat (s : Str) : Option (Nat × Str) :=
  let digits := s.takeWhile isDigit
  let rest := s.dropWhile isDigit
  if digits = [] ∨ (digits.head? = some '0' ∧ digits ≠ ['0']) ∨ rest.head? = some '.' ∨ rest.head? = some 'e' ∨
      rest.head? = some 'E' then none
  else some (digits.foldl (fun n c => n * 10 + (c.toNat - 48)) 0, rest)

def parseNumber : Str → Option (Json × Str)
  | '-' :: s => (parseNat s).map fun p => (.num (-p.1), p.2)
  | s => (parseNat s).map fun p => (.num p.1, p.2)

mutual

def parseValue : Nat → Str → Option (Json × Str)
  | 0, _ => none
  | fuel + 1, s =>
    match skipWs s with
    | '\x7b' :: rest =>
      match skipWs rest with
      | '\x7d' :: rest => some (.obj [], rest)
      | rest => (parseMembers fuel rest).map fun p => (.obj p.1, p.2)
    | '[' :: rest =>
      match skipWs rest with
      | ']' :: rest => some (.arr [], rest)
      | rest => (parseItems fuel rest).map fun p => (.arr p.1, p.2)
    | '\"' :: rest => (parseString rest).map fun p => (.str p.1, p.2)
    | 't' :: 'r' :: 'u' :: 'e' :: rest => some (.bool true, rest)
    | 'f' :: 'a' :: 'l' :: 's' :: 'e' :: rest => some (.bool false, rest)
    | 'n' :: 'u' :: 'l' :: 'l' :: rest => some (.null, rest)
    | s => parseNumber s

def parseItems : Nat → Str → Option (List Json × Str)
  | 0, _ => none
  | fuel + 1, s =>
    (parseValue fuel s).bind fun p =>
      match skipWs p.2 with
      | ',' :: rest => (parseItems fuel rest).map fun q => (p.1 :: q.1, q.2)
      | ']' :: rest => some ([p.1], rest)
      | _ => none

def parseMembers : Nat → Str → Option (List (Str × Json) × Str)
  | 0, _ => none
  | fuel + 1, s =>
    match skipWs s with
    | '\"' :: rest =>
      (parseString rest).bind fun k =>
        match skipWs k.2 with
        | ':' :: rest =>
          (parseValue fuel rest).bind fun p =>
            match skipWs p.2 with
            | ',' :: rest => (parseMembers fuel rest).map fun q => ((k.1, p.1) :: q.1, q.2)
            | '\x7d' :: rest => some ([(k.1, p.1)], rest)
            | _ => none
        | _ => none
    | _ => none

end

/-- A whole text: one value and nothing after it. -/
def parse (s : Str) : Option Json :=
  (parseValue s.length s).bind fun p => if skipWs p.2 = [] then some p.1 else none

end Json
end Bdtrace
