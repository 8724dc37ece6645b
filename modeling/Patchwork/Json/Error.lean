import Patchwork.Decimal.Shortest
import Patchwork.Text.Quoted

/-!
# What goes wrong in reading a document

A text is read once, from its start, and the first problem met is the answer: a text that is no
document, a text that ends too early, or a value that is not what is wanted there.
-/
namespace Patchwork.Json

inductive Number
  | integer (value : Int)
  | floating (value : Float)

/-- What stands where something else is wanted. Of a list or a record only the first character is
read. -/
inductive Found
  | null
  | boolean (value : Bool)
  | number (value : Number)
  | text (value : String)
  | list
  | record

inductive DataFault
  | missingField (name : String)
  | duplicateField (name : String)
  | unknownField (name : String) (expected : List String)
  | wrongKind (found : Found) (wanted : String)
  | outOfRange (found : Found) (wanted : String)
  | wrongLength (length : Nat) (wanted : String)
  | refused (message : String)

inductive ReadError
  | malformed
  | truncated
  | data (fault : DataFault)

/-- Digits around a point, without an exponent. -/
def positional (d : Decimal.Digits) : List Char :=
  if d.leading < 0 then
    ['0', '.'] ++ List.replicate (-d.leading - 1).toNat '0' ++ d.digits
  else
    let whole := d.leading.toNat + 1
    let fraction := d.digits.drop whole
    d.digits.take whole ++ List.replicate (whole - d.digits.length) '0' ++
      '.' :: if fraction.isEmpty then ['0'] else fraction

/-- A point after the first digit, and an exponent with its sign. -/
def scientific (d : Decimal.Digits) : List Char :=
  let fraction := d.digits.drop 1
  d.digits.take 1 ++ (if fraction.isEmpty then [] else '.' :: fraction) ++
    ['e', if d.leading < 0 then '-' else '+'] ++ Nat.toDigits 10 d.leading.natAbs

/-- Doubles from `1e-5` up to `1e16` are written without an exponent. -/
def floatText (x : Float) : String :=
  let sign := if x.toBits.toNat < UInt64.size / 2 then [] else ['-']
  let digits :=
    if x == 0.0 then ['0', '.', '0']
    else
      let d := Decimal.shortestDigits x
      if -5 ≤ d.leading && d.leading ≤ 15 then positional d else scientific d
  String.ofList (sign ++ digits)

def Found.describe : Found → String
  | .null => "null"
  | .boolean value => "boolean `" ++ (if value then "true" else "false") ++ "`"
  | .number (.integer value) => "integer `" ++ toString value ++ "`"
  | .number (.floating value) => "floating point `" ++ floatText value ++ "`"
  | .text value => "string " ++ Text.quoted value
  | .list => "sequence"
  | .record => "map"

def describeNames (names : List String) : String :=
  let quote := fun name => "`" ++ name ++ "`"
  match names with
  | [] => "there are no fields"
  | [name] => "expected " ++ quote name
  | [name, other] => "expected " ++ quote name ++ " or " ++ quote other
  | names => "expected one of " ++ ", ".intercalate (names.map quote)

def DataFault.message : DataFault → String
  | .missingField name => "missing field `" ++ name ++ "`"
  | .duplicateField name => "duplicate field `" ++ name ++ "`"
  | .unknownField name expected => "unknown field `" ++ name ++ "`, " ++ describeNames expected
  | .wrongKind found wanted => "invalid type: " ++ found.describe ++ ", expected " ++ wanted
  | .outOfRange found wanted => "invalid value: " ++ found.describe ++ ", expected " ++ wanted
  | .wrongLength length wanted => "invalid length " ++ toString length ++ ", expected " ++ wanted
  | .refused message => message

def ReadError.message : ReadError → String
  | .malformed => "malformed document"
  | .truncated => "the document ends too early"
  | .data fault => fault.message

end Patchwork.Json
