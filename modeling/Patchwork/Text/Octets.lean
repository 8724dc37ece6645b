/-!
# Text in octets

Reading octets that need not be UTF-8: where the first sequence that encodes no character stands,
and the text with every such sequence replaced by U+FFFD.
-/
namespace Patchwork.Text

inductive SequenceHead
  /-- An encoded character of `width` octets. -/
  | whole (width : Nat)
  /-- `width` octets that begin a character and are not continued as one. -/
  | broken (width : Nat)
  /-- A character that the end of the octets cuts off. -/
  | cut
  deriving DecidableEq, Repr

/-- The ranges of the octets that must follow a first octet, if it can begin a character. -/
def followers (first : UInt8) : Option (List (UInt8 × UInt8)) :=
  let any : UInt8 × UInt8 := (0x80, 0xbf)
  if first < 0x80 then some []
  else if first < 0xc2 then none
  else if first < 0xe0 then some [any]
  else if first = 0xe0 then some [(0xa0, 0xbf), any]
  else if first = 0xed then some [(0x80, 0x9f), any]
  else if first < 0xf0 then some [any, any]
  else if first = 0xf0 then some [(0x90, 0xbf), any, any]
  else if first < 0xf4 then some [any, any, any]
  else if first = 0xf4 then some [(0x80, 0x8f), any, any]
  else none

/-- Checks the octets after the first `read` ones against their ranges. -/
def continueHead (read : Nat) : List (UInt8 × UInt8) → List UInt8 → SequenceHead
  | [], _ => .whole read
  | _ :: _, [] => .cut
  | r :: rs, b :: bs => if r.1 ≤ b && b ≤ r.2 then continueHead (read + 1) rs bs else .broken read

def sequenceHead (first : UInt8) (rest : List UInt8) : SequenceHead :=
  match followers first with
  | none => .broken 1
  | some ranges => continueHead 1 ranges rest

def charOfOctets (first : UInt8) (rest : List UInt8) : Char :=
  let lead := match rest.length with
    | 0 => first.toNat
    | 1 => first.toNat % 32
    | 2 => first.toNat % 16
    | _ => first.toNat % 8
  Char.ofNat (rest.foldl (fun n b => n * 64 + b.toNat % 64) lead)

/-- Reads octets as text, with U+FFFD for every sequence that encodes no character. -/
def readLossy (bytes : List UInt8) : List Char :=
  match bytes with
  | [] => []
  | b :: bs =>
    match sequenceHead b bs with
    | .whole width => charOfOctets b (bs.take (width - 1)) :: readLossy (bs.drop (width - 1))
    | .broken width => '\ufffd' :: readLossy (bs.drop (width - 1))
    | .cut => ['\ufffd']
termination_by bytes.length
decreasing_by all_goals (simp only [List.length_cons, List.length_drop]; omega)

/-- The first place where octets stop being UTF-8; without a width the end cuts a character off. -/
structure OctetFault where
  index : Nat
  width : Option Nat
  deriving DecidableEq, Repr

def octetFaultFrom (index : Nat) (bytes : List UInt8) : Option OctetFault :=
  match bytes with
  | [] => none
  | b :: bs =>
    match sequenceHead b bs with
    | .whole width => octetFaultFrom (index + width) (bs.drop (width - 1))
    | .broken width => some ⟨index, some width⟩
    | .cut => some ⟨index, none⟩
termination_by bytes.length
decreasing_by simp only [List.length_cons, List.length_drop]; omega

def octetFault (bytes : ByteArray) : Option OctetFault := octetFaultFrom 0 bytes.toList

def OctetFault.message (f : OctetFault) : String :=
  let index := toString f.index
  match f.width with
  | some width =>
    let width := toString width
    s!"invalid utf-8 sequence of {width} bytes from index {index}"
  | none => s!"incomplete utf-8 byte sequence from index {index}"

end Patchwork.Text
