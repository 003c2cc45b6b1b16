import CodonGrammar.Text.Quoted

/-!
# Reading UTF-8

Bytes are read as text one character at a time. The first byte of a character says how many bytes
follow it and in which range the first of them lies; all others lie between `80` and `BF`. These
ranges rule out forms that are longer than needed, surrogates, and numbers that are no code points.
Reading stops at the first character that is not well formed, and the error says how many of its
bytes were still right.
-/

namespace CodonGrammar.Text

/-- Why bytes are no character. -/
inductive Utf8Fault where
  /-- No character starts with this byte. -/
  | start
  /-- A byte cannot follow the ones before it. -/
  | continuation
  /-- The bytes end in the middle of a character. -/
  | cutOff
  deriving DecidableEq, Repr

/-- Bytes that are no character: where they start, how many were still right, and the first one. -/
structure Utf8Error where
  fault : Utf8Fault
  position : Nat
  length : Nat
  byte : UInt8
  deriving DecidableEq, Repr

def Utf8Fault.message : Utf8Fault → String
  | start => "invalid start byte"
  | continuation => "invalid continuation byte"
  | cutOff => "unexpected end of data"

/-- The text of an error. One byte is shown, and of more bytes the positions. -/
def Utf8Error.message (error : Utf8Error) : String :=
  let bytes :=
    if error.length = 1 then
      "byte 0x" ++ String.ofList (hexDigits 2 error.byte.toNat) ++ " in position "
        ++ error.position.repr
    else
      "bytes in position " ++ error.position.repr ++ "-"
        ++ (error.position + error.length - 1).repr
  "'utf-8' codec can't decode " ++ bytes ++ ": " ++ error.fault.message

/-- What a first byte says about its character: its own share of the code point, how many bytes
follow, and the range of the first of them. -/
structure LeadByte where
  share : Nat
  following : Nat
  low : Nat
  high : Nat

/-- What a byte says as the first one of a character, if it can be that. -/
def LeadByte.of? (byte : Nat) : Option LeadByte :=
  if byte ≤ 0x7F then some ⟨byte, 0, 0x80, 0xBF⟩
  else if byte < 0xC2 then none
  else if byte ≤ 0xDF then some ⟨byte - 0xC0, 1, 0x80, 0xBF⟩
  else if byte = 0xE0 then some ⟨0, 2, 0xA0, 0xBF⟩
  else if byte = 0xED then some ⟨0xD, 2, 0x80, 0x9F⟩
  else if byte ≤ 0xEF then some ⟨byte - 0xE0, 2, 0x80, 0xBF⟩
  else if byte = 0xF0 then some ⟨0, 3, 0x90, 0xBF⟩
  else if byte = 0xF4 then some ⟨4, 3, 0x80, 0x8F⟩
  else if byte ≤ 0xF3 then some ⟨byte - 0xF0, 3, 0x80, 0xBF⟩
  else none

/-- How the bytes after the first one of a character go. -/
inductive Following where
  /-- They are all there, and make this code point. -/
  | whole (codePoint : Nat)
  /-- So many bytes of the character are right, and then there is a fault. -/
  | broken (fault : Utf8Fault) (length : Nat)

/-- Reads the bytes that follow in a character. The range is that of the next byte. -/
def readFollowing : (following length codePoint low high : Nat) → List UInt8 → Following
  | 0, _, codePoint, _, _, _ => .whole codePoint
  | _ + 1, length, _, _, _, [] => .broken .cutOff length
  | following + 1, length, codePoint, low, high, byte :: rest =>
    if low ≤ byte.toNat ∧ byte.toNat ≤ high then
      readFollowing following (length + 1) (codePoint * 64 + (byte.toNat - 0x80)) 0x80 0xBF rest
    else .broken .continuation length

def readUtf8From (position : Nat) (bytes : List UInt8) : Except Utf8Error (List Char) :=
  match bytes with
  | [] => .ok []
  | byte :: rest =>
    match LeadByte.of? byte.toNat with
    | none => .error ⟨.start, position, 1, byte⟩
    | some lead =>
      match readFollowing lead.following 1 lead.share lead.low lead.high rest with
      | .broken fault length => .error ⟨fault, position, length, byte⟩
      | .whole codePoint =>
        match readUtf8From (position + 1 + lead.following) (rest.drop lead.following) with
        | .ok chars => .ok (Char.ofNat codePoint :: chars)
        | .error error => .error error
termination_by bytes.length
decreasing_by
  simp only [List.length_drop, List.length_cons]
  omega

def readUtf8 (bytes : List UInt8) : Except Utf8Error (List Char) := readUtf8From 0 bytes

end CodonGrammar.Text
