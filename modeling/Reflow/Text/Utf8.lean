/-!
# UTF-8

Bytes are read as characters from left to right.  The first byte of a character says how many bytes
follow it and in what range the next one is; a byte that does not fit ends the reading.

* `DecodeError`   which bytes are at fault, and why;
* `leadByte?`     what a first byte says about the others;
* `decode`        the characters of a list of bytes.
-/

namespace Reflow.Text

/-- why bytes are not characters -/
inductive DecodeFault where
  | startByte
  | continuationByte
  /-- the bytes end within a character -/
  | truncated
  deriving DecidableEq, Repr

/-- the bytes that are not characters: the place and the value of the first one, and their number -/
structure DecodeError where
  fault : DecodeFault
  place : Nat
  byte : UInt8
  count : Nat
  deriving DecidableEq, Repr

namespace DecodeError

/-- a byte in two hexadecimal digits -/
def byteText (b : UInt8) : String :=
  let digits := Nat.toDigits 16 b.toNat
  "0x" ++ String.ofList (List.replicate (2 - digits.length) '0' ++ digits)

def message (e : DecodeError) : String :=
  let reason := match e.fault with
    | .startByte => "invalid start byte"
    | .continuationByte => "invalid continuation byte"
    | .truncated => "unexpected end of data"
  let subject :=
    if e.count = 1 then "byte " ++ byteText e.byte ++ " in position " ++ toString e.place
    else "bytes in position " ++ toString e.place ++ "-" ++ toString (e.place + e.count - 1)
  "'utf-8' codec can't decode " ++ subject ++ ": " ++ reason

end DecodeError

/-- what the first byte of a character says: its own bits, the number of bytes after it, and the
least and the greatest value of the next one -/
def leadByte? (b : UInt8) : Option (Nat × Nat × UInt8 × UInt8) :=
  if b < 0x80 then some (b.toNat, 0, 0x80, 0xbf)
  else if b < 0xc2 then none
  else if b < 0xe0 then some (b.toNat - 0xc0, 1, 0x80, 0xbf)
  else if b < 0xf0 then
    some (b.toNat - 0xe0, 2, if b = 0xe0 then 0xa0 else 0x80, if b = 0xed then 0x9f else 0xbf)
  else if b < 0xf5 then
    some (b.toNat - 0xf0, 3, if b = 0xf0 then 0x90 else 0x80, if b = 0xf4 then 0x8f else 0xbf)
  else none

/-- the code point whose first bits are `high` and which `count` more bytes complete, or, if they do
not, the fault and the number of bytes after the first one that fit -/
def codePoint (high : Nat) (least greatest : UInt8) (seen : Nat) :
    Nat → List UInt8 → Except (DecodeFault × Nat) Nat
  | 0, _ => .ok high
  | _ + 1, [] => .error (.truncated, seen)
  | count + 1, b :: bs =>
    if least ≤ b ∧ b ≤ greatest then
      codePoint (high * 64 + (b.toNat - 0x80)) 0x80 0xbf (seen + 1) count bs
    else .error (.continuationByte, seen)

/-- the characters of bytes, of which the first is at `place` and the first `skip` belong to the
character before -/
def decodeFrom (place skip : Nat) : List UInt8 → Except DecodeError (List Char)
  | [] => .ok []
  | b :: bs =>
    match skip with
    | skip + 1 => decodeFrom (place + 1) skip bs
    | 0 =>
      match leadByte? b with
      | none => .error ⟨.startByte, place, b, 1⟩
      | some (high, count, least, greatest) =>
        match codePoint high least greatest 0 count bs with
        | .error (fault, seen) => .error ⟨fault, place, b, seen + 1⟩
        | .ok code => (decodeFrom (place + 1) count bs).map (Char.ofNat code :: ·)

/-- the characters of a list of bytes -/
def decode (bytes : List UInt8) : Except DecodeError (List Char) := decodeFrom 0 0 bytes

/-- the bytes of a text -/
def encode (s : String) : List UInt8 := s.toUTF8.toList

end Reflow.Text
