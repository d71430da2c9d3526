/-!
# Bytes shown as text

Bytes that are the UTF-8 of a text are shown as that text. Other bytes can be shown as well, but not
without loss. They fall into groups, and a group that is no character is shown as U+FFFD. A group is
as long as the bytes in it could still become a character, so that what is broken off is replaced
once and not byte by byte.
-/

namespace Disclosure.Text

/-- The text that some bytes are the UTF-8 of. -/
def decode? (bytes : List UInt8) : Option String :=
  String.fromUTF8? ⟨bytes.toArray⟩

/-- The least and the greatest byte there may be at each place behind the first byte of a character.
There is no such place behind a byte that is a character of its own, or that begins none. -/
def followers (first : UInt8) : List (UInt8 × UInt8) :=
  let any := (0x80, 0xBF)
  if first < 0xC2 then []
  else if first < 0xE0 then [any]
  else if first = 0xE0 then [(0xA0, 0xBF), any]
  else if first = 0xED then [(0x80, 0x9F), any]
  else if first < 0xF0 then [any, any]
  else if first = 0xF0 then [(0x90, 0xBF), any, any]
  else if first < 0xF4 then [any, any, any]
  else if first = 0xF4 then [(0x80, 0x8F), any, any]
  else []

/-- The groups that bytes fall into, behind a group that is still open and may go on with bytes at
`places`. -/
def groupsAfter (group : List UInt8) (places : List (UInt8 × UInt8)) :
    List UInt8 → List (List UInt8)
  | [] => [group]
  | byte :: rest =>
    match places with
    | [] => group :: groupsAfter [byte] (followers byte) rest
    | (least, greatest) :: more =>
      if least ≤ byte && byte ≤ greatest then groupsAfter (group ++ [byte]) more rest
      else group :: groupsAfter [byte] (followers byte) rest

/-- The text that stands for bytes, with loss if they are not UTF-8. -/
def lossy (bytes : List UInt8) : String :=
  match decode? bytes with
  | some text => text
  | none =>
    String.join ((groupsAfter [] [] bytes).map fun group => (decode? group).getD "\uFFFD")

end Disclosure.Text
