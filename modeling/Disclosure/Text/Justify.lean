/-!
# Justified text

Code files line their codes up at the right: a code shorter than the width gets blanks in front, and
a longer one is written whole. Widths count characters.
-/

namespace Disclosure.Text

/-- Blanks in front until the text has `width` characters. -/
def justifyRight (width : Nat) (s : String) : String :=
  String.ofList (List.replicate (width - s.toList.length) ' ' ++ s.toList)

/-- The text, `count` times over. -/
def repeatText (count : Nat) (s : String) : String :=
  String.join (List.replicate count s)

end Disclosure.Text
