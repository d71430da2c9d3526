/-!
# Letter case

Keywords, rule codes and method names are matched without regard to the case of the letters A to Z.
All other characters have to be equal.
-/

namespace Disclosure.Text

/-- Small letters for the capitals A to Z. -/
def lower (s : String) : String :=
  String.ofList (s.toList.map Char.toLower)

/-- Capitals for the small letters a to z. -/
def upper (s : String) : String :=
  String.ofList (s.toList.map Char.toUpper)

/-- Equality up to the case of the letters A to Z. -/
def sameLetters (s t : String) : Bool :=
  lower s == lower t

end Disclosure.Text
