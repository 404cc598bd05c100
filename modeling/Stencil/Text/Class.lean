import Stencil.Text.CharProperty

namespace Stencil

def isDecimalDigit (c : Char) : Bool :=
  c.isDigit || (128 ≤ c.toNat && Category.decimalNumber.has c.toNat)

/-- The characters that words are made of: alphabetic ones, marks, decimal digits, connectors and
the two joiners. -/
def wordCharacters : CharRange.Table :=
  CharRange.unionAll [CharProperty.alphabetic, Category.mark, Category.decimalNumber,
    Category.connectorPunctuation, CharProperty.joinControl]

def isWordCharacter (c : Char) : Bool :=
  c.isAlpha || c.isDigit || c == '_' || (128 ≤ c.toNat && wordCharacters.has c.toNat)

/-- Letters, and the other characters that Unicode counts as alphabetic. -/
def isAlphabetic (c : Char) : Bool :=
  c.isAlpha || (128 ≤ c.toNat && (CharProperty.alphabetic.has c.toNat ||
    CharProperty.laterAlphabetic.has c.toNat))

def isAlphanumeric (c : Char) : Bool :=
  isAlphabetic c || c.isDigit || (128 ≤ c.toNat && (Category.number.has c.toNat ||
    CharProperty.laterNumber.has c.toNat))

/-- ASCII letters and digits. -/
def isAsciiAlphanumeric (c : Char) : Bool := c.isAlpha || c.isDigit

end Stencil
