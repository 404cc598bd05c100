import Stencil.Text.CharProperty
import Stencil.Text.Script

namespace Stencil

namespace GraphemeBreak

def spacingMark : CharRange.Table :=
  .union (.minus (Category.spacingMark.minus CharProperty.graphemeExtend) (CharRange.ofHex
    "102B-102C 1038 1062-1064 1067-106D 1083 1087-108C 108F 109A-109C 1A61 1A63-1A64 AA7B AA7D
      11720-11721"))
    (CharRange.ofHex "E33 EB3")

/-- Characters that stand before what they belong to. -/
def prepended : CharRange.Table :=
  .union CharProperty.prependedConcatenationMark (CharRange.ofHex
    "D4E 111C2-111C3 113D1 1193F 11941 11A3A 11A84-11A89 11D46 11F02")

/-- Characters that belong to the one before them. -/
def extend : CharRange.Table := .union CharProperty.graphemeExtend CharProperty.emojiModifier

def control : CharRange.Table :=
  .minus
    (CharRange.unionAll [Category.lineSeparator, Category.paragraphSeparator, Category.control,
      Category.format, Category.unassigned.both CharProperty.defaultIgnorable])
    (CharRange.unionAll [CharRange.ofHex "A D 200C-200D E0020-E007F",
      CharProperty.prependedConcatenationMark])

/-- Korean syllables without a final consonant. -/
def openSyllable : CharRange.Table := CharRange.ofHex "AC00-D788/1C"

def closedSyllable : CharRange.Table := (CharRange.ofHex "AC00-D7A3").minus openSyllable

/-- The names of each kind of character, in lower case and without separators, and its members. -/
def kinds : List (String × CharRange.Table) := [
  ("cn control", control),
  ("cr", CharRange.ofHex "D"),
  ("ex extend", extend),
  ("l", CharRange.ofHex "1100-115F A960-A97C"),
  ("lf", CharRange.ofHex "A"),
  ("lv", openSyllable),
  ("lvt", closedSyllable),
  ("pp prepend", prepended),
  ("regionalindicator ri", CharProperty.regionalIndicator),
  ("sm spacingmark", spacingMark),
  ("t", CharRange.ofHex "11A8-11FF D7CB-D7FB"),
  ("v", CharRange.ofHex "1160-11A7 D7B0-D7C6 16D63 16D67-16D6A"),
  ("zwj", CharRange.ofHex "200D")]

end GraphemeBreak

namespace SentenceBreak

/-- Characters that belong to the one before them. -/
def extend : CharRange.Table :=
  CharRange.unionAll [CharProperty.graphemeExtend, Category.spacingMark, CharRange.ofHex "200D"]

/-- Lower case characters of scripts where case tells how a sentence starts. -/
def lower : CharRange.Table :=
  CharProperty.lowercase.minus (.union CharProperty.graphemeExtend
    (CharRange.ofHex "10D0-10FA 10FD-10FF"))

/-- Upper case characters of scripts where case tells how a sentence starts. -/
def upper : CharRange.Table :=
  .minus (.union CharProperty.uppercase Category.titlecaseLetter)
    (CharRange.ofHex "1C90-1CBA 1CBD-1CBF")

/-- Letters whose case tells nothing. -/
def otherLetter : CharRange.Table :=
  .minus (.union CharProperty.alphabetic (CharRange.ofHex "5F3"))
    (CharRange.unionAll [lower, upper, extend])

def numeric : CharRange.Table :=
  .union Category.decimalNumber
    (CharRange.ofHex "600-605 66B-66C 6DD 890-891 8E2 19DA 110BD 110CD")

def close : CharRange.Table :=
  CharRange.unionAll [Category.openPunctuation, Category.closePunctuation,
    Category.initialPunctuation, Category.finalPunctuation,
    CharRange.ofHex "22 27 275B-2760 2E00-2E01 2E06-2E08 2E0B 1F676-1F678"]

/-- Format characters that do not count. -/
def format : CharRange.Table :=
  .union (CharRange.ofHex "70F") (Category.format.minus (.union
    CharProperty.prependedConcatenationMark (CharRange.ofHex "200C-200D E0020-E007F")))

def fullStop : CharRange.Table := CharRange.ofHex "2E 2024 FE52 FF0E"

def separator : CharRange.Table := CharRange.ofHex "85 2028-2029"

/-- The names of each kind of character, in lower case and without separators, and its members. -/
def kinds : List (String × CharRange.Table) := [
  ("at aterm", fullStop),
  ("cl close", close),
  ("cr", CharRange.ofHex "D"),
  ("ex extend", extend),
  ("fo format", format),
  ("le oletter", otherLetter),
  ("lf", CharRange.ofHex "A"),
  ("lo lower", lower),
  ("nu numeric", numeric),
  ("sc scontinue", CharRange.ofHex
    "2C-2D 3A-3B 37E 55D 60C-60D 7F8 1802 1808 2013-2014 3001 FE10-FE11 FE13-FE14 FE31-FE32
      FE50-FE51 FE54-FE55 FE58 FE63 FF0C-FF0D FF1A-FF1B FF64"),
  ("se sep", separator),
  ("sp", CharProperty.whiteSpace.minus (.union separator (CharRange.ofHex "A D"))),
  ("st sterm", CharProperty.sentenceTerminal.minus fullStop),
  ("up upper", upper)]

end SentenceBreak

namespace WordBreak

/-- Characters that belong to the one before them. -/
def extend : CharRange.Table :=
  .minus (.union GraphemeBreak.extend Category.spacingMark) (CharRange.ofHex "200D")

def script (name : String) : CharRange.Table := (Script.ranges? name.toList).getD []

def hebrewLetter : CharRange.Table := (script "hebrew").both Category.otherLetter

def katakana : CharRange.Table :=
  .union (script "katakana") (CharRange.ofHex "3031-3035 309B-309C 30A0 30FC FF70")

/-- Letters of scripts that are written without blanks between words. -/
def unspaced : CharRange.Table := CharRange.ofHex
  "E01-E30 E32-E33 E40-E46 E81-E82 E84 E86-E8A E8C-EA3 EA5 EA7-EB0 EB2-EB3 EBD EC0-EC4 EC6 EDC-EDF
    1000-102A 103F 1050-1055 105A-105D 1061 1065-1066 106E-1070 1075-1081 108E 1780-17B3 17D7 17DC
    1950-196D 1970-1974 1980-19AB 19B0-19C9 1A20-1A54 1AA7 A9E0-A9E4 A9E6-A9EF A9FA-A9FE AA60-AA76
    AA7A AA7E-AAAF AAB1 AAB5-AAB6 AAB9-AABD AAC0 AAC2 AADB-AADD 11700-1171A 11740-11746"

def letter : CharRange.Table :=
  .union
    (CharProperty.alphabetic.minus (CharRange.unionAll [CharProperty.ideographic, katakana,
      script "hiragana", extend, hebrewLetter, unspaced]))
    (CharRange.ofHex
      "2C2-2C5 2D2-2D7 2DE-2DF 2E5-2EB 2ED 2EF-2FF 55A-55C 55E 58A 5F3 70F A708-A716 A720-A721
        A789-A78A AB5B")

def numeric : CharRange.Table :=
  .union Category.decimalNumber
    (CharRange.ofHex "600-605 66B 6DD 890-891 8E2 19DA 110BD 110CD")

/-- Format characters that do not count. -/
def format : CharRange.Table :=
  .minus Category.format (.union CharProperty.prependedConcatenationMark
    (CharRange.ofHex "200B-200D E0020-E007F"))

/-- The names of each kind of character, in lower case and without separators, and its members. -/
def kinds : List (String × CharRange.Table) := [
  ("aletter le", letter),
  ("cr", CharRange.ofHex "D"),
  ("doublequote dq", CharRange.ofHex "22"),
  ("extend", extend),
  ("ex extendnumlet", .union Category.connectorPunctuation (CharRange.ofHex "202F")),
  ("fo format", format),
  ("hebrewletter hl", hebrewLetter),
  ("ka katakana", katakana),
  ("lf", CharRange.ofHex "A"),
  ("midletter ml", CharRange.ofHex "3A B7 387 55F 5F4 2027 FE13 FE55 FF1A"),
  ("midnum mn", CharRange.ofHex
    "2C 3B 37E 589 60C-60D 66C 7F8 2044 FE50 FE54 FF0C FF1B"),
  ("mb midnumlet", CharRange.ofHex "2E 2018-2019 2024 FE52 FF07 FF0E"),
  ("newline nl", CharRange.ofHex "B-C 85 2028-2029"),
  ("nu numeric", numeric),
  ("regionalindicator ri", CharProperty.regionalIndicator),
  ("singlequote sq", CharRange.ofHex "27"),
  ("wsegspace", CharRange.ofHex "20 1680 2000-2006 2008-200A 205F 3000"),
  ("zwj", CharRange.ofHex "200D")]

end WordBreak

end Stencil
