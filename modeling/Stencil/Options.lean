import Stencil.Dictionary

namespace Stencil

abbrev OptionStore := Dictionary Text

/-- The options of an engine: the directory of the templates, that of the components in it, the
extension of templates, the layout, how many milliseconds a template is kept, where the files of
assets are, and whether templates are markdown texts. -/
structure Options where
  root : Text
  components : Text
  ext : Text
  template : Option Text
  keepMs : Option Nat
  assets : Text
  markdown : Bool
deriving Repr, DecidableEq

namespace Options

/-- The place of the assets, if none is given. -/
def defaultAssets : Text := "https://cdn.jsdelivr.net/npm/turbx/assets".toList

def localAssets : Text := "/assets".toList

/-- Reads a yes or no. -/
def flag (s : Text) : Bool :=
  ["1".toList, "true".toList, "yes".toList, "on".toList].contains (Text.lowerAscii (Text.trim s))

def milliseconds? (s : Text) : Option Nat := Text.toIndex? (Text.trim s)

/-- An option that is not blank, without blanks around it. -/
def get? (store : OptionStore) (name : String) : Option Text :=
  ((Dictionary.get? store name.toList).map Text.trim).filter fun v => !v.isEmpty

def trimSlashes (s : Text) : Text := Text.dropEndWhile (· == '/') (s.dropWhile (· == '/'))

def ofStore (store : OptionStore) : Options where
  root := (get? store "root").getD []
  components := ((get? store "components").map trimSlashes).getD "components".toList
  ext := ((get? store "ext").map fun e => e.dropWhile (· == '.')).getD "xhtml".toList
  template := get? store "template"
  keepMs := (get? store "cache").bind milliseconds?
  assets := (get? store "assets").getD defaultAssets
  markdown := (get? store "markdown").any flag

end Options

end Stencil
