import Stencil.Text.Basic

namespace Stencil.Markdown

def isUrlChar (c : Char) : Bool :=
  c.isAlpha || c.isDigit || "_-.~:/?#[]@!$&\"'()*+,;%=".toList.contains c

/-- The file extension of an address, in lower case, what follows its path left out. -/
def extension (url : Text) : Text :=
  let path := url.takeWhile fun c => c != '?' && c != '#'
  let file := match Text.cutLast? '/' path with
    | some (_, file) => file
    | none => path
  match Text.cutLast? '.' file with
  | some (_, ext) => Text.lowerAscii ext
  | none => []

/-- The kinds of media that have players. -/
inductive Media where
  | video
  | audio
deriving Repr, DecidableEq

def Media.name : Media → Text
  | video => "video".toList
  | audio => "audio".toList

def imageExtensions : List Text :=
  ["apng", "png", "jpg", "jpeg", "webp", "avif", "gif", "jfif", "pjpeg", "pjp", "svg", "bmp",
    "ico", "cur", "tif", "tiff"].map String.toList

/-- The extensions of each kind of media. -/
def Media.extensions : Media → List Text
  | video => ["mp4", "mov", "webm", "avi", "mpeg", "ogv", "ts", "3gp", "3gp2"].map String.toList
  | audio => ["mp3", "wav", "weba", "ogg", "oga", "aac", "mid", "midi", "opus", "3gpp",
      "3gpp2"].map String.toList

def Media.ofExtension? (ext : Text) : Option Media :=
  if video.extensions.contains ext then some video
  else if audio.extensions.contains ext then some audio
  else none

/-- The media types whose name is not the extension. -/
def Media.renamed : Media → List (String × String)
  | video => [("mov", "quicktime"), ("ogv", "ogg"), ("ts", "mp2t"), ("avi", "x-msvideo"),
      ("3gp", "3gpp")]
  | audio => [("mp3", "mpeg"), ("oga", "ogg"), ("weba", "webm"), ("mid", "midi")]

def Media.type (m : Media) (ext : Text) : Text :=
  let sub := match m.renamed.find? fun e => e.1.toList = ext with
    | some (_, sub) => sub.toList
    | none => ext
  m.name ++ ['/'] ++ sub

end Stencil.Markdown
