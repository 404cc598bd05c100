import Stencil.Escape
import Stencil.Function.Call
import Stencil.Layout

namespace Stencil

/-- What an address points to. A channel counts as the list of its uploads. -/
inductive VideoRef where
  | video (id : Text)
  | playlist (id : Text)
deriving Repr, DecidableEq

namespace VideoRef

def isIdChar (c : Char) : Bool := c.isAlpha || c.isDigit || c == '_' || c == '-'

/-- The identifier at the start of a text, if there is one. -/
def id? (s : Text) : Option Text :=
  let id := s.takeWhile isIdChar
  if id.isEmpty then none else some id

def parameter? (address key : Text) : Option Text := do
  let (_, query) ← Text.cut? ['?'] address
  let pairs := (Text.splitOn ['&'] query).filterMap (Text.cut? ['='])
  let (_, value) ← pairs.find? fun p => p.1 = key
  id? value

def ofPlaylist (id : Text) : VideoRef :=
  match Text.strip? ['U', 'C'] id with
  | some channel => playlist (['U', 'U'] ++ channel)
  | none => playlist id

/-- The signs in an address before the identifier of a video. -/
def markers : List String := ["youtu.be/", "/embed/", "/shorts/", "/v/"]

/-- Does an identifier start like that of a playlist or a channel? -/
def startsList (id : Text) : Bool :=
  ["PL", "PU", "UU", "UC"].any fun p => p.toList.isPrefixOf id

def ofId? (s : Text) : Option VideoRef :=
  if s.isEmpty || !s.all isIdChar then none
  else if startsList s && 12 < s.length then some (ofPlaylist s)
  else some (video s)

def ofText? (input : Text) : Option VideoRef :=
  let s := Text.trim input
  match parameter? s "v".toList, parameter? s "list".toList with
  | some id, _ => some (video id)
  | none, some list => some (ofPlaylist list)
  | none, none =>
    match markers.findSome? fun m => Text.cut? m.toList s with
    | some (_, rest) => (id? rest).map video
    | none => ofId? s

def id : VideoRef → Text
  | video id | playlist id => id

def embedUrl : VideoRef → Text
  | video id => "https://www.youtube.com/embed/".toList ++ id
  | playlist id => "https://www.youtube.com/embed/?list=".toList ++ id

def pageUrl : VideoRef → Text
  | video id => "https://www.youtube.com/watch?v=".toList ++ id
  | playlist id => "https://www.youtube.com/playlist?list=".toList ++ id

end VideoRef

namespace VideoInfo

/-- The ratio of width and height, if both are known and not zero. -/
def ratio? (v : VideoInfo) : Option Text :=
  match v.width, v.height with
  | some w, some h =>
    if 0 < w ∧ 0 < h then some (Text.ofNat w ++ [':'] ++ Text.ofNat h) else none
  | _, _ => none

def text? : Option Value → Option (Option Text)
  | none | some .null => some none
  | some (.str s) => some (some s)
  | _ => none

def size? : Option Value → Option (Option Nat)
  | none | some .null => some none
  | some (.int i) => if 0 ≤ i ∧ i < Int.ofNat (Nat.pow 2 32) then some (some i.toNat) else none
  | _ => none

/-- Reads what a provider answers: an object with the names of the format, or an array in their
order. -/
def ofValue? (v : Value) : Option VideoInfo := do
  let (title, picture, width, height) ←
    match v with
    | .map es =>
      let get (name : String) : Option Value := Dictionary.get? es name.toList
      some (get "title", get "thumbnail_url", get "width", get "height")
    | .array items =>
      if items.length ≤ 4 then some (items[0]?, items[1]?, items[2]?, items[3]?) else none
    | _ => none
  return ⟨← text? title, ← text? picture, ← size? width, ← size? height⟩

end VideoInfo

namespace Video

def clientClass : Text := "youtube-embed-client".toList

def clientScript : Text := "youtube-embed.min.js".toList

def clientStyle : Text := "youtube-embed.min.css".toList

/-- The base of the files of assets, without slashes at its end. -/
def base (assets : Text) : Text := Text.dropEndWhile (· == '/') assets

def playButton (assets : Text) : Text :=
  "<img class=\"youtube-embed-play-btn\" src=\"".toList ++ base assets ++
    "/youtube-play-btn.svg\" alt=\"Play\"/></a>".toList

def clientEmbed (v : VideoRef) (assets : Text) : Text :=
  "<a class=\"youtube-embed ".toList ++ clientClass ++ "\" src=\"".toList ++
    Escape.attributeValue v.id ++ "\" href=\"".toList ++ Escape.attributeValue v.pageUrl ++
    "\">".toList ++ playButton assets

def serverEmbed (v : VideoRef) (info : VideoInfo) (assets : Text) : Text :=
  let ratio := match info.ratio? with
    | some r => " ratio=\"".toList ++ r ++ ['"']
    | none => []
  let picture := match info.picture with
    | some p =>
      "<img src=\"".toList ++ Escape.attributeValue p ++ "\" alt=\"YouTube Embed\"/>".toList
    | none => []
  let title := match info.title with
    | some t => "<h1>".toList ++ Escape.runningText t ++ "</h1>".toList
    | none => []
  "<a class=\"youtube-embed\" href=\"".toList ++ Escape.attributeValue v.embedUrl ++ ['"'] ++
    ratio ++ ['>'] ++ picture ++ title ++ playButton assets

/-- The address that a tag gives, by one of two names or its position. -/
def address (c : Call) : Call.Word :=
  match c.word "url".toList with
  | .absent =>
    match c.word "src".toList with
    | .absent => c.word ['0']
    | w => w
  | w => w

/-- Embeds the video of a tag. There is no answer yet if its address is unknown, and an address that
points to no video gives nothing. -/
def call? (c : Call) : Option Text :=
  match address c with
  | .unknown => none
  | .absent => some []
  | .word t =>
    match VideoRef.ofText? t with
    | none => some []
    | some v =>
      match c.videos.bind fun p => p v.pageUrl with
      | some info => some (serverEmbed v info c.assets)
      | none => some (clientEmbed v c.assets)

/-- Puts the script and its style sheet into a page that has links for it, unless they are there. -/
def inject (html assets : Text) : Text :=
  if !Text.has clientClass html || Text.has clientScript html then html
  else
    Layout.injectHead html <|
      "<script src=\"".toList ++ base assets ++ ['/'] ++ clientScript ++
        "\" defer></script><link rel=\"stylesheet\" href=\"".toList ++ base assets ++ ['/'] ++
        clientStyle ++ "\"/>".toList

end Video

end Stencil
