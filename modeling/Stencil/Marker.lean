import Stencil.Text.Basic

namespace Stencil.Marker

/-- The sign that opens what belongs to the compiler in a text that is being compiled. A source in
which the two signs stand literally has them written as `%!o!%` and `%!c!%` first. A value that is
inserted before the last rendering also has its braces and angle brackets written as `%!b!%` and
`%!t!%`, so that no later rendering reads it as a hole or a tag. -/
def opening : Text := ['%', '!']

def closing : Text := ['!', '%']

def openingMark : Text := ['%', '!', 'o', '!', '%']

def closingMark : Text := ['%', '!', 'c', '!', '%']

def braceMark : Text := ['%', '!', 'b', '!', '%']

def angleMark : Text := ['%', '!', 't', '!', '%']

def encode : Text → Text
  | '%' :: '!' :: s => openingMark ++ encode s
  | '!' :: '%' :: s => closingMark ++ encode s
  | c :: s => c :: encode s
  | [] => []

def shieldChar (c : Char) : Text :=
  if c = '{' then braceMark else if c = '<' then angleMark else [c]

/-- Writes the literal signs, braces and angle brackets of a text as markers. -/
def shield (s : Text) : Text := (encode s).flatMap shieldChar

/-- Reads markers back. An opening sign that starts no marker stands for itself. -/
def decode : Text → Text
  | '%' :: '!' :: 'o' :: '!' :: '%' :: s => '%' :: '!' :: decode s
  | '%' :: '!' :: 'c' :: '!' :: '%' :: s => '!' :: '%' :: decode s
  | '%' :: '!' :: 'b' :: '!' :: '%' :: s => '{' :: decode s
  | '%' :: '!' :: 't' :: '!' :: '%' :: s => '<' :: decode s
  | '%' :: '!' :: s => '%' :: '!' :: decode s
  | c :: s => c :: decode s
  | [] => []

end Stencil.Marker
