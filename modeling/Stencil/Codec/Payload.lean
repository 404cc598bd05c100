import Stencil.Codec.Base64
import Stencil.Codec.Gzip

namespace Stencil

/-- The stages of decoding a payload that can fail. -/
inductive Payload.Stage where
  | base64
  | gzip
  | utf8
deriving Repr, DecidableEq

namespace Payload

/-- The payload of bytes. -/
def ofBytes (bytes : Bytes) : Text := Base64.encode (Gzip.compress bytes)

def ofText (s : Text) : Text := ofBytes (Utf8.encode s)

/-- The bytes of a payload. Blanks around it do not count. -/
def toBytes (payload : Text) : Except Stage Bytes :=
  match Base64.decode? (Text.trim payload) with
  | none => .error .base64
  | some gz =>
    match Gzip.decompress? gz with
    | none => .error .gzip
    | some bytes => .ok bytes

def toText (payload : Text) : Except Stage Text :=
  match toBytes payload with
  | .error e => .error e
  | .ok bytes =>
    match Utf8.decode? bytes with
    | none => .error .utf8
    | some s => .ok s

end Payload

end Stencil
