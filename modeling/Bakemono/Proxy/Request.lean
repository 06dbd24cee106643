import Bakemono.HttpInfo
import Bakemono.Lib.Text

namespace Bakemono

-- The parts of a URL that the proxy reads.
structure URL where
  scheme     : Bytes := []
  host       : Bytes := []
  path       : Bytes := []
  rawPath    : Bytes := []
  rawQuery   : Bytes := []
  forceQuery : Bool := false
  deriving DecidableEq

-- The headers of a request, by their canonical names.
abbrev RequestHeader := Bytes → Option (List Bytes)

namespace RequestHeader

open Header

def values (h : RequestHeader) (name : Bytes) : List Bytes := (h (canonicalMIMEHeaderKey name)).getD []

def get (h : RequestHeader) (name : Bytes) : Bytes := (h.values name).headD []

def del (h : RequestHeader) (name : Bytes) : RequestHeader :=
  Function.update h (canonicalMIMEHeaderKey name) none

def set (h : RequestHeader) (name value : Bytes) : RequestHeader :=
  Function.update h (canonicalMIMEHeaderKey name) (some [value])

end RequestHeader

-- The context of a request: the scheme that `NormalizePublicRequest` has stored in it, and everything
-- else.
structure RequestContext (γ : Type) where
  publicScheme : Option Bytes := none
  base         : γ

-- A request without a body. Only the presence of the TLS state is ever looked at.
@[ext] structure Request (γ : Type) where
  method           : Bytes
  url              : URL
  header           : RequestHeader
  contentLength    : Int
  transferEncoding : List Bytes
  close            : Bool
  host             : Bytes
  remoteAddr       : Bytes
  requestURI       : Bytes
  tls              : Option Bytes
  context          : RequestContext γ

-- The functions of the standard library. Nothing below depends on what they compute.
structure Net where
  trimSpace     : Bytes → Bytes
  escapedPath   : URL → Bytes
  joinURLPath   : URL → URL → Bytes × Bytes
  splitHostPort : Bytes → Option (Bytes × Bytes)
  parseIP       : Bytes → Option Bytes
  Addr          : Type
  parseAddr     : Bytes → Option Addr
  unmap         : Addr → Addr
  string        : Addr → Bytes
  Network       : Type
  contains      : Network → Addr → Bool

end Bakemono
