import Bakemono.Doc
import Bakemono.HttpInfo

namespace Bakemono

-- A fragment in memory, with the metadata that was decoded when it was stored.
structure RamEntry where
  data     : Bytes
  info     : Option CacheHTTPInfo := none
  checksum : UInt32 := 0
  weight   : Nat

namespace RamEntry

-- The estimated size of the decoded metadata.
def charge (info : CacheHTTPInfo) : Nat :=
  256 + info.requestMethod.length + info.requestURL.length +
  (info.responseHeaders.map fun (k, vs) =>
    160 + k.length + vs.length * 32 + (vs.map List.length).sum).sum

def new (data : Bytes) : RamEntry :=
  let weight := max 1 data.length % 2 ^ 32
  if data.length < DocHeaderSize then
    { data, weight }
  else
    let doc := Doc.unmarshal (data.take DocHeaderSize)
    if doc.magic ≠ DocMagic ∨ doc.hlen = 0 ∨ data.length - DocHeaderSize < doc.hlen.toNat then
      { data, weight }
    else
      match CacheHTTPInfo.unmarshal (data.slice DocHeaderSize doc.hlen.toNat) with
      | .error _ => { data, weight }
      | .ok info =>
        if weight + charge info ≥ 2 ^ 32 then
          { data, weight }
        else
          { data, info, checksum := doc.checksum, weight := weight + charge info }

end RamEntry

end Bakemono
