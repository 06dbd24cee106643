import Bakemono.Hash
import Bakemono.Proxy.CacheKey

namespace Bakemono

-- The headers that only concern a single connection.
def hopHeaders : List Bytes :=
  ["Connection", "Proxy-Connection", "Keep-Alive", "Proxy-Authenticate", "Proxy-Authorization", "Te",
    "Trailer", "Transfer-Encoding", "Upgrade"].map .text

-- The values of "Connection" name further ones.
def Net.stripHopHeaders (net : Net) (h : RequestHeader) : RequestHeader :=
  let names := (h.values (.text "Connection")).flatMap (List.splitOn 44)
  hopHeaders.foldl .del ((names.map net.trimSpace).foldl .del h)

structure HTTPProxy (net : Net) where
  trustedProxies : List net.Network

-- The result of `forwarding`.
structure Forwarding where
  chain    : Bytes
  clientIP : Bytes
  scheme   : Bytes

namespace HTTPProxy

variable {net : Net} {γ : Type} (h : HTTPProxy net)

def trusted (ip : net.Addr) : Bool := h.trustedProxies.any (net.contains · (net.unmap ip))

def getIP (net : Net) (r : Request γ) : Bytes :=
  match net.splitHostPort r.remoteAddr with
  | none         => []
  | some (ip, _) => (net.parseIP ip).getD []

-- The loop of `forwarding`, from the trusted peer toward the client.
def walk : List Bytes → Bytes × Bytes → Bytes × Bytes
  | [],              result            => result
  | value :: values, (chain, clientIP) =>
    match net.parseAddr (net.trimSpace value) with
    | none    => (chain, clientIP)
    | some ip =>
      let clientIP := net.string (net.unmap ip)
      let chain := clientIP ++ .text ", " ++ chain
      if h.trusted ip then walk values (chain, clientIP) else (chain, clientIP)

def forwarding (r : Request γ) : Forwarding :=
  match r.context.publicScheme with
  | some scheme => ⟨[], [], scheme⟩
  | none        =>
    let clientIP := getIP net r
    let scheme := if r.tls.isSome then .text "https" else .text "http"
    match net.parseAddr clientIP with
    | none      => ⟨clientIP, clientIP, scheme⟩
    | some peer =>
      if !h.trusted peer then
        ⟨clientIP, clientIP, scheme⟩
      else
        let headers := net.stripHopHeaders r.header
        let proto := headers.get (.text "X-Forwarded-Proto")
        let scheme := if proto = .text "http" ∨ proto = .text "https" then proto else scheme
        let values := ([44].intercalate (headers.values (.text "X-Forwarded-For"))).splitOn 44
        let (chain, clientIP) := h.walk values.reverse (clientIP, clientIP)
        ⟨chain, clientIP, scheme⟩

def cacheKey (r : Request γ) : Bytes :=
  Request.getCacheKey net { r with url := { r.url with scheme := (h.forwarding r).scheme } }

-- `SetURL` of the standard library, which also clears the host.
def setURL (net : Net) (target url : URL) : URL :=
  let (path, rawPath) := net.joinURLPath target url
  { url with
    scheme   := target.scheme
    host     := target.host
    path     := path
    rawPath  := rawPath
    rawQuery :=
      if target.rawQuery = [] ∨ url.rawQuery = [] then target.rawQuery ++ url.rawQuery
      else target.rawQuery ++ 38 :: url.rawQuery }

def rewrite (r out : Request γ) (target : URL) : Request γ :=
  let header := net.stripHopHeaders out.header
  let url := setURL net target { out.url with rawQuery := r.url.rawQuery }
  let header := (["Forwarded", "X-Forwarded-For", "X-Forwarded-Host", "X-Forwarded-Proto",
    "X-Real-IP"].map .text).foldl .del header
  let ⟨chain, ip, scheme⟩ := h.forwarding r
  let header :=
    if ip ≠ [] then (header.set (.text "X-Forwarded-For") chain).set (.text "X-Real-IP") ip else header
  let header := header.set (.text "X-Proxy") (.text "Balancer-Reverse-Proxy")
  let header := header.set (.text "X-Forwarded-Host") r.host
  let header := header.set (.text "X-Forwarded-Proto") scheme
  { out with header, url, host := [], requestURI := [], close := false }

-- The request that `ProxyWithOriginHeaders` sends to an origin.
def outbound (r : Request γ) (target : URL) : Request γ := h.rewrite r r target

def normalizePublicRequest (r : Request γ) : Request γ :=
  let scheme := (h.forwarding r).scheme
  let header := net.stripHopHeaders r.header
  let header := (["Forwarded", "X-Forwarded-For", "X-Real-IP", "Traceparent", "Tracestate", "Baggage",
    "X-Request-Id", "X-Correlation-Id"].map .text).foldl .del header
  let header := header.set (.text "User-Agent") (.text "Razor")
  let header := header.set (.text "X-Forwarded-Host") r.host
  let header := header.set (.text "X-Forwarded-Proto") scheme
  { r with
    header
    remoteAddr := []
    tls        := none
    context    := { r.context with publicScheme := some scheme } }

end HTTPProxy

def Request.cloneRequest {γ : Type} (r : Request γ) (ctx : RequestContext γ) : Request γ :=
  { r with context := { ctx with publicScheme := r.context.publicScheme <|> ctx.publicScheme } }

-- What `fillIdentity` encodes.
structure FillIdentity where
  key     : Bytes
  method  : Bytes
  host    : Bytes
  peer    : Bytes
  headers : RequestHeader
  tls     : Bool
  version : UInt64

def fillIdentity {γ : Type} (net : Net) (H : Hash) (marshal : FillIdentity → Bytes) (r : Request γ)
    (key : Bytes) (version : UInt64) : Bytes :=
  let peer := match net.splitHostPort r.remoteAddr with
    | none           => r.remoteAddr
    | some (peer, _) => peer
  let identity := marshal ⟨key, r.method, r.host, peer, r.header, r.tls.isSome, version⟩
  H.sha256Hex identity

namespace RequestHeader

open Header

variable {h h' : RequestHeader} {N : List Bytes} {name value : Bytes}

-- Headers that only differ in some names.
def Agree (N : List Bytes) (h h' : RequestHeader) : Prop := ∀ n, n ∉ N → h n = h' n

namespace Agree

theorem eq (ha : Agree [] h h') : h = h' := funext fun n => ha n List.not_mem_nil

theorem values_eq (ha : Agree N h h') (hn : canonicalMIMEHeaderKey name ∉ N) :
    h.values name = h'.values name := by
  rw [values, values, ha _ hn]

theorem update (ha : Agree N h h') (n : Bytes) (x : Option (List Bytes)) :
    Agree (N.filter (· ≠ n)) (Function.update h n x) (Function.update h' n x) := by
  intro m hm
  by_cases hn : m = n
  case pos => rw [hn, Function.update_self, Function.update_self]
  case neg =>
    rw [Function.update_of_ne hn, Function.update_of_ne hn]
    exact ha m fun hc => hm (List.mem_filter.mpr ⟨hc, by simpa using hn⟩)

theorem del (ha : Agree N h h') (name : Bytes) :
    Agree (N.filter (· ≠ canonicalMIMEHeaderKey name)) (h.del name) (h'.del name) := ha.update _ _

theorem set (ha : Agree N h h') (name value : Bytes) :
    Agree (N.filter (· ≠ canonicalMIMEHeaderKey name)) (h.set name value) (h'.set name value) :=
  ha.update _ _

theorem mono {N' : List Bytes} (ha : Agree N h h') (hn : N ⊆ N') : Agree N' h h' :=
  fun n hm => ha n fun hc => hm (hn hc)

theorem foldl_del (ha : Agree N h h') (names : List Bytes) :
    Agree (names.foldl (fun N name => N.filter (· ≠ canonicalMIMEHeaderKey name)) N)
      (names.foldl RequestHeader.del h) (names.foldl RequestHeader.del h') := by
  induction names generalizing h h' N
  case nil => exact ha
  case cons name names hi => exact hi (ha.del name)

theorem foldl_filter_subset (names : List Bytes) :
    names.foldl (fun N name => N.filter (· ≠ canonicalMIMEHeaderKey name)) N ⊆ N := by
  induction names generalizing N
  case nil => exact List.Subset.refl _
  case cons name names hi => exact List.Subset.trans hi (List.filter_subset_self _)

-- The same names are removed if the values of "Connection" agree.
theorem stripHopHeaders (ha : Agree N h h') (net : Net)
    (hn : canonicalMIMEHeaderKey (.text "Connection") ∉ N) :
    Agree N (net.stripHopHeaders h) (net.stripHopHeaders h') := by
  simp only [Net.stripHopHeaders]
  rw [ha.values_eq hn]
  exact (((ha.foldl_del _).mono (foldl_filter_subset _)).foldl_del _).mono (foldl_filter_subset _)

end Agree

end RequestHeader

namespace HTTPProxy

variable {net : Net} {γ : Type} {h : HTTPProxy net} {r r' : Request γ} {key : Bytes} {version : UInt64}

-- The headers by which a client can be told from others.
def clientHeaders : List Bytes :=
  ["User-Agent", "Forwarded", "X-Forwarded-For", "X-Forwarded-Host", "X-Forwarded-Proto", "X-Real-Ip",
    "Traceparent", "Tracestate", "Baggage", "X-Request-Id", "X-Correlation-Id"].map .text

-- The requests ask for the same, in the eyes of the proxy.
structure Alike (h : HTTPProxy net) (r r' : Request γ) : Prop where
  method           : r.method = r'.method
  host             : r.host = r'.host
  url              : r.url = r'.url
  contentLength    : r.contentLength = r'.contentLength
  transferEncoding : r.transferEncoding = r'.transferEncoding
  scheme           : (h.forwarding r).scheme = (h.forwarding r').scheme
  header           : RequestHeader.Agree clientHeaders r.header r'.header

theorem Alike.header_normalize (ha : h.Alike r r') :
    (h.normalizePublicRequest r).header = (h.normalizePublicRequest r').header := by
  have h₁ := ha.header.stripHopHeaders net (by decide)
  have h₂ := h₁.foldl_del (["Forwarded", "X-Forwarded-For", "X-Real-IP", "Traceparent", "Tracestate",
    "Baggage", "X-Request-Id", "X-Correlation-Id"].map .text)
  have h₃ := ((h₂.set (.text "User-Agent") (.text "Razor")).set (.text "X-Forwarded-Host") r.host).set
    (.text "X-Forwarded-Proto") (h.forwarding r).scheme
  have h₄ := (h₃.mono (by decide : _ ⊆ ([] : List Bytes))).eq
  simp only [normalizePublicRequest]
  rw [h₄, ha.host, ha.scheme]

-- The normalized requests only differ in what `rewrite` sets, and in their contexts.
theorem Alike.normalize_eq (ha : h.Alike r r') : h.normalizePublicRequest r' =
    { h.normalizePublicRequest r with
      close      := r'.close
      requestURI := r'.requestURI
      context    := { (h.normalizePublicRequest r).context with base := r'.context.base } } := by
  ext : 1
  case method           => exact ha.method.symm
  case url              => exact ha.url.symm
  case header           => exact ha.header_normalize.symm
  case contentLength    => exact ha.contentLength.symm
  case transferEncoding => exact ha.transferEncoding.symm
  case host             => exact ha.host.symm
  case context          => simp only [normalizePublicRequest, ha.scheme]
  all_goals rfl

-- The scheme of a request that has not been normalized is one of the two.
theorem scheme_forwarding (hn : r.context.publicScheme = none) :
    (h.forwarding r).scheme = .text "http" ∨ (h.forwarding r).scheme = .text "https" := by
  simp only [forwarding, hn]
  split
  case h_1 => split <;> simp
  case h_2 =>
    split
    case isTrue => split <;> simp
    case isFalse =>
      simp only
      split
      case isTrue hp => exact hp
      case isFalse => split <;> simp

-- Requests that ask for the same have the same key.
theorem Alike.cacheKey_eq (ha : h.Alike r r') (hn : r.context.publicScheme = none) :
    h.cacheKey r = h.cacheKey r' := by
  have hs : (h.forwarding r').scheme ≠ [] := by
    rw [← ha.scheme]
    cases scheme_forwarding hn
    case inl he => rw [he]; decide
    case inr he => rw [he]; decide
  have key {q q' : Request γ} (hu : q.url = q'.url) (hh : q.host = q'.host) (hs : q'.url.scheme ≠ []) :
      q.getCacheKey net = q'.getCacheKey net := by
    have hscheme : q.scheme = q'.scheme := by simp [Request.scheme, hu, hs]
    have hauthority : q.authority = q'.authority := by rw [Request.authority, Request.authority, hu, hh]
    have hpath : q.path net = q'.path net := by rw [Request.path, Request.path, hu]
    have hquery : q.hasQuery = q'.hasQuery := by simp only [Request.hasQuery, hu]
    have hitems : q.items = q'.items := by rw [Request.items, Request.items, hu]
    rw [Request.getCacheKey, Request.getCacheKey, hscheme, hauthority, hpath, hquery, hitems]
  exact key (by rw [ha.url, ha.scheme]) ha.host hs

-- What is sent of a request.
def wire (r : Request γ) : Request Unit := { r with context := { base := () } }

-- A request with a stored scheme is forwarded without looking at its connection.
theorem outbound_congr {scheme : Bytes} (base : γ) (hs : r.context.publicScheme = some scheme)
    (close : Bool) (requestURI : Bytes) (target : URL) :
    h.outbound { r with close, requestURI, context := { r.context with base } } target =
      { h.outbound r target with context := { r.context with base } } := by
  simp only [outbound, rewrite, forwarding, hs]

-- The shared task and what the origin sees do not depend on the client.
theorem public_noninterference (H : Hash) (marshal : FillIdentity → Bytes) (ha : h.Alike r r') :
    (∀ key version, fillIdentity net H marshal (h.normalizePublicRequest r) key version =
      fillIdentity net H marshal (h.normalizePublicRequest r') key version) ∧
    (∀ target, wire (h.outbound (h.normalizePublicRequest r) target) =
      wire (h.outbound (h.normalizePublicRequest r') target)) ∧
    ∀ ctx target, h.outbound ((h.normalizePublicRequest r).cloneRequest ctx) target =
      h.outbound ((h.normalizePublicRequest r').cloneRequest ctx) target := by
  have hs : (h.normalizePublicRequest r).context.publicScheme = some (h.forwarding r).scheme := rfl
  refine ⟨fun key version => ?_, fun target => ?_, fun ctx target => ?_⟩
  case refine_1 =>
    rw [ha.normalize_eq]
    rfl
  case refine_2 =>
    rw [ha.normalize_eq, outbound_congr _ hs]
    rfl
  case refine_3 =>
    have hs' : ((h.normalizePublicRequest r).cloneRequest ctx).context.publicScheme =
      some (h.forwarding r).scheme := rfl
    rw [ha.normalize_eq]
    exact (outbound_congr ctx.base hs' _ _ target).symm

section Sample

open Request

-- Two clients, one of which has sent a header of its own.
def samplePeer : Request Unit := { sampleRequest "a=1" with remoteAddr := .text "192.0.2.1:80" }

def sampleOther : Request Unit :=
  { sampleRequest "a=1" with
    remoteAddr := .text "192.0.2.2:443"
    header     := RequestHeader.set (fun _ => none) (.text "X-Request-Id") (.text "7")
    requestURI := .text "/item?a=1" }

def sampleProxy : HTTPProxy sampleNet := ⟨[]⟩

theorem alike_sample : sampleProxy.Alike samplePeer sampleOther where
  method           := rfl
  host             := rfl
  url              := rfl
  contentLength    := rfl
  transferEncoding := rfl
  scheme           := rfl
  header           := by
    intro n hn
    have hne : n ≠ Header.canonicalMIMEHeaderKey (.text "X-Request-Id") := by
      intro hc
      exact hn (hc ▸ by decide)
    exact (Function.update_of_ne hne ..).symm

def sampleTarget : URL := { scheme := .text "http", host := .text "origin.test" }

theorem public_noninterference_sample :
    samplePeer.remoteAddr ≠ sampleOther.remoteAddr ∧
    samplePeer.header.values (.text "X-Request-Id") ≠ sampleOther.header.values (.text "X-Request-Id") ∧
    sampleProxy.outbound ((sampleProxy.normalizePublicRequest samplePeer).cloneRequest { base := () })
        sampleTarget =
      sampleProxy.outbound ((sampleProxy.normalizePublicRequest sampleOther).cloneRequest { base := () })
        sampleTarget := by
  have ⟨_, _, hout⟩ := public_noninterference ⟨fun _ => 0, fun _ => 0, fun _ => 0⟩ FillIdentity.key
    alike_sample
  exact ⟨by decide, by decide, hout _ _⟩

end Sample

end HTTPProxy
end Bakemono
