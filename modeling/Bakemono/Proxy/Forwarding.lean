import Bakemono.Proxy.Public

namespace Bakemono

-- The address in an element of a list of hops, and the text it is forwarded as.
def Net.hop (net : Net) (value : Bytes) : Option net.Addr := net.parseAddr (net.trimSpace value)

def Net.text (net : Net) (ip : net.Addr) : Bytes := net.string (net.unmap ip)

namespace HTTPProxy

variable {net : Net} {γ : Type}

-- The elements that are left of "X-Forwarded-For".
def hops (net : Net) (r : Request γ) : List Bytes :=
  ([44].intercalate ((net.stripHopHeaders r.header).values (.text "X-Forwarded-For"))).splitOn 44

def Trusts (h : HTTPProxy net) (value : Bytes) : Prop := ∃ ip, net.hop value = some ip ∧ h.trusted ip = true

-- The addresses and the peer behind them, in the order of the chain.
def route (peer : Bytes) (ips : List net.Addr) : List Bytes := ips.map net.text ++ [peer]

-- A request is forwarded for the first of the addresses, or for the peer if there are none, and all
-- that come after it are trusted.
structure Routes (h : HTTPProxy net) (f : Forwarding) (peer : Bytes) (ips : List net.Addr) : Prop where
  chain   : f.chain = (Bytes.text ", ").intercalate (route peer ips)
  client  : (route peer ips).head? = some f.clientIP
  trusted : ∀ ip ∈ ips.tail, h.trusted ip = true

def connectionScheme (r : Request γ) : Bytes := if r.tls.isSome then .text "https" else .text "http"

section Walk

variable {h : HTTPProxy net} {ips : List net.Addr} {ip : net.Addr} {value peer : Bytes} {values suf : List Bytes}

-- What the loop has computed at the addresses so far.
def routed (peer : Bytes) (ips : List net.Addr) : Bytes × Bytes :=
  ((Bytes.text ", ").intercalate (route peer ips), (route peer ips).headD [])

theorem routed_nil : routed peer ([] : List net.Addr) = (peer, peer) := by
  simp [routed, route, List.intercalate]

theorem routed_cons : routed peer (ip :: ips) =
    (net.text ip ++ .text ", " ++ (routed peer ips).1, net.text ip) := by
  simp only [routed, route, List.map_cons, List.cons_append, List.headD_cons, List.append_assoc]
  cases ips <;> simp [List.intercalate]

theorem walk_cons_of_trusts (hv : net.hop value = some ip) (ht : h.trusted ip = true) :
    h.walk (value :: values) (routed peer ips) = h.walk values (routed peer (ip :: ips)) := by
  unfold Net.hop at hv
  rw [routed_cons]
  simp [walk, hv, ht, Net.text]

theorem walk_cons_of_not_trusts (hv : ¬h.Trusts value) :
    h.walk (value :: values) (routed peer ips) = routed peer ((net.hop value).toList ++ ips) := by
  cases ha : net.hop value
  case none =>
    unfold Net.hop at ha
    simp [walk, ha]
  case some ip =>
    have ht : h.trusted ip = false := by
      rw [← Bool.not_eq_true]
      exact fun ht => hv ⟨ip, ha, ht⟩
    unfold Net.hop at ha
    rw [Option.toList_some, List.singleton_append, routed_cons]
    simp [walk, ha, ht, Net.text]

-- The loop goes through all trusted elements at the end.
theorem walk_append (peer : Bytes) (hs : ∀ v ∈ suf, h.Trusts v) : ∃ ips, suf.map net.hop = ips.map some ∧
    (∀ ip ∈ ips, h.trusted ip = true) ∧
    ∀ values, h.walk (suf.reverse ++ values) (peer, peer) = h.walk values (routed peer ips) := by
  induction suf
  case nil => exact ⟨[], rfl, by simp, fun _ => by rw [routed_nil, List.reverse_nil, List.nil_append]⟩
  case cons v suf hi =>
    have ⟨ips, hm, ht, hw⟩ := hi fun v hv => hs v (.tail _ hv)
    have ⟨ip, hip, hti⟩ := hs v (.head _)
    refine ⟨ip :: ips, by rw [List.map_cons, hip, hm, List.map_cons],
      List.forall_mem_cons.mpr ⟨hti, ht⟩, fun values => ?_⟩
    rw [List.reverse_cons, List.append_assoc, List.singleton_append, hw, walk_cons_of_trusts hip hti]

end Walk

section Forwarding

variable {h : HTTPProxy net} {r r' : Request γ} {peer : net.Addr} {j : Bytes} {pre suf : List Bytes}

theorem forwarding_of_untrusted (hn : r.context.publicScheme = none)
    (hp : net.parseAddr (getIP net r) = some peer) (ht : h.trusted peer = false) :
    h.forwarding r = ⟨getIP net r, getIP net r, connectionScheme r⟩ := by
  simp only [forwarding, hn, hp, ht]
  rfl

-- The scheme that a trusted peer forwards for.
def forwardedScheme (net : Net) (r : Request γ) : Bytes :=
  let proto := (net.stripHopHeaders r.header).get (.text "X-Forwarded-Proto")
  if proto = .text "http" ∨ proto = .text "https" then proto else connectionScheme r

theorem forwarding_of_trusted (hn : r.context.publicScheme = none)
    (hp : net.parseAddr (getIP net r) = some peer) (ht : h.trusted peer = true) :
    h.forwarding r =
      let result := h.walk (hops net r).reverse (getIP net r, getIP net r)
      ⟨result.1, result.2, forwardedScheme net r⟩ := by
  simp only [forwarding, hn, hp, ht]
  rfl

theorem routes_routed {ips : List net.Addr} {scheme peer : Bytes} (ht : ∀ ip ∈ ips.tail, h.trusted ip = true) :
    h.Routes ⟨(routed peer ips).1, (routed peer ips).2, scheme⟩ peer ips where
  chain   := rfl
  client  := by cases ips <;> simp [routed, route]
  trusted := ht

-- The elements in front of one that is not trusted are not looked at.
theorem walk_hops (peer : Bytes) (hs : ∀ v ∈ suf, h.Trusts v) (hj : ¬h.Trusts j) :
    ∃ ips, suf.map net.hop = ips.map some ∧ (∀ ip ∈ ips, h.trusted ip = true) ∧
      ∀ pre, h.walk (pre ++ j :: suf).reverse (peer, peer) =
        routed peer ((net.hop j).toList ++ ips) := by
  have ⟨ips, hm, ht, hw⟩ := walk_append peer hs
  refine ⟨ips, hm, ht, fun pre => ?_⟩
  rw [List.reverse_append, List.reverse_cons, List.append_assoc, hw, List.singleton_append,
    walk_cons_of_not_trusts hj]

-- What a peer that is not trusted sends has no influence. A trusted one is believed up to the first
-- element from the right which is not an address of a trusted proxy, whatever stands left of it.
theorem forwarding_unspoofed (hn : r.context.publicScheme = none)
    (hp : net.parseAddr (getIP net r) = some peer) :
    (h.trusted peer = false → h.forwarding r = ⟨getIP net r, getIP net r, connectionScheme r⟩) ∧
    (h.trusted peer = true →
      (∀ pre j suf, hops net r = pre ++ j :: suf → (∀ v ∈ suf, h.Trusts v) → ¬h.Trusts j →
        (∃ ips, suf.map net.hop = ips.map some ∧
          h.Routes (h.forwarding r) (getIP net r) ((net.hop j).toList ++ ips)) ∧
        ∀ (r' : Request γ) pre', r'.context.publicScheme = none → getIP net r' = getIP net r →
          forwardedScheme net r' = forwardedScheme net r → hops net r' = pre' ++ j :: suf →
          h.forwarding r' = h.forwarding r) ∧
      ((∀ v ∈ hops net r, h.Trusts v) → ∃ ips, (hops net r).map net.hop = ips.map some ∧
        h.Routes (h.forwarding r) (getIP net r) ips)) := by
  refine ⟨forwarding_of_untrusted hn hp, fun ht => ⟨fun pre j suf he hs hj => ?_, fun hs => ?_⟩⟩
  case refine_1 =>
    have ⟨ips, hm, hi, hw⟩ := walk_hops (getIP net r) hs hj
    refine ⟨⟨ips, hm, ?_⟩, fun r' pre' hn' hg hf he' => ?_⟩
    case refine_1 =>
      rw [forwarding_of_trusted hn hp ht, he, hw]
      refine routes_routed fun ip hip => hi ip ?_
      cases hj : net.hop j
      case none   => exact List.mem_of_mem_tail (by simpa [hj] using hip)
      case some a => simpa [hj] using hip
    case refine_2 =>
      rw [forwarding_of_trusted hn hp ht, forwarding_of_trusted hn' (hg ▸ hp) ht, hg, hf, he, he', hw, hw]
  case refine_2 =>
    have ⟨ips, hm, hi, hw⟩ := walk_append (getIP net r) hs
    refine ⟨ips, hm, ?_⟩
    have hw := hw []
    rw [List.append_nil] at hw
    rw [forwarding_of_trusted hn hp ht, hw]
    exact routes_routed fun ip hip => hi ip (List.mem_of_mem_tail hip)

end Forwarding

section Sample

-- Addresses are texts, and a network is an address.
def addressNet : Net where
  trimSpace l       := l
  escapedPath url   := url.path
  joinURLPath a b   := (a.path ++ b.path, [])
  splitHostPort l   := some (l, [])
  parseIP l         := some l
  Addr              := Bytes
  parseAddr l       := if l = [] then none else some l
  unmap a           := a
  string a          := a
  Network           := Bytes
  contains n a      := n == a

def trustingProxy : HTTPProxy addressNet := ⟨[.text "p"]⟩

def forwardedRequest : Request Unit :=
  { Request.sampleRequest "a=1" with
    remoteAddr := .text "p"
    header     := RequestHeader.set (fun _ => none) (.text "X-Forwarded-For") (.text "p,c,p") }

theorem forwarding_unspoofed_sample :
    (trustingProxy.forwarding forwardedRequest).clientIP = .text "c" := by
  have ⟨_, ht⟩ := forwarding_unspoofed (h := trustingProxy) (r := forwardedRequest) rfl rfl
  have hs : ∀ v ∈ [Bytes.text "p"], trustingProxy.Trusts v := by
    simp only [List.mem_singleton]
    rintro v rfl
    exact ⟨Bytes.text "p", rfl, rfl⟩
  have hj : ¬trustingProxy.Trusts (.text "c") := by
    rintro ⟨ip, hip, ht⟩
    cases hip
    exact absurd ht (by decide)
  have ⟨⟨ips, _, hr⟩, _⟩ := (ht rfl).1 [.text "p"] (.text "c") [.text "p"] (by decide) hs hj
  exact (Option.some.inj hr.client).symm

end Sample

end HTTPProxy
end Bakemono
