import Bakemono.Read.Genuine
import Bakemono.Refresh.Untouched

namespace Bakemono

namespace Stripe

open CacheReader (Genuine Faithful Fragment)

variable {H : Hash} {s s' s₀ : Stripe} {e : Event} {body : Bytes → UInt64 → Bytes}

-- The entries and the copies are documents that hold what their writers have written.
structure Sound (H : Hash) (body : Bytes → UInt64 → Bytes) (s : Stripe) : Prop extends Traced H s where
  entries : ∀ k x, s.dirs k = some x → Genuine H body k x.mark.1.data
  pending : ∀ v ∈ s.evacuations, Genuine H body v.key v.data

-- A step that does not alias a phase, and publishes what a writer has written.
structure Fair (H : Hash) (body : Bytes → UInt64 → Bytes) (s : Stripe) (e : Event) : Prop where
  phase   : ¬e.Aliases s
  genuine : ∀ k r, e = .publish k r → Genuine H body k r.data

theorem Sound.effect (h : s.Sound H body) (he : Effect H s e s') (hc : Counts s s')
    (ha : ¬e.Aliases s) (hp : ∀ k r, e.publication = some (k, r) → Genuine H body k r.data) :
    s'.Sound H body := by
  have below (hb : s'.dirs.Below s.dirs) (k : Bytes) (x : Entry (Record × Mark))
      (hx : s'.dirs k = some x) : Genuine H body k x.mark.1.data := by
    have ⟨x₀, _, h₀, hx⟩ := hb k x hx
    exact hx ▸ h.entries k x₀ h₀
  have copies (v : EvacuationRecord) (hv : v ∈ s'.evacuations) : Genuine H body v.key v.data := by
    refine (he.copies hv).elim (h.pending v) fun ⟨x, hx⟩ => ?_
    rw [(h.toTraced.owns_of_copied hx).data]
    exact h.entries v.key x hx.entry
  refine ⟨h.toTraced.effect he hc ha, ?_, copies⟩
  cases he
  case shrinks hs => exact below hs.dirs
  case begin hr _ _ => exact below (by rw [dirs, hr]; exact Ring.below_beginFlush)
  case flush hd _ _ => exact below (by rw [dirs, hd]; exact .refl)
  case close hr _ _ => exact below (by rw [dirs, hr]; exact .refl)
  case put k₀ d r m fate kept size hpub _ _ _ hr _ _ =>
    intro k x hx
    rw [dirs, hr] at hx
    obtain ⟨rfl, rfl⟩ | ⟨_, x₀, _, h₀, rfl⟩ := Table.of_set hx
    case inl => exact hp _ _ hpub
    case inr => exact h.entries k x₀ h₀

theorem Sound.step (h : s.Sound H body) (hs : Step H s e s') (hf : Fair H body s e) :
    s'.Sound H body := by
  refine h.effect hs.effect hs.counts hf.phase fun k r hp => ?_
  cases e
  case publish k' r' =>
    cases hp
    exact hf.genuine k r rfl
  case evacuate v r' =>
    cases hp
    cases hs
    case evacuate hv _ _ _ _ _ _ hd => exact hd ▸ h.pending v hv
  all_goals cases hp

theorem Sound.run (h : s.Sound H body) (hr : Run (Step H) (Fair H body) s s') : s'.Sound H body :=
  hr.invariant (fun _ _ _ => Sound.step) h

theorem Opened.sound (h : s.Opened H)
    (hg : ∀ k x, s.dirs k = some x → Genuine H body k x.mark.1.data) : s.Sound H body :=
  { h.traced with
    entries := hg
    pending := by simp [h.evacuations] }

theorem Sound.faithful (h : s.Sound H body) {v : View} (hv : v.Shows s) :
    Faithful H body s.ring.start s.ring.stop v := by
  intro key i w p ⟨d, buf, ram, hr, hp⟩ hf
  have ⟨x, hx, _, _, hb⟩ := h.toTraced.handleRead hv hr
  subst hb
  have he := hf.eq_of_prefix (h.agrees.leads _ x hx).formed.length hp
  subst he
  exact h.entries _ x hx key i w rfl hf

theorem flushed_run (h : s.Sound H body) (hr : Run (Step H) (Fair H body) s s') :
    s.ring.flushed ⊆ s'.ring.flushed := by
  have ⟨_, hf⟩ : s'.Sound H body ∧ s.ring.flushed ⊆ s'.ring.flushed := by
    refine hr.invariant (I := fun s' => s'.Sound H body ∧ s.ring.flushed ⊆ s'.ring.flushed) ?_
      ⟨h, List.Subset.refl _⟩
    intro s₁ e s₂ ⟨h₁, hf₁⟩ hs hf
    have ⟨_, _, hf₂⟩ := h₁.toTraced.ring_effect hs.effect hf.phase
    exact ⟨h₁.step hs hf, List.Subset.trans hf₁ hf₂⟩
  exact hf

end Stripe

namespace CacheReader

variable {H : Hash} {s s' : Stripe} {key : Bytes} {w : UInt64} {r r' : CacheReader}
  {x y : Entry (Record × Mark)} {body : Bytes → UInt64 → Bytes} {v : View}

-- A reader which has loaded the head of an object in some state, and nothing has been read from.
structure Loaded (H : Hash) (s : Stripe) (key : Bytes) (w : UInt64) (r : CacheReader)
    (x : Entry (Record × Mark)) : Prop where
  entry    : s.dirs key = some x
  dir      : r.dir = x.dir
  buf      : r.buf = x.mark.1.data
  fragment : Fragment H key 0 w r.buf
  version  : r.version = some w
  total    : r.totalLen = (header r.buf).totalLen.toNat
  unread   : r.fragmentIndex = 0 ∧ r.offset = 0 ∧ r.totalRead = 0
  readErr  : r.readErr = none
  loads    : 0 < r.loads

theorem loaded_of_load (hs : s.Traced H) (hv : v.Shows s) (he : r.readErr = none)
    (hu : r.offset = 0 ∧ r.totalRead = 0)
    (h : r.load H s.ring.start s.ring.stop key v 0 = .ok r') : ∃ w x, Loaded H s key w r' x := by
  have ⟨w, hl⟩ := load_eq_ok h
  have ⟨p, ram, hr⟩ := handleRead_of_load h
  have ⟨_, _, _, hr', hp⟩ := hl.seen
  cases hr.symm.trans hr'
  have ⟨x, hx, _, hd, hb⟩ := hs.handleRead hv hr
  subst hb
  have hbuf := hl.fragment.eq_of_prefix (hs.agrees.leads _ x hx).formed.length hp
  rw [Hash.fragmentKey, if_pos rfl] at hx
  refine ⟨w, x, hx, hd, hbuf, hl.fragment, hl.version, ?_, ⟨hl.index, ?_, ?_⟩, ?_, ?_⟩
  case refine_1 => simpa using hl.total
  case refine_2 => exact hl.offset.trans hu.1
  case refine_3 => exact hl.read.trans hu.2
  case refine_4 => exact hl.readErr.trans he
  case refine_5 => exact loads_load h ▸ Nat.succ_pos _

theorem Loaded.primed (h : Loaded H s key w r x) (hs : s.Sound H body) :
    Primed H body s.ring.start s.ring.stop key w r where
  fragment := h.fragment
  genuine  := h.buf ▸ hs.entries key x h.entry
  dir      := by
    have ⟨hd, hm, _⟩ := hs.ring.entry key x h.entry
    have ⟨hlo, hhi, hpos, _⟩ := hs.ring.placed _ hm
    have hst : x.mark.1.stop = x.mark.1.offset + x.mark.1.data.length := rfl
    rw [h.dir, hd.offset]
    omega
  version  := h.version
  total    := h.total
  unread   := h.unread
  readErr  := h.readErr
  loads    := h.loads

-- As long as at most one lap has begun since then, an entry that looks the same is the same.
theorem Loaded.record_eq (h : Loaded H s key w r x) (hs : s.Sound H body)
    (hr : Run (Stripe.Step H) (Stripe.Fair H body) s s') (hy : s'.dirs key = some y)
    (hd : y.dir = r.dir) (hg : s'.ring.generation ≤ x.mark.1.generation + 1) :
    y.mark.1 = x.mark.1 := by
  have ⟨hst, hm, _⟩ := hs.ring.entry key x h.entry
  refine (hs.run hr).toTraced.record_at (Stripe.flushed_run hs hr hm) hy ?_ ?_ hg
  case refine_1 => rw [hd, h.dir, hst.offset]
  case refine_2 => rw [hd, h.dir, hst.phase]

end CacheReader

namespace Refresh

open CacheReader (header payload metadata Fragment Genuine Authentic Loaded Faithful)

variable {n : Nat} {H : Hash} {c c' : Cache n} {token : FillToken n} {src : CacheVC n}
  {info : CacheHTTPInfo} {write : Bytes → Except Err Allocation} {ctxErr : Option Err} {kept : Bool}
  {w : UInt64} {key p encoded : Bytes} {body : Bytes → UInt64 → Bytes} {s₀ s₁ : Stripe}
  {x e : Entry (Record × Mark)} {draft : Draft} {a : Allocation} {d : Dir}

-- A call that fails leaves everything as it is, and one that does not has exchanged the head.
theorem updateHTTPInfo_cases (H : Hash) (c c' : Cache n) (token : FillToken n) (src : CacheVC n)
    (info : CacheHTTPInfo) (write : Bytes → Except Err Allocation) (ctxErr : Option Err)
    (kept : Bool) :
    (∃ err, updateHTTPInfo H token info write ctxErr kept c c' src = (some err, ⟨c', src⟩)) ∨
    ∃ draft a e d, prepare H c token src info = .ok draft ∧ write draft.data = .ok a ∧
      recheck H c' token src draft a = .ok (e, d) ∧
      updateHTTPInfo H token info write ctxErr kept c c' src =
        (none, exchange info draft a kept ⟨c', src⟩ e d) := by
  cases hp : prepare H c token src info
  case error err => exact .inl ⟨err, by simp only [updateHTTPInfo, hp]⟩
  case ok draft =>
    cases hw : write draft.data
    case error err => exact .inl ⟨err, by simp only [updateHTTPInfo, hp, hw]⟩
    case ok a =>
      cases ctxErr
      case some err => exact .inl ⟨err, by simp only [updateHTTPInfo, hp, hw, commit_eq]⟩
      case none =>
        cases hr : recheck H c' token src draft a
        case error err => exact .inl ⟨err, by simp only [updateHTTPInfo, hp, hw, commit_eq, hr]⟩
        case ok ed =>
          refine .inr ⟨draft, a, ed.1, ed.2, rfl, hw, hr, ?_⟩
          simp only [updateHTTPInfo, hp, hw, commit_eq, hr]

-- The new document has what the one it replaces has, except for the metadata.
structure Refreshes (H : Hash) (encoded p q : Bytes) : Prop where
  key      : (header q).key = (header p).key
  firstKey : (header q).firstKey = (header p).firstKey
  totalLen : (header q).totalLen = (header p).totalLen
  version  : (header q).version = (header p).version
  payload  : payload q = payload p
  metadata : metadata q = encoded
  formed   : Stripe.Formed H q

theorem refreshes_document (hf : Fragment H key 0 w p) (hl : encoded.length ≤ 64 <<< 10) :
    Refreshes H encoded p (document H (header p) encoded (payload p)) where
  key      := by rw [header_document]; rfl
  firstKey := by rw [header_document]; rfl
  totalLen := by rw [header_document]; rfl
  version  := by rw [header_document]; rfl
  payload  := payload_document (fitting_payload hf hl)
  metadata := metadata_document (fitting_payload hf hl)
  formed   := Stripe.formed_fragment (fragment_document hf (fitting_payload hf hl))

theorem Refreshes.fragment {i : Nat} {q : Bytes} (h : Refreshes H encoded p q) (hp : Stripe.Formed H p)
    (hf : Fragment H key i w q) : Fragment H key i w p where
  valid    := hp.valid
  identity := h.key ▸ hf.identity
  firstKey := h.firstKey ▸ hf.firstKey
  version  := h.version ▸ hf.version
  length   := hp.length

theorem Refreshes.genuine {q : Bytes} (h : Refreshes H encoded p q) (hp : Stripe.Formed H p)
    (hg : Genuine H body key p) : Genuine H body key q := by
  intro key' i w hk hf
  have ha := hg key' i w hk (h.fragment hp hf)
  exact ⟨h.payload.trans ha.payload, fun hi => by rw [h.totalLen, ha.total hi]⟩

-- The exchange is a publication like that of a writer.
theorem Admits.effect (h : Admits H c token src draft a e d)
    (hf : ⟨a, draft.data⟩ ∈ (c src.stripe).ring.flushed) (hd : Stripe.Formed H draft.data) :
    Stripe.Effect H (c src.stripe) (.publish src.key ⟨a, draft.data⟩)
      (replace (c src.stripe) src.key e d ⟨a, draft.data⟩ kept) := by
  refine .put src.key (d.setNext e.dir.next) ⟨a, draft.data⟩ _ _ kept (sectors draft.data.length)
    rfl ⟨hf, h.place, e.dir.tag, d, e.dir.next, ?_, h.dir, rfl⟩ (.inr rfl) (.inl hd) rfl rfl rfl
  exact Dir.tag_lt e.dir

-- What is written between two states is on the disk in the second one.
def Writes (s s' : Stripe) (write : Bytes → Except Err Allocation) : Prop :=
  ∀ data a, write data = .ok a → ⟨a, data⟩ ∈ s'.ring.flushed ∧ ⟨a, data⟩ ∉ s.ring.flushed

-- What happens to the stripe of a reader around a call: others take their steps since the reader has
-- loaded its head and between the critical sections, and the document is written in between.
structure Around (H : Hash) (body : Bytes → UInt64 → Bytes) (s₁ : Stripe) (c c' : Cache n)
    (src : CacheVC n) (write : Bytes → Except Err Allocation) : Prop where
  before  : Run (Stripe.Step H) (Stripe.Fair H body) s₁ (c src.stripe)
  between : Run (Stripe.Step H) (Stripe.Fair H body) (c src.stripe) (c' src.stripe)
  written : Writes (c src.stripe) (c' src.stripe) write

-- If the entry of the object looks like the one the reader has loaded, at most one lap has begun since
-- the record of the reader was written.
def Timely (c : Cache n) (src : CacheVC n) (x : Entry (Record × Mark)) : Prop :=
  ∀ y, (c src.stripe).dirs src.key = some y → y.dir = src.reader.dir →
    (c src.stripe).ring.generation ≤ x.mark.1.generation + 1

theorem generation_eq (hp : prepare H c token src info = .ok draft)
    (hr : recheck H c' token src draft a = .ok (e, d)) :
    (c' src.stripe).ring.generation = (c src.stripe).ring.generation := by
  have ⟨_, _, _, hf, _⟩ := prepare_eq_ok.mp hp
  have ⟨ha, _⟩ := recheck_eq_ok.mp hr
  have ⟨_, h₁, _⟩ := Cache.checkFillLocked_eq_ok.mp hf.check
  have ⟨_, h₂, _⟩ := Cache.checkFillLocked_eq_ok.mp ha.check
  exact congrFun (h₂.symm.trans h₁) src.stripe

-- The head that is replaced is the one that the reader has loaded.
theorem Around.record_eq (h : Around H body s₁ c c' src write) (hs : s₁.Sound H body)
    (hl : Loaded H s₁ src.key w src.reader x) (hg : Timely c src x)
    (hp : prepare H c token src info = .ok draft)
    (hr : recheck H c' token src draft a = .ok (e, d)) : e.mark.1 = x.mark.1 := by
  have ⟨_, y, _, hf, _, _, hd, _⟩ := prepare_eq_ok.mp hp
  have ⟨ha, _⟩ := recheck_eq_ok.mp hr
  have hg := hg y hf.entry hf.head
  rw [← generation_eq hp hr] at hg
  exact hl.record_eq hs (h.before.trans h.between) ha.entry (ha.head.trans hd) hg

theorem Around.not_aliases (h : Around H body s₁ c c' src write) (hs : s₁.Sound H body)
    (hp : prepare H c token src info = .ok draft) (hw : write draft.data = .ok a)
    (hr : recheck H c' token src draft a = .ok (e, d)) :
    ¬(Stripe.Event.publish src.key ⟨a, draft.data⟩).Aliases (c' src.stripe) := by
  rintro ⟨_, r, hpub, _, _, hgen⟩
  cases hpub
  have ⟨hm, hn⟩ := h.written _ _ hw
  have hnew := (Stripe.newer h.between (hs.run h.before).ring.toLayout hm).resolve_left hn
  rw [generation_eq hp hr] at hgen
  omega

-- The entries of the other fragments are those that were found at the beginning.
def Retains (H : Hash) (b b' : Backed Stripe) (src : CacheVC n) : Prop :=
  ∀ i, 0 < i → i < (fragments (header src.reader.buf)).toNat → ∃ z z',
    b.Finds H id (H.fragmentKey src.key i) z ∧ b'.Finds H id (H.fragmentKey src.key i) z' ∧
    z'.dir = z.dir ∧ z'.mark.1 = z.mark.1 ∧
    b'.state.ring.allocationValid z'.mark.1.allocation z'.dir.approxSize = true

theorem Around.retains {K : KeySpace H} {b b' : Fin n → Backed Stripe}
    (h : Around H body s₁ (fun i => (b i).state) (fun i => (b' i).state) src write) (hs : s₁.Sound H body)
    (hm : (b src.stripe).Mirrored K id) (hm' : (b' src.stripe).Mirrored K id)
    (hp : prepare H (fun i => (b i).state) token src info = .ok draft)
    (hr : recheck H (fun i => (b' i).state) token src draft a = .ok (e, d))
    (hk : ∀ t ∈ draft.tails, t.key ∈ K.keys) : Retains H (b src.stripe) (b' src.stripe) src := by
  intro i h₀ hi
  have hc := hs.run h.before
  have hc' := hc.run h.between
  have ⟨_, _, _, _, _, _, _, hmap, _⟩ := prepare_eq_ok.mp hp
  have ⟨_, hold⟩ := recheck_eq_ok.mp hr
  have hi : i ∈ List.range' 1 ((fragments (header src.reader.buf)).toNat - 1) := by
    rw [List.mem_range'_1]
    omega
  have ⟨t, ht⟩ := Except.exists_of_mapM hmap hi
  have ⟨z, hz, _, _, he⟩ := retain_eq_ok.mp ht
  have htail := (Except.mem_mapM hmap).mpr ⟨i, hi, ht⟩
  have ⟨hd', hv⟩ := hold t htail
  have hk := hk t htail
  subst he
  have ⟨z', hz', hd⟩ := Option.map_eq_some_iff.mp hd'
  have ⟨hst, hmem, hrec⟩ := hc.ring.entry _ z hz
  have hgen := generation_eq hp hr
  have hle : (b' src.stripe).state.ring.generation ≤ z.mark.1.generation + 1 := by
    have : z.mark.1.generation = _ ∨ z.mark.1.generation + 1 = _ := hrec.imp_right And.left
    omega
  have heq : z'.mark.1 = z.mark.1 := by
    refine hc'.toTraced.record_at (Stripe.flushed_run hc h.between hmem) hz' ?_ ?_ hle
    case refine_1 => rw [hd, hst.offset]
    case refine_2 => rw [hd, hst.phase]
  refine ⟨z, z', hm.finds hk hz, hm'.finds hk hz', hd, heq, ?_⟩
  rw [hc.toTraced.generation_eq hz, hst.offset] at hv
  rw [heq, hd]
  exact Ring.allocationValid_iff.mpr (Ring.allocationValid_iff.mp hv)

theorem dirs_replace_self {s : Stripe} {r : Record} : (replace s key e d r kept).dirs key =
    some ⟨d.setNext e.dir.next, r, { e.mark.2 with stamp := s.clock }⟩ := by
  rw [replace, Stripe.dirs_put]
  exact Table.set_self _

theorem cache_exchange {x : Refresh n} : (exchange info draft a kept x e d).cache x.source.stripe =
    replace (x.cache x.source.stripe) x.source.key e d ⟨a, draft.data⟩ kept :=
  Function.update_self ..

-- The stripe after the exchange, and the refreshed reader.
theorem Around.exchange (h : Around H body s₁ c c' src write) (hs : s₁.Sound H body)
    (hl : Loaded H s₁ src.key w src.reader x) (hg : Timely c src x)
    (hp : prepare H c token src info = .ok draft) (hw : write draft.data = .ok a)
    (hr : recheck H c' token src draft a = .ok (e, d)) (kept : Bool) :
    ∃ encoded, info.marshal = .ok encoded ∧ Refreshes H encoded e.mark.1.data draft.data ∧
      (replace (c' src.stripe) src.key e d ⟨a, draft.data⟩ kept).Sound H body ∧
      ∃ y, Loaded H (replace (c' src.stripe) src.key e d ⟨a, draft.data⟩ kept) src.key w
        (Refresh.exchange info draft a kept ⟨c', src⟩ e d).source.reader y ∧
        y.mark.1 = ⟨a, draft.data⟩ := by
  have ⟨encoded, _, _, _, hm, hlen, _, _, hdata⟩ := prepare_eq_ok.mp hp
  have ⟨ha, _⟩ := recheck_eq_ok.mp hr
  have hrec := h.record_eq hs hl hg hp hr
  have hfit := fitting_payload hl.fragment hlen
  have hfrag := hdata ▸ fragment_document hl.fragment hfit
  have href : Refreshes H encoded e.mark.1.data draft.data := by
    rw [hrec, ← hl.buf, hdata]
    exact refreshes_document hl.fragment hlen
  have hc' := hs.run (h.before.trans h.between)
  have hold := hc'.agrees.leads _ e ha.entry
  have hsound : (replace (c' src.stripe) src.key e d ⟨a, draft.data⟩ kept).Sound H body := by
    refine hc'.effect (ha.effect (h.written _ _ hw).1 href.formed) (.of_eq rfl rfl)
      (h.not_aliases hs hp hw hr) fun k r hpub => ?_
    cases hpub
    exact href.genuine hold.formed (hc'.entries _ e ha.entry)
  refine ⟨encoded, hm, href, hsound, _, ⟨dirs_replace_self, rfl, rfl, hfrag, hl.version, ?_, hl.unread,
    hl.readErr, hl.loads⟩, rfl⟩
  show src.reader.totalLen = (header draft.data).totalLen.toNat
  rw [hl.total, href.totalLen, hrec, ← hl.buf]

-- The loads of a reader see states that the stripe reaches later.
def Sees (H : Hash) (body : Bytes → UInt64 → Bytes) (s : Stripe) (key : Bytes) (env : Nat → View) : Prop :=
  ∀ j, CacheReader.Spares H s.ring.start s.ring.stop key (env j) .eof ∧
    ∃ s', Run (Stripe.Step H) (Stripe.Fair H body) s s' ∧ (env j).Shows s'

-- A reader that gets to the end has returned the body of the version.
def Delivers (H : Hash) (body : Bytes → UInt64 → Bytes) (s : Stripe) (key : Bytes) (w : UInt64)
    (env : Nat → View) (r : CacheReader) : Prop :=
  ∀ sizes calls l p, CacheReader.readCalls H s.ring.start s.ring.stop key env sizes r = some calls →
    calls = l ++ [(p, some .eof)] → CacheReader.delivered calls = body key w

theorem Sees.faithful {s : Stripe} {env : Nat → View} (h : Sees H body s key env) (hs : s.Sound H body)
    (j : Nat) : Faithful H body s.ring.start s.ring.stop (env j) := by
  have ⟨_, s', hr, hv⟩ := h j
  have ⟨h₁, h₂⟩ := Stripe.bounds_run hr
  have hf := (hs.run hr).faithful hv
  rwa [h₁, h₂] at hf

theorem delivers_loaded {s s' : Stripe} {env : Nat → View} {r : CacheReader} (hs : s.Sound H body)
    (hl : Loaded H s key w r x) (hr : Run (Stripe.Step H) (Stripe.Fair H body) s s')
    (h : Sees H body s' key env) : Delivers H body s' key w env r := by
  intro sizes calls l p hc he
  have ⟨h₁, h₂⟩ := Stripe.bounds_run hr
  have hp := hl.primed hs
  rw [← h₁, ← h₂] at hp
  exact hp.delivers (h.faithful (hs.run hr)) (fun j => (h j).1) hc he

-- A new reader, which may have been asked for its metadata, and whose first load finds the head.
theorem delivers_new {s s' : Stripe} {env : Nat → View} {r : CacheReader} {y : Entry (Record × Mark)}
    (hs : s.Sound H body) (hw : Fragment H key 0 w y.mark.1.data)
    (hr : Run (Stripe.Step H) (Stripe.Fair H body) s s') (hv : (env 0).Shows s')
    (hy : s'.dirs key = some y) (h : Sees H body s key env)
    (hn : r = {} ∨ ∃ info, CacheReader.loadHTTPInfo H s.ring.start s.ring.stop key env {} = (.ok info, r)) :
    Delivers H body s key w env r := by
  intro sizes calls l p hc he
  have hs' := hs.run hr
  have ⟨hb₁, hb₂⟩ := Stripe.bounds_run hr
  have primed {r₁ : CacheReader}
      (hl : CacheReader.load H s.ring.start s.ring.stop key (env 0) 0 {} = .ok r₁) :
      CacheReader.Primed H body s.ring.start s.ring.stop key w r₁ := by
    rw [← hb₁, ← hb₂] at hl ⊢
    have ⟨w', y', hl⟩ := CacheReader.loaded_of_load hs'.toTraced hv rfl ⟨rfl, rfl⟩ hl
    cases hy.symm.trans hl.entry
    have hw' : w' = w := by rw [← hl.fragment.version, hl.buf, hw.version]
    exact hw' ▸ hl.primed hs'
  have hf := h.faithful hs
  have hsp := fun j => (h j).1
  rcases hn with rfl | ⟨info, hi⟩
  case inl =>
    cases hl : CacheReader.load H s.ring.start s.ring.stop key (env 0) 0 {}
    case error err => exact (CacheReader.readCalls_of_error hsp rfl rfl hl hc he).elim
    case ok r₁ =>
      have hne : sizes ≠ [] := by
        rintro rfl
        cases hc
        simp at he
      rw [CacheReader.readCalls_new hne rfl rfl hl] at hc
      exact (primed hl).delivers hf hsp hc he
  case inr =>
    have ⟨r₁, hl, hr₁⟩ := CacheReader.load_of_loadHTTPInfo rfl rfl hi
    have hp : CacheReader.Primed H body s.ring.start s.ring.stop key w r := hr₁ ▸ { primed hl with }
    exact hp.delivers hf hsp hc he

section Backed

open DirManager (Performs)

-- What the second critical section asks of the directory.
def refreshCalls (key : Bytes) (tails : List Retained) (r : Record) (rand : Nat → Fin 10) : List Call :=
  (key :: tails.map Retained.key).map .get ++
    [.op (.set key r.offset (sectors r.data.length) (odd r.generation) rand)]

variable (H) in
-- The reader gets the entry that the directory has made.
def follow (x : Refresh n) (dm : DirManager) : Refresh n where
  cache  := Function.update x.cache x.source.stripe ((x.cache x.source.stripe).follow H dm)
  source :=
    { x.source with
      reader := { x.source.reader with dir := (dm.get H x.source.key).dir } }

-- A call between states of the stripes and their directories, and the directory of its stripe
-- afterwards. A call that fails only looks up entries.
inductive Updates (K : KeySpace H) (token : FillToken n) (info : CacheHTTPInfo)
    (write : Bytes → Except Err Allocation) (ctxErr : Option Err) (kept : Bool)
    (b b' : Fin n → Backed Stripe) (src : CacheVC n) : Option Err → Refresh n → DirManager → Prop
  | fails (err out) :
    (updateHTTPInfo H token info write ctxErr kept (fun i => (b i).state) (fun i => (b' i).state) src =
      (some err, out)) →
    Updates K token info write ctxErr kept b b' src (some err) out (b' src.stripe).dirMgr
  | succeeds (out draft a rand dm) :
    (updateHTTPInfo H token info write ctxErr kept (fun i => (b i).state) (fun i => (b' i).state) src =
      (none, out)) →
    (prepare H (fun i => (b i).state) token src info = .ok draft) → (write draft.data = .ok a) →
    (Performs K (refreshCalls src.key draft.tails ⟨a, draft.data⟩ rand) (b' src.stripe).dirMgr dm) →
    Updates K token info write ctxErr kept b b' src none (out.follow H dm) dm

variable {K : KeySpace H} {dm dm' : DirManager} {s : Stripe} {r : Record}
  {rand : Nat → Fin 10} {b b' : Fin n → Backed Stripe} {b₀ b₁ : Backed Stripe}

theorem follow_replace {next : BitVec 16} (hd : (dm.get H key).dir = d.setNext next) :
    (replace s key e d r kept).follow H dm =
      (s.put key (dm.get H key).dir r { e.mark.2 with stamp := s.clock } (dm.fate H) kept).follow H dm := by
  have h : (replace s key e d r kept).dirs.evict (dm.fate H) = (s.put key (dm.get H key).dir r
      { e.mark.2 with stamp := s.clock } (dm.fate H) kept).dirs.evict (dm.fate H) := by
    funext k
    rw [replace, Stripe.dirs_put, Stripe.dirs_put, hd]
    by_cases hk : k = key
    case pos =>
      subst hk
      simp only [Table.evict, Table.set_self]
      rfl
    case neg =>
      simp only [Table.evict, Table.set, if_neg hk]
      cases s.dirs k
      case none => rfl
      case some x =>
        cases dm.fate H k
        case none => rfl
        case some => rfl
  rw [Stripe.follow, h]
  rfl

-- The directory makes the entry that the call expects, up to its link.
theorem mirrored_replace {tails : List Retained} (hm : dm.Mirrors K s.dirs) (he : s.dirs key = some e)
    (hd : Dir.make r.offset (sectors r.data.length) e.dir.tag (odd r.generation) = some d)
    (hp : Performs K (refreshCalls key tails r rand) dm dm') (kept : Bool) :
    Backed.Mirrored K id ⟨(replace s key e d r kept).follow H dm', dm'⟩ ∧
    Backed.Finds H id ⟨(replace s key e d r kept).follow H dm', dm'⟩ key
      ⟨(dm'.get H key).dir, r, { e.mark.2 with stamp := s.clock }⟩ := by
  obtain ⟨_, hk, _⟩ := Stripe.performs_set hp
  obtain ⟨d', hd', hget⟩ := Stripe.get_performs_set hm.sound hp
  rw [← hm.toAgrees.tag hk he, hd] at hd'
  cases hd'
  let s' := s.put key (dm'.get H key).dir r { e.mark.2 with stamp := s.clock } (dm'.fate H) kept
  have ha : dm'.Agrees K s'.dirs := Stripe.agrees_set hm.toAgrees hp _
  rw [follow_replace hget]
  have hsettles : Backed.Mirrored K id ⟨s'.follow H dm', dm'⟩ ∧ _ := Backed.settles ha rfl
  obtain ⟨next, hf⟩ := hsettles.2 key hk _ (Table.set_self _)
  have hn : (dm'.get H key).dir.setNext next = (dm'.get H key).dir := by
    have hshown := hf.shown
    simp only [DirManager.shown, Option.ite_none_right_eq_some, Option.some.injEq] at hshown
    exact hshown.2.symm
  rw [Entry.relink, hn] at hf
  exact ⟨hsettles.1, hf⟩

theorem cache_follow {x : Refresh n} :
    ((exchange info draft a kept x e d).follow H dm).cache x.source.stripe =
      (replace (x.cache x.source.stripe) x.source.key e d ⟨a, draft.data⟩ kept).follow H dm :=
  (Function.update_self ..).trans (by rw [← cache_exchange]; rfl)

-- A reader of the object sees what `Get` shows. The keys that it finds are in use.
structure Shown (K : KeySpace H) (key : Bytes) (b : Backed Stripe) (v : View) : Prop where
  get  : ∀ i, v.get (H.fragmentKey key i) = b.dirMgr.shown H (H.fragmentKey key i)
  used : ∀ i, v.get (H.fragmentKey key i) ≠ none → H.fragmentKey key i ∈ K.keys
  rest : View.Shows { v with get := fun k => (b.state.dirs k).map Entry.dir } b.state

-- Entries for keys out of use might as well not be there.
theorem Shown.shows {b : Backed Stripe} {v : View} (h : Shown K key b v) (hm : b.Mirrored K id) :
    ∃ s v', Stripe.Step H b.state .other s ∧ v'.Shows s ∧ v.Alike H key v' ∧
      ∀ k ∈ K.keys, s.dirs k = b.state.dirs k := by
  classical
  let fate : Table.Fate Bytes := fun k => if k ∈ K.keys then (b.state.dirs k).map (·.dir.next) else none
  let s : Stripe := { b.state with ring := { b.state.ring with dirs := b.state.dirs.evict fate } }
  have hdirs (k : Bytes) : s.dirs k = if k ∈ K.keys then b.state.dirs k else none := by
    show Table.evict _ fate k = _
    by_cases hk : k ∈ K.keys
    case pos =>
      simp only [Table.evict, fate, if_pos hk]
      cases b.state.dirs k
      case none => rfl
      case some => rfl
    case neg =>
      simp only [Table.evict, fate, if_neg hk]
      cases b.state.dirs k
      case none => rfl
      case some => rfl
  refine ⟨s, { v with get := fun k => (s.dirs k).map Entry.dir }, .drop _ ⟨rfl, Table.below_evict _, fun _ _ => id⟩,
    ⟨h.rest.storageErr, h.rest.closed, fun _ => rfl, h.rest.dirValid, h.rest.ram, h.rest.disk⟩,
    ⟨rfl, rfl, fun i => ?_, fun _ => rfl, fun _ => rfl, rfl⟩, fun k hk => by rw [hdirs, if_pos hk]⟩
  show (s.dirs (H.fragmentKey key i)).map Entry.dir = v.get (H.fragmentKey key i)
  rw [hdirs]
  by_cases hk : H.fragmentKey key i ∈ K.keys
  case pos => rw [if_pos hk, h.get i, ← hm.shows _ hk, id]
  case neg => rw [if_neg hk, Option.map_none, not_not.mp (mt (h.used i) hk)]

-- The loads of a reader see states that the stripe and its directory reach later.
def Observes (K : KeySpace H) (body : Bytes → UInt64 → Bytes) (b : Backed Stripe) (key : Bytes)
    (env : Nat → View) : Prop :=
  ∀ j, CacheReader.Spares H b.state.ring.start b.state.ring.stop key (env j) .eof ∧
    ∃ b', Run (Backed.Step K id (Stripe.Step H)) (fun b => Stripe.Fair H body b.state) b b' ∧
      Shown K key b' (env j)

theorem fair_other {s : Stripe} : Stripe.Fair H body s .other := ⟨Stripe.Event.not_aliases rfl, nofun⟩

theorem Observes.sees {b : Backed Stripe} {env : Nat → View} (h : Observes K body b key env)
    (hm : b.Mirrored K id) :
    ∃ env', (∀ j, (env j).Alike H key (env' j)) ∧ Sees H body b.state key env' := by
  have hview (j : Nat) : ∃ v', (env j).Alike H key v' ∧
      CacheReader.Spares H b.state.ring.start b.state.ring.stop key v' .eof ∧
      ∃ s, Run (Stripe.Step H) (Stripe.Fair H body) b.state s ∧ v'.Shows s := by
    obtain ⟨hsp, b', hr, hv⟩ := h j
    obtain ⟨s, v', hs, hv, ha, _⟩ := hv.shows (Backed.mirrored_run hr hm)
    refine ⟨v', ha, fun i => ?_, s, (Backed.run_state hr fun _ => fair_other).step hs fair_other, hv⟩
    rw [CacheReader.handleRead_alike ha]
    exact hsp i
  choose env' ha hs using hview
  exact ⟨env', ha, hs⟩

-- The first load may be fixed.
theorem Sees.update {s s' : Stripe} {env : Nat → View} {v : View} (h : Sees H body s key env)
    (hsp : CacheReader.Spares H s.ring.start s.ring.stop key v .eof)
    (hr : Run (Stripe.Step H) (Stripe.Fair H body) s s') (hv : v.Shows s') :
    Sees H body s key (Function.update env 0 v) := by
  intro j
  by_cases hj : j = 0
  case pos =>
    subst hj
    rw [Function.update_self]
    exact ⟨hsp, s', hr, hv⟩
  case neg =>
    rw [Function.update_of_ne hj]
    exact h j

theorem Delivers.alike {s : Stripe} {w : UInt64} {env env' : Nat → View} {r : CacheReader}
    (h : Delivers H body s key w env' r) (ha : ∀ j, (env j).Alike H key (env' j)) :
    Delivers H body s key w env r := by
  intro sizes calls l p hc
  rw [← CacheReader.readCalls_alike ha] at hc
  exact h sizes calls l p hc

theorem Observes.delivers_loaded {b : Backed Stripe} {s : Stripe} {w : UInt64} {env : Nat → View}
    {r : CacheReader} (h : Observes K body b key env) (hm : b.Mirrored K id) (hs : s.Sound H body)
    (hl : Loaded H s key w r x) (hr : Run (Stripe.Step H) (Stripe.Fair H body) s b.state) :
    Delivers H body b.state key w env r := by
  obtain ⟨env', ha, h⟩ := h.sees hm
  exact (Refresh.delivers_loaded hs hl hr h).alike ha

theorem Observes.delivers_new {b b' : Backed Stripe} {w : UInt64} {env : Nat → View} {r : CacheReader}
    {y : Entry (Record × Mark)} (h : Observes K body b key env) (hm : b.Mirrored K id)
    (hs : b.state.Sound H body) (hw : Fragment H key 0 w y.mark.1.data)
    (hr : Run (Backed.Step K id (Stripe.Step H)) (fun b => Stripe.Fair H body b.state) b b')
    (hv : Shown K key b' (env 0)) (hk : key ∈ K.keys) (hy : b'.Finds H id key y)
    (hn : r = {} ∨ ∃ info, CacheReader.loadHTTPInfo H b.state.ring.start b.state.ring.stop key env {} =
      (.ok info, r)) : Delivers H body b.state key w env r := by
  obtain ⟨s, v', hstep, hv, ha₀, hsame⟩ := hv.shows (Backed.mirrored_run hr hm)
  obtain ⟨env', ha', hsees⟩ := h.sees hm
  have hr := (Backed.run_state hr fun _ => fair_other).step hstep fair_other
  have ha (j : Nat) : (env j).Alike H key (Function.update env' 0 v' j) := by
    by_cases hj : j = 0
    case pos =>
      rw [hj, Function.update_self]
      exact ha₀
    case neg =>
      rw [Function.update_of_ne hj]
      exact ha' j
  have hsp (i : Nat) := (CacheReader.handleRead_alike ha₀ i).symm ▸ (h 0).1 i
  have hv₀ : (Function.update env' 0 v' 0).Shows s := by
    rw [Function.update_self]
    exact hv
  rw [← CacheReader.loadHTTPInfo_alike ha] at hn
  exact (Refresh.delivers_new hs hw hr hv₀ ((hsame key hk).trans hy.entry) (hsees.update hsp hr hv) hn).alike ha

-- What a call that succeeds has done.
structure Succeeds (K : KeySpace H) (body : Bytes → UInt64 → Bytes) (b b' : Fin n → Backed Stripe)
    (src : CacheVC n) (info : CacheHTTPInfo) (w : UInt64) (out : Refresh n) (dm : DirManager)
    (y y' : Entry (Record × Mark)) : Prop where
  before : (b' src.stripe).Finds H id src.key y
  after  : Backed.Finds H id ⟨out.cache src.stripe, dm⟩ src.key y'
  head   : ∃ encoded, info.marshal = .ok encoded ∧ Refreshes H encoded y.mark.1.data y'.mark.1.data
  tails  : Retains H (b src.stripe) (b' src.stripe) src
  reader : Loaded H (out.cache src.stripe) src.key w out.source.reader y'
  later  : ∀ env r b z, Observes K body ⟨out.cache src.stripe, dm⟩ src.key env →
    Run (Backed.Step K id (Stripe.Step H)) (fun b => Stripe.Fair H body b.state)
      ⟨out.cache src.stripe, dm⟩ b →
    Shown K src.key b (env 0) → b.Finds H id src.key z → z.mark.1.data = y'.mark.1.data →
    (r = {} ∨ ∃ info, CacheReader.loadHTTPInfo H (out.cache src.stripe).ring.start
      (out.cache src.stripe).ring.stop src.key env {} = (.ok info, r)) →
    Delivers H body (out.cache src.stripe) src.key w env r

-- In a run in which no publication aliases a phase and no call overwrites a slot of the directory, a
-- call of `UpdateHTTPInfo` in time is an atomic exchange of the metadata.
theorem updateHTTPInfo_atomic {err : Option Err} {out : Refresh n} (h₀ : b₀.state.Opened H)
    (hm₀ : b₀.Mirrored K id) (hb : ∀ k x, b₀.state.dirs k = some x → Genuine H body k x.mark.1.data)
    (h₁ : Run (Backed.Step K id (Stripe.Step H)) (fun b => Stripe.Fair H body b.state) b₀ b₁)
    (hl : Loaded H b₁.state src.key w src.reader x)
    (h₂ : Run (Backed.Step K id (Stripe.Step H)) (fun b => Stripe.Fair H body b.state) b₁ (b src.stripe))
    (h₃ : Run (Backed.Step K id (Stripe.Step H)) (fun b => Stripe.Fair H body b.state) (b src.stripe)
      (b' src.stripe))
    (hw : Writes (b src.stripe).state (b' src.stripe).state write) (hg : Timely (fun i => (b i).state) src x)
    (hu : Updates K token info write ctxErr kept b b' src err out dm) :
    (∀ e, err = some e → out = ⟨fun i => (b' i).state, src⟩ ∧ dm = (b' src.stripe).dirMgr) ∧
    (err = none → ∃ y y', Succeeds K body b b' src info w out dm y y') ∧
    ∀ env, Observes K body ⟨out.cache src.stripe, dm⟩ src.key env →
      Delivers H body (out.cache src.stripe) src.key w env out.source.reader := by
  have fair (s : Stripe) : Stripe.Fair H body s .other := fair_other
  have hs := (h₀.sound hb).run (Backed.run_state h₁ fair)
  have hm := Backed.mirrored_run h₂ (Backed.mirrored_run h₁ hm₀)
  have hm' := Backed.mirrored_run h₃ hm
  have h : Around H body b₁.state (fun i => (b i).state) (fun i => (b' i).state) src write :=
    ⟨Backed.run_state h₂ fair, Backed.run_state h₃ fair, hw⟩
  have hcases := updateHTTPInfo_cases H (fun i => (b i).state) (fun i => (b' i).state) token src info write
    ctxErr kept
  cases hu
  case fails err ho =>
    obtain ⟨_, he⟩ | ⟨_, _, _, _, _, _, _, he⟩ := hcases
    case inr => cases ho.symm.trans he
    case inl =>
      cases ho.symm.trans he
      refine ⟨fun _ _ => ⟨rfl, rfl⟩, fun h => (by cases h), fun env he => ?_⟩
      exact he.delivers_loaded hm' hs hl (h.before.trans h.between)
  case succeeds out draft a rand ho hp hwrite hperf =>
    obtain ⟨_, he⟩ | ⟨_, _, e, d, hp', hw', hr, he⟩ := hcases
    case inl => cases ho.symm.trans he
    case inr =>
      cases hp.symm.trans hp'
      cases hwrite.symm.trans hw'
      cases ho.symm.trans he
      have ⟨ha, _⟩ := recheck_eq_ok.mp hr
      have ⟨encoded, hmar, href, hsound, y, hy, hrec⟩ := h.exchange hs hl hg hp hwrite hr kept
      have ⟨hmir, hfind⟩ := mirrored_replace (s := (b' src.stripe).state) (r := ⟨a, draft.data⟩) hm' ha.entry
        ha.dir hperf kept
      have hdrop : Stripe.Step H (replace (b' src.stripe).state src.key e d ⟨a, draft.data⟩ kept) .other
          ((replace (b' src.stripe).state src.key e d ⟨a, draft.data⟩ kept).follow H dm) :=
        .drop _ Stripe.drops_follow
      have hsound := hsound.step hdrop (fair _)
      let out := (exchange info draft a kept ⟨fun i => (b' i).state, src⟩ e d).follow H dm
      have hcache : out.cache src.stripe =
          (replace (b' src.stripe).state src.key e d ⟨a, draft.data⟩ kept).follow H dm := cache_follow
      rw [← hcache] at hsound hfind hmir
      have hload : Loaded H (out.cache src.stripe) src.key w out.source.reader _ :=
        { hy with
          entry := hfind.entry
          dir   := rfl
          buf   := rfl }
      have hk := (Stripe.performs_set hperf).1
      have htails : ∀ t ∈ draft.tails, t.key ∈ K.keys := fun t ht =>
        hk _ (List.mem_cons_of_mem _ (List.mem_map_of_mem ht))
      have hbefore := hm'.finds (hk _ List.mem_cons_self) ha.entry
      refine ⟨fun _ h => (by cases h), fun _ => ⟨e, _, hbefore, hfind, ⟨encoded, hmar, href⟩,
        h.retains hs hm hm' hp hr htails, hload, ?_⟩, fun env he => ?_⟩
      case refine_1 =>
        intro env r b z hsee hrun hv hz hd hn
        exact hsee.delivers_new hmir hsound (by rw [hd]; exact hload.fragment) hrun hv
          (hk _ List.mem_cons_self) hz hn
      case refine_2 => exact he.delivers_loaded hmir hsound hload .refl

end Backed

section Sample

open DirManager (Performs)
open Stripe (sampleStripe sampleWriter sampleDocument sampleDir sampleAddition sampleCopy SampleStep)

variable {s : Stripe} {g i : Nat} {v : UInt64} {b₀ : Backed Stripe} {token : FillToken 1}

-- Every writer writes its version.
def sampleBody (_ : Bytes) (v : UInt64) : Bytes := [v.toUInt8]

theorem header_sampleDocument : (header (sampleDocument v)).totalLen = 1 := by
  rw [sampleDocument, CacheWriter.header_document]
  rfl

theorem payload_sampleDocument : payload (sampleDocument v) = [v.toUInt8] :=
  CacheWriter.payload_document (Stripe.fragment_sampleDocument v)

theorem genuine_sampleDocument : Genuine sampleHash sampleBody [97] (sampleDocument v) := by
  intro key i w hk hf
  have hw : w = v := by rw [← hf.version, (Stripe.fragment_sampleDocument v).version]
  have hi : i = 0 := by
    by_contra hi
    rw [Hash.fragmentKey, if_neg hi] at hk
    exact absurd (congrArg List.length hk) (by simp)
  subst hw hi
  refine ⟨payload_sampleDocument.trans rfl, fun _ => ?_⟩
  rw [header_sampleDocument]
  rfl

def SampleFair (b : Backed Stripe) (e : Stripe.Event) : Prop := Stripe.Fair sampleHash sampleBody b.state e

theorem fair_sample {b : Backed Stripe} {e : Stripe.Event} (h : e.publication = none) : SampleFair b e :=
  ⟨Stripe.Event.not_aliases h, fun _ _ he => by rw [he] at h; cases h⟩

theorem fair_publish {b : Backed Stripe} {r : Record} (hs : b.state.ring.writingEnd = 0)
    (hr : Genuine sampleHash sampleBody [97] r.data) : SampleFair b (.publish [97] r) := by
  refine ⟨?_, fun _ _ he => by cases he; exact hr⟩
  rintro ⟨_, _, _, hpos, _⟩
  simp [hs] at hpos

-- The directory with the entry of a document at the beginning of the data area.
def sampleHome : DirManager := Backed.sampleSet (.init 4) 512 512 false

theorem get_sampleHome : sampleHome.get sampleHash [97] = ⟨true, 0, sampleDir⟩ := by decide +kernel

def sampleIn (v : UInt64) : Writer := { sampleWriter with version := v }

-- The writer writes its document there, publishes it and is closed.
def sampleObject (s : Stripe) (i g : Nat) (v : UInt64) : Stripe :=
  ((s.lap (sampleAddition 512 g v)).enters i 512 g v sampleHome).finished i
    { sampleIn v with published := [([97], sampleCopy 512 g v)] }

-- What is left of it when the writer is gone.
structure Stored (s : Stripe) (g : Nat) (v : UInt64) : Prop where
  ready      : s.Ready g 585
  entry      : ∃ m, s.dirs [97] = some ⟨sampleDir, sampleCopy 512 g v, m⟩
  alone      : Backed.Alone sampleHome s
  entries    : s.entries = fun _ => none
  generation : s.generation = 0
  index      : s.index = ((DirTrie.new 4).setIdentity [97] [97]).toOption.getD (.new 4)
  room       : s.fragmentsNum = 4

theorem stored_sampleObject {w g₀ : Nat} (hrun : Run SampleStep SampleFair b₀ ⟨s, .init 4⟩)
    (ha : Backed.Alone (.init 4) s) (hs : s.Ready g₀ w) (ht : Stripe.Fits g₀ w (sampleAddition 512 g v))
    (hg : odd g = false) (hw : s.writers[i]? = some (sampleIn v)) (hadm : s.Admits sampleHash i (sampleIn v))
    (he : s.entries = Function.update (fun _ => none) [97] (some i)) (hgen : s.generation = 0)
    (hi : s.index = ((DirTrie.new 4).setIdentity [97] [97]).toOption.getD (.new 4))
    (hn : s.fragmentsNum = 4) :
    Run SampleStep SampleFair b₀ ⟨sampleObject s i g v, sampleHome⟩ ∧ Stored (sampleObject s i g v) g v := by
  let s₁ := s.lap (sampleAddition 512 g v)
  have h₁ : Run SampleStep SampleFair b₀ ⟨s₁, .init 4⟩ :=
    hs.backed ht Stripe.sweeps_init ha (fun _ => fair_sample rfl) hrun
  have hs₁ : s₁.Ready g 585 :=
    { hs.lap (t := sampleAddition 512 g v) with writePos := Stripe.stop_sampleAddition }
  have hset : Performs Backed.sampleSpace ([].map .get ++ [.op (.set [97] 512 512 (odd g) fun _ => 0)])
      (.init 4) sampleHome := by
    rw [hg]
    exact Backed.performs_sampleSet (by simp) (by decide) (by decide) rfl
  have hv := hs₁.allocationValid (r := sampleCopy 512 g v) rfl le_rfl Stripe.stop_sampleCopy.le (by decide)
  have ⟨hp, hc⟩ := Stripe.step_enters (s := s₁) hw { hadm with } Stripe.mem_lap_sampleAddition
    (Stripe.length_sampleCopy ▸ hv) (DirManager.sound_init le_rfl) hset
  have ha₂ : Backed.Alone sampleHome (s₁.enters i 512 g v sampleHome) :=
    Stripe.alone_enters (Stripe.alone_lap ha) (congrArg Lookup.hit get_sampleHome)
      (by rw [get_sampleHome]; decide)
  have h₂ := h₁.step (ha₂.stripe hp hc hset) (fair_publish hs₁.idle genuine_sampleDocument)
  let w₂ : Writer := { sampleIn v with published := [([97], sampleCopy 512 g v)] }
  have hw₂ : (s₁.enters i 512 g v sampleHome).writers[i]? = some w₂ := by
    show (s.writers.set i _)[i]? = _
    rw [List.getElem?_set_self (List.getElem?_eq_some_iff.mp hw).1]
    rfl
  have he₂ : s.entries [97] = some i := by rw [he, Function.update_self]
  have h₃ : Run SampleStep (fun _ e => e = .other) _ ⟨sampleObject s i g v, sampleHome⟩ :=
    Stripe.backed_finished ha₂ hw₂ rfl he₂
  refine ⟨h₂.trans (h₃.mono fun b e (he : e = .other) => he ▸ fair_sample rfl), { hs₁ with }, ?_,
    ha₂.congr rfl, ?_, hgen, ?_, hn⟩
  case refine_1 =>
    let x : Entry (Record × Mark) :=
      ⟨(sampleHome.get sampleHash [97]).dir, sampleCopy 512 g v, s₁.markOf (sampleIn v) 0⟩
    have h : s₁.dirs.set [97] x (sampleHome.fate sampleHash) [97] = some x := Table.set_self _
    rw [← show (sampleHome.get sampleHash [97]).dir = sampleDir from congrArg Lookup.dir get_sampleHome]
    exact ⟨_, h⟩
  case refine_2 =>
    show Function.update s.entries [97] none = _
    rw [he, Function.update_idem, Function.update_eq_self_iff]
  case refine_3 =>
    show (s.index.setIdentity [97] [97]).toOption.getD s.index = _
    rw [hi]
    rfl

-- The first version of the object.
def sampleFirst : Stripe := sampleObject (sampleStripe.openWrite (sampleIn 1)) 0 2 1

theorem stored_sampleFirst :
    Run SampleStep SampleFair ⟨sampleStripe, .init 4⟩ ⟨sampleFirst, sampleHome⟩ ∧ Stored sampleFirst 2 1 := by
  have hr : (sampleStripe.openWrite (sampleIn 1)).Ready 2 512 :=
    ⟨rfl, rfl, rfl, rfl, rfl, rfl, rfl, rfl, rfl, rfl⟩
  exact stored_sampleObject (Run.single (Stripe.backed_sampleOpen 1) (fair_sample rfl))
    Stripe.alone_sampleOpen hr (Stripe.fits_sampleAddition (by decide) (by decide)) rfl rfl
    ⟨rfl, rfl, nofun, rfl, rfl, rfl⟩ rfl rfl rfl rfl

-- Another writer has begun, and the next lap is complete.
def sampleLap : Stripe :=
  (sampleFirst.openWrite (sampleIn 2)).lap (Ring.sampleTask 512 3 [32200])

-- Its document is at the same place as that of the first version.
def sampleSecond : Stripe := sampleObject sampleLap 1 4 2

theorem stored_sampleSecond :
    Run SampleStep SampleFair ⟨sampleFirst, sampleHome⟩ ⟨sampleSecond, sampleHome⟩ ∧
    Stored sampleSecond 4 2 := by
  obtain ⟨_, hs⟩ := stored_sampleFirst
  have hdel : Performs Backed.sampleSpace [.op (.delete [97])] sampleHome (.init 4) :=
    .op (by rintro _ ⟨⟩; exact Backed.mem_sampleSpace) trivial (.inr (.inl (by decide +kernel))) rfl .nil
  have ha : Backed.Alone (.init 4) (sampleFirst.openWrite (sampleIn 2)) := by
    have hd : (sampleFirst.openWrite (sampleIn 2)).dirs = Function.update sampleFirst.dirs [97] none := rfl
    refine .of_none fun k => ?_
    rw [hd, Function.update_apply]
    split
    case isTrue => rfl
    case isFalse hk => exact hs.alone.only k hk
  have hopen : SampleStep ⟨sampleFirst, sampleHome⟩ (.openWrite [97] [97])
      ⟨sampleFirst.openWrite (sampleIn 2), .init 4⟩ :=
    ha.stripe (.openWrite (sampleIn 2) rfl rfl rfl rfl (absurd rfl) rfl rfl rfl)
      (.openWrite (sampleIn 2)) hdel
  have hr : (sampleFirst.openWrite (sampleIn 2)).Ready 2 585 := { hs.ready with }
  have hstop : (Ring.sampleTask 512 3 [32200]).stop = 32712 := Ring.stop_sampleTask ..
  have ht : Stripe.Fits 2 585 (Ring.sampleTask 512 3 [32200]) :=
    Stripe.fits_sampleTask (.inr ⟨rfl, rfl⟩) le_rfl (by decide) (by simp) (by simp [AggBufferSize])
  have h : Run SampleStep SampleFair ⟨sampleFirst, sampleHome⟩ ⟨sampleLap, .init 4⟩ :=
    hr.backed ht Stripe.sweeps_init ha (fun _ => fair_sample rfl) (.single hopen (fair_sample rfl))
  have hr : sampleLap.Ready 3 32712 := hstop ▸ hr.lap (t := Ring.sampleTask 512 3 [32200])
  have ht : Stripe.Fits 3 32712 (sampleAddition 512 4 2) :=
    { (Stripe.fits_sampleAddition (by decide) (by decide) : Stripe.Fits 4 512 (sampleAddition 512 4 2)) with
      place := .inr ⟨rfl, rfl⟩ }
  have he : sampleLap.entries = Function.update (fun _ => none) [97] (some 1) := by
    show Function.update sampleFirst.entries [97] (some 1) = _
    rw [hs.entries]
  exact stored_sampleObject h (Stripe.alone_lap ha) hr ht rfl rfl
    ⟨rfl, rfl, absurd rfl, rfl, rfl, rfl⟩ he rfl rfl
    rfl

-- The reader of the first version.
def sampleReader : CacheReader where
  totalLen := 1
  version  := some 1
  buf      := sampleDocument 1
  dir      := sampleDir
  info     := some .new
  loads    := 1

def sampleSource : CacheVC 1 where
  stripe     := ⟨0, Nat.one_pos⟩
  key        := [97]
  generation := 0
  reader     := sampleReader

theorem loaded_sampleReader :
    ∃ x, Loaded sampleHash sampleFirst [97] 1 sampleReader x ∧ x.mark.1 = sampleCopy 512 2 1 := by
  have ⟨m, hm⟩ := stored_sampleFirst.2.entry
  refine ⟨_, ⟨hm, rfl, rfl, Stripe.fragment_sampleDocument 1, rfl, ?_, ⟨rfl, rfl, rfl⟩, rfl,
    Nat.one_pos⟩, rfl⟩
  show 1 = (header (sampleDocument 1)).totalLen.toNat
  rw [header_sampleDocument]
  rfl

-- The document of the refresh, and the task that writes it.
def sampleRefreshed : Bytes :=
  document sampleHash (header (sampleDocument 1)) (CacheHTTPInfo.new.marshal.toOption.getD [])
    (payload (sampleDocument 1))

def sampleRewrite (g : Nat) : FlushTask := ⟨585, g, [(2, sampleRefreshed)]⟩

theorem length_sampleRefreshed : sampleRefreshed.length = 97 := by
  rw [sampleRefreshed, length_document, payload_sampleDocument]
  rfl

theorem payload_sampleRefreshed : payload sampleRefreshed = [1] := by
  have hf : CacheWriter.Fitting (payload (sampleDocument 1))
      (CacheHTTPInfo.new.marshal.toOption.getD []) :=
    fitting_payload (Stripe.fragment_sampleDocument 1) (by decide)
  exact (payload_document hf).trans payload_sampleDocument

theorem stop_sampleRewrite : (sampleRewrite g).stop = 682 := by
  simp [FlushTask.stop, FlushTask.buffer, sampleRewrite, length_sampleRefreshed]

theorem fits_sampleRewrite : Stripe.Fits g 585 (sampleRewrite g) where
  place    := .inl ⟨rfl, rfl⟩
  lower    := by
    have h : 512 ≤ 585 := by decide
    exact h
  upper    := by rw [stop_sampleRewrite]; decide
  nonempty := by simp [sampleRewrite]
  sizes    := by simp [sampleRewrite, length_sampleRefreshed, AggBufferSize]

theorem beginFill_stored (h : Stored s g v) : ∃ token,
    Cache.beginFill sampleHash (fun _ : Fin 1 => s) [97] [97] = .ok token := by
  have hc : ¬∃ i : Fin 1, ((fun _ : Fin 1 => s) i).closing = true := by simp [h.ready.closing]
  simp only [Cache.beginFill, hc, if_false, Cache.fillSnapshotLocked, Cache.rangeSnapshotLocked,
    Cache.heads, h.index]
  exact ⟨_, rfl⟩

theorem fragments_sampleDocument : (fragments (header (sampleDocument v))).toNat = 1 := by
  have h : (header (sampleDocument v)).totalLen.toNat = 1 := by
    rw [header_sampleDocument]
    rfl
  rw [fragments_toNat _ (by rw [h]; decide), h]
  decide

theorem prepare_stored (h : Stored s g v) (hg : odd g = false)
    (ht : Cache.beginFill sampleHash (fun _ : Fin 1 => s) [97] [97] = .ok token) :
    prepare sampleHash (fun _ => s) token sampleSource .new = .ok ⟨sampleDir, [], sampleRefreshed⟩ := by
  obtain ⟨m, hm⟩ := h.entry
  obtain ⟨hcheck, hsel⟩ := Cache.checkFillLocked_beginFill ht
  obtain ⟨_, _, hsnap⟩ := Cache.checkFillLocked_eq_ok.mp hcheck
  have howned : Owned token sampleSource := by
    have hk : [97] ∈ s.index.keysOf [97] := by
      rw [h.index]
      exact .head _
    have hmem : Cache.fillHead (fun _ : Fin 1 => s) 0 [97] ∈ token.snapshot :=
      (Cache.mem_fillSnapshotLocked hsnap).mpr ⟨0, [97], hsel ▸ hk, rfl⟩
    simp only [Cache.fillHead, hm, h.entries] at hmem
    exact hmem
  have hvalid : s.ring.dirValid sampleDir = true := by
    have hd : sampleDir.offset = 512 ∧ sampleDir.phase = false := by decide
    rw [Ring.dirValid_iff, h.ready.idle, h.ready.start, h.ready.stop, h.ready.phase, h.ready.writePos,
      hd.1, hd.2, hg]
    exact ⟨by simp, h.ready.storageErr, h.ready.closed, by decide, by decide, .inl ⟨rfl, by decide⟩⟩
  have hl : (sampleDocument 1).length = 73 := Stripe.length_sampleDocument 1
  have hh : (header (sampleDocument 1)).hlen = 0 := by
    rw [sampleDocument, CacheWriter.header_document]
    rfl
  have hdoc : DocHeaderSize + (header (sampleDocument 1)).hlen.toNat ≤ (sampleDocument 1).length := by
    rw [hl, hh]
    decide
  have hn : (fragments (header sampleSource.reader.buf)).toNat = 1 := fragments_sampleDocument
  refine prepare_eq_ok.mpr ⟨CacheHTTPInfo.new.marshal.toOption.getD [], ⟨sampleDir, _, m⟩,
    ⟨⟨rfl, rfl, rfl⟩, fun h => (by cases h), ⟨rfl, rfl, rfl⟩, hdoc⟩,
    ⟨hcheck, howned, h.generation.symm, hm, rfl, hvalid, ?_⟩, rfl, by decide, rfl, ?_, rfl⟩
  case refine_1 =>
    rw [hn]
    show 1 ≤ s.fragmentsNum
    rw [h.room]
    decide
  case refine_2 =>
    rw [hn]
    rfl

theorem same_lap {t : FlushTask} (h : t.generation = s.ring.generation) :
    Cache.Same (fun _ : Fin 1 => s) (fun _ => s.lap t) :=
  ⟨rfl, funext fun _ => h, fun _ => rfl, fun _ => Stripe.dirs_lap_same h, fun _ => rfl⟩

theorem recheck_stored (h : Stored s g v)
    (ht : Cache.beginFill sampleHash (fun _ : Fin 1 => s) [97] [97] = .ok token) :
    ∃ e d, e.mark.1 = sampleCopy 512 g v ∧
      recheck sampleHash (fun _ => s.lap (sampleRewrite g)) token sampleSource
        ⟨sampleDir, [], sampleRefreshed⟩ ⟨585, g, 2⟩ = .ok (e, d) := by
  obtain ⟨m, hm⟩ := h.entry
  have hdirs : (s.lap (sampleRewrite g)).dirs = s.dirs := Stripe.dirs_lap_same h.ready.generation.symm
  have hsame := same_lap (t := sampleRewrite g) h.ready.generation.symm
  have hr : (s.lap (sampleRewrite g)).Ready g 682 :=
    { h.ready.lap (t := sampleRewrite g) with writePos := stop_sampleRewrite }
  have hstop : (⟨⟨585, g, 2⟩, sampleRefreshed⟩ : Record).stop ≤ 682 := by
    simp only [Record.stop, Record.offset, length_sampleRefreshed]
    decide
  have hplace := hr.allocationValid rfl (by simp [Record.offset]) hstop (by decide)
  obtain ⟨d, hd⟩ : ∃ d, Dir.make 585 (sectors 97) sampleDir.tag (odd g) = some d :=
    Dir.exists_make (by decide) (by decide)
  rw [← length_sampleRefreshed] at hd
  have ha : Admits sampleHash (fun _ => s.lap (sampleRewrite g)) token sampleSource
      ⟨sampleDir, [], sampleRefreshed⟩ ⟨585, g, 2⟩ ⟨sampleDir, sampleCopy 512 g v, m⟩ d :=
    ⟨hsame.checkFillLocked.trans (Cache.checkFillLocked_beginFill ht).1, (congrFun hdirs _).trans hm, rfl,
      h.generation.symm, hplace, hd⟩
  exact ⟨_, d, rfl, (recheck_eq ha).trans (if_neg (by simp))⟩

-- The write of the document of a call.
def sampleWrite (g : Nat) (data : Bytes) : Except Err Allocation :=
  if data = sampleRefreshed then .ok ⟨585, g, 2⟩ else .error .cacheClosed

theorem writes_stored (hn : ∀ r ∈ s.ring.flushed, r.offset ≠ 585) :
    Writes s (s.lap (sampleRewrite g)) (sampleWrite g) := by
  intro data a hw
  by_cases hd : data = sampleRefreshed
  case pos =>
    rw [sampleWrite, if_pos hd] at hw
    cases hw
    subst hd
    exact ⟨List.mem_append_right _ (.head _), fun hm => hn _ hm rfl⟩
  case neg =>
    rw [sampleWrite, if_neg hd] at hw
    cases hw

theorem run_stored (h : Stored s g v) :
    Run SampleStep SampleFair ⟨s, sampleHome⟩ ⟨s.lap (sampleRewrite g), sampleHome⟩ :=
  h.ready.backed fits_sampleRewrite (Stripe.sweeps_same h.ready rfl) h.alone (fun _ => fair_sample rfl) .refl

theorem offsets_sampleFirst : ∀ r ∈ sampleFirst.ring.flushed, r.offset ≠ 585 := by
  intro r hr
  have hr : r ∈ [sampleCopy 512 2 1] := hr
  cases List.mem_singleton.mp hr
  decide

theorem offsets_sampleSecond : ∀ r ∈ sampleSecond.ring.flushed, r.offset ≠ 585 := by
  intro r hr
  have hr : r ∈ ([sampleCopy 512 2 1] ++ (Ring.sampleTask 512 3 [32200]).records) ++ [sampleCopy 512 4 2] :=
    hr
  simp only [List.mem_append, List.mem_singleton, Ring.sampleTask, FlushTask.records,
    FlushTask.records.place, List.map_cons, List.map_nil] at hr
  rcases hr with (rfl | rfl) | rfl <;> simp [Record.offset, sampleCopy]

-- A call that succeeds, and the entries before and after it.
theorem updates_stored (h : Stored s g v) (hg : odd g = false)
    (hm : Backed.Mirrored Backed.sampleSpace id ⟨s, sampleHome⟩)
    (ht : Cache.beginFill sampleHash (fun _ : Fin 1 => s) [97] [97] = .ok token) :
    ∃ out dm y y',
      Updates Backed.sampleSpace token .new (sampleWrite g) none true (fun _ => ⟨s, sampleHome⟩)
        (fun _ => ⟨s.lap (sampleRewrite g), sampleHome⟩) sampleSource none out dm ∧
      Backed.Finds sampleHash id ⟨s.lap (sampleRewrite g), sampleHome⟩ [97] y ∧
      y.mark.1 = sampleCopy 512 g v ∧
      Backed.Finds sampleHash id ⟨out.cache 0, dm⟩ [97] y' ∧ y'.mark.1.data = sampleRefreshed := by
  let r : Record := ⟨⟨585, g, 2⟩, sampleRefreshed⟩
  let x : Refresh 1 := ⟨fun _ => s.lap (sampleRewrite g), sampleSource⟩
  have hw : sampleWrite g sampleRefreshed = .ok ⟨585, g, 2⟩ := if_pos rfl
  obtain ⟨e, d, he, hr⟩ := recheck_stored h ht
  obtain ⟨ha, _⟩ := recheck_eq_ok.mp hr
  have hm := Backed.mirrored_run (run_stored h) hm
  have ho : updateHTTPInfo sampleHash token .new (sampleWrite g) none true (fun _ => s)
      (fun _ => s.lap (sampleRewrite g)) sampleSource =
      (none, exchange .new ⟨sampleDir, [], sampleRefreshed⟩ ⟨585, g, 2⟩ true x e d) := by
    simp only [updateHTTPInfo, prepare_stored h hg ht, hw, commit_eq, hr, x]
  have hset : Performs Backed.sampleSpace (refreshCalls [97] [] r fun _ => 0) sampleHome
      (Backed.sampleSet sampleHome 585 512 false) := by
    have hl : sectors r.data.length = 512 := by
      rw [show r.data.length = 97 from length_sampleRefreshed]
      rfl
    rw [refreshCalls, hl, show odd r.generation = false from hg, show r.offset = 585 from rfl]
    exact Backed.performs_sampleSet (List.forall_mem_singleton.mpr Backed.mem_sampleSpace) (by decide)
      (by decide)
      rfl
  obtain ⟨_, hfind⟩ := mirrored_replace (r := r) hm ha.entry ha.dir hset true
  have hcache : ((exchange .new ⟨sampleDir, [], sampleRefreshed⟩ ⟨585, g, 2⟩ true x e d).follow sampleHash
      (Backed.sampleSet sampleHome 585 512 false)).cache 0 = _ := cache_follow
  exact ⟨_, _, e, _, .succeeds _ _ _ _ _ ho (prepare_stored h hg ht) hw hset,
    hm.finds Backed.mem_sampleSpace ha.entry, he, hcache ▸ hfind, rfl⟩

theorem updateHTTPInfo_atomic_sample : ∃ token out dm y y',
    Cache.beginFill sampleHash (fun _ : Fin 1 => sampleFirst) [97] [97] = .ok token ∧
    let b : Fin 1 → Backed Stripe := fun _ => ⟨sampleFirst, sampleHome⟩
    let b' : Fin 1 → Backed Stripe := fun _ => ⟨sampleFirst.lap (sampleRewrite 2), sampleHome⟩
    Updates Backed.sampleSpace token .new (sampleWrite 2) none true b b' sampleSource none out dm ∧
    Succeeds Backed.sampleSpace sampleBody b b' sampleSource .new 1 out dm y y' := by
  have ⟨hrun, hs⟩ := stored_sampleFirst
  have ⟨x, hl, hx⟩ := loaded_sampleReader
  have ⟨token, ht⟩ := beginFill_stored hs
  have hm : Backed.Mirrored Backed.sampleSpace id ⟨sampleFirst, sampleHome⟩ :=
    Backed.mirrored_run hrun Stripe.mirrored_sampleStripe
  have ⟨out, dm, _, _, hu, _⟩ := updates_stored hs rfl hm ht
  let b : Fin 1 → Backed Stripe := fun _ => ⟨sampleFirst, sampleHome⟩
  let b' : Fin 1 → Backed Stripe := fun _ => ⟨sampleFirst.lap (sampleRewrite 2), sampleHome⟩
  have h₀ : (⟨sampleStripe, .init 4⟩ : Backed Stripe).state.Opened sampleHash := Stripe.opened_sampleStripe
  have h₁ : Run SampleStep SampleFair ⟨sampleStripe, .init 4⟩ (b 0) := hrun
  have hl : Loaded sampleHash (b 0).state sampleSource.key 1 sampleSource.reader x := hl
  have h₂ : Run SampleStep SampleFair (b 0) (b sampleSource.stripe) := .refl
  have h₃ : Run SampleStep SampleFair (b sampleSource.stripe) (b' sampleSource.stripe) := run_stored hs
  have hw : Writes (b sampleSource.stripe).state (b' sampleSource.stripe).state (sampleWrite 2) :=
    writes_stored offsets_sampleFirst
  have hg : Timely (fun i => (b i).state) sampleSource x := by
    intro _ _ _
    rw [hx]
    exact Nat.le_succ 2
  have ⟨y, y', hy⟩ :=
    (updateHTTPInfo_atomic h₀ Stripe.mirrored_sampleStripe nofun h₁ hl h₂ h₃ hw hg hu).2.1 rfl
  exact ⟨token, out, dm, y, y', ht, hu, hy⟩

-- The entry of the second version looks like that of the first one, so that a late call puts the old
-- contents over the new ones.
theorem refresh_overwrites : ∃ token out dm y y',
    sampleStripe.Opened sampleHash ∧ (∀ k, sampleStripe.dirs k = none) ∧
    Run SampleStep SampleFair ⟨sampleStripe, .init 4⟩ ⟨sampleFirst, sampleHome⟩ ∧
    (∃ x, Loaded sampleHash sampleFirst [97] 1 sampleReader x) ∧
    let b : Fin 1 → Backed Stripe := fun _ => ⟨sampleSecond, sampleHome⟩
    let b' : Fin 1 → Backed Stripe := fun _ => ⟨sampleSecond.lap (sampleRewrite 4), sampleHome⟩
    Run SampleStep SampleFair ⟨sampleFirst, sampleHome⟩ (b 0) ∧ Run SampleStep SampleFair (b 0) (b' 0) ∧
    Writes (b 0).state (b' 0).state (sampleWrite 4) ∧
    Cache.beginFill sampleHash (fun i => (b i).state) [97] [97] = .ok token ∧
    Updates Backed.sampleSpace token .new (sampleWrite 4) none true b b' sampleSource none out dm ∧
    (b' 0).Finds sampleHash id [97] y ∧ Backed.Finds sampleHash id ⟨out.cache 0, dm⟩ [97] y' ∧
    payload y.mark.1.data = [2] ∧ payload y'.mark.1.data = [1] := by
  have ⟨hrun, _⟩ := stored_sampleFirst
  have ⟨hlap, hs⟩ := stored_sampleSecond
  have ⟨x, hl, _⟩ := loaded_sampleReader
  have ⟨token, ht⟩ := beginFill_stored hs
  have hm : Backed.Mirrored Backed.sampleSpace id ⟨sampleSecond, sampleHome⟩ :=
    Backed.mirrored_run (hrun.trans hlap) Stripe.mirrored_sampleStripe
  have ⟨out, dm, y, y', hu, hy, he, hy', he'⟩ := updates_stored hs rfl hm ht
  refine ⟨token, out, dm, y, y', Stripe.opened_sampleStripe, fun _ => rfl, hrun, ⟨_, hl⟩, hlap, run_stored hs,
    writes_stored offsets_sampleSecond, ht, hu, hy, hy', ?_, ?_⟩
  case refine_1 =>
    rw [he]
    exact payload_sampleDocument
  case refine_2 =>
    rw [he']
    exact payload_sampleRefreshed

end Sample

end Refresh

end Bakemono
