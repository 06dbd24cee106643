import Bakemono.Fill.Snapshot
import Bakemono.Lib.Hoare
import Bakemono.Stripe.Evacuate

namespace Bakemono

-- A connection of the cache that has been opened for reading. Its reader may be attached to a writer.
structure CacheVC (n : Nat) where
  stripe     : Fin n
  key        : Bytes
  generation : Nat
  reading    : Bool := true
  closed     : Bool := false
  attached   : Bool := false
  reader     : CacheReader
  info       : Option CacheHTTPInfo := none

-- A fragment behind the head, which a refresh does not write again.
structure Retained where
  key        : Bytes
  dir        : Dir
  allocation : Allocation

-- What the first critical section of `UpdateHTTPInfo` leaves to the second one.
structure Draft where
  head  : Dir
  tails : List Retained
  data  : Bytes

-- What the second critical section can change.
structure Refresh (n : Nat) where
  cache  : Cache n
  source : CacheVC n

namespace Refresh

section Source

variable {n : Nat} (H : Hash)

def fragments (doc : Doc) : UInt64 :=
  (doc.totalLen + .ofNat TargetFragmentSize - 1) / .ofNat TargetFragmentSize

def retain (s : Stripe) (key : Bytes) (i : Nat) : Except Err Retained := do
  let key := H.fragmentKey key i
  let some e := s.dirs key | throw .invalidated
  if ¬s.ring.dirValid e.dir then throw .invalidated
  if e.dir.phase ≠ s.ring.phase ∧ s.ring.generation = 0 then throw .invalidated
  let generation := if e.dir.phase = s.ring.phase then s.ring.generation else s.ring.generation - 1
  return ⟨key, e.dir, ⟨e.dir.offset, generation, 0⟩⟩

def documentHeader (doc : Doc) (encoded payload : Bytes) : Doc :=
  let doc :=
    { doc with
      hlen := .ofNat encoded.length
      len  := .ofNat (DocHeaderSize + encoded.length + payload.length) }
  { doc with checksum := doc.calculateChecksum H (encoded ++ payload) }

def document (doc : Doc) (encoded payload : Bytes) : Bytes :=
  (documentHeader H doc encoded payload).marshal ++ (encoded ++ payload)

-- The token has seen the head of the reader, and nobody was writing it.
def Owned (token : FillToken n) (src : CacheVC n) : Prop :=
  ⟨src.stripe, src.key, some src.reader.dir, none⟩ ∈ token.snapshot

instance (token : FillToken n) (src : CacheVC n) : Decidable (Owned token src) :=
  inferInstanceAs (Decidable (_ ∈ _))

-- `UpdateHTTPInfo` up to the end of its first critical section.
def prepare (c : Cache n) (token : FillToken n) (src : CacheVC n) (info : CacheHTTPInfo) :
    Except Err Draft := do
  if src.reading = false ∨ src.closed then throw .invalidated
  let encoded ← info.marshal
  if encoded.length > 64 <<< 10 then throw (.other "HTTP metadata limit")
  let r := src.reader
  if src.attached ∨ r.info = none ∨ r.fragmentIndex ≠ 0 ∨ r.totalRead ≠ 0 ∨ r.offset ≠ 0 then
    throw .invalidated
  let doc ← r.parseDocFromBuf
  let s := c src.stripe
  c.checkFillLocked H token
  if ¬Owned token src ∨ src.generation ≠ s.generation then throw .invalidated
  let some current := s.dirs src.key | throw .invalidated
  if current.dir ≠ r.dir ∨ ¬s.ring.dirValid current.dir then throw .invalidated
  if (fragments doc).toNat > s.fragmentsNum then throw .invalidated
  let tails ← (List.range' 1 ((fragments doc).toNat - 1)).mapM (retain H s src.key)
  let payload ← slice r.buf (DocHeaderSize + doc.hlen.toNat) r.buf.length
  return ⟨r.dir, tails, document H doc encoded payload⟩

-- The tail is still where it was.
def Retained.Holds (t : Retained) (s : Stripe) : Prop :=
  (s.dirs t.key).map Entry.dir = some t.dir ∧ s.ring.allocationValid t.allocation t.dir.approxSize

instance (t : Retained) (s : Stripe) : Decidable (Retained.Holds t s) :=
  inferInstanceAs (Decidable (_ ∧ _))

-- `DirMgr.Set` for a key which is in the directory: the entry keeps its link, and so do the others.
def replace (s : Stripe) (key : Bytes) (e : Entry (Record × Mark)) (d : Dir) (r : Record) (kept : Bool) :
    Stripe :=
  s.put key (d.setNext e.dir.next) r { e.mark.2 with stamp := s.clock }
    (fun k => (s.dirs k).map fun e => e.dir.next) kept

-- The checks of the second critical section: the entry of the head, and the one that replaces it.
def recheck (c : Cache n) (token : FillToken n) (src : CacheVC n) (draft : Draft) (a : Allocation) :
    Except Err (Entry (Record × Mark) × Dir) := do
  let s := c src.stripe
  c.checkFillLocked H token
  let some current := s.dirs src.key | throw .invalidated
  if current.dir ≠ draft.head ∨ src.generation ≠ s.generation then throw .invalidated
  if ¬s.ring.allocationValid a draft.data.length then throw .invalidated
  if ∃ tail ∈ draft.tails, ¬Retained.Holds tail s then throw .invalidated
  let some d := Dir.make a.offset (sectors draft.data.length) current.dir.tag (odd a.generation)
    | throw .panic
  return (current, d)

-- The second critical section of `UpdateHTTPInfo`, after the document has been written at a place.
def commit (token : FillToken n) (info : CacheHTTPInfo) (draft : Draft) (a : Allocation)
    (ctxErr : Option Err) (kept : Bool) : EStateM Err (Refresh n) Unit := do
  if let some e := ctxErr then throw e
  let x ← get
  let src := x.source
  match recheck H x.cache token src draft a with
  | .error e         => throw e
  | .ok (current, d) =>
    modify fun x =>
      { x with
        cache := Function.update x.cache src.stripe
          (replace (x.cache src.stripe) src.key current d ⟨a, draft.data⟩ kept) }
    modify fun x =>
      { x with
        source :=
          { src with
            info   := some info
            reader :=
              { src.reader with
                dir  := d.setNext current.dir.next
                buf  := draft.data
                info := some info } } }

-- A call that has its two critical sections in the given states. In between its document is given a
-- place in the log, or is not written.
def updateHTTPInfo (token : FillToken n) (info : CacheHTTPInfo) (write : Bytes → Except Err Allocation)
    (ctxErr : Option Err) (kept : Bool) (c c' : Cache n) (src : CacheVC n) :
    Option Err × Refresh n :=
  match prepare H c token src info with
  | .error e  => (some e, ⟨c', src⟩)
  | .ok draft =>
    match write draft.data with
    | .error e => (some e, ⟨c', src⟩)
    | .ok a    =>
      match commit H token info draft a ctxErr kept ⟨c', src⟩ with
      | .error e x => (some e, x)
      | .ok _ x    => (none, x)

end Source

section Prepare

open CacheReader (header payload)

variable {n : Nat} {H : Hash} {c : Cache n} {token : FillToken n} {src : CacheVC n}
  {info : CacheHTTPInfo} {draft : Draft} {s : Stripe} {key : Bytes} {i : Nat} {t : Retained}

-- What a reader must look like when its metadata is refreshed.
structure Refreshable (src : CacheVC n) : Prop where
  reading  : src.reading = true ∧ src.closed = false ∧ src.attached = false
  info     : src.reader.info ≠ none
  unread   : src.reader.fragmentIndex = 0 ∧ src.reader.totalRead = 0 ∧ src.reader.offset = 0
  document : DocHeaderSize + (header src.reader.buf).hlen.toNat ≤ src.reader.buf.length

-- The object as the first critical section finds it.
structure Found (H : Hash) (c : Cache n) (token : FillToken n) (src : CacheVC n)
    (e : Entry (Record × Mark)) : Prop where
  check      : c.checkFillLocked H token = .ok ()
  owned      : Owned token src
  generation : src.generation = (c src.stripe).generation
  entry      : (c src.stripe).dirs src.key = some e
  head       : e.dir = src.reader.dir
  valid      : (c src.stripe).ring.dirValid e.dir = true
  count      : (fragments (header src.reader.buf)).toNat ≤ (c src.stripe).fragmentsNum

theorem retain_eq_ok : retain H s key i = .ok t ↔
    ∃ e, s.dirs (H.fragmentKey key i) = some e ∧ s.ring.dirValid e.dir = true ∧
      (e.dir.phase ≠ s.ring.phase → s.ring.generation ≠ 0) ∧
      t = ⟨H.fragmentKey key i, e.dir, ⟨e.dir.offset,
        if e.dir.phase = s.ring.phase then s.ring.generation else s.ring.generation - 1, 0⟩⟩ := by
  cases he : s.dirs (H.fragmentKey key i)
  case none => simp [retain, he]
  case some e =>
    simp only [retain, he, Except.check_bind_eq_ok, not_not, not_and, Option.some.injEq, exists_eq_left']
    refine and_congr_right fun _ => and_congr_right fun _ => ?_
    exact ⟨fun h => (Except.ok.inj h).symm, fun h => h ▸ rfl⟩

theorem prepare_eq_ok : prepare H c token src info = .ok draft ↔
    ∃ encoded e, Refreshable src ∧ Found H c token src e ∧ info.marshal = .ok encoded ∧
      encoded.length ≤ 64 <<< 10 ∧ draft.head = src.reader.dir ∧
      (List.range' 1 ((fragments (header src.reader.buf)).toNat - 1)).mapM
        (retain H (c src.stripe) src.key) = .ok draft.tails ∧
      draft.data = document H (header src.reader.buf) encoded (payload src.reader.buf) := by
  have hslice {p q : Bytes} {m : Nat} : slice p m p.length = .ok q ↔ m ≤ p.length ∧ q = p.drop m := by
    simp only [slice, le_refl, and_true]
    split
    case isTrue h =>
      have ht : (p.drop m).take (p.length - m) = p.drop m := List.take_of_length_le (by simp)
      simp [h, Bytes.slice, ht, eq_comm]
    case isFalse h => simp [h]
  cases he : (c src.stripe).dirs src.key
  case none =>
    constructor
    case mp =>
      intro h
      simp [prepare, he, Except.check_bind_eq_ok, Except.bind_eq_ok] at h
    case mpr =>
      rintro ⟨_, _, _, hf, _⟩
      cases he.symm.trans hf.entry
  case some e =>
  constructor
  case mp =>
    intro h
    simp only [prepare, he, Except.check_bind_eq_ok, Except.bind_eq_ok,
      CacheReader.parseDocFromBuf_eq_ok, hslice, not_or, not_not, not_lt] at h
    obtain ⟨⟨h₁, h₂⟩, encoded, hm, hl, ⟨h₃, h₄, h₅, h₆, h₇⟩, doc, ⟨_, hdoc⟩, _, hc, ⟨ho, hg⟩, ⟨hh, hv⟩,
      hn, tails, ht, q, ⟨hlen, hq⟩, hd⟩ := h
    cases hd
    cases hdoc
    refine ⟨encoded, e, ⟨⟨?_, ?_, ?_⟩, h₄, ⟨h₅, h₆, h₇⟩, hlen⟩, ⟨hc, ho, hg, he, hh, hv, hn⟩, hm, hl, rfl, ht, ?_⟩
    case refine_1 => simpa using h₁
    case refine_2 => simpa using h₂
    case refine_3 => simpa using h₃
    case refine_4 => rw [hq, payload]
  case mpr =>
    rintro ⟨encoded, e', hr, hf, hm, hl, hhead, ht, hdata⟩
    cases he.symm.trans hf.entry
    obtain ⟨h₁, h₂, h₃⟩ := hr.reading
    obtain ⟨h₄, h₅, h₆⟩ := hr.unread
    simp only [prepare, he, Except.check_bind_eq_ok, Except.bind_eq_ok,
      CacheReader.parseDocFromBuf_eq_ok, hslice, not_or, not_not, not_lt]
    refine ⟨⟨by simp [h₁], by simp [h₂]⟩, encoded, hm, hl, ⟨by simp [h₃], hr.info, h₄, h₅, h₆⟩,
      _, ⟨Nat.le_of_add_right_le hr.document, rfl⟩, (), hf.check, ⟨hf.owned, hf.generation⟩,
      ⟨hf.head, hf.valid⟩, hf.count, _, ht, _, ⟨hr.document, rfl⟩, ?_⟩
    cases draft
    simp only at hhead hdata
    rw [hhead, hdata]
    rfl

end Prepare

section Document

open CacheReader (header payload metadata Fragment)

variable {H : Hash} {doc : Doc} {key p q encoded : Bytes} {i : Nat} {w : UInt64}

theorem header_document : header (document H doc encoded q) = documentHeader H doc encoded q := by
  have hl := Doc.length_marshal (documentHeader H doc encoded q)
  rw [header, document, ← hl, List.take_left]
  have := Doc.unmarshal_marshal (documentHeader H doc encoded q) []
  rwa [List.append_nil] at this

theorem length_document :
    (document H doc encoded q).length = DocHeaderSize + encoded.length + q.length := by
  simp [document, Doc.length_marshal, Nat.add_assoc]

theorem payload_document (h : CacheWriter.Fitting q encoded) :
    payload (document H doc encoded q) = q := by
  have hm := Doc.length_marshal (documentHeader H doc encoded q)
  rw [payload, header_document]
  change List.drop (DocHeaderSize + (UInt32.ofNat encoded.length).toNat) _ = q
  rw [h.toNat.2, document, ← List.append_assoc]
  exact List.drop_left' (by rw [List.length_append, hm])

theorem metadata_document (h : CacheWriter.Fitting q encoded) :
    metadata (document H doc encoded q) = encoded := by
  have hm := Doc.length_marshal (documentHeader H doc encoded q)
  rw [metadata, header_document]
  change Bytes.slice _ DocHeaderSize (UInt32.ofNat encoded.length).toNat = encoded
  rw [h.toNat.2, document, Bytes.slice, List.drop_left' hm, List.take_left]

-- The new document is valid, and belongs to the same fragment of the same writer.
theorem fragment_document (hf : Fragment H key i w p) (h : CacheWriter.Fitting q encoded) :
    Fragment H key i w (document H (header p) encoded q) := by
  have ⟨h₁, h₂⟩ := h.toNat
  have ⟨hs, _, _⟩ := Doc.validate_eq_ok.mp hf.valid
  have hlen : (documentHeader H (header p) encoded q).len.toNat =
      DocHeaderSize + encoded.length + q.length := h₁
  have hhlen : (documentHeader H (header p) encoded q).hlen.toNat = encoded.length := h₂
  constructor
  case valid =>
    rw [header_document, Doc.validate_eq_ok]
    refine ⟨hs, ⟨hlen.trans_le h.len, ?_, ?_, ?_⟩, ?_⟩
    case refine_1 => rw [hlen, length_document]
    case refine_2 => omega
    case refine_3 =>
      rw [Doc.dataLen_toNat (by omega)]
      have := h.data
      omega
    case refine_4 =>
      have hd : (document H (header p) encoded q).drop DocHeaderSize = encoded ++ q := by
        rw [document, List.drop_left' (Doc.length_marshal _)]
      rw [hd]
      rfl
  case identity => rw [header_document]; exact hf.identity
  case firstKey => rw [header_document]; exact hf.firstKey
  case version  => rw [header_document]; exact hf.version
  case length   => rw [header_document, length_document, hlen]

-- The metadata limit keeps the new document within the bounds of a document.
theorem fitting_payload (hf : Fragment H key i w p) (hl : encoded.length ≤ 64 <<< 10) :
    CacheWriter.Fitting (payload p) encoded := by
  have ⟨_, hfit, _⟩ := Doc.validate_eq_ok.mp hf.valid
  have hd := hfit.data
  rw [← hf.length_payload] at hd
  refine ⟨?_, hd⟩
  simp only [DocHeaderSize, AggBufferSize, TargetFragmentSize] at *
  omega

end Document

section Commit

variable {n : Nat} {H : Hash} {token : FillToken n} {info : CacheHTTPInfo} {draft : Draft}
  {a : Allocation} {ctxErr : Option Err} {kept : Bool} {x x' : Refresh n} {e : Entry (Record × Mark)}
  {d : Dir} {c : Cache n} {src : CacheVC n}

-- The conditions under which the head is exchanged, without those on the tails.
structure Admits (H : Hash) (c : Cache n) (token : FillToken n) (src : CacheVC n) (draft : Draft)
    (a : Allocation) (e : Entry (Record × Mark)) (d : Dir) : Prop where
  check      : c.checkFillLocked H token = .ok ()
  entry      : (c src.stripe).dirs src.key = some e
  head       : e.dir = draft.head
  generation : src.generation = (c src.stripe).generation
  place      : (c src.stripe).ring.allocationValid a draft.data.length = true
  dir        : Dir.make a.offset (sectors draft.data.length) e.dir.tag (odd a.generation) = some d

theorem recheck_eq (h : Admits H c token src draft a e d) :
    recheck H c token src draft a =
      if ∃ tail ∈ draft.tails, ¬Retained.Holds tail (c src.stripe) then .error .invalidated
      else .ok (e, d) := by
  have ⟨hc, he, hh, hg, hp, hd⟩ := h
  simp only [recheck, hc, he, hh, hg, hp, hh ▸ hd, bind, Except.bind, pure, Except.pure, ne_eq,
    not_true_eq_false, or_self, if_false]
  rfl

theorem recheck_eq_ok : recheck H c token src draft a = .ok (e, d) ↔
    Admits H c token src draft a e d ∧ ∀ tail ∈ draft.tails, Retained.Holds tail (c src.stripe) := by
  constructor
  case mp =>
    intro h
    simp only [recheck, Except.bind_eq_ok] at h
    have ⟨_, hc, h⟩ := h
    cases he : (c src.stripe).dirs src.key
    case none => simp [he] at h
    case some e' =>
      simp only [he, Except.check_bind_eq_ok, not_or, not_not, not_exists, not_and] at h
      have ⟨⟨hh, hg⟩, hp, ht, h⟩ := h
      cases hd : Dir.make a.offset (sectors draft.data.length) e'.dir.tag (odd a.generation)
      case none => simp [hd] at h
      case some d' =>
        simp only [hd] at h
        cases h
        exact ⟨⟨hc, he, hh, hg, hp, hd⟩, ht⟩
  case mpr =>
    intro ⟨h, ht⟩
    rw [recheck_eq h, if_neg (by simpa using ht)]

-- The state after the exchange.
def exchange (info : CacheHTTPInfo) (draft : Draft) (a : Allocation) (kept : Bool) (x : Refresh n)
    (e : Entry (Record × Mark)) (d : Dir) : Refresh n where
  cache  := Function.update x.cache x.source.stripe
    (replace (x.cache x.source.stripe) x.source.key e d ⟨a, draft.data⟩ kept)
  source :=
    { x.source with
      info   := some info
      reader :=
        { x.source.reader with
          dir  := d.setNext e.dir.next
          buf  := draft.data
          info := some info } }

theorem commit_eq : commit H token info draft a ctxErr kept x =
    match ctxErr, recheck H x.cache token x.source draft a with
    | some e, _           => .error e x
    | none,   .error e    => .error e x
    | none,   .ok (e, d)  => .ok () (exchange info draft a kept x e d) := by
  cases ctxErr
  case some e => rfl
  case none =>
    simp only [commit, bind, EStateM.bind, get, getThe, MonadStateOf.get, EStateM.get_apply]
    cases recheck H x.cache token x.source draft a
    case error => rfl
    case ok => rfl

end Commit

end Refresh
end Bakemono
