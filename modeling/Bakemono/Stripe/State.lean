import Bakemono.Read.Committed
import Bakemono.Lib.Text
import Bakemono.Stripe.DirTrie
import Bakemono.Write.Log
import Mathlib.Data.List.MinMax

namespace Bakemono

-- What is known about a publication, but not kept by the source: whether it is the head of an object,
-- the selector it was written with, the generation of the open directory which the token of its
-- writer has captured, and the number of publications before it.
structure Mark where
  head       : Bool
  selector   : Bytes
  generation : Nat
  stamp      : Nat

-- The last three fields are not fields of the source: the record which was written last at the place
-- of the copy, the mark of the copied entry, and the number of removals before the copy was taken.
structure EvacuationRecord where
  key          : Bytes
  data         : Bytes
  old          : Dir
  generation   : Nat
  invalidation : Nat
  source       : Option Record
  mark         : Mark
  removals     : Nat

-- The fields of a writer that the stripe reads.
structure Writer where
  key           : Bytes
  selector      : Bytes
  generation    : Nat
  policy        : Nat
  fenceSelector : Bytes := []
  fencePolicy   : Nat := 0
  version       : UInt64
  published     : List (Bytes × Record) := []
  closed        : Bool := false

-- The state that is protected by the lock of a stripe. The open directory maps a key to the number of
-- its writer. The evacuations are those that have been collected, and may be published, dropped or
-- kept waiting at any time. The last two fields are not fields of the source: the number of calls of
-- `Remove` and `PurgeSelector`, and that of publications.
structure Stripe where
  ring         : Ring Bytes Mark
  ram          : Bytes → Option RamEntry
  index        : DirTrie
  generation   : Nat
  policyEpochs : Fin 1024 → Nat
  entries      : Bytes → Option Nat
  writers      : List Writer
  closing      : Bool
  evacuations  : List EvacuationRecord
  fragmentsNum : Nat
  removals     : Nat
  clock        : Nat

namespace Stripe

def dirs (s : Stripe) : Table Bytes (Record × Mark) := s.ring.dirs

def policyEpoch (H : Hash) (s : Stripe) (selector : Bytes) : Nat :=
  s.policyEpochs (H.policySlot selector)

section Evacuation

-- The record that was written last at an offset.
def latest (s : Stripe) (offset : Nat) : Option Record :=
  (s.ring.flushed.filter fun r => r.offset = offset).argmax Record.generation

-- The loop body of `collectEvacuationData`. Some bytes have been copied before.
def copyOf (H : Hash) (s : Stripe) (lo hi bytes : Nat) (key : Bytes) (offset : Nat) :
    Option EvacuationRecord := do
  let e ← s.dirs key
  guard (e.dir.offset = offset ∧ s.ring.dirValid e.dir)
  let doc := Doc.unmarshal (← s.ring.disk.readAt offset DocHeaderSize)
  guard (doc.magic = DocMagic ∧ doc.vmajor = docIdentityVersion ∧ doc.key = H.docKey key)
  let size := doc.len.toNat
  guard ¬(size < DocHeaderSize ∨ size > AggBufferSize ∨ doc.hlen.toNat > size - DocHeaderSize ∨
    offset + size > s.ring.stop ∨ bytes + size > AggBufferSize ∨
    size + hi - lo > s.ring.stop - s.ring.start)
  let data ← s.ring.disk.readAt offset size
  guard ((doc.validate H data).isOk ∧ doc.totalLen.toNat ≤ s.ring.stop - s.ring.start)
  guard (e.dir.phase = s.ring.phase ∨ s.ring.generation ≠ 0)
  return {
    key, data
    old          := e.dir
    generation   := if e.dir.phase = s.ring.phase then s.ring.generation else s.ring.generation - 1
    invalidation := s.generation
    source       := s.latest offset
    mark         := e.mark.2
    removals     := s.removals }

-- The candidates are registered by readers, with the offset at which they have found a fragment.
def collectEvacuationData (H : Hash) (s : Stripe) (lo hi : Nat) :
    Nat → List (Bytes × Nat) → List EvacuationRecord
  | _,     []                       => []
  | bytes, (key, offset) :: others =>
    match s.copyOf H lo hi bytes key offset with
    | some v => v :: collectEvacuationData H s lo hi (bytes + v.data.length) others
    | none   => collectEvacuationData H s lo hi bytes others

end Evacuation

section Publication

-- `DirMgr.Set` and `RamCache.Put`, which rejects some entries.
def put (s : Stripe) (key : Bytes) (d : Dir) (r : Record) (m : Mark) (fate : Table.Fate Bytes)
    (kept : Bool) : Stripe :=
  { s with
    ring  := s.ring.set key d r m fate
    ram   := Function.update s.ram key (if kept then some (.new r.data) else none)
    clock := s.clock + 1 }

-- The record has been flushed and its place is valid, and the entry is made for it.
structure Places (s : Stripe) (r : Record) (size : Nat) (d : Dir) : Prop where
  flushed    : r ∈ s.ring.flushed
  allocation : s.ring.allocationValid r.allocation r.data.length = true
  dir        : ∃ tag d' next, tag.toNat < 2 ^ 12 ∧
    Dir.make r.offset size tag (odd r.generation) = some d' ∧ d = d'.setNext next

-- The writer has not been fenced.
structure Admits (H : Hash) (s : Stripe) (i : Nat) (w : Writer) : Prop where
  storageErr : s.ring.storageErr = false
  closing    : s.closing = false
  fence      : w.fenceSelector ≠ [] → w.fencePolicy = s.policyEpoch H w.fenceSelector
  generation : w.generation = s.generation
  policy     : w.policy = s.policyEpoch H w.selector
  entry      : s.entries w.key = some i

-- The directory maps the key to the place of the record, which is valid.
def Keeps (s : Stripe) (p : Bytes × Record) : Prop :=
  ∃ e, s.dirs p.1 = some e ∧ e.dir.offset = p.2.offset ∧ e.dir.phase = odd p.2.generation ∧
    s.ring.allocationValid p.2.allocation p.2.data.length = true

def markOf (s : Stripe) (w : Writer) (idx : Nat) : Mark where
  head       := idx = 0
  selector   := w.selector
  generation := w.generation
  stamp      := s.clock

-- The end of `writeFragment`. The writer adds the identity of its object with the head.
def publish (H : Hash) (s : Stripe) (i : Nat) (w : Writer) (idx : Nat) (r : Record) (d : Dir)
    (fate : Table.Fate Bytes) (kept : Bool) : Stripe :=
  let key := H.fragmentKey w.key idx
  { s.put key d r (s.markOf w idx) fate kept with
    writers := s.writers.set i { w with published := w.published ++ [(key, r)] }
    index   :=
      if idx = 0 then (s.index.setIdentity w.key w.selector).toOption.getD s.index else s.index }

section

variable {H : Hash} {s : Stripe} {key : Bytes} {d : Dir} {r : Record} {m : Mark} {i idx : Nat}
  {w : Writer} {fate : Table.Fate Bytes} {kept : Bool}

@[simp] theorem dirs_put : (s.put key d r m fate kept).dirs = s.dirs.set key ⟨d, r, m⟩ fate := rfl

@[simp] theorem dirs_publish : (s.publish H i w idx r d fate kept).dirs =
    s.dirs.set (H.fragmentKey w.key idx) ⟨d, r, s.markOf w idx⟩ fate := rfl

@[simp] theorem ram_publish : (s.publish H i w idx r d fate kept).ram =
    Function.update s.ram (H.fragmentKey w.key idx) (if kept then some (.new r.data) else none) := rfl

end

end Publication

section Removal

def forget (s : Stripe) (key : Bytes) : Stripe := { s with ram := Function.update s.ram key none }

-- The entries of other keys stay as they are. This holds of a directory as long as it does not push a
-- slot on an empty free chain, which `Backed` asks of every call.
def delete (s : Stripe) (key : Bytes) : Stripe :=
  { s with ring := { s.ring with dirs := Function.update s.ring.dirs key none } }

-- One published fragment in `abortLocked`.
def retract (s : Stripe) (p : Bytes × Record) : Stripe :=
  if ¬s.ring.allocationValid p.2.allocation p.2.data.length then
    s
  else
    match s.dirs p.1 with
    | none   => s.forget p.1
    | some e => if e.dir.offset = p.2.offset then (s.delete p.1).forget p.1 else s

def disown (s : Stripe) (i : Nat) (w : Writer) : Stripe :=
  if s.entries w.key = some i then { s with index := s.index.delete w.key } else s

def abortLocked (s : Stripe) (i : Nat) (w : Writer) : Stripe :=
  let s := (w.published.foldl retract s).disown i w
  { s with writers := s.writers.set i { w with closed := true, published := [] } }

-- The loop of `removeLocked`. It ends at the first fragment which is missing.
def removeFragments (H : Hash) (key : Bytes) : Nat → Nat → Stripe → Stripe
  | 0,     _,   s => s
  | n + 1, idx, s =>
    let k := H.fragmentKey key idx
    if s.dirs k = none then s.forget k
    else removeFragments H key n (idx + 1) ((s.forget k).delete k)

def detach (s : Stripe) (key : Bytes) : Stripe :=
  { s with entries := Function.update s.entries key none }

def removeLocked (H : Hash) (s : Stripe) (key : Bytes) : Stripe :=
  removeFragments H key s.fragmentsNum 0 { s.detach key with index := s.index.delete key }

def advance (s : Stripe) : Stripe := { s with generation := s.generation + 1 }

def remove (H : Hash) (s : Stripe) (key : Bytes) : Stripe :=
  { s.advance with removals := s.removals + 1 }.removeLocked H key

-- The beginning of the selectors of the range objects of a selector.
def rangePrefix (selector : Bytes) : Bytes := selector ++ .text "\nrange:"

-- The part of `PurgeSelector` that acts on one stripe.
def purgeSelector (H : Hash) (s : Stripe) (selector : Bytes) (asPrefix : Bool) : Stripe :=
  let keys :=
    if asPrefix then s.index.get selector
    else s.index.keysForSelector selector ++ s.index.get (rangePrefix selector)
  keys.foldl (removeLocked H) { s.advance with removals := s.removals + 1 }

end Removal

section Admission

-- The entry of the key has been overwritten or evicted.
def lost (s : Stripe) (key : Bytes) : Bool :=
  match s.dirs key with
  | none   => true
  | some e => !s.ring.dirValid e.dir

def prune (s : Stripe) : DirTrie :=
  s.index.keys.foldl
    (fun t k => if s.entries k = none ∧ s.lost k then t.delete k else t) s.index

-- The error and the index, which may have been pruned in vain.
def reserveIdentityLocked (s : Stripe) (key selector : Bytes) : Option Err × DirTrie :=
  match s.index.setIdentity key selector with
  | .ok index => (none, index)
  | .error e  =>
    if e = .indexFull then
      match s.prune.setIdentity key selector with
      | .ok index => (none, index)
      | .error e  => (some e, s.prune)
    else
      (some e, s.index)

-- The end of `newCacheVCWriteLocked`.
def openWrite (s : Stripe) (w : Writer) : Stripe :=
  match s.reserveIdentityLocked w.key w.selector with
  | (some _, index) => { s with index }
  | (none, index)   =>
    ({ s with
        index
        entries := Function.update s.entries w.key (some s.writers.length)
        writers := s.writers ++ [w] }.delete w.key).forget w.key

end Admission

inductive Event
  | flush
  | publish (key : Bytes) (r : Record)
  | evacuate (v : EvacuationRecord) (r : Record)
  | openWrite (key selector : Bytes)
  | purge (selector : Bytes) (asPrefix : Bool)
  | other

namespace Event

-- The key and the record that a critical section publishes.
def publication : Event → Option (Bytes × Record)
  | .publish key r => some (key, r)
  | .evacuate v r  => some (v.key, r)
  | _              => none

-- A record is published while the first task of another lap is being written, which has removed the
-- entries of its phase already.
def Aliases (s : Stripe) (e : Event) : Prop :=
  ∃ k r, e.publication = some (k, r) ∧ (Ring.Event.publish k r).Aliases s.ring

theorem not_aliases {s : Stripe} {e : Event} (h : e.publication = none) : ¬e.Aliases s := by
  intro ⟨_, _, h', _⟩
  cases h.symm.trans h'

end Event

-- What can happen to the links of the entries and to the memory without anybody noticing.
structure Drops (s s' : Stripe) : Prop where
  rest : s' = { s with ring := { s.ring with dirs := s'.ring.dirs }, ram := s'.ram }
  dirs : s'.dirs.Below s.dirs
  ram  : ∀ k x, s'.ram k = some x → s.ram k = some x

variable (H : Hash)

-- The critical sections of everything that uses a stripe.
inductive Step (s : Stripe) : Event → Stripe → Prop
  -- The first critical section of `handleFlushTask`. The tasks follow each other without gaps.
  | begin (t links candidates) :
    (s.ring.task = none) → (s.ring.storageErr = false) → (s.ring.start ≤ t.offset) →
    (t.stop ≤ s.ring.stop) → (t.Follows s.ring.generation s.ring.writePos) →
    (Continues s.ring.start s.ring.generation s.ring.writePos t.generation t.offset) →
    (∀ c ∈ candidates, t.offset ≤ c.2 ∧ c.2 < t.stop) →
    Step s .flush { s with
      ring        := s.ring.beginFlush t links
      evacuations := s.evacuations ++ s.collectEvacuationData H t.offset t.stop 0 candidates }
  | refuse (t : FlushTask) :
    (s.ring.task = none) →
    (s.ring.storageErr = true ∨ t.offset < s.ring.start ∨ s.ring.stop < t.stop) →
    Step s .flush { s with ring := s.ring.failFlush }
  | write (t disk') :
    (s.ring.task = some t) → (s.ring.disk.Agree disk' 0 t.offset) →
    (∀ hi, s.ring.disk.Agree disk' t.stop hi) →
    Step s .flush { s with ring := { s.ring with disk := disk' } }
  | finish (t) : (s.ring.task = some t) → Step s .flush { s with ring := s.ring.endFlush t }
  | fail (t) : (s.ring.task = some t) → Step s .flush { s with ring := s.ring.failFlush }
  | broken : Step s .flush { s with ring := { s.ring with storageErr := true } }
  -- The critical section of `writeFragment`.
  | publish (i w idx r d fate kept) :
    (s.writers[i]? = some w) → (w.closed = false) → (s.Admits H i w) →
    (s.Places r (sectors r.data.length) d) →
    (CacheReader.Fragment H w.key idx w.version r.data) → (idx = 0 → ∀ p ∈ w.published, s.Keeps p) →
    Step s (.publish (H.fragmentKey w.key idx) r) (s.publish H i w idx r d fate kept)
  -- The second critical section of `UpdateHTTPInfo`. The key is still listed and has no writer.
  | refresh (key e version r d fate kept) :
    (s.closing = false) → (s.dirs key = some e) → (e.mark.2.head = true) →
    (s.index.lookup key ≠ none) → (s.entries key = none) →
    (s.Places r (sectors r.data.length) d) → (CacheReader.Fragment H key 0 version r.data) →
    Step s (.publish key r) (s.put key d r { e.mark.2 with stamp := s.clock } fate kept)
  -- The critical section of `evacuate`.
  | evacuate (v e r d fate kept) :
    (v ∈ s.evacuations) → (s.closing = false) → (s.ring.storageErr = false) →
    (v.invalidation = s.generation) → (s.dirs v.key = some e) →
    (e.dir.offset = v.old.offset) → (e.dir.phase = v.old.phase) →
    (s.ring.generation ≤ v.generation + 1) → (r.data = v.data) → (s.Places r r.data.length d) →
    Step s (.evacuate v r) (s.put v.key d r v.mark fate kept)
  | abort (i w) :
    (s.writers[i]? = some w) → (w.closed = false) → Step s .other (s.abortLocked i w)
  -- A successful `Close`.
  | close (i w) :
    (s.writers[i]? = some w) → (w.closed = false) →
    Step s .other { s with writers := s.writers.set i { w with closed := true } }
  -- The last reference to an entry is only given up after its writer has been closed.
  | release (i w) :
    (s.writers[i]? = some w) → (w.closed = true) → (s.entries w.key = some i) →
    Step s .other (s.detach w.key)
  | openWrite (w) :
    (s.closing = false) → (s.ring.storageErr = false) → (w.generation = s.generation) →
    (w.policy = s.policyEpoch H w.selector) →
    (w.fenceSelector ≠ [] → w.fencePolicy = s.policyEpoch H w.fenceSelector) →
    (s.entries w.key = none) → (w.published = []) → (w.closed = false) →
    Step s (.openWrite w.key w.selector) (s.openWrite w)
  | remove (key) : (s.closing = false) → Step s .other (s.remove H key)
  | purge (selector asPrefix) :
    (s.closing = false) →
    Step s (.purge selector asPrefix) (s.purgeSelector H selector asPrefix)
  -- The removals of `InvalidateFill` and `OpenWriteFillKeyReplacing`.
  | removeLocked (key) : (s.closing = false) → Step s .other (s.removeLocked H key)
  | policy (slot) :
    (s.closing = false) → Step s .other
      { s with policyEpochs := Function.update s.policyEpochs slot (s.policyEpochs slot + 1) }
  -- `Close`, up to the end of `abortOpenWriters`.
  | closing : Step s .other { s with closing := true }
  | abortOpenWriters :
    (s.closing = true) → Step s .other { s.advance with entries := fun _ => none }
  | disk : (s.closing = true) → Step s .other { s with ring := { s.ring with closed := true } }
  | drop (s') : (Drops s s') → Step s .other s'

end Stripe
end Bakemono
