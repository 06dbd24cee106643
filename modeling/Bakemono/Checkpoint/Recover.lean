import Bakemono.Checkpoint.Load
import Bakemono.Directory.Rebuild
import Bakemono.Read.Complete
import Bakemono.Ring.Validity

-- The objects that are found again when a checkpoint is loaded.

namespace Bakemono

open CacheReader (Between Complete Delivers Fragment Object Progress Reading Serves fragmentsOf header infoOf
  lt_fragmentsOf)

section View

variable {H : Hash} {g : Geometry} {disk : File} {v v' : Volume} {k : Bytes} {i : Nat} {dir : Dir}
  {buf : Bytes} {ram : Option RamEntry}

-- What a load finds on the disk of a stripe.
theorem handleRead_view :
    CacheReader.handleRead g.start g.stop (v.view H g disk) k i = .ok (dir, buf, ram) ↔
    ((v.dirMgr.get H k).hit = true ∧ (v.dirMgr.get H k).dir = dir ∧ ram = none) ∧
    (g.start ≤ dir.offset ∧ dir.offset < g.stop) ∧ (v.ring g disk).dirValid dir = true ∧
    CacheReader.loadFromDisk g.stop (v.view H g disk) dir = .ok buf := by
  by_cases hh : (v.dirMgr.get H k).hit = true
  case neg => simp [CacheReader.handleRead, Volume.view, hh, throw, throwThe, MonadExceptOf.throw]
  case pos =>
    have hget : (v.view H g disk).get k = some (v.dirMgr.get H k).dir := if_pos hh
    simp only [CacheReader.handleRead, hget, hh, true_and]
    generalize (v.dirMgr.get H k).dir = d
    have hs : (v.view H g disk).storageErr = none := rfl
    have hc : (v.view H g disk).closed = false := rfl
    have hr : (v.view H g disk).ram k = none := rfl
    have hd : (v.view H g disk).dirValid d = (v.ring g disk).dirValid d := rfl
    simp only [hs, hc, hr, hd, Except.check_bind_eq_ok, Except.bind_eq_ok]
    constructor
    case mp =>
      rintro ⟨_, ha, hv, a, hl, he⟩
      cases he
      exact ⟨⟨rfl, rfl⟩, by omega, not_not.mp hv, hl⟩
    case mpr =>
      rintro ⟨⟨rfl, rfl⟩, ha, hv, hl⟩
      exact ⟨by decide, by omega, not_not.mpr hv, buf, hl, rfl⟩

theorem readAt_view {off n : Nat} {p : Bytes} :
    (v.view H g disk).readAt off n = .ok p ↔ p.length = n ∧ disk.Holds off p := by
  rw [← File.readAt_eq_some]
  show (disk.readAt off n).elim (.error Err.eof) .ok = Except.ok p ↔ _
  cases disk.readAt off n <;> simp

-- The document at the offset of an entry.
theorem loadFromDisk_view :
    CacheReader.loadFromDisk g.stop (v.view H g disk) dir = .ok buf ↔
    disk.Holds dir.offset buf ∧ buf.length = (header buf).len.toNat ∧
    (DocHeaderSize ≤ buf.length ∧ buf.length ≤ AggBufferSize) ∧
    buf.length ≤ dir.approxSize ∧ buf.length ≤ g.stop - dir.offset := by
  simp only [CacheReader.loadFromDisk, Except.bind_eq_ok, Except.check_bind_eq_ok, readAt_view]
  constructor
  case mp =>
    rintro ⟨hdr, ⟨hl, hh⟩, hbounds, hlen, hbuf⟩
    have hle : DocHeaderSize ≤ buf.length := by omega
    have htake : buf.take DocHeaderSize = hdr :=
      (hbuf.take DocHeaderSize).unique hh (by rw [List.length_take, hl, Nat.min_eq_left hle])
    have hheader : header buf = Doc.unmarshal hdr := by rw [header, htake]
    rw [hheader]
    exact ⟨hbuf, hlen, by omega, by omega, by omega⟩
  case mpr =>
    rintro ⟨hbuf, hlen, hle, hsize, hstop⟩
    refine ⟨buf.take DocHeaderSize, ⟨?_, hbuf.take _⟩, ?_, hlen, hbuf⟩
    case refine_1 => rw [List.length_take, Nat.min_eq_left hle.1]
    case refine_2 =>
      have hheader : Doc.unmarshal (buf.take DocHeaderSize) = header buf := rfl
      rw [hheader]
      omega

-- The entry of another directory leads to the same document.
def Lookup.Covers (a b : Lookup) : Prop :=
  b.hit = true ∧ b.dir.offset = a.dir.offset ∧ b.dir.phase = a.dir.phase ∧
    a.dir.approxSize ≤ b.dir.approxSize

theorem handleRead_covers (hw : v'.writePos = v.writePos) (hp : v'.phase = v.phase)
    (hc : (v.dirMgr.get H k).Covers (v'.dirMgr.get H k))
    (h : CacheReader.handleRead g.start g.stop (v.view H g disk) k i = .ok (dir, buf, ram)) :
    ∃ dir', CacheReader.handleRead g.start g.stop (v'.view H g disk) k i = .ok (dir', buf, none) := by
  obtain ⟨⟨_, rfl, _⟩, ⟨hs, ht⟩, hv, hl⟩ := handleRead_view.mp h
  obtain ⟨hhit, ho, hphase, hsize⟩ := hc
  obtain ⟨hb, hlen, hmax, happrox, hstop⟩ := loadFromDisk_view.mp hl
  refine ⟨_, handleRead_view.mpr ⟨⟨hhit, rfl, rfl⟩, ?_, ?_, ?_⟩⟩
  case refine_1 => exact ho.symm ▸ ⟨hs, ht⟩
  case refine_2 =>
    rw [Ring.dirValid_iff] at hv ⊢
    obtain ⟨_, _, _, hrest⟩ := hv
    refine ⟨fun hw => absurd hw.1 (lt_irrefl 0), rfl, rfl, ?_⟩
    rw [ho, hphase]
    simpa only [Volume.ring, hw, hp] using hrest
  case refine_3 =>
    rw [loadFromDisk_view, ho]
    exact ⟨hb, hlen, hmax, happrox.trans hsize, hstop⟩

end View

section Objects

variable {H : Hash} {g : Geometry} {disk : File} {v v' : Volume} {key body enc : Bytes} {info : CacheHTTPInfo}
  {env : Nat → View} {frags : List Bytes} {w : UInt64} {r r' : CacheReader} {D rest : Bytes} {fuel n : Nat}

theorem CacheReader.Object.length_frags {start stop : Nat} (h : Object H start stop key w body enc frags) :
    frags.length = fragmentsOf body.length := by
  refine Nat.le_antisymm (not_lt.mp fun hlt => ?_) (not_lt.mp fun hlt => ?_)
  case refine_1 =>
    have hq := List.getElem?_eq_getElem hlt
    have h₀ : fragmentsOf body.length ≠ 0 := fun hc => by simp [fragmentsOf] at hc
    obtain ⟨_, hpos, _⟩ := h.tail _ _ hq h₀
    rw [h.length _ _ hq, CacheReader.pieceLen] at hpos
    have hend : fragmentsOf body.length * TargetFragmentSize < body.length := by omega
    exact lt_irrefl _ (lt_fragmentsOf.mpr (.inr hend))
  case refine_2 => exact lt_irrefl _ (h.complete _ (lt_fragmentsOf.mp hlt))

variable (H g disk) in
-- All documents of the object are in place.
def Volume.Carries (v : Volume) (key body : Bytes) (info : CacheHTTPInfo) : Prop :=
  ∃ w enc frags q, Object H g.start g.stop key w body enc frags ∧
    Serves H g.start g.stop key (fun _ => v.view H g disk) frags ∧
    frags[0]? = some q ∧ infoOf q = .ok info

namespace Volume.Carries

theorem fits (h : v.Carries H g disk key body info) : body.length ≤ g.stop - g.start := by
  obtain ⟨_, _, _, _, ho, _⟩ := h
  exact ho.fits

-- The fragments of the object are documents with the identity of their key.
theorem document (h : v.Carries H g disk key body info) {i : Nat} (hi : i < fragmentsOf body.length) :
    ∃ dir w q, CacheReader.handleRead g.start g.stop (v.view H g disk) (H.fragmentKey key i) i =
      .ok (dir, q, none) ∧ Fragment H key i w q := by
  obtain ⟨w, _, frags, _, ho, hs, _, _⟩ := h
  have hq := List.getElem?_eq_getElem (ho.length_frags.symm ▸ hi)
  obtain ⟨dir, ram, hr, _⟩ := hs 0 i _ hq
  obtain ⟨⟨_, _, rfl⟩, _⟩ := handleRead_view.mp hr
  exact ⟨dir, w, _, hr, ho.fragment i _ hq⟩

-- It is also in place in a stripe whose directory leads to the same documents.
theorem covers (h : v.Carries H g disk key body info) (hw : v'.writePos = v.writePos)
    (hp : v'.phase = v.phase)
    (hc : ∀ i < fragmentsOf body.length, (v.dirMgr.get H (H.fragmentKey key i)).hit = true →
      (v.dirMgr.get H (H.fragmentKey key i)).Covers (v'.dirMgr.get H (H.fragmentKey key i))) :
    v'.Carries H g disk key body info := by
  obtain ⟨w, enc, frags, q, ho, hs, hq, hi⟩ := h
  refine ⟨w, enc, frags, q, ho, fun j i q hq => ?_, hq, hi⟩
  obtain ⟨dir, ram, hr, _⟩ := hs j i q hq
  have hlt : i < fragmentsOf body.length := ho.length_frags ▸ (List.getElem?_eq_some_iff.mp hq).1
  obtain ⟨dir', hr'⟩ := handleRead_covers hw hp (hc i hlt (handleRead_view.mp hr).1.1) hr
  exact ⟨dir', none, hr', by simp⟩

end Volume.Carries

-- Reading an object that is in place comes to its end.
theorem discard_eq (ho : Object H g.start g.stop key w body enc frags)
    (hs : Serves H g.start g.stop key env frags) (h : Between H g.start g.stop key env r D)
    (hb : D ++ rest = body) (hf : rest.length < fuel) : r.discard H g key env fuel = some none := by
  induction fuel generalizing r D rest
  case zero => omega
  case succ fuel hi =>
    obtain ⟨r', hr, h'⟩ := h.read ho hs hb (by decide : 0 < 8192)
    simp only [CacheReader.discard, hr, CacheReader.next, Option.bind_eq_bind, Option.bind_some]
    by_cases hrest : rest = []
    case pos => simp [hrest]
    case neg =>
      have hlen := List.length_pos_of_ne_nil hrest
      have hb' : D ++ rest.take 8192 ++ rest.drop 8192 = body := by
        rw [List.append_assoc, List.take_append_drop, hb]
      simp only [hrest, if_false]
      exact hi h' hb' (by rw [List.length_drop]; omega)

-- And an object that is read to its end is in place.
theorem complete_of_discard {l : List Bytes} {p : Bytes} {x : View}
    (hp : Progress H g.start g.stop key x w n r)
    (hr : Reading H g.start g.stop key (fun _ => x) r l p w D) (hb : r.buf = p)
    (hx : ∀ i r, CacheReader.load H g.start g.stop key x i r ≠ .error .eof)
    (h : r.discard H g key (fun _ => x) fuel = some none) : Complete H g.start g.stop key x w n := by
  induction fuel generalizing r l p D
  case zero => cases h
  case succ fuel hi =>
    simp only [CacheReader.discard, Option.bind_eq_bind, Option.bind_eq_some_iff] at h
    obtain ⟨⟨acc, e, r'⟩, hread, h⟩ := h
    have hstep := hp.read hr hb hx hread
    cases e
    case none =>
      obtain ⟨hp', l', p', D', hr', hb'⟩ := hstep.1 rfl
      exact hi hp' hr' hb' h
    case some e =>
      refine hstep.2 ?_
      by_contra hne
      have hne : e ≠ .eof := fun he => hne (congrArg some he)
      simp [hne] at h

theorem loadHTTPInfo_new (h : CacheReader.loadHTTPInfo H g.start g.stop key env {} = (.ok info, r)) :
    ∃ r', CacheReader.load H g.start g.stop key (env 0) 0 {} = .ok r' ∧ r'.parseInfo = .ok info ∧
      r = { r' with info := some info } := by
  simp only [CacheReader.loadHTTPInfo] at h
  split at h
  case h_1 => cases h
  case h_2 r' hl =>
    split at h
    case h_1 => cases h
    case h_2 hi =>
      cases h
      exact ⟨r', hl, hi, rfl⟩

-- Nothing is read from memory.
theorem load_ram {i : Nat} (h : CacheReader.load H g.start g.stop key (v.view H g disk) i r = .ok r') :
    r'.ram = none := by
  simp only [CacheReader.load, CacheReader.parseDoc, Except.bind_eq_ok, Except.check_bind_eq_ok] at h
  obtain ⟨⟨dir, buf, ram⟩, hr, _, _, _, _, _, _, _, _, _, _, _, he⟩ := h
  cases he
  exact (handleRead_view.mp hr).1.2.2

-- The fragments of an object and where they are.
def Volume.located (H : Hash) (v : Volume) (key : Bytes) (n : Nat) : List (Bytes × Dir) :=
  (List.range (fragmentsOf n)).map fun i =>
    (H.fragmentKey key i, (v.dirMgr.get H (H.fragmentKey key i)).dir)

theorem Volume.Carries.recoverEntry (h : v.Carries H g disk key body info)
    (hn : fragmentsOf body.length ≤ v.dirMgr.fragmentsNum) :
    recoverEntry H g disk v key = .ok (some (v.located H key body.length)) := by
  have hdoc (i : Nat) (hi : i < fragmentsOf body.length) :
      (v.dirMgr.get H (H.fragmentKey key i)).hit = true := by
    obtain ⟨_, _, _, hr, _⟩ := h.document hi
    exact (handleRead_view.mp hr).1.1
  obtain ⟨w, enc, frags, q, ho, hs, hq, hi⟩ := h
  have hasked := CacheReader.asked_infoCalls ho hs hq 1
  obtain ⟨r, hl⟩ : ∃ r, CacheReader.loadHTTPInfo H g.start g.stop key (fun _ => v.view H g disk) {} =
      (.ok info, r) := by
    have hinfo := ((CacheReader.asked_infoCalls ho hs hq 0).loadHTTPInfo ho hs hq).1
    exact ⟨_, Prod.ext (hinfo.trans hi) rfl⟩
  have hr : CacheReader.infoCalls H g.start g.stop key (fun _ => v.view H g disk) 1 = r :=
    congrArg Prod.snd hl
  have ht : r.totalLen = body.length := by
    obtain ⟨r', hload, _, rfl⟩ := loadHTTPInfo_new hl
    obtain ⟨r'', hload', hbuf, _⟩ := ho.load (r := {}) hs hq (absurd rfl) (by simp) 0
    cases hload.symm.trans hload'
    obtain ⟨_, _, hacc⟩ := CacheReader.accepted_of_load hload
    show r'.totalLen = body.length
    rw [← hacc.head rfl, hbuf, (ho.head q hq).1]
  have hdiscard : r.discard H g key (fun _ => v.view H g disk) (r.totalLen + 2) = some none :=
    discard_eq ho hs (hr ▸ hasked.between) (List.nil_append _) (by omega)
  have hfrags : max 1 ((r.totalLen + TargetFragmentSize - 1) / TargetFragmentSize) =
      fragmentsOf body.length := by
    rw [ht, fragmentsOf]
  simp only [Bakemono.recoverEntry, hl, hfrags, hdiscard, if_neg (not_lt.mpr hn)]
  have hdirs : ((List.range (fragmentsOf body.length)).mapM fun idx =>
      if (v.dirMgr.get H (H.fragmentKey key idx)).hit then
        Except.ok (H.fragmentKey key idx, (v.dirMgr.get H (H.fragmentKey key idx)).dir)
      else .error (Err.other "checkpoint changed during recovery")) =
      .ok (v.located H key body.length) :=
    Except.mapM_ok fun i hi => if_pos (hdoc i (List.mem_range.mp hi))
  rw [hdirs]
  rfl

-- An object is recovered if it can be read to its end.
theorem recoverEntry_cases
    (hx : ∀ i r, CacheReader.load H g.start g.stop key (v.view H g disk) i r ≠ .error .eof) :
    recoverEntry H g disk v key = .ok none ∨ ∃ body info, v.Carries H g disk key body info ∧
      fragmentsOf body.length ≤ v.dirMgr.fragmentsNum := by
  unfold recoverEntry
  dsimp only
  split
  case h_1 => exact .inl rfl
  case h_2 info r hl =>
    split_ifs with hn
    case pos => exact .inl rfl
    case neg =>
      split
      case h_2 => exact .inl rfl
      case h_1 hd =>
        obtain ⟨r', hload, hinfo, rfl⟩ := loadHTTPInfo_new hl
        obtain ⟨w, hloads, hacc⟩ := CacheReader.accepted_of_load hload
        have hreading : Reading H g.start g.stop key (fun _ => v.view H g disk) r' [] r'.buf w [] :=
          hloads.reading (j := 0) rfl rfl rfl
        have hprog : Progress H g.start g.stop key (v.view H g disk) w r'.totalLen r' := by
          refine ⟨hloads.version, rfl, fun i hi => ?_⟩
          rw [hloads.index, Nat.le_zero] at hi
          exact ⟨r'.buf, hi ▸ hacc⟩
        have hcomplete := complete_of_discard (r := { r' with info := some info }) { hprog with }
          { hreading with } rfl hx hd
        obtain ⟨frags, body, enc, ho, hlen, _, hseen⟩ := hcomplete.object
        have hserves : Serves H g.start g.stop key (fun _ => v.view H g disk) frags := by
          intro _ i q hq
          obtain ⟨dir, buf, ram, hr, hpre⟩ := hseen i q hq
          obtain ⟨⟨_, _, rfl⟩, _, _, hdisk⟩ := handleRead_view.mp hr
          have hq' := Fragment.eq_of_prefix (ho.fragment i q hq) (loadFromDisk_view.mp hdisk).2.1 hpre
          exact ⟨dir, none, hq' ▸ hr, by simp⟩
        have hbuf := ho.of_seen (j := 0) hserves hacc.fragment hacc.seen (ho.complete 0 (.inl rfl))
        refine .inr ⟨body, info, ⟨w, enc, frags, r'.buf, ho, hserves, hbuf, ?_⟩, ?_⟩
        case refine_1 => exact (hacc.fragment.parseInfo rfl (by simp [load_ram hload])).symm.trans hinfo
        case refine_2 =>
          rw [hlen]
          exact not_lt.mp hn

end Objects

section Errors

open Except (Avoids)

variable {H : Hash} {g : Geometry} {disk : File} {v : Volume} {key k : Bytes} {r : CacheReader} {i : Nat}
  {start stop : Nat}

-- The reads of a document which has the entry do not cross the end of the disk.
structure Inside (g : Geometry) (disk : File) (d : Dir) : Prop where
  header : d.offset + DocHeaderSize ≤ disk.size
  doc    : (Doc.unmarshal (disk.read d.offset DocHeaderSize)).len.toNat ≤ g.stop - d.offset →
    d.offset + (Doc.unmarshal (disk.read d.offset DocHeaderSize)).len.toNat ≤ disk.size

-- The disk may be shorter than the stripe, but what can be valid is inside of it.
def Volume.Placed (g : Geometry) (disk : File) (v : Volume) : Prop :=
  ∀ s ∈ v.dirMgr.segments, ∀ x ∈ s.slots, (v.ring g disk).dirValid x.dir = true → Inside g disk x.dir

theorem avoids_parseDoc : Avoids .eof (CacheReader.parseDoc H start stop key k r) := by
  have he := CacheReader.foreign_eof
  apply Avoids.bind (CacheReader.avoids_parseDocFromBuf he)
  intro doc _
  apply Avoids.bind (CacheReader.avoids_validate he)
  intro _ hval
  apply Avoids.check (he.other _)
  intro _
  apply Avoids.check (he.other _)
  intro _
  apply Avoids.bind (CacheReader.avoids_checkLengths he)
  intro _ _
  apply Avoids.check (he.other _)
  intro _
  have hf := (Doc.validate_eq_ok.mp hval).2.1
  exact .bind (CacheReader.trim_eq hf.size ▸ .ok) fun _ _ => .ok

-- The end of the disk is not taken for the end of an object.
theorem Volume.Placed.load_ne_eof (h : v.Placed g disk) (hs : v.dirMgr.Shape) (hc : v.dirMgr.Chained) :
    CacheReader.load H g.start g.stop key (v.view H g disk) i r ≠ .error .eof := by
  have he := CacheReader.foreign_eof
  have hread {off n : Nat} (hn : off + n ≤ disk.size) :
      (v.view H g disk).readAt off n = .ok (disk.read off n) := by
    have hr : disk.readAt off n = some (disk.read off n) := if_pos hn
    show (disk.readAt off n).elim (Except.error Err.eof) Except.ok = _
    rw [hr]
    rfl
  refine Avoids.bind ?_ fun _ _ => avoids_parseDoc
  generalize H.fragmentKey key i = k
  have hst : (v.view H g disk).storageErr = none := rfl
  have hram : (v.view H g disk).ram k = none := rfl
  simp only [CacheReader.handleRead, hst]
  apply Avoids.check he.closed
  intro _
  cases hg : (v.view H g disk).get k
  case none => exact .throw (he.notResident _)
  case some d =>
    have hd : (v.dirMgr.get H k).hit = true ∧ (v.dirMgr.get H k).dir = d := by
      have hg : (if (v.dirMgr.get H k).hit then some (v.dirMgr.get H k).dir else none) = some d := hg
      split at hg
      case isTrue hh => exact ⟨hh, Option.some_inj.mp hg⟩
      case isFalse => cases hg
    obtain ⟨_, _, s, hsm, x, hx, hxd⟩ := DirManager.exists_slot_of_hit hs hc hd.1
    have hplace (hv : (v.ring g disk).dirValid d = true) : Inside g disk d := by
      rw [← hd.2, ← hxd] at hv ⊢
      exact h s hsm x hx hv
    apply Avoids.check (he.other _)
    intro _
    apply Avoids.check (he.notResident _)
    intro hv
    have hplace := hplace (not_not.mp hv)
    simp only [hram]
    refine Avoids.bind ?_ fun _ _ => .ok
    simp only [CacheReader.loadFromDisk, hread hplace.header]
    apply Avoids.check (he.other _)
    intro hb
    rw [hread (hplace.doc (by omega))]
    exact .ok

end Errors

section Recovery

variable {H : Hash} {g : Geometry} {disk : File} {v : Volume} {es valid : List (Bytes × Bytes)}
  {recovered : List (Bytes × Dir)}

-- What is kept of some entries of the index, and the fragments of their objects.
inductive Recovers (H : Hash) (g : Geometry) (disk : File) (v : Volume) :
    List (Bytes × Bytes) → List (Bytes × Bytes) → List (Bytes × Dir) → Prop
  | nil : Recovers H g disk v [] [] []
  | keep {e : Bytes × Bytes} {body : Bytes} {info : CacheHTTPInfo} {es valid : List (Bytes × Bytes)}
      {recovered : List (Bytes × Dir)} :
    (v.Carries H g disk e.1 body info) → (Recovers H g disk v es valid recovered) →
    Recovers H g disk v (e :: es) (e :: valid) (v.located H e.1 body.length ++ recovered)
  | skip {e : Bytes × Bytes} {es valid : List (Bytes × Bytes)} {recovered : List (Bytes × Dir)} :
    (∀ body info, ¬v.Carries H g disk e.1 body info) → (Recovers H g disk v es valid recovered) →
    Recovers H g disk v (e :: es) valid recovered

theorem exists_recovers
    (hx : ∀ key i r, CacheReader.load H g.start g.stop key (v.view H g disk) i r ≠ .error .eof)
    (hn : ∀ key body info, v.Carries H g disk key body info →
      fragmentsOf body.length ≤ v.dirMgr.fragmentsNum) (es : List (Bytes × Bytes)) :
    ∃ recovered valid, recoverEntries H g disk v es = .ok (recovered, valid) ∧
      Recovers H g disk v es valid recovered := by
  induction es
  case nil => exact ⟨[], [], rfl, .nil⟩
  case cons e es hi =>
    obtain ⟨recovered, valid, hr, hrec⟩ := hi
    by_cases hc : ∃ body info, v.Carries H g disk e.1 body info
    case pos =>
      obtain ⟨body, info, hc⟩ := hc
      have he := hc.recoverEntry (hn _ _ _ hc)
      exact ⟨_, _, by simp only [recoverEntries, he, hr]; rfl, .keep hc hrec⟩
    case neg =>
      have he := (recoverEntry_cases (hx e.1)).resolve_right (by
        rintro ⟨body, info, h, _⟩
        exact hc ⟨body, info, h⟩)
      refine ⟨_, _, by simp only [recoverEntries, he, hr]; rfl, .skip (fun body info h => ?_) hrec⟩
      exact hc ⟨body, info, h⟩

namespace Recovers

theorem sublist (h : Recovers H g disk v es valid recovered) : valid.Sublist es := by
  induction h
  case nil => exact .slnil
  case keep hi => exact .cons_cons _ hi
  case skip hi => exact .cons _ hi

theorem carries (h : Recovers H g disk v es valid recovered) {e : Bytes × Bytes} (he : e ∈ valid) :
    ∃ body info, v.Carries H g disk e.1 body info ∧ v.located H e.1 body.length ⊆ recovered := by
  induction h
  case nil => cases he
  case keep e' body info _ _ _ hc _ hi =>
    cases he
    case head => exact ⟨body, info, hc, List.subset_append_left _ _⟩
    case tail he =>
      obtain ⟨body, info, hc, hs⟩ := hi he
      exact ⟨body, info, hc, List.subset_append_of_subset_right _ hs⟩
  case skip hi => exact hi he

theorem mem_valid (h : Recovers H g disk v es valid recovered) {e : Bytes × Bytes} {body : Bytes}
    {info : CacheHTTPInfo} (he : e ∈ es) (hc : v.Carries H g disk e.1 body info) : e ∈ valid := by
  induction h
  case nil => cases he
  case keep hi =>
    cases he
    case head => exact .head _
    case tail he => exact .tail _ (hi he)
  case skip hn _ hi =>
    cases he
    case head => exact absurd hc (hn _ _)
    case tail he => exact hi he

theorem of_mem (h : Recovers H g disk v es valid recovered) {x : Bytes × Dir} (hx : x ∈ recovered) :
    ∃ e ∈ valid, ∃ body info i, v.Carries H g disk e.1 body info ∧ i < fragmentsOf body.length ∧
      x = (H.fragmentKey e.1 i, (v.dirMgr.get H (H.fragmentKey e.1 i)).dir) := by
  induction h
  case nil => cases hx
  case keep e body info _ _ _ hc _ hi =>
    cases List.mem_append.mp hx
    case inl hx =>
      obtain ⟨i, hlt, rfl⟩ := List.mem_map.mp hx
      exact ⟨e, .head _, body, info, i, hc, List.mem_range.mp hlt, rfl⟩
    case inr hx =>
      obtain ⟨e, he, hrest⟩ := hi hx
      exact ⟨e, .tail _ he, hrest⟩
  case skip hi => exact hi hx

end Recovers

end Recovery

end Bakemono
