import Bakemono.Checkpoint.Recover

-- A stripe that has been closed and is opened again.

namespace Bakemono

open CacheReader (Fragment Object fragmentsOf lt_fragmentsOf)

section Forget

variable {H : Hash} {s : Segment} {dm : DirManager} {key key' : Bytes} {tag : BitVec 16} {n i j : Nat}

theorem Segment.slotAt_forget : s.forget.slotAt i = { s.slotAt i with identity := 0 } := by
  simp only [forget, slotAt, List.getD_eq_getElem?_getD, List.getElem?_map]
  cases s.slots[i]? <;> rfl

theorem Segment.probe_forget : s.forget.probe tag n i j = s.probe tag n i j := by
  have hd (i : Nat) : s.forget.dirAt i = s.dirAt i := by rw [dirAt, slotAt_forget, dirAt]
  have hl : s.forget.length = s.length := by simp [forget, length]
  induction n generalizing i j
  case zero => rfl
  case succ n hi => rw [probe, probe, hl, hd, next, hd, hi, next]

namespace DirManager

theorem segmentAt_forget : dm.forget.segmentAt i = (dm.segmentAt i).forget := by
  simp only [forget, segmentAt, List.getD_eq_getElem?_getD, List.getElem?_map]
  cases dm.segments[i]? <;> rfl

theorem position_forget : dm.forget.position H key = dm.position H key := by
  simp [position, forget, segmentsNum]

-- Without identities, every key finds the entry at its position.
theorem get_forget : dm.forget.get H key =
    let pos := dm.position H key
    let p := (dm.segmentAt pos.segment).dirProbe pos.tag pos.bucket
    { hit := p.hit, dirOffset := dm.global pos.segment p.index, dir := p.dir } := by
  have hf (s : Segment) (i : Nat) : foreign H s.forget i key = false := by
    simp [foreign, Segment.slotAt_forget]
  have hl (s : Segment) : s.forget.length = s.length := by simp [Segment.forget, Segment.length]
  simp only [get, position_forget, segmentAt_forget, hf, Segment.dirProbe, Segment.probe_forget, hl,
    Bool.and_false, Bool.false_eq_true, if_false]
  rfl

theorem get_forget_of_hit (h : (dm.get H key).hit = true) :
    (dm.forget.get H key).hit = true ∧ (dm.forget.get H key).dir = (dm.get H key).dir := by
  rw [get_forget]
  simp only [get] at h ⊢
  split at h
  case isTrue => cases h
  case isFalse hn =>
    rw [if_neg hn]
    exact ⟨h, rfl⟩

theorem get_forget_congr (h : dm.position H key' = dm.position H key) :
    (dm.forget.get H key').hit = (dm.forget.get H key).hit ∧
    (dm.forget.get H key').dir = (dm.forget.get H key).dir := by
  rw [get_forget, get_forget, h]
  exact ⟨rfl, rfl⟩

theorem Shape.forget (h : dm.Shape) : dm.forget.Shape where
  buckets  := h.buckets
  segments := by simpa [DirManager.forget, segmentsNum] using h.segments
  length   := by
    intro s hs
    obtain ⟨t, ht, rfl⟩ := List.mem_map.mp hs
    have hl : t.forget.length = t.length := by simp [Segment.forget, Segment.length]
    exact hl.trans (h.length t ht)

-- The structure of a directory does not depend on the identities.
theorem Chained.forget (hs : dm.Shape) (h : dm.Chained) : dm.forget.Chained := by
  refine (valid_iff hs.forget).mp fun s hm => ?_
  obtain ⟨t, ht, rfl⟩ := List.mem_map.mp hm
  rw [Segment.dirs_forget]
  exact (valid_iff hs).mpr h t ht

end DirManager
end Forget

section Install

variable {H : Hash} {dm dm₁ : DirManager} {R R₁ R₂ : List (Bytes × Dir)} {rand : Nat → Nat → Fin 10}

-- Nothing has to be purged for the entries of the same directory.
theorem exists_installed (hs : dm.Shape) (hc : dm.Chained) (k : Nat) (h : dm.Built H R₁ dm₁)
    (hd : dm.Draws H (R₁ ++ R₂)) : ∃ dm', ((R₂.zipIdx k).foldlM (fun dm ((key, d), i) =>
      match dm.set H key d.offset d.approxSize d.phase (rand i) with
      | .ok (_, dm) => .ok dm
      | .error _    => .error Err.panic) dm₁ : Except Err DirManager) = .ok dm' ∧
      dm.Built H (R₁ ++ R₂) dm' := by
  induction R₂ generalizing R₁ dm₁ k
  case nil => exact ⟨dm₁, rfl, (List.append_nil R₁).symm ▸ h⟩
  case cons e R₂ hi =>
    obtain ⟨j, dm₂, he, h₂⟩ : ∃ j dm₂, dm₁.set H e.1 e.2.offset e.2.approxSize e.2.phase (rand k) =
      .ok (j, dm₂) ∧ dm.Built H (R₁ ++ [e]) dm₂ := h.set hs hc hd
    have happ : R₁ ++ [e] ++ R₂ = R₁ ++ e :: R₂ := by simp
    obtain ⟨dm', hf, h'⟩ := hi (k + 1) h₂ (happ.symm ▸ hd)
    refine ⟨dm', ?_, happ ▸ h'⟩
    rw [List.zipIdx_cons, List.foldlM_cons]
    simp only [he]
    exact hf

theorem exists_installDirs (rand : Nat → Nat → Fin 10) (hs : dm.Shape) (hc : dm.Chained)
    (h₀ : dm.Built H [] dm.initEmptyDirs) (hd : dm.Draws H R) :
    ∃ dm', installDirs H rand dm R = .ok dm' ∧ dm.Built H R dm' :=
  exists_installed hs hc 0 h₀ hd

end Install

section Restore

variable {t : DirTrie} {es : List (Bytes × Bytes)}

-- Some entries of a snapshot are restored.
theorem DirTrie.Exact.restore_sublist (h : t.Exact) (hs : es.Sublist t.snapshot) :
    ∃ t', t.restore es = .ok t' ∧ t'.Exact ∧ t'.capacity = t.capacity ∧
      ∀ k s, t'.lookup k = some s ↔ (k, s) ∈ es := by
  have hp : t.snapshot.Perm (t.entries.entries.map pair) := List.mergeSort_perm ..
  obtain ⟨l', hperm, hsub⟩ := hs.subperm.trans hp.subperm
  obtain ⟨l, hl, rfl⟩ := List.sublist_map_iff.mp hsub
  let unpair (e : Bytes × Bytes) : Sigma fun _ : Bytes => Bytes := ⟨e.1, e.2⟩
  have hes : (es.map unpair).map pair = es := by
    rw [List.map_map]
    exact List.map_id _
  have hm : (es.map unpair).Perm l := by
    have := (hperm.map unpair).symm
    rwa [List.map_map, show unpair ∘ pair = id from rfl, List.map_id] at this
  have hcap : (new t.capacity).capacity = t.capacity := Nat.min_eq_left h.capacity
  have hlen : t.entries.keys.length = t.entries.entries.length := List.length_map ..
  have hcount := h.count
  have hkeys : (es.map unpair).NodupKeys :=
    (List.perm_nodupKeys hm).mpr (t.entries.nodupKeys.sublist hl)
  have hsum : ((es.map unpair).map size).sum ≤ t.bytes := by
    rw [(hm.map size).sum_eq, h.sum]
    exact (hl.map size).sum_le_sum fun _ _ => Nat.zero_le _
  have hbytes := h.bytes
  obtain ⟨t', hf, hp'⟩ := foldlM_setNew_eq_ok (l := es.map unpair) (exact_new t.capacity)
    (by simpa [new] using hkeys)
    (fun e he => h.accepted e (hl.subset (hm.mem_iff.mp he)))
    (by
      rw [hm.length_eq, hcap]
      have := hl.length_le
      simp [new]
      omega)
    (by simpa [new] using hsum.trans hbytes)
  obtain ⟨h', hc⟩ := (exact_new t.capacity).foldlM_setNew hf
  rw [hes] at hf
  refine ⟨t', ?_, h', hc.trans hcap, fun k s => ?_⟩
  case refine_1 => rw [restore_eq_replacement h.toValid, hf]
  case refine_2 =>
    have hmem : t'.lookup k = some s ↔ ⟨k, s⟩ ∈ t'.entries.entries := AList.mem_lookup_iff
    have hnil : (new t.capacity).entries.entries = [] := rfl
    rw [hmem, hp'.mem_iff, hnil, List.append_nil, List.mem_map]
    constructor
    case mp =>
      rintro ⟨e, he, heq⟩
      cases heq
      exact he
    case mpr => exact fun he => ⟨(k, s), he, rfl⟩

end Restore

section Restart

variable {H : Hash} {g : Geometry} {disk : File} {v u : Volume} {session : BitVec 128} {data : Bytes}
  {key key' body body' : Bytes} {info info' : CacheHTTPInfo} {i j : Nat} {es valid : List (Bytes × Bytes)}
  {recovered : List (Bytes × Dir)} {dm : DirManager}

-- The digests tell the documents of the objects in the index apart which are all in place.
def Volume.Distinguished (H : Hash) (g : Geometry) (disk : File) (v : Volume) : Prop :=
  ∀ k s k' s' body info body' info' i j, v.index.lookup k = some s → v.index.lookup k' = some s' →
    Volume.Carries H g disk { v with dirMgr := v.dirMgr.forget } k body info →
    Volume.Carries H g disk { v with dirMgr := v.dirMgr.forget } k' body' info' →
    i < fragmentsOf body.length → j < fragmentsOf body'.length →
    H.docKey (H.fragmentKey k i) = H.docKey (H.fragmentKey k' j) → k = k' ∧ i = j

theorem fragmentsOf_le_div {n len : Nat} (hl : 32768 ≤ len) (hn : n ≤ len) :
    fragmentsOf n ≤ len / 8192 / 4 * 4 := by
  have ht : (n + TargetFragmentSize - 1) / TargetFragmentSize ≤ len / TargetFragmentSize + 1 := by
    calc (n + TargetFragmentSize - 1) / TargetFragmentSize
      _ ≤ (len + TargetFragmentSize) / TargetFragmentSize := Nat.div_le_div_right (by omega)
      _ = len / TargetFragmentSize + 1 := Nat.add_div_right _ (by decide)
  have hd : len / TargetFragmentSize = len / 8192 / 4 / 32 := by
    rw [Nat.div_div_eq_div_mul, Nat.div_div_eq_div_mul]
    rfl
  have h₄ : 1 ≤ len / 8192 / 4 := by omega
  rw [hd] at ht
  rw [fragmentsOf]
  generalize len / 8192 / 4 = b at *
  omega

-- A directory has a slot for every fragment that fits into the stripe.
theorem Volume.Shaped.fragmentsOf_le (h : v.Shaped g) (hl : 32768 ≤ g.len) {n : Nat} (hn : n ≤ g.len) :
    fragmentsOf n ≤ v.dirMgr.fragmentsNum := by
  refine (fragmentsOf_le_div hl hn).trans ?_
  have hb : 0 < g.len / 8192 / 4 := by omega
  rw [DirManager.fragmentsNum, h.buckets, h.segments]
  simp only [Volume.cold, DirManager.init, DirManager.segmentsNum, List.length_replicate, DirDepth]
  generalize g.len / 8192 / 4 = b at *
  have hseg : 0 < (b + MaxBucketsPerSegment - 1) / MaxBucketsPerSegment :=
    Nat.div_pos (by omega) (by decide)
  generalize (b + MaxBucketsPerSegment - 1) / MaxBucketsPerSegment = m at *
  have hdiv := Nat.lt_div_mul_add (a := b + m - 1) hseg
  have hmul : (b + m - 1) / m * 4 * m = (b + m - 1) / m * m * 4 := by ring
  rw [hmul]
  omega

-- Two documents at one place are the same document.
theorem docKey_eq_of_position (hu : u.dirMgr = dm.forget) (h : u.Carries H g disk key body info)
    (h' : u.Carries H g disk key' body' info') (hi : i < fragmentsOf body.length)
    (hj : j < fragmentsOf body'.length)
    (hp : dm.position H (H.fragmentKey key i) = dm.position H (H.fragmentKey key' j)) :
    H.docKey (H.fragmentKey key i) = H.docKey (H.fragmentKey key' j) := by
  obtain ⟨d, w, q, hr, hf⟩ := h.document hi
  obtain ⟨d', w', q', hr', hf'⟩ := h'.document hj
  obtain ⟨⟨_, hd, _⟩, _, _, hl⟩ := handleRead_view.mp hr
  obtain ⟨⟨_, hd', _⟩, _, _, hl'⟩ := handleRead_view.mp hr'
  have hdir : d = d' := by
    rw [hu] at hd hd'
    rw [← hd, ← hd', (DirManager.get_forget_congr hp).2]
  subst hdir
  obtain rfl : q = q' := Except.ok.inj (hl.symm.trans hl')
  rw [← hf.identity, ← hf'.identity]

-- The head of an object tells its length.
theorem Volume.Carries.length_eq (h : v.Carries H g disk key body info)
    (h' : v.Carries H g disk key body' info') : body.length = body'.length := by
  obtain ⟨_, _, frags, q, ho, hs, hq, _⟩ := h
  obtain ⟨_, _, frags', q', ho', hs', hq', _⟩ := h'
  obtain ⟨_, _, hr, _⟩ := hs 0 0 q hq
  obtain ⟨_, _, hr', _⟩ := hs' 0 0 q' hq'
  cases hr.symm.trans hr'
  exact (ho.head q hq).1.symm.trans (ho'.head q hq').1

-- The recovered fragments have different positions.
theorem Recovers.draws (h : Recovers H g disk u es valid recovered) (hs : u.dirMgr.Shape)
    (hc : u.dirMgr.Chained) (hu : u.dirMgr = dm.forget) (hes : (es.map Prod.fst).Nodup)
    (hd : ∀ k ∈ es.map Prod.fst, ∀ k' ∈ es.map Prod.fst, ∀ body info body' info' i j,
      u.Carries H g disk k body info → u.Carries H g disk k' body' info' →
      i < fragmentsOf body.length → j < fragmentsOf body'.length →
      H.docKey (H.fragmentKey k i) = H.docKey (H.fragmentKey k' j) → k = k' ∧ i = j) :
    u.dirMgr.Draws H recovered := by
  have hpos (k : Bytes) : u.dirMgr.position H k = dm.position H k := by rw [hu, DirManager.position_forget]
  have hhit {x : Bytes × Dir} (hx : x ∈ recovered) :
      (u.dirMgr.get H x.1).hit = true ∧ x.2 = (u.dirMgr.get H x.1).dir := by
    obtain ⟨e, _, body, info, i, hcar, hi, rfl⟩ := h.of_mem hx
    obtain ⟨_, _, _, hr, _⟩ := hcar.document hi
    exact ⟨(handleRead_view.mp hr).1.1, rfl⟩
  refine ⟨?_, fun x hx => ?_, fun x hx => ?_⟩
  case refine_2 => exact (DirManager.exists_slot_of_hit hs hc (hhit hx).1).1
  case refine_3 => exact (hhit hx).2 ▸ (DirManager.exists_slot_of_hit hs hc (hhit hx).1).2.1
  case refine_1 =>
    clear hhit
    induction h
    case nil => exact List.nodup_nil
    case skip hi =>
      rw [List.map_cons, List.nodup_cons] at hes
      exact hi hes.2 fun k hk k' hk' => hd k (List.mem_cons_of_mem _ hk) k' (List.mem_cons_of_mem _ hk')
    case keep e body info es valid recovered hcar hrec hi =>
      rw [List.map_cons, List.nodup_cons] at hes
      have hi := hi hes.2 fun k hk k' hk' => hd k (List.mem_cons_of_mem _ hk) k' (List.mem_cons_of_mem _ hk')
      have same {k' b' : Bytes} {info' : CacheHTTPInfo} {i j : Nat} (hk' : k' ∈ (e :: es).map Prod.fst)
          (hcar' : u.Carries H g disk k' b' info') (hi : i < fragmentsOf body.length)
          (hj : j < fragmentsOf b'.length) (hp : u.dirMgr.position H (H.fragmentKey e.1 i) =
            u.dirMgr.position H (H.fragmentKey k' j)) : e.1 = k' ∧ i = j := by
        rw [hpos, hpos] at hp
        exact hd e.1 (.head _) k' hk' _ _ _ _ i j hcar hcar' hi hj
          (docKey_eq_of_position hu hcar hcar' hi hj hp)
      rw [List.map_append, List.nodup_append]
      refine ⟨?_, hi, ?_⟩
      case refine_1 =>
        rw [Volume.located, List.map_map]
        refine List.nodup_range.map_on fun i hi j hj hp => ?_
        exact (same (.head _) hcar (List.mem_range.mp hi) (List.mem_range.mp hj) hp).2
      case refine_2 =>
        rintro p hp p' hp' rfl
        obtain ⟨x, hx, rfl⟩ := List.mem_map.mp hp
        obtain ⟨i, hlt, rfl⟩ := List.mem_map.mp hx
        obtain ⟨x', hx', hpe⟩ := List.mem_map.mp hp'
        obtain ⟨e', he', body', info', j, hcar', hj, rfl⟩ := hrec.of_mem hx'
        have hmem : e'.1 ∈ es.map Prod.fst := List.mem_map_of_mem (hrec.sublist.subset he')
        have hk := (same (List.mem_cons_of_mem _ hmem) hcar' (List.mem_range.mp hlt) hj hpe.symm).1
        exact hes.1 (hk ▸ hmem)

theorem DirTrie.nodup_snapshot (t : DirTrie) : (t.snapshot.map Prod.fst).Nodup := by
  have hp : t.snapshot.Perm (t.entries.entries.map fun e => (e.1, e.2)) := List.mergeSort_perm ..
  rw [(hp.map Prod.fst).nodup_iff, List.map_map]
  exact t.entries.nodupKeys

theorem Volume.Shaped.built (h : v.Shaped g) (hl : 32768 ≤ g.len) :
    v.dirMgr.Built H [] v.dirMgr.initEmptyDirs := by
  have hn : 4 ≤ g.len / 8192 := by omega
  have hd : v.dirMgr.initEmptyDirs = DirManager.init (g.len / 8192) := by
    have hs : v.dirMgr.segments.length = (Volume.cold g).dirMgr.segments.length := h.segments
    simp only [DirManager.initEmptyDirs, h.buckets, List.map_const', hs]
    simp [Volume.cold, DirManager.init]
  have hb : v.dirMgr.bucketsNumPerSegment = (DirManager.init (g.len / 8192)).bucketsNumPerSegment := h.buckets
  have hs : v.dirMgr.segmentsNum = (DirManager.init (g.len / 8192)).segmentsNum := h.segments
  rw [hd]
  refine ⟨⟨hb.symm, hs.symm⟩, DirManager.shape_init hn, DirManager.chained_init hn, ?_, by simp⟩
  intro i hi b hlt
  rw [DirManager.entries_init hn (hs ▸ hi) (hb ▸ hlt)]
  exact Nat.zero_le _

section Loaded

variable {index : DirTrie}

variable (v index) in
-- What has been loaded, before the objects are checked.
def Volume.raw : Volume := { v with dirMgr := v.dirMgr.forget, index }

theorem Volume.Placed.raw (h : v.Placed g disk) : (v.raw index).Placed g disk := by
  intro s hs x hx hv
  obtain ⟨t, ht, rfl⟩ := List.mem_map.mp hs
  obtain ⟨y, hy, rfl⟩ := List.mem_map.mp hx
  exact h t ht y hy hv

theorem Volume.Shaped.raw (h : v.Shaped g) (hc : index.capacity = v.index.capacity) :
    (v.raw index).Shaped g where
  buckets  := h.buckets
  segments := by simpa [Volume.raw, DirManager.forget, DirManager.segmentsNum] using h.segments
  capacity := hc.trans h.capacity

-- The identities are not needed to find an object again.
theorem Volume.Carries.raw (h : v.Carries H g disk key body info) :
    (v.raw index).Carries H g disk key body info := by
  refine h.covers rfl rfl fun i _ hh => ?_
  obtain ⟨hhit, hdir⟩ := DirManager.get_forget_of_hit hh
  have hdir : ((v.raw index).dirMgr.get H (H.fragmentKey key i)).dir =
    (v.dirMgr.get H (H.fragmentKey key i)).dir := hdir
  exact ⟨hhit, by rw [hdir], by rw [hdir], by rw [hdir]⟩

-- The objects of the rebuilt directory.
theorem Volume.Carries.rebuilt {dm' : DirManager} (h : u.Carries H g disk key body info)
    (hb : u.dirMgr.Built H recovered dm') (hr : u.located H key body.length ⊆ recovered) :
    Volume.Carries H g disk { u with dirMgr := dm', index } key body info := by
  refine h.covers rfl rfl fun i hi hh => ?_
  have hmem : (H.fragmentKey key i, (u.dirMgr.get H (H.fragmentKey key i)).dir) ∈ recovered :=
    hr (List.mem_map_of_mem (List.mem_range.mpr hi))
  obtain ⟨d, hocc, hdesc⟩ := hb.entries _ hmem
  obtain ⟨h₁, h₂⟩ := DirManager.get_eq hb.shape hb.chained H (H.fragmentKey key i)
  have hl : dm'.lookup H (H.fragmentKey key i) = some ⟨d, H.docKey (H.fragmentKey key i)⟩ := by
    rw [DirManager.lookup, hocc]
    simp [Option.filter_some, DirManager.Owned]
  rw [hl] at h₁ h₂
  have h₂ : (dm'.get H (H.fragmentKey key i)).dir.setNext 0 = d := h₂
  rw [← h₂] at hdesc
  exact ⟨h₁, hdesc.offset, hdesc.phase, hdesc.size⟩

end Loaded

section Sample

open CacheReader (sampleFragment)

-- A small stripe with one object of two bytes at the beginning of its data area. The rest of the data
-- area has not been written yet.
def sampleDisk : File := (File.writeAt ⟨0, fun _ => 0⟩ 0 (markerOf 0)).writeAt 512 sampleFragment

theorem object_sample : Object sampleHash 512 32768 [97] 0 [104, 105] [] [sampleFragment] := by
  have hpayload : CacheReader.payload sampleFragment = [104, 105] := by decide +kernel
  have hfrag : Fragment sampleHash [97] 0 0 sampleFragment := by
    constructor
    all_goals decide +kernel
  have honly {i : Nat} {q : Bytes} (hq : [sampleFragment][i]? = some q) : i = 0 ∧ q = sampleFragment := by
    cases i
    case zero => exact ⟨rfl, (Option.some_inj.mp hq).symm⟩
    case succ => simp at hq
  constructor
  case fragment =>
    intro i q hq
    obtain ⟨rfl, rfl⟩ := honly hq
    exact hfrag
  case length =>
    intro i q hq
    obtain ⟨rfl, rfl⟩ := honly hq
    rw [hpayload]
    decide
  case head =>
    intro q hq
    obtain ⟨_, rfl⟩ := honly hq
    decide +kernel
  case tail => exact fun i q hq h₀ => absurd (honly hq).1 h₀
  case complete =>
    intro i hi
    simp only [List.length_cons, List.length_nil, TargetFragmentSize] at hi ⊢
    omega
  case payloads => simp [hpayload]
  case fits => decide

theorem disk_sample : sampleDisk.Holds 0 (markerOf 0) ∧ sampleDisk.Holds 512 sampleFragment := by
  have hm : markerOf 0 ≠ [] := List.ne_nil_of_length_pos (by rw [length_markerOf]; decide)
  constructor
  case left =>
    refine (File.holds_writeAt hm).agree (File.agree_writeAt (.inl ?_))
    rw [length_markerOf]
    decide
  case right => exact File.holds_writeAt (by decide +kernel)

-- The directory and the index of the stripe.
theorem exists_sample : ∃ i dm t,
    (DirManager.init 4).set sampleHash [97] 512 512 false (fun _ => 0) = .ok (i, dm) ∧
    (newDirTrie (some 4)).setIdentity [97] [97] = .ok t ∧
    ∀ s ∈ dm.segments, ∀ x ∈ s.slots, x.dir.offset < 512 ∨ x.dir.offset = 512 := by
  have hd : ((DirManager.init 4).set sampleHash [97] 512 512 false fun _ => 0).toOption.any (fun r =>
      r.2.segments.all fun s => s.slots.all fun x => x.dir.offset < 512 ∨ x.dir.offset = 512) = true := by
    decide +kernel
  cases hs : (DirManager.init 4).set sampleHash [97] 512 512 false (fun _ => 0)
  case error e => simp [hs, Except.toOption] at hd
  case ok r => exact ⟨r.1, r.2, _, rfl, rfl, by simpa [hs, Except.toOption] using hd⟩

theorem bounds_sample : sampleGeometry.start = 512 ∧ sampleGeometry.stop = 32768 := by
  decide

section Volume

variable {dm : DirManager} {t : DirTrie}

theorem carries_sample (hhit : (dm.get sampleHash [97]).hit = true)
    (hoff : (dm.get sampleHash [97]).dir.offset = 512) (hphase : (dm.get sampleHash [97]).dir.phase = false)
    (hsize : 512 ≤ (dm.get sampleHash [97]).dir.approxSize) :
    Volume.Carries sampleHash sampleGeometry sampleDisk ⟨dm, t, 1024, false⟩ [97] [104, 105] .new := by
  obtain ⟨hstart, hstop⟩ := bounds_sample
  refine ⟨0, [], [sampleFragment], _, hstart ▸ hstop ▸ object_sample, ?_, rfl, by decide +kernel⟩
  intro _ i q hq
  obtain ⟨rfl, rfl⟩ : i = 0 ∧ q = sampleFragment := by
    cases i
    case zero => exact ⟨rfl, (Option.some_inj.mp hq).symm⟩
    case succ => simp at hq
  have hlen : sampleFragment.length = 74 := by decide +kernel
  refine ⟨_, none, handleRead_view.mpr ⟨⟨hhit, rfl, rfl⟩, ?_, ?_, ?_⟩, by simp⟩
  case refine_1 =>
    show _ ≤ (dm.get sampleHash [97]).dir.offset ∧ (dm.get sampleHash [97]).dir.offset < _
    rw [hoff, hstart, hstop]
    decide
  case refine_2 =>
    show (Volume.ring sampleGeometry sampleDisk ⟨dm, t, 1024, false⟩).dirValid
      (dm.get sampleHash [97]).dir = true
    rw [Ring.dirValid_iff, hoff, hphase]
    have hend : 512 < sampleGeometry.stop := by decide
    have hpos : 512 < 1024 := by decide
    exact ⟨fun hc => absurd hc.1 (lt_irrefl 0), rfl, rfl, hstart.le, hend, .inl ⟨rfl, hpos⟩⟩
  case refine_3 =>
    show CacheReader.loadFromDisk _ _ (dm.get sampleHash [97]).dir = _
    rw [loadFromDisk_view, hoff, hlen, hstop]
    exact ⟨disk_sample.2, by decide +kernel, by decide, by omega, by decide⟩

-- Only one object is listed, and no object of the stripe has two fragments.
theorem distinguished_sample (hlook : ∀ k, t.lookup k = if k = [97] then some [97] else none) :
    Volume.Distinguished sampleHash sampleGeometry sampleDisk ⟨dm, t, 1024, false⟩ := by
  intro k s k' s' body info body' info' i j hk hk' hcar hcar' hi hj _
  have only {k s : Bytes} (h : t.lookup k = some s) : k = [97] := by
    rw [hlook] at h
    split at h
    case isTrue hk => exact hk
    case isFalse => cases h
  have hsmall {n : Nat} (hn : n ≤ sampleGeometry.stop - sampleGeometry.start) : fragmentsOf n ≤ 1 := by
    rw [bounds_sample.1, bounds_sample.2] at hn
    rw [fragmentsOf, TargetFragmentSize]
    omega
  have hle := hsmall hcar.fits
  have hle' := hsmall hcar'.fits
  exact ⟨(only hk).trans (only hk').symm, by omega⟩

theorem placed_sample
    (hslots : ∀ s ∈ dm.segments, ∀ x ∈ s.slots, x.dir.offset < 512 ∨ x.dir.offset = 512) :
    Volume.Placed sampleGeometry sampleDisk ⟨dm, t, 1024, false⟩ := by
  intro s hs x hx hv
  have hge : 512 ≤ x.dir.offset := bounds_sample.1 ▸ (Ring.dirValid_iff.mp hv).2.2.2.1
  have hoff : x.dir.offset = 512 := (hslots s hs x hx).resolve_left (by omega)
  constructor
  all_goals rw [hoff]
  case header => decide +kernel
  case doc => exact fun _ => by decide +kernel

end Volume

end Sample

end Restart
end Bakemono
