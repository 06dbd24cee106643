import Bakemono.Directory.Frame

namespace Bakemono.Segment

variable {s : Segment} {bucket : Nat → List Nat} {free : List Nat} {b w n loop : Nat}

-- The chain of the bucket holds all slots which are not heads.
def Crowded (s : Segment) (b : Nat) : Prop := ∀ i < s.length, i % DirDepth ≠ 0 → i ∈ s.chain b

instance (s : Segment) (b : Nat) : Decidable (s.Crowded b) :=
  inferInstanceAs (Decidable (∀ i < s.length, _))

-- The same in terms of the chains of the structural invariant.
def Fills (s : Segment) (l : List Nat) : Prop := ∀ i < s.length, i % DirDepth ≠ 0 → i ∈ l

theorem Chained.crowded_iff (h : s.Chained bucket free) (hb : b < s.buckets) :
    s.Crowded b ↔ s.Fills (bucket b) := by
  rw [Crowded, Fills, h.buckets.bucket_eq hb]

theorem Fills.congr {s' : Segment} {l l' : List Nat} (h : s.Fills l) (hl : s'.length = s.length)
    (he : l' = l) : s'.Fills l' :=
  fun i hi hd => he ▸ h i (hl ▸ hi) hd

-- A crowded bucket leaves no slot for the free chain.
theorem Chained.free_eq_nil (h : s.Chained bucket free) (hb : b < s.buckets)
    (hf : s.Fills (bucket b)) : free = [] := by
  apply List.eq_nil_iff_forall_not_mem.mpr
  intro i hi
  have ⟨hl, hd, ho⟩ := h.chain.slots i hi
  exact ((h.buckets.chains b hb).occupied i (hf i hl hd)).2 ho

-- If only one bucket has entries, then all slots outside of its chain are free.
theorem Chained.free_ne_nil (h : s.Chained bucket free) (hf : ¬s.Fills (bucket w))
    (he : ∀ b < s.buckets, b ≠ w → bucket b = []) : free ≠ [] := by
  simp only [Fills, not_forall] at hf
  have ⟨i, hi, hd, hn⟩ := hf
  have ho : (s.dirAt i).offset = 0 := by
    by_contra ho
    have ⟨b, hb, hm⟩ := h.buckets.cover i hi ho
    by_cases hw : b = w
    case pos => exact hn (hw ▸ hm)
    case neg => simp [he b hb hw] at hm
  exact List.ne_nil_of_mem (h.all i hi hd ho)

theorem findFreeDir_purge (h : s.Chained bucket free) (w loop : Nat) : ∃ s' bucket' free',
    findFreeDir.purge w (loop + 1) s = .ok s' ∧ s'.Chained bucket' free' ∧ s'.length = s.length ∧
    bucket' w = bucket w ∧ (loop ≥ 49 → ∀ b < s'.buckets, b ≠ w → bucket' b = []) := by
  unfold findFreeDir.purge
  by_cases hl : loop + 1 > 49
  case pos =>
    have ⟨s', bucket', free', he, hc, hv, hs, hp⟩ := purgeBuckets_spec h.buckets fun i => i = w
    refine ⟨s', bucket', free', by rw [if_pos hl]; exact he, hc, hv.length, hs w (by simp), ?_⟩
    intro _ b hb hw
    exact hp b (hv.buckets ▸ hb) (by simpa using hw)
  case neg =>
    refine ⟨s, bucket, free, by rw [if_neg hl]; rfl, h, rfl, rfl, ?_⟩
    intro hc
    omega

-- Every iteration spares the crowded bucket.
theorem findFreeDir_crowded (h : s.Chained bucket free) (hw : w < s.buckets)
    (hf : s.Fills (bucket w)) (rand : Nat → Fin 10) (hn : n + loop = 51) (hl : loop ≤ 50) :
    findFreeDir w rand n loop s = .error .freeChainPop := by
  induction n generalizing s bucket free loop
  case zero => omega
  case succ n hi =>
    obtain ⟨s₁, bucket₁, free₁, he₁, h₁, hl₁, hw₁, _⟩ := findFreeDir_purge h w loop
    have hb₁ : s₁.buckets = s.buckets := by simp [buckets, hl₁]
    have hf₁ : s₁.Fills (bucket₁ w) := hf.congr hl₁ hw₁
    simp only [findFreeDir, he₁, bind, Except.bind]
    by_cases h₅₀ : loop + 1 > 50
    case pos => simp [h₅₀, throw, throwThe, MonadExceptOf.throw]
    case neg =>
      have hnil := h₁.free_eq_nil (hb₁ ▸ hw) hf₁
      subst hnil
      have hs := (freeStart_eq_zero_iff h₁.chain).mpr rfl
      obtain ⟨s₂, he₂, h₂, hk₂⟩ := freeChainRebuild_empty h₁
      obtain ⟨s₃, bucket₃, free₃, he₃, h₃, hv₃, hw₃, _⟩ := purgeBuckets_spec h₂.buckets
        fun i => (s₂.buckets > 10 && i % 10 ≠ rand (loop + 1)) || i = w
      have he₃' : s₂.purgeRandom10 w (rand (loop + 1)) = .ok s₃ := he₃
      have hl₃ : s₃.length = s₁.length := hv₃.length.trans hk₂.length
      have hb₃ : s₃.buckets = s.buckets := by simp [buckets, hl₃, hl₁]
      simp only [h₅₀, if_false, hs, if_true, he₂, he₃']
      exact hi h₃ (hb₃ ▸ hw) (hf₁.congr hl₃ (hw₃ w (by simp))) (by omega) (by omega)

-- At the latest the purge of all other buckets yields a free slot.
theorem findFreeDir_ok (h : s.Chained bucket free) (hf : ¬s.Fills (bucket w)) (rand : Nat → Fin 10)
    (hn : n + loop = 51) (hl : loop ≤ 49) : ∃ r, findFreeDir w rand n loop s = .ok r := by
  induction n generalizing s bucket free loop
  case zero => omega
  case succ n hi =>
    obtain ⟨s₁, bucket₁, free₁, he₁, h₁, hl₁, hw₁, hp₁⟩ := findFreeDir_purge h w loop
    have hf₁ : ¬s₁.Fills (bucket₁ w) := fun hc => hf (hc.congr hl₁.symm hw₁.symm)
    have h₅₀ : ¬loop + 1 > 50 := by omega
    simp only [findFreeDir, he₁, bind, Except.bind, h₅₀, if_false]
    by_cases hs : s₁.freeStart = 0
    case pos =>
      have hnil := (freeStart_eq_zero_iff h₁.chain).mp hs
      subst hnil
      have hlt : loop < 49 := by
        by_contra hc
        exact h₁.free_ne_nil hf₁ (hp₁ (by omega)) rfl
      obtain ⟨s₂, he₂, h₂, hk₂⟩ := freeChainRebuild_empty h₁
      obtain ⟨s₃, bucket₃, free₃, he₃, h₃, hv₃, hw₃, _⟩ := purgeBuckets_spec h₂.buckets
        fun i => (s₂.buckets > 10 && i % 10 ≠ rand (loop + 1)) || i = w
      have he₃' : s₂.purgeRandom10 w (rand (loop + 1)) = .ok s₃ := he₃
      have hl₃ : s₃.length = s₁.length := hv₃.length.trans hk₂.length
      simp only [hs, if_true, he₂, he₃']
      refine hi h₃ (fun hc => hf₁ ?_) (by omega) (by omega)
      exact hc.congr hl₃.symm (hw₃ w (by simp)).symm
    case neg =>
      have hm : s₁.freeStart.toNat ∈ free₁ := by
        have hp := h₁.chain.links.path
        cases free₁
        case nil => exact absurd ((freeStart_eq_zero_iff h₁.chain).mpr rfl) hs
        case cons => simp [hp.1]
      obtain ⟨s', he, _⟩ := freeChainDelete_pops h₁ hm
      simp only [hs, if_false, findFreeDir.pop, bind, Except.bind, he]
      exact ⟨_, rfl⟩

-- A bucket has three slots of its own which are not heads.
theorem fills_ne_nil (hb : b < s.buckets) {l : List Nat} (hf : s.Fills l) :
    ∀ i, 0 < i → i < DirDepth → b * DirDepth + i ∈ l := by
  intro i h₀ hi
  apply hf
  all_goals
    simp only [buckets, DirDepth] at *
    omega

theorem getFreeDir_crowded (h : s.Chained bucket free) (hb : b < s.buckets)
    (hf : s.Fills (bucket b)) (rand : Nat → Fin 10) :
    s.getFreeDir b rand = .error .freeChainPop := by
  have hk := h.buckets.chains b hb
  have hown := fills_ne_nil hb hf
  have hne : bucket b ≠ [] := List.ne_nil_of_mem (hown 1 (by decide) (by decide))
  have h₀ := mt hk.eq_nil_iff.mpr hne
  have hnone : (List.range' 1 (DirDepth - 1)).find?
      (fun i => (s.dirAt (b * DirDepth + i)).offset = 0) = none := by
    rw [List.find?_eq_none]
    intro i hi
    have hi := List.mem_range'_1.mp hi
    simpa using (hk.occupied _ (hown i (by omega) (by simp only [DirDepth] at *; omega))).2
  simp only [getFreeDir, get_eq (head_lt h.buckets.dvd hb), h₀, bind, Except.bind, if_false, hnone]
  exact findFreeDir_crowded h hb hf rand rfl (by omega)

theorem getFreeDir_ok (h : s.Chained bucket free) (hb : b < s.buckets) (hf : ¬s.Fills (bucket b))
    (rand : Nat → Fin 10) : s.getFreeDir b rand ≠ .error .freeChainPop := by
  by_cases hne : bucket b = []
  case pos => simp [getFreeDir_empty h.buckets hb hne]
  case neg =>
    have h₀ := mt (h.buckets.chains b hb).eq_nil_iff.mpr hne
    simp only [getFreeDir, get_eq (head_lt h.buckets.dvd hb), h₀, bind, Except.bind, if_false]
    split
    case h_1 i he =>
      -- The slot is unused, so that taking it out of the free chain can only fail otherwise.
      have hi := List.mem_range'_1.mp (List.mem_of_find?_eq_some he)
      have ho := List.find?_some he
      have hm : b * DirDepth + i ∈ free := by
        refine h.all _ ?_ ?_ (by simpa using ho)
        all_goals
          have := h.buckets.dvd
          simp only [Segment.buckets, DirDepth] at *
          omega
      obtain ⟨s', he, _⟩ := freeChainDelete_pops h hm
      simp [he, pure, Except.pure]
    case h_2 =>
      obtain ⟨r, he⟩ : ∃ r, findFreeDir b rand 51 0 s = .ok r := findFreeDir_ok h hf rand rfl (by omega)
      simp [freeChainPop, he]

-- The other panics of `dirInsert` are different ones.
theorem avoids_get {i : Nat} : Except.Avoids .freeChainPop (s.get i) := by
  simp only [get, Except.Avoids]
  split <;> simp

theorem avoids_modifySlot {i : Nat} {f : Slot → Slot} :
    Except.Avoids .freeChainPop (s.modifySlot i f) := by
  simp only [modifySlot, Except.Avoids]
  split <;> simp

theorem avoids_modify {i : Nat} {f : Dir → Dir} : Except.Avoids .freeChainPop (s.modify i f) :=
  avoids_modifySlot

theorem avoids_lastDirOfBucket {i : Nat} : Except.Avoids .freeChainPop (s.lastDirOfBucket n i) := by
  induction n generalizing i
  case zero => exact .throw nofun
  case succ n hi => exact .bind avoids_get fun _ _ => .ite (fun _ => hi) fun _ => .ok

-- The panic of `dirInsert`: there is nothing to overwrite, and nothing to purge.
theorem dirInsert_panics_iff (h : s.Chained bucket free) (hb : b < s.buckets) {dir : Dir}
    (tag : BitVec 16) (rand : Nat → Fin 10) : s.dirInsert tag b dir rand = .error .freeChainPop ↔
      (∀ j ∈ bucket b, (s.dirAt j).tag ≠ tag) ∧ s.Fills (bucket b) := by
  have hk := h.buckets.chains b hb
  have hh := head_lt h.buckets.dvd hb
  cases dirProbe_spec hk hh tag
  case inr hp =>
    have ⟨l₁, i, l₂, hc, _, ht, hp⟩ := hp
    have hm : i ∈ bucket b := by simp [hc]
    have hi := (hk.occupied i hm).1
    refine iff_of_false ?_ fun hno => hno.1 i hm ht
    simp [dirInsert, hp, get_eq hi, modify_eq hi, bind, Except.bind, pure, Except.pure]
  case inl hp =>
    have hd : s.dirInsert tag b dir rand = .error .freeChainPop ↔
        s.getFreeDir b rand = .error .freeChainPop := by
      constructor
      case mpr =>
        intro hf
        simp [dirInsert, hp.2, hf, bind, Except.bind]
      case mp =>
        intro he
        by_contra hf
        have hav : Except.Avoids .freeChainPop (s.dirInsert tag b dir rand) := by
          simp only [dirInsert, hp.2, Bool.false_eq_true, if_false]
          refine .bind hf fun r _ => .bind avoids_modify fun s₁ _ => .ite (fun _ => .ok) fun _ => ?_
          exact .bind avoids_lastDirOfBucket fun _ _ => .bind avoids_modify fun _ _ => .ok
        exact hav he
    rw [hd, and_iff_right hp.1]
    by_cases hf : s.Fills (bucket b)
    case pos => simp [hf, getFreeDir_crowded h hb hf]
    case neg => simp [hf, getFreeDir_ok h hb hf]

end Bakemono.Segment

namespace Bakemono.DirManager

variable {H : Hash} {dm dm' : DirManager} {op : Op} {n : Nat}

variable (H) in
-- The operation inserts a new entry into a bucket whose chain holds all other slots of its segment.
def Op.Crowds (dm : DirManager) : Op → Prop
  | set key _ _ _ _ =>
    dm.occupant H key = none ∧
    (dm.segmentAt (dm.position H key).segment).Crowded (dm.position H key).bucket
  | _ => False

theorem set_panics_iff (H : Hash) (key : Bytes) (hs : dm.Shape) (hc : dm.Chained)
    (ho : 0 < off ∧ off < 2 ^ 40) (hz : 0 < size ∧ size ≤ DirMaxDataSize) (phase : Bool)
    (rand : Nat → Fin 10) : dm.set H key off size phase rand = .error .freeChainPop ↔
      (Op.set key off size phase rand).Crowds H dm := by
  have ⟨hp₁, hp₂⟩ := hs.position H key
  have hm := segmentAt_mem hp₁
  have ⟨bucket, free, h⟩ := hc _ hm
  have ⟨_, _, hb⟩ := hs.dvd hm
  rw [← hb] at hp₂
  have ⟨dir, hd, _⟩ := Dir.make_describes (p := phase) ho.2 hz.1 hz.2
    (H.tag_lt key dm.segmentsNum dm.bucketsNumPerSegment)
  have hd : Dir.make off size (dm.position H key).tag phase = some dir := hd
  have hset : dm.set H key off size phase rand = .error .freeChainPop ↔
      (dm.segmentAt (dm.position H key).segment).dirInsert (dm.position H key).tag
        (dm.position H key).bucket dir rand = .error .freeChainPop := by
    constructor
    case mpr =>
      intro he
      simp [set, hd, he, bind, Except.bind]
    case mp =>
      intro he
      by_contra hf
      have hav : Except.Avoids .freeChainPop (dm.set H key off size phase rand) := by
        simp only [set, hd]
        exact .bind hf fun _ _ => .bind Segment.avoids_modifySlot fun _ _ => .ok
      exact hav he
  have hocc : dm.occupant H key = none ↔ ∀ j ∈ bucket (dm.position H key).bucket,
      ((dm.segmentAt (dm.position H key).segment).dirAt j).tag ≠ (dm.position H key).tag := by
    rw [occupant, entries, h.buckets.entries_eq hp₂]
    simp only [Segment.find, Segment.items, List.find?_map, Option.map_eq_none_iff,
      List.find?_eq_none, Function.comp, decide_eq_true_eq]
    rfl
  rw [hset, Segment.dirInsert_panics_iff h hp₂, ← hocc, ← h.crowded_iff hp₂]
  rfl

theorem exec_ok_iff (hs : dm.Shape) (hc : dm.Chained) (hr : op.InRange) :
    (∃ dm', op.exec H dm = .ok dm') ↔ ¬op.Crowds H dm := by
  cases op
  case set key off size phase rand =>
    rw [← set_panics_iff H key hs hc hr.1 hr.2 phase rand]
    cases set_spec H key hs hc hr.1 hr.2 phase rand
    case inl he => simp [Op.exec, he, Functor.map, Except.map]
    case inr he =>
      obtain ⟨i, dm', he, _⟩ := he
      simp [Op.exec, he, Functor.map, Except.map]
  all_goals
    refine iff_of_true ?_ not_false
    apply Exists.imp fun _ h => And.left h
    exact exec_ok hs hc (by simp)

theorem run_ok_iff (hs : dm.Shape) (hc : dm.Chained) {ops : List Op} (hr : ∀ op ∈ ops, op.InRange) :
    (∃ dm', dm.run H ops = .ok dm') ↔
      ∀ l₁ op l₂ dm', ops = l₁ ++ op :: l₂ → dm.run H l₁ = .ok dm' → ¬op.Crowds H dm' := by
  induction ops generalizing dm
  case nil => exact iff_of_true ⟨dm, rfl⟩ (by simp)
  case cons op ops hi =>
    have hop := exec_ok_iff (H := H) hs hc (hr op (by simp))
    have hr' : ∀ op ∈ ops, op.InRange := fun op ho => hr op (by simp [ho])
    have hcons (dm₁ : DirManager) (he : op.exec H dm = .ok dm₁) (l : List Op) :
        dm.run H (op :: l) = dm₁.run H l := by
      simp only [run, List.foldlM_cons, he, bind, Except.bind]
    constructor
    case mp =>
      rintro ⟨dm', he⟩ l₁ op' l₂ dm₂ hl h₁
      obtain ⟨dm₁, he₁, he⟩ := Except.bind_eq_ok.mp he
      cases l₁
      case nil =>
        cases hl
        cases h₁
        exact hop.mp ⟨dm₁, he₁⟩
      case cons =>
        obtain ⟨rfl, rfl⟩ := List.cons.inj hl
        obtain ⟨hs₁, hc₁⟩ := exec_keeps hs hc (hr op (by simp)) he₁
        exact (hi hs₁ hc₁ hr').mp ⟨dm', he⟩ _ _ _ dm₂ rfl (hcons dm₁ he₁ _ ▸ h₁)
    case mpr =>
      intro h
      obtain ⟨dm₁, he₁⟩ := hop.mpr (h [] op ops dm rfl rfl)
      obtain ⟨hs₁, hc₁⟩ := exec_keeps hs hc (hr op (by simp)) he₁
      rw [hcons dm₁ he₁]
      refine (hi hs₁ hc₁ hr').mpr fun l₁ op' l₂ dm₂ hl h₁ => ?_
      exact h (op :: l₁) op' l₂ dm₂ (by rw [hl]; rfl) (hcons dm₁ he₁ _ ▸ h₁)

-- The loop of `freeChainPop` ends with a free slot in all runs in which no entry is inserted into
-- such a bucket, and in no others.
theorem freeChainPop_returns (H : Hash) (hn : 4 ≤ n) (ops : List Op) (hr : ∀ op ∈ ops, op.InRange) :
    (∃ dm, (init n).run H ops = .ok dm) ↔
      ∀ l₁ op l₂ dm, ops = l₁ ++ op :: l₂ → (init n).run H l₁ = .ok dm → ¬op.Crowds H dm :=
  run_ok_iff (shape_init hn) (chained_init hn) hr

-- The digests of the first five letters.
def crowdHash : Hash :=
  { letterHash with
    md5    := fun key => if key = [101] then 0xe1671797c52e15f763380b45e841ec32 else letterHash.md5 key
    sha256 := fun key =>
      if key = [101] then 0x3f79bb7b435b05321651daefd374cdc681dc06faa65e374e38337b88ca046dea
      else letterHash.sha256 key }

-- The fourth entry of a directory with one bucket.
theorem freeChainPop_returns_sample : ∃ dm, (init 4).run crowdHash (letters 3) = .ok dm ∧
    ¬(Op.set [100] 2048 512 true fun _ => 0).Crowds crowdHash dm := by
  have hr : ∀ op ∈ letters 4, op.InRange := by
    simp [letters, Op.InRange, DirMaxDataSize]
    omega
  have h₃ : ((init 4).run crowdHash (letters 3)).isOk := by decide +kernel
  have h₄ : ((init 4).run crowdHash (letters 4)).isOk := by decide +kernel
  cases he₃ : (init 4).run crowdHash (letters 3)
  case error => simp [he₃, Except.isOk, Except.toBool] at h₃
  case ok dm =>
    cases he₄ : (init 4).run crowdHash (letters 4)
    case error => simp [he₄, Except.isOk, Except.toBool] at h₄
    case ok dm' =>
      have h := (freeChainPop_returns crowdHash (le_refl 4) (letters 4) hr).mp ⟨dm', he₄⟩
      exact ⟨dm, rfl, h (letters 3) _ [] dm rfl he₃⟩

-- The fifth entry: no bucket but its own has entries that could be purged for it.
theorem freeChainPop_panics : (init 4).run crowdHash (letters 5) = .error .freeChainPop := by
  decide +kernel

end Bakemono.DirManager
