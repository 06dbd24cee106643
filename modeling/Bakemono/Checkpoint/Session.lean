import Bakemono.Checkpoint.Load

namespace Bakemono

-- A checkpoint that is being saved, or has been. Only its bytes are in the file; the volume and the
-- session it was made of, and the number of writes to the data area before that, are not.
structure Saved where
  data    : Bytes
  clean   : Bool
  volume  : Volume
  session : BitVec 128
  writes  : Nat

-- A process that has opened the stripe. It has no session before its marker has been written.
structure Process where
  volume  : Volume
  session : Option (BitVec 128) := none
  stopped : Bool := false
  saving  : Option Saved := none

-- The two files, the process if there is one, the numbers that have been drawn for sessions, and the
-- number of writes to the data area.
structure Disks where
  disk       : File
  checkpoint : Option Saved := none
  process    : Option Process := none
  nonces     : List (BitVec 128) := []
  writes     : Nat := 0

namespace Disks

variable (H : Hash) (g : Geometry)

-- The checkpoint that is encoded in a process.
def Encodes (w : Disks) (p : Process) (c : Saved) : Prop :=
  p.session = some c.session ∧ encodeCheckpoint H g p.volume c.session c.clean = .ok c.data ∧
  c.volume = p.volume ∧ c.writes = w.writes

-- The steps of processes that open a stripe one after the other.
inductive Step (w : Disks) : Disks → Prop
  | load (rand : Nat → Nat → Fin 10) (e : Option Err) (v : Volume) :
    (w.process = none) → ((Volume.cold g).load H g w.disk rand (w.checkpoint.map Saved.data) = (e, v)) →
    (e ≠ some .panic) → Step w { w with process := some { volume := v } }
  -- A file cannot be opened or read.
  | loadFails (v : Volume) :
    (w.process = none) → (v = (Volume.cold g).reset g) → Step w { w with process := some { volume := v } }
  -- The marker is written before anything else. Numbers are not drawn twice.
  | markSession (p : Process) (nonce : BitVec 128) :
    (w.process = some p) → (p.session = none) → (nonce ∉ w.nonces) →
    Step w { w with
      disk    := w.disk.writeAt g.skip (markerOf nonce)
      process := some { p with session := some nonce }
      nonces  := nonce :: w.nonces }
  | markFails (p : Process) (nonce : BitVec 128) (disk' : File) :
    (w.process = some p) → (p.session = none) → (nonce ∉ w.nonces) →
    (disk' = w.disk ∨ disk' = w.disk.writeAt g.skip (markerOf nonce)) →
    Step w { w with disk := disk', process := none, nonces := nonce :: w.nonces }
  -- Everything that happens under the lock of the stripe.
  | work (p : Process) (v : Volume) :
    (w.process = some p) → Step w { w with process := some { p with volume := v } }
  -- The write of `handleFlushTask`, which may be incomplete. It excludes the saving of a checkpoint, and
  -- nothing is written after the goroutine has ended.
  | flush (p : Process) (lo hi : Nat) (disk' : File) :
    (w.process = some p) → (p.session ≠ none) → (p.stopped = false) → (p.saving = none) →
    (g.start ≤ lo) → (hi ≤ g.stop) → (w.disk.size ≤ disk'.size) → (w.disk.Agree disk' 0 lo) →
    (∀ n, w.disk.Agree disk' hi n) →
    Step w { w with disk := disk', writes := w.writes + 1 }
  -- `Close` waits for the goroutines.
  | stop (p : Process) :
    (w.process = some p) → (p.session ≠ none) → Step w { w with process := some { p with stopped := true } }
  -- The first half of `saveSnapshot`, in `Save` and in `Close`.
  | encode (p : Process) (c : Saved) :
    (w.process = some p) → (p.saving = none) → (c.clean = true → p.stopped = true) →
    (Encodes H g w p c) → Step w { w with process := some { p with saving := some c } }
  -- The second half of `saveSnapshot`. `Close` goes on to close the files before it unlocks them.
  | publish (p : Process) (c : Saved) :
    (w.process = some p) → (p.saving = some c) →
    Step w { w with
      checkpoint := some c
      process    := if c.clean then none else some { p with saving := none } }
  | publishFails (p : Process) (c : Saved) :
    (w.process = some p) → (p.saving = some c) →
    Step w { w with process := if c.clean then none else some { p with saving := none } }
  | crash : Step w { w with process := none }

-- No stripe has been opened yet.
structure Fresh (w : Disks) : Prop where
  checkpoint : w.checkpoint = none
  process    : w.process = none

-- The checkpoint that a process saves is one of its session, and if it is clean then nothing is written
-- any more.
def Saves (w : Disks) (p : Process) (c : Saved) : Prop :=
  p.session = some c.session ∧ encodeCheckpoint H g c.volume c.session c.clean = .ok c.data ∧
  (c.clean = true → p.stopped = true ∧ c.writes = w.writes)

-- The marker belongs to the process. A clean checkpoint with the session in the marker is newer than
-- all writes, and there is no process any more that could write.
structure Inv (w : Disks) : Prop where
  marker  : ∀ p n, w.process = some p → p.session = some n →
    w.disk.Holds g.skip (markerOf n) ∧ n ∈ w.nonces
  saving  : ∀ p c, w.process = some p → p.saving = some c → Saves H g w p c
  encoded : ∀ c, w.checkpoint = some c →
    encodeCheckpoint H g c.volume c.session c.clean = .ok c.data ∧ c.session ∈ w.nonces
  settled : ∀ c, w.checkpoint = some c → c.clean = true →
    (w.disk.Holds g.skip (markerOf c.session) → w.writes = c.writes) ∧
    ∀ p, w.process = some p → p.session ≠ some c.session

variable {H : Hash} {g : Geometry} {w w' w₀ : Disks} {p p' : Process} {c : Saved}

theorem Fresh.inv (h : w.Fresh) : w.Inv H g where
  marker  := by simp [h.process]
  saving  := by simp [h.process]
  encoded := by simp [h.checkpoint]
  settled := by simp [h.checkpoint]

namespace Inv

-- The process has ended, and the files are as before.
theorem crash (h : w.Inv H g) : Inv H g { w with process := none } where
  marker  := nofun
  saving  := nofun
  encoded := h.encoded
  settled := fun c hc hcl => ⟨(h.settled c hc hcl).1, nofun⟩

-- A process begins.
theorem load (h : w.Inv H g) (v : Volume) : Inv H g { w with process := some { volume := v } } where
  marker p n hp hn := by
    cases hp
    cases hn
  saving p c hp hc := by
    cases hp
    cases hc
  encoded := h.encoded
  settled c hc hcl := ⟨(h.settled c hc hcl).1, by simp⟩

-- The process goes on in its session, and the files are as before.
theorem go_on (h : w.Inv H g) (hp : w.process = some p) (hs : p'.session = p.session)
    (hc : ∀ c, p'.saving = some c → Saves H g w p' c) : Inv H g { w with process := some p' } where
  marker q n hq hn := by
    cases hq
    exact h.marker p n hp (hs ▸ hn)
  saving q c hq := by
    cases hq
    exact hc c
  encoded := h.encoded
  settled c hc hcl := by
    refine ⟨(h.settled c hc hcl).1, fun q hq => ?_⟩
    cases hq
    exact hs ▸ (h.settled c hc hcl).2 p hp

-- A number that has not been drawn before is the session of no checkpoint.
theorem draw (h : w.Inv H g) {nonce : BitVec 128} (hn : nonce ∉ w.nonces) (hc : w.checkpoint = some c) :
    nonce ≠ c.session := fun he => hn (he ▸ (h.encoded c hc).2)

theorem saving_none (h : w.Inv H g) (hp : w.process = some p) (hs : p.session = none) :
    p.saving = none := by
  cases hc : p.saving
  case none => rfl
  case some c => cases hs.symm.trans (h.saving p c hp hc).1

theorem markSession (h : w.Inv H g) {nonce : BitVec 128} (hn : nonce ∉ w.nonces)
    (hp : p.saving = none) : Inv H g { w with
      disk    := w.disk.writeAt g.skip (markerOf nonce)
      process := some { p with session := some nonce }
      nonces  := nonce :: w.nonces } := by
  have hm : (w.disk.writeAt g.skip (markerOf nonce)).Holds g.skip (markerOf nonce) :=
    File.holds_writeAt (List.ne_nil_of_length_pos (by rw [length_markerOf]; decide))
  constructor
  case marker =>
    intro q n hq hs
    cases hq
    cases hs
    exact ⟨hm, .head _⟩
  case saving =>
    intro q c hq hs
    cases hq
    simp [hp] at hs
  case encoded => exact fun c hc => ⟨(h.encoded c hc).1, .tail _ (h.encoded c hc).2⟩
  case settled =>
    intro c hc _
    refine ⟨fun hh => absurd (session_unique hm hh) (h.draw hn hc), fun q hq hs => ?_⟩
    cases hq
    exact h.draw hn hc (Option.some.inj hs)

-- The data area is behind the marker, so that the session which writes stays the one in the marker.
theorem flush (h : w.Inv H g) {lo : Nat} {disk' : File} (hp : w.process = some p)
    (hs : p.session ≠ none) (hc : p.saving = none) (hlo : g.start ≤ lo)
    (hsize : w.disk.size ≤ disk'.size) (ha : w.disk.Agree disk' 0 lo) :
    Inv H g { w with disk := disk', writes := w.writes + 1 } := by
  have hmark (n : BitVec 128) (hh : w.disk.Holds g.skip (markerOf n)) :
      disk'.Holds g.skip (markerOf n) := by
    have hstart := g.marker_le_start
    exact hh.agree (ha.mono (Nat.zero_le _) (·.trans hsize) (by rw [length_markerOf]; omega))
  constructor
  case marker => exact fun q n hq hn => ⟨hmark n (h.marker q n hq hn).1, (h.marker q n hq hn).2⟩
  case saving =>
    intro q c hq hs
    cases hp.symm.trans hq
    cases hc.symm.trans hs
  case encoded => exact h.encoded
  case settled =>
    intro c hc hcl
    refine ⟨fun hh => ?_, (h.settled c hc hcl).2⟩
    have ⟨n, hn⟩ := Option.ne_none_iff_exists'.mp hs
    have he := session_unique (hmark n (h.marker p n hp hn).1) hh
    exact absurd (he ▸ hn) ((h.settled c hc hcl).2 p hp)

theorem publish (h : w.Inv H g) (hp : w.process = some p) (hc : p.saving = some c) : Inv H g { w with
      checkpoint := some c
      process    := if c.clean then none else some { p with saving := none } } := by
  have ⟨hs, he, hcl⟩ := h.saving p c hp hc
  have hw : Inv H g { w with process := if c.clean then none else some { p with saving := none } } := by
    split
    case isTrue => exact h.crash
    case isFalse => exact h.go_on hp rfl nofun
  refine ⟨hw.marker, hw.saving, fun c' hc' => ?_, fun c' hc' hcl' => ?_⟩
  case refine_1 =>
    cases hc'
    exact ⟨he, (h.marker p _ hp hs).2⟩
  case refine_2 =>
    cases hc'
    exact ⟨fun _ => (hcl hcl').2.symm, by simp [hcl']⟩

theorem step (h : w.Inv H g) (hs : Step H g w w') : w'.Inv H g := by
  cases hs
  case load v _ _ _ => exact h.load v
  case loadFails => exact h.load _
  case markSession p nonce hp hs hn => exact h.markSession hn (h.saving_none hp hs)
  case markFails p nonce disk' hp hs hn hd =>
    cases hd
    case inl hd =>
      subst hd
      exact ⟨nofun, nofun, fun c hc => ⟨(h.encoded c hc).1, .tail _ (h.encoded c hc).2⟩, h.crash.settled⟩
    case inr hd =>
      subst hd
      exact (h.markSession hn (h.saving_none hp hs)).crash
  case work p v hp => exact h.go_on hp rfl fun c hc => h.saving p c hp hc
  case flush p lo hi disk' hp hs _ hc hlo _ hsize ha _ => exact h.flush hp hs hc hlo hsize ha
  case stop p hp _ =>
    refine h.go_on hp rfl fun c hc => ?_
    have ⟨hs, he, hcl⟩ := h.saving p c hp hc
    exact ⟨hs, he, fun hc => ⟨rfl, (hcl hc).2⟩⟩
  case encode p c hp _ hcl he =>
    refine h.go_on hp rfl fun c' hc' => ?_
    cases hc'
    have ⟨hs, he, hv, hw⟩ := he
    exact ⟨hs, hv ▸ he, fun hc => ⟨hcl hc, hw⟩⟩
  case publish p c hp hc => exact h.publish hp hc
  case publishFails p c hp hc =>
    split
    case isTrue => exact h.crash
    case isFalse => exact h.go_on hp rfl nofun
  case crash => exact h.crash

end Inv

-- Whenever the stripe is opened, nothing has been written to its data area since the directory in the
-- checkpoint was saved, or the stripe is empty.
theorem recovery_safe (h₀ : w₀.Fresh) (hr : Relation.ReflTransGen (Step H g) w₀ w)
    (rand : Nat → Nat → Fin 10) :
    (∀ v, (Volume.cold g).load H g w.disk rand (w.checkpoint.map Saved.data) = (none, v) →
      ∃ c, w.checkpoint = some c ∧ encodeCheckpoint H g c.volume c.session true = .ok c.data ∧
        w.writes = c.writes) ∧
    (∀ e v, (Volume.cold g).load H g w.disk rand (w.checkpoint.map Saved.data) = (some e, v) →
      v = Volume.cold g) ∧
    (Volume.cold g).reset g = Volume.cold g := by
  have h : w.Inv H g := by
    induction hr
    case refl => exact h₀.inv
    case tail hs hi => exact hi.step hs
  refine ⟨fun v hl => ?_, fun e v hl => ?_, (Volume.Shaped.cold g).reset⟩
  case refine_1 =>
    have ⟨_, data, hd, hcl, hm⟩ := (load_cases hl).resolve_right fun hn => hn.1 rfl
    have ⟨c, hc, he⟩ := Option.map_eq_some_iff.mp hd
    subst he
    have ⟨henc, _⟩ := h.encoded c hc
    have ⟨hs, hcl'⟩ := of_encodeCheckpoint henc
    have hcl := hcl' hcl
    rw [hs] at hm
    exact ⟨c, hc, hcl ▸ henc, (h.settled c hc hcl).1 hm⟩
  case refine_2 => exact ((load_cases hl).resolve_left fun hn => nomatch hn.1).2

section Sample

def sampleDisk : File := ⟨32768, fun _ => 0⟩

theorem regular_sample : (Volume.cold sampleGeometry).Regular sampleGeometry :=
  .cold (by decide) (by decide) (by decide)

-- A clean checkpoint of an empty stripe is loaded.
theorem load_sample {disk : File} {data : Bytes} (hm : disk.Holds 0 (markerOf 1))
    (he : encodeCheckpoint sampleHash sampleGeometry (Volume.cold sampleGeometry) 1 true = .ok data)
    (rand : Nat → Nat → Fin 10) :
    ∃ v, (Volume.cold sampleGeometry).load sampleHash sampleGeometry disk rand (some data) = (none, v) := by
  have ⟨index, _, _, hl⟩ := loadCheckpoint_encode rand regular_sample hm he
  have hs : (Volume.cold sampleGeometry).index.snapshot = [] :=
    List.eq_nil_of_length_eq_zero DirTrie.length_snapshot
  rw [Volume.load, hl _ rfl, hs]
  exact ⟨_, rfl⟩

-- The first process writes to the data area and ends with a clean checkpoint.
theorem recovery_safe_sample : ∃ w c v, Fresh { disk := sampleDisk } ∧
    Relation.ReflTransGen (Step sampleHash sampleGeometry) { disk := sampleDisk } w ∧ w.writes = 1 ∧
    (Volume.cold sampleGeometry).load sampleHash sampleGeometry w.disk (fun _ _ => 0)
      (w.checkpoint.map Saved.data) = (none, v) ∧
    w.checkpoint = some c ∧ w.writes = c.writes := by
  have ⟨data, he⟩ := regular_sample.exists_encodeCheckpoint sampleHash 1
  let v := Volume.cold sampleGeometry
  let disk₁ := sampleDisk.writeAt 0 (markerOf 1)
  let disk₂ := disk₁.writeAt sampleGeometry.start [1]
  let c : Saved := { data, clean := true, volume := v, session := 1, writes := 1 }
  let p₁ : Process := { volume := v }
  let p₂ : Process := { p₁ with session := some 1 }
  let p₃ : Process := { p₂ with stopped := true }
  let p₄ : Process := { p₃ with saving := some c }
  let w₁ : Disks := { disk := sampleDisk, process := some p₁ }
  let w₂ : Disks := { disk := disk₁, process := some p₂, nonces := [1] }
  let w₃ : Disks := { w₂ with disk := disk₂, writes := 1 }
  let w₄ : Disks := { w₃ with process := some p₃ }
  let w₅ : Disks := { w₃ with process := some p₄ }
  let w₆ : Disks := { w₃ with process := none, checkpoint := some c }
  have h₁ : Step sampleHash sampleGeometry { disk := sampleDisk } w₁ :=
    .load (fun _ _ => 0) (some (.other "no such file or directory")) v rfl (by rfl) nofun
  have h₂ : Step sampleHash sampleGeometry w₁ w₂ := .markSession p₁ 1 rfl rfl List.not_mem_nil
  have h₃ : Step sampleHash sampleGeometry w₂ w₃ := by
    refine .flush p₂ sampleGeometry.start (sampleGeometry.start + 1) disk₂ rfl nofun rfl rfl le_rfl
      (by decide) File.size_le_writeAt ?_ ?_
    case refine_1 => exact File.agree_writeAt (.inl le_rfl)
    case refine_2 => exact fun n => File.agree_writeAt (.inr (by simp))
  have h₄ : Step sampleHash sampleGeometry w₃ w₄ := .stop p₂ rfl nofun
  have h₅ : Step sampleHash sampleGeometry w₄ w₅ :=
    .encode p₃ c rfl rfl (fun _ => rfl) ⟨rfl, he, rfl, rfl⟩
  have h₆ : Step sampleHash sampleGeometry w₅ w₆ := .publish p₄ c rfl rfl
  have hr : Relation.ReflTransGen (Step sampleHash sampleGeometry) { disk := sampleDisk } w₆ :=
    .tail (.tail (.tail (.tail (.tail (.single h₁) h₂) h₃) h₄) h₅) h₆
  have hm : disk₂.Holds 0 (markerOf 1) := by
    have h : disk₁.Holds 0 (markerOf 1) :=
      File.holds_writeAt (List.ne_nil_of_length_pos (by rw [length_markerOf]; decide))
    exact h.agree (File.agree_writeAt (.inl (by rw [length_markerOf]; decide)))
  have ⟨v', hl⟩ := load_sample hm he fun _ _ => 0
  have ⟨c', hc, _, hw⟩ := (recovery_safe ⟨rfl, rfl⟩ hr fun _ _ => 0).1 v' hl
  exact ⟨w₆, c', v', ⟨rfl, rfl⟩, hr, rfl, hl, hc, hw⟩

end Sample

end Disks
end Bakemono
