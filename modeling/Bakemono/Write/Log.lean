import Bakemono.Ring.Validity

namespace Bakemono

namespace FlushTask

variable {t : FlushTask} {r : Record} {q : Nat} {p : Bytes}

-- The task with one more addition behind the others.
def append (t : FlushTask) (q : Nat) (p : Bytes) : FlushTask :=
  { t with additions := t.additions ++ [(q, p)] }

theorem place_append {off : Nat} {l : List (Nat × Bytes)} :
    records.place t off (l ++ [(q, p)]) =
      records.place t off l ++ [⟨⟨off + (l.flatMap Prod.snd).length, t.generation, q⟩, p⟩] := by
  induction l generalizing off
  case nil => simp [records.place]
  case cons a l hi => simp [records.place, hi, Nat.add_assoc]

theorem place_congr {t' : FlushTask} (h : t'.generation = t.generation) {off : Nat}
    {l : List (Nat × Bytes)} : records.place t' off l = records.place t off l := by
  induction l generalizing off
  case nil => rfl
  case cons a l hi => simp [records.place, hi, h]

@[simp] theorem records_append :
    (t.append q p).records = t.records ++ [⟨⟨t.stop, t.generation, q⟩, p⟩] := by
  rw [records, records, place_congr (show (t.append q p).generation = t.generation from rfl)]
  exact place_append

@[simp] theorem buffer_append : (t.append q p).buffer = t.buffer ++ p := by
  simp [append, buffer]

theorem stop_append : (t.append q p).stop = t.stop + p.length := by
  simp [stop, append, buffer, Nat.add_assoc]

theorem length_place {off : Nat} {l : List (Nat × Bytes)} :
    (records.place t off l).length = l.length := by
  induction l generalizing off
  case nil => rfl
  case cons a l hi => simp [records.place, hi]

theorem data_place {off : Nat} {l : List (Nat × Bytes)} :
    (records.place t off l).flatMap Record.data = l.flatMap Prod.snd := by
  induction l generalizing off
  case nil => rfl
  case cons a l hi => simp [records.place, hi]

theorem data_records : t.records.flatMap Record.data = t.buffer := data_place

theorem records_eq_nil_iff : t.records = [] ↔ t.additions = [] := by
  rw [← List.length_eq_zero_iff, records, length_place, List.length_eq_zero_iff]

-- The bytes of a record stand in the task at the place of the record.
theorem slice_place {off : Nat} {l : List (Nat × Bytes)} (h : r ∈ records.place t off l) :
    Bytes.slice (l.flatMap Prod.snd) (r.offset - off) r.data.length = r.data := by
  induction l generalizing off
  case nil => cases h
  case cons a l hi =>
    rw [List.flatMap_cons]
    cases h
    case head =>
      simp only [Record.offset, Nat.sub_self]
      rw [Bytes.slice_append_left (by simp)]
      exact Bytes.slice_self _
    case tail h =>
      have ho := (mem_place h).2.2.1
      have he : r.offset - off = a.2.length + (r.offset - (off + a.2.length)) := by omega
      rw [he, Bytes.slice_append_right]
      exact hi h

theorem slice_records (h : r ∈ t.records) :
    t.buffer.slice (r.offset - t.offset) r.data.length = r.data :=
  slice_place h

end FlushTask

-- One place of the ring follows another one: in the same lap, or at the start of the next one.
def Continues (lo generation stop generation' offset : Nat) : Prop :=
  generation' = generation ∧ offset = stop ∨ generation' = generation + 1 ∧ offset = lo

-- The append-only log behind the aggregate buffer: the tasks that have been closed, and the one to
-- which additions are made.
structure Log where
  tasks : List FlushTask := []
  last  : FlushTask

namespace Log

def opened (pos generation : Nat) : Log := ⟨[], ⟨pos, generation, []⟩⟩

def closedRecords (l : Log) : List Record := l.tasks.flatMap FlushTask.records

def records (l : Log) : List Record := l.closedRecords ++ l.last.records

def append (l : Log) (data : Bytes) : Log :=
  { l with last := l.last.append (l.records.length + 1) data }

def cut (l : Log) : Log := ⟨l.tasks ++ [l.last], ⟨l.last.stop, l.last.generation, []⟩⟩

def wrap (l : Log) (lo : Nat) : Log := { l with last := ⟨lo, l.last.generation + 1, []⟩ }

-- The ring lies between `lo` and `hi`. If `hi` is zero, then it has no end.
inductive Step (lo hi : Nat) (l : Log) : Log → Prop
  | append (data : Bytes) :
    (0 < data.length) → (hi = 0 ∨ l.last.stop + data.length ≤ hi) →
    (l.last.buffer.length + data.length ≤ AggBufferSize) → Step lo hi l (l.append data)
  | cut : (l.last.additions ≠ []) → Step lo hi l l.cut
  | wrap : (l.last.additions = []) → (lo < l.last.offset) → Step lo hi l (l.wrap lo)

-- The place in front of the first record.
def origin (pos generation : Nat) : Record := ⟨⟨pos, generation, 0⟩, []⟩

-- The task lies in the ring and in one of the two buffers.
structure Fits (lo hi pos : Nat) (t : FlushTask) : Prop where
  lower : min lo pos ≤ t.offset
  upper : t.additions ≠ [] → hi = 0 ∨ t.stop ≤ hi
  sizes : ∀ a ∈ t.additions, 0 < a.2.length
  small : t.buffer.length ≤ AggBufferSize

-- What the log keeps, for the bounds and the first place of the ring.
structure Valid (lo hi pos generation : Nat) (l : Log) : Prop where
  sequence : l.records.map (·.allocation.sequence) = List.range' 1 l.records.length
  order    : (origin pos generation :: l.records).IsChain fun r r' =>
    Continues lo r.generation r.stop r'.generation r'.offset
  cursor   : Continues lo (l.records.getLastD (origin pos generation)).generation
    (l.records.getLastD (origin pos generation)).stop l.last.generation l.last.stop
  laps     : ((opened pos generation).last :: l.tasks).IsChain fun t t' =>
    Continues lo t.generation t.stop t'.generation t'.offset
  lap      : Continues lo (l.tasks.getLastD (opened pos generation).last).generation
    (l.tasks.getLastD (opened pos generation).last).stop l.last.generation l.last.offset
  tasks    : ∀ t ∈ l.tasks, Fits lo hi pos t ∧ t.additions ≠ []
  last     : Fits lo hi pos l.last

section Lemmas

variable {l l' : Log} {lo hi pos generation : Nat} {data : Bytes}

@[simp] theorem records_append : (l.append data).records =
    l.records ++ [⟨⟨l.last.stop, l.last.generation, l.records.length + 1⟩, data⟩] := by
  simp [records, append, closedRecords]

@[simp] theorem records_cut : l.cut.records = l.records := by
  simp [records, cut, closedRecords, FlushTask.records, FlushTask.records.place]

@[simp] theorem records_wrap (h : l.last.additions = []) : (l.wrap lo).records = l.records := by
  simp [records, wrap, closedRecords, FlushTask.records_eq_nil_iff.mpr h,
    FlushTask.records_eq_nil_iff.mpr]

theorem valid_opened : (opened pos generation).Valid lo hi pos generation where
  sequence := rfl
  order    := List.isChain_singleton _
  cursor   := .inl ⟨rfl, rfl⟩
  laps     := List.isChain_singleton _
  lap      := .inl ⟨rfl, rfl⟩
  tasks    := nofun
  last     := ⟨Nat.min_le_right .., (absurd rfl ·), nofun, by simp [opened, FlushTask.buffer]⟩

theorem isChain_snoc {α : Type} {R : α → α → Prop} {a x : α} {l : List α}
    (h : (a :: l).IsChain R) (hx : R (l.getLastD a) x) : (a :: (l ++ [x])).IsChain R := by
  induction l generalizing a
  case nil => exact List.isChain_cons_cons.mpr ⟨hx, List.isChain_singleton x⟩
  case cons b l hi =>
    have ⟨hab, hl⟩ := List.isChain_cons_cons.mp h
    exact List.isChain_cons_cons.mpr ⟨hab, hi hl (by rwa [List.getLastD_cons] at hx)⟩

theorem Valid.append (h : l.Valid lo hi pos generation) (h₀ : 0 < data.length)
    (hh : hi = 0 ∨ l.last.stop + data.length ≤ hi)
    (hs : l.last.buffer.length + data.length ≤ AggBufferSize) :
    (l.append data).Valid lo hi pos generation where
  sequence := by
    rw [records_append, List.map_append, h.sequence, List.length_append, ← List.range'_append_1]
    simp [Nat.add_comm]
  order    := by
    rw [records_append]
    exact isChain_snoc h.order h.cursor
  cursor   := by
    rw [records_append, List.getLastD_concat]
    exact .inl ⟨rfl, FlushTask.stop_append⟩
  laps     := h.laps
  lap      := h.lap
  tasks    := h.tasks
  last     := by
    refine ⟨h.last.lower, fun _ => hh.imp_right FlushTask.stop_append.trans_le, fun a ha => ?_, ?_⟩
    case refine_1 =>
      cases List.mem_append.mp ha
      case inl ha => exact h.last.sizes a ha
      case inr ha => exact List.mem_singleton.mp ha ▸ h₀
    case refine_2 => simpa [Log.append] using hs

theorem Valid.cut (h : l.Valid lo hi pos generation) (hn : l.last.additions ≠ []) :
    l.cut.Valid lo hi pos generation where
  sequence := by simpa using h.sequence
  order    := by simpa using h.order
  cursor   := by
    rw [records_cut]
    exact h.cursor
  laps     := isChain_snoc h.laps h.lap
  lap      := by
    simp only [Log.cut, List.getLastD_concat]
    exact .inl ⟨rfl, rfl⟩
  tasks    := by
    intro t ht
    cases List.mem_append.mp ht
    case inl ht => exact h.tasks t ht
    case inr ht => exact List.mem_singleton.mp ht ▸ ⟨h.last, hn⟩
  last     := by
    refine ⟨h.last.lower.trans (Nat.le_add_right ..), (absurd rfl ·), nofun, ?_⟩
    simp [Log.cut, FlushTask.buffer]

-- The lap before has records, as its place was not the first one of the ring.
theorem Valid.wrap (h : l.Valid lo hi pos generation) (hn : l.last.additions = [])
    (hl : lo < l.last.offset) : (l.wrap lo).Valid lo hi pos generation where
  sequence := by simpa [hn] using h.sequence
  order    := by simpa [hn] using h.order
  cursor   := by
    have hs : l.last.stop = l.last.offset := by simp [FlushTask.stop, FlushTask.buffer, hn]
    rw [records_wrap hn]
    have hc := h.cursor
    exact .inr ⟨congrArg (· + 1) (hc.resolve_right fun hc => by omega).1, rfl⟩
  laps     := h.laps
  lap      := .inr ⟨congrArg (· + 1) (h.lap.resolve_right fun hc => by omega).1, rfl⟩
  tasks    := h.tasks
  last     := ⟨Nat.min_le_left .., (absurd rfl ·), nofun, by simp [Log.wrap, FlushTask.buffer]⟩

theorem Valid.step (h : l.Valid lo hi pos generation) (hs : Step lo hi l l') :
    l'.Valid lo hi pos generation := by
  cases hs
  case append data h₀ hh hs => exact h.append h₀ hh hs
  case cut hn => exact h.cut hn
  case wrap hn hl => exact h.wrap hn hl

theorem Valid.steps (h : l.Valid lo hi pos generation)
    (hs : Relation.ReflTransGen (Step lo hi) l l') : l'.Valid lo hi pos generation := by
  induction hs
  case refl => exact h
  case tail hs hi => exact hi.step hs

-- All places are in the ring.
theorem Valid.inside {r : Record} (h : l.Valid lo hi pos generation) (hr : r ∈ l.records) :
    min lo pos ≤ r.offset ∧ (hi = 0 ∨ r.stop ≤ hi) := by
  have ht (t : FlushTask) (hf : Fits lo hi pos t) (hr : r ∈ t.records) :
      min lo pos ≤ r.offset ∧ (hi = 0 ∨ r.stop ≤ hi) := by
    have hn : t.additions ≠ [] := mt FlushTask.records_eq_nil_iff.mpr (List.ne_nil_of_mem hr)
    have hs := FlushTask.stop_records hr
    exact ⟨hf.lower.trans (FlushTask.offset_records hr), (hf.upper hn).imp_right hs.trans⟩
  cases List.mem_append.mp hr
  case inl hr =>
    have ⟨t, hm, hr⟩ := List.mem_flatMap.mp hr
    exact ht t (h.tasks t hm).1 hr
  case inr hr => exact ht l.last h.last hr

-- Records of the same lap do not overlap, and the laps follow each other.
theorem Valid.disjoint (h : l.Valid lo hi pos generation) : l.records.Pairwise fun r r' =>
    r.generation < r'.generation ∨ r.generation = r'.generation ∧ r.stop ≤ r'.offset := by
  let R (r r' : Record) : Prop :=
    r.generation < r'.generation ∨ r.generation = r'.generation ∧ r.stop ≤ r'.offset
  have htrans : IsTrans Record R := by
    refine ⟨fun r₁ r₂ r₃ h₁ h₂ => ?_⟩
    have : r₂.offset ≤ r₂.stop := Nat.le_add_right ..
    simp only [R] at *
    omega
  have hc : l.records.IsChain R := by
    refine h.order.tail.imp fun r r' hr => ?_
    simp only [R]
    unfold Continues at hr
    omega
  exact List.isChain_iff_pairwise.mp hc

end Lemmas

end Log
end Bakemono
