import Bakemono.Read.Object

namespace Bakemono.CacheReader

variable {H : Hash} {start stop : Nat} {key : Bytes} {body : Bytes → UInt64 → Bytes}

-- The fragment has its part of the body of its object.
structure Authentic (b : Bytes) (i : Nat) (p : Bytes) : Prop where
  payload : payload p = b.slice (i * TargetFragmentSize) TargetFragmentSize
  total   : i = 0 → (header p).totalLen.toNat = b.length

-- A document under a key of the directory, if it is a fragment of some version of an object, has its
-- part of what the writer of that version has written.
def Genuine (H : Hash) (body : Bytes → UInt64 → Bytes) (k p : Bytes) : Prop :=
  ∀ key i w, k = H.fragmentKey key i → Fragment H key i w p → Authentic (body key w) i p

-- All fragments that can be loaded are genuine.
def Faithful (H : Hash) (body : Bytes → UInt64 → Bytes) (start stop : Nat) (v : View) : Prop :=
  ∀ key i w p, Seen H start stop key v i p → Fragment H key i w p → Authentic (body key w) i p

section Loads

variable {env env' : Nat → View} {n m fuel : Nat} {r r' : CacheReader} {acc : Bytes} {v : View}
  {index : Nat} {next next' : Bytes → CacheReader → Option Result}

theorem loads_load (h : r.load H start stop key v index = .ok r') : r'.loads = r.loads + 1 := by
  simp only [load, parseDoc, Except.bind_eq_ok, Except.check_bind_eq_ok] at h
  obtain ⟨_, _, _, _, _, _, _, _, _, _, _, _, _, he⟩ := h
  cases he
  rfl

-- The second half of an iteration does not load anything.
theorem copy_congr (h : ∀ acc r', r'.loads = r.loads → next acc r' = next' acc r') :
    copy n acc r next = copy n acc r next' := by
  simp only [copy]
  split
  case h_1 => rfl
  case h_2 =>
    split_ifs
    case pos => rfl
    case neg => exact h _ _ rfl
    case neg =>
      split
      case h_1 => rfl
      case h_2 => exact h _ _ rfl

theorem loads_copy {res : Result} (h : copy n acc r next = some res)
    (hn : ∀ acc r' res, next acc r' = some res → r'.loads = r.loads → m ≤ res.2.2.loads)
    (hm : m ≤ r.loads) : m ≤ res.2.2.loads := by
  simp only [copy] at h
  split at h
  case h_1 =>
    cases h
    exact hm
  case h_2 =>
    split_ifs at h
    case pos =>
      cases h
      exact hm
    case neg => exact hn _ _ _ h rfl
    case neg =>
      split at h
      case h_1 =>
        cases h
        exact hm
      case h_2 => exact hn _ _ _ h rfl

theorem readLoop_congr (h : ∀ j, m ≤ j → env' j = env j) (hm : m ≤ r.loads) :
    readLoop H start stop key env' n fuel acc r = readLoop H start stop key env n fuel acc r := by
  induction fuel generalizing acc r
  case zero => rfl
  case succ fuel hi =>
    simp only [readLoop, h r.loads hm]
    split_ifs
    case pos => rfl
    case pos => rfl
    case neg =>
      split
      case h_1 => rfl
      case h_2 r' hl =>
        have := loads_load hl
        exact copy_congr fun _ r'' hr => hi (hr ▸ (by show m ≤ r'.loads; omega))
    case neg => exact copy_congr fun _ _ hr => hi (hr ▸ hm)

theorem loads_readLoop {res : Result} (h : readLoop H start stop key env n fuel acc r = some res)
    (hm : m ≤ r.loads) : m ≤ res.2.2.loads := by
  induction fuel generalizing acc r res
  case zero => cases h
  case succ fuel hi =>
    simp only [readLoop] at h
    split_ifs at h
    case pos =>
      cases h
      exact hm
    case pos =>
      cases h
      exact hm
    case neg =>
      split at h
      case h_1 =>
        cases h
        exact hm.trans (Nat.le_succ _)
      case h_2 r' hl =>
        have := loads_load hl
        have hm' : m ≤ { r' with offset := 0 }.loads := by
          show m ≤ r'.loads
          omega
        exact loads_copy h (fun _ _ _ h hr => hi h (hr ▸ hm')) hm'
    case neg => exact loads_copy h (fun _ _ _ h hr => hi h (hr ▸ hm)) hm

theorem loads_deferred {res : Result} : (deferred res).2.2.loads = res.2.2.loads := by
  simp only [deferred]
  split
  case h_1 => split_ifs <;> rfl
  case h_2 => rfl

-- A call of a reader that has loaded something already only sees what comes behind.
theorem read_congr (h : ∀ j, m ≤ j → env' j = env j) (hm : m ≤ r.loads) :
    r.read H start stop key env' n = r.read H start stop key env n := by
  simp only [read, h r.loads hm]
  split
  case h_1 => rfl
  case h_2 =>
    split_ifs
    case pos =>
      split
      case h_1 => rfl
      case h_2 hl =>
        have := loads_load hl
        rw [readLoop_congr h (by omega)]
    case neg => rw [readLoop_congr h hm]

theorem loads_read {res : Result} (h : r.read H start stop key env n = some res) :
    r.loads ≤ res.2.2.loads := by
  have go {r' : CacheReader} (hr : r.loads ≤ r'.loads)
      (h : (readLoop H start stop key env n (readFuel n) [] r').map deferred = some res) :
      r.loads ≤ res.2.2.loads := by
    have ⟨res', hl, he⟩ := Option.map_eq_some_iff.mp h
    rw [← he, loads_deferred]
    exact loads_readLoop hl hr
  simp only [read] at h
  split at h
  case h_1 =>
    cases h
    exact le_rfl
  case h_2 =>
    split_ifs at h
    case pos =>
      split at h
      case h_1 =>
        cases h
        rw [loads_deferred]
        exact Nat.le_succ _
      case h_2 r' hl => exact go (by have := loads_load hl; omega) h
    case neg => exact go le_rfl h

theorem readCalls_congr (h : ∀ j, m ≤ j → env' j = env j) (hm : m ≤ r.loads) (sizes : List Nat) :
    readCalls H start stop key env' sizes r = readCalls H start stop key env sizes r := by
  induction sizes generalizing r
  case nil => rfl
  case cons n sizes hi =>
    simp only [readCalls, read_congr h hm]
    cases hr : r.read H start stop key env n
    case none => rfl
    case some res =>
      have hl := loads_read hr
      simp only [Option.bind_eq_bind, Option.bind_some, hi (hm.trans hl)]

end Loads

section Body

variable {env : Nat → View} {r : CacheReader} {w : UInt64} {frags frags' : List Bytes}
  {calls : List (Bytes × Option Err)}

-- What the fragments of one version contain.
theorem prefix_body {b : Bytes} (h : ∀ i q, frags[i]? = some q → Authentic b i q) :
    frags.flatMap payload <+: b := by
  rw [Bytes.flatMap_slices fun i q hq => (h i q hq).payload]
  exact List.take_prefix _ _

-- A reader that gets to the end returns the body of the version whose head it has loaded.
theorem Reads.delivers (h : Reads H start stop key env frags [] calls frags')
    (hv : ∀ j, Faithful H body start stop (env j)) {l : List (Bytes × Option Err)} {p : Bytes}
    (he : calls = l ++ [(p, some .eof)]) :
    ∃ head w, frags'.head? = some head ∧ Fragment H key 0 w head ∧
      CacheReader.delivered calls = body key w := by
  have ⟨w, hf⟩ := h.valid
  have ⟨head, hh, hl⟩ := h.eof l p [] he
  have ha (i : Nat) (q : Bytes) (hq : frags'[i]? = some q) : Authentic (body key w) i q := by
    have ⟨hq, j, hj⟩ := hf i q hq
    exact hv j key i w q hj hq
  have hh₀ : frags'[0]? = some head := by rw [← hh, List.head?_eq_getElem?]
  have hd := h.delivered.trans (prefix_body ha)
  refine ⟨head, w, hh, (hf 0 head hh₀).1, ?_⟩
  rw [← he, (ha 0 head hh₀).total rfl] at hl
  exact hd.eq_of_length hl

-- A reader which has the head of an object in its buffer, and nothing has been read from.
structure Primed (H : Hash) (body : Bytes → UInt64 → Bytes) (start stop : Nat) (key : Bytes)
    (w : UInt64) (r : CacheReader) : Prop where
  fragment : Fragment H key 0 w r.buf
  genuine  : Genuine H body key r.buf
  dir      : start ≤ r.dir.offset ∧ r.dir.offset < stop
  version  : r.version = some w
  total    : r.totalLen = (header r.buf).totalLen.toNat
  unread   : r.fragmentIndex = 0 ∧ r.offset = 0 ∧ r.totalRead = 0
  readErr  : r.readErr = none
  loads    : 0 < r.loads

-- A stripe which has nothing but the head of the reader.
def only (r : CacheReader) (key : Bytes) : View where
  storageErr := none
  closed     := false
  get k      := if k = key then some r.dir else none
  dirValid _ := true
  ram k      := if k = key then some { data := r.buf, weight := 0 } else none
  readAt _ _ := .error .cacheClosed
  length_readAt := nofun
  no_panic      := ⟨nofun, nofun⟩

theorem handleRead_only {k : Bytes} {i : Nat} {d : Dir} {buf : Bytes} {ram : Option RamEntry}
    (h : handleRead start stop (r.only key) k i = .ok (d, buf, ram)) : k = key ∧ buf = r.buf := by
  by_cases hk : k = key
  case pos =>
    refine ⟨hk, ?_⟩
    simp only [handleRead, only, hk, if_true, Except.check_bind_eq_ok] at h
    obtain ⟨_, _, _, h⟩ := h
    cases h
    rfl
  case neg => simp [handleRead, only, hk] at h

theorem Primed.seen (h : Primed H body start stop key w r) :
    Seen H start stop key (r.only key) 0 r.buf := by
  refine ⟨r.dir, r.buf, some { data := r.buf, weight := 0 }, ?_, List.prefix_refl _⟩
  have hd : ¬(r.dir.offset < start ∨ r.dir.offset ≥ stop) := by
    have := h.dir
    omega
  simp [handleRead, only, Hash.fragmentKey, hd]
  rfl

theorem Primed.faithful (h : Primed H body start stop key w r) :
    Faithful H body start stop (r.only key) := by
  intro key' i w' p ⟨_, buf, _, hr, hp⟩ hf
  have ⟨hk, hb⟩ := handleRead_only hr
  subst hb
  have he : p = r.buf := hf.eq_of_prefix h.fragment.length hp
  subst he
  exact h.genuine key' i w' hk.symm hf

theorem Primed.reading (h : Primed H body start stop key w r) (hs : ∃ j, env j = r.only key) :
    Reading H start stop key env r [] r.buf w [] := by
  have ⟨j, hj⟩ := hs
  have ha := h.genuine key 0 w (by simp [Hash.fragmentKey]) h.fragment
  have ⟨hi, ho, ht⟩ := h.unread
  constructor
  case index     => exact hi.symm
  case full      => exact fun _ _ h => nomatch h
  case fragment  => exact hi ▸ h.fragment
  case seen      => exact ⟨j, hj ▸ hi ▸ h.seen⟩
  case length    =>
    rw [ha.payload, h.total, ha.total rfl, hi, Bytes.length_slice, pieceLen]
  case head      =>
    intro q hq
    cases hq
    exact h.total.symm
  case version   => exact h.version
  case readErr   => exact h.readErr
  case bound     => exact .inl hi
  case offset    => exact ho ▸ Nat.zero_le _
  case read      => rw [hi, ho, ht, Nat.zero_mul]
  case delivered => simp [ho]

-- The reader does not load the head again, and the others are found by later loads.
theorem Primed.delivers (h : Primed H body start stop key w r)
    (hv : ∀ j, Faithful H body start stop (env j)) (hs : ∀ j, Spares H start stop key (env j) .eof) {sizes : List Nat}
    (hc : readCalls H start stop key env sizes r = some calls) {l : List (Bytes × Option Err)}
    {p : Bytes} (he : calls = l ++ [(p, some .eof)]) : delivered calls = body key w := by
  let env' : Nat → View := fun j => if j = 0 then r.only key else env j
  have henv (j : Nat) (hj : 1 ≤ j) : env' j = env j := if_neg (by omega)
  have hv' (j : Nat) : Faithful H body start stop (env' j) := by
    by_cases hj : j = 0
    case pos => simpa [env', hj] using h.faithful
    case neg => simpa [env', hj] using hv j
  have hs' (j : Nat) : Spares H start stop key (env' j) .eof := by
    by_cases hj : j = 0
    case pos =>
      simp only [env', hj, if_true]
      exact fun _ => avoids_handleRead ⟨nofun, fun _ _ => nofun⟩ foreign_eof
    case neg => simpa [env', hj] using hs j
  have hreading : Reading H start stop key env' r [] r.buf w [] := h.reading ⟨0, rfl⟩
  have ⟨calls', frags', hc', hr⟩ := (State.reading hreading rfl).reads hs' sizes
  rw [readCalls_congr henv h.loads, hc] at hc'
  cases hc'
  have ⟨head, w', hh, hf, hd⟩ := hr.delivers hv' he
  have ⟨rest, hrest⟩ := hr.extends'
  have hb : head = r.buf := by
    rw [← hrest] at hh
    exact (Option.some.inj hh).symm
  have hw : w' = w := by
    rw [← hf.version, hb, h.fragment.version]
  rw [hd, hw]

-- A new reader that has not been asked for its metadata loads the head with its first call.
theorem readCalls_new {sizes : List Nat} (hn : sizes ≠ []) {r' : CacheReader} (hr : r.readErr = none)
    (hb : r.buf = []) (h : r.load H start stop key (env r.loads) 0 = .ok r') :
    readCalls H start stop key env sizes r = readCalls H start stop key env sizes r' := by
  have ⟨_, hl⟩ := load_eq_ok h
  have hb' : r'.buf ≠ [] := by
    have hs := hl.fragment.size
    rw [DocHeaderSize] at hs
    exact List.ne_nil_of_length_pos (by omega)
  obtain ⟨n, sizes, rfl⟩ := List.exists_cons_of_ne_nil hn
  simp only [readCalls, read, hr, hb, h, hl.readErr.trans hr, hb', if_true, if_false]

-- A load that fails is not taken for the end of the object.
theorem readCalls_of_error {sizes : List Nat} {e : Err} (hs : ∀ j, Spares H start stop key (env j) .eof)
    (hr : r.readErr = none) (hb : r.buf = [])
    (h : r.load H start stop key (env r.loads) 0 = .error e)
    (hc : readCalls H start stop key env sizes r = some calls) {l : List (Bytes × Option Err)}
    {p : Bytes} (he : calls = l ++ [(p, some .eof)]) : False := by
  have hne : e ≠ .eof := fun hc => avoids_load (hs _) foreign_eof (hc ▸ h)
  cases sizes
  case nil =>
    cases hc
    simp at he
  case cons n sizes =>
    have hread : r.read H start stop key env n = some ([], some e, r.loadFailed 0 e) := by
      simp only [read, hr, hb, h, if_true, deferred_loadFailed]
    have hall : ∀ c ∈ calls, c = ([], some e) := by
      simp only [readCalls, hread, Option.bind_eq_bind, Option.bind_some,
        readCalls_failed (r := r.loadFailed 0 e) rfl] at hc
      cases hc
      simp
    have := hall (p, some .eof) (by simp [he])
    exact hne (Option.some.inj (congrArg Prod.snd this)).symm

end Body

end Bakemono.CacheReader
