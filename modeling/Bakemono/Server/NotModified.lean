import Bakemono.Server.Validation

namespace Bakemono

open Bytes (trimSpace trimLeft trimRight trimPrefix Space)

section Source

-- The entity tag whose quotes begin at a position, and what comes after it.
def tagAt (value : Bytes) (start : Nat) : Option (Bytes × Bytes) :=
  if value[start]? ≠ some 34 then none
  else match (value.drop (start + 1)).idxOf? 34 with
    | none   => none
    | some i =>
      let tag := value.take (i + start + 2)
      if validETag tag then some (tag, value.drop (i + start + 2)) else none

def nextTag (value : Bytes) : Option (Bytes × Bytes) :=
  tagAt value (if (Bytes.text "W/").isPrefixOf value then 2 else 0)

def weakMatch (tag stored : Bytes) : Bool := trimPrefix (.text "W/") tag == trimPrefix (.text "W/") stored

theorem append_of_tagAt {value tag rest : Bytes} {start : Nat} (h : tagAt value start = some (tag, rest)) :
    validETag tag = true ∧ tag ++ rest = value := by
  unfold tagAt at h
  split at h
  case isTrue => cases h
  case isFalse =>
    split at h
    case h_1 => cases h
    case h_2 i _ =>
      obtain ⟨hv, h⟩ := Option.ite_none_right_eq_some.mp h
      cases h
      exact ⟨hv, List.take_append_drop ..⟩

theorem length_trimSpace_le (l : Bytes) : (trimSpace l).length ≤ l.length :=
  Bytes.trimRight_prefix_self.length_le.trans Bytes.trimLeft_suffix.length_le

-- A round of the loop shortens the value.
theorem length_round_lt {value tag rest l : Bytes} {c : UInt8} (h : nextTag value = some (tag, rest))
    (hr : trimSpace rest = c :: l) : (trimSpace l).length < value.length := by
  have h₁ := length_trimSpace_le l
  have h₂ := length_trimSpace_le rest
  rw [hr, List.length_cons] at h₂
  rw [← (append_of_tagAt h).2, List.length_append]
  omega

-- The loop of `clientNotModified`.
def scanTags (stored : Bytes) (matched : Bool) (value : Bytes) : Bool :=
  if value = [] then matched
  else match h : nextTag value with
    | none             => false
    | some (tag, rest) =>
      let matched := matched || weakMatch tag stored
      match hr : trimSpace rest with
      | []     => matched
      | c :: l =>
        have := length_round_lt h hr
        if c ≠ 44 then false
        else if trimSpace l = [] then false
        else scanTags stored matched (trimSpace l)
termination_by value.length

-- The lines of the condition in a request, as one value.
def Header.noneMatch (r : Header) : Bytes :=
  trimSpace ([44].intercalate (r.values (.text "If-None-Match")))

-- The headers of a request, and those of the stored object.
def clientNotModified (parseTime : Bytes → Option Int) (r h : Header) : Bool :=
  if r.hasHeader (.text "If-None-Match") then
    let value := r.noneMatch
    if value = .text "*" then true
    else
      let stored := h.get (.text "ETag")
      if validETag stored then scanTags stored false value else false
  else
    match parseTime (h.get (.text "Last-Modified")), parseTime (r.get (.text "If-Modified-Since")) with
    | some modified, some since => modified ≤ since
    | _, _                      => false

end Source

-- A list of entity tags, with its elements.
inductive TagList : Bytes → List Bytes → Prop
  | single {tag : Bytes} : (validETag tag = true) → TagList tag [tag]
  | cons {tag b b' rest : Bytes} {tags : List Bytes} :
    (validETag tag = true) → (Space b) → (Space b') → TagList rest tags →
    TagList (tag ++ (b ++ 44 :: (b' ++ rest))) (tag :: tags)

section Tags

variable {tag rest value stored body : Bytes} {tags : List Bytes} {matched : Bool}

def opaqueChar (c : UInt8) : Bool := c != 34 && 33 ≤ c && c != 127

theorem quoted_iff {l : Bytes} : (2 ≤ l.length && l.head? == some 34 && l.getLast? == some 34 &&
    (l.drop 1).dropLast.all opaqueChar) = true ↔
    ∃ body : Bytes, (∀ c ∈ body, opaqueChar c = true) ∧ 34 :: (body ++ [34]) = l := by
  simp only [Bool.and_eq_true, decide_eq_true_eq, beq_iff_eq, List.all_eq_true]
  constructor
  case mp =>
    rintro ⟨⟨⟨hl, hh⟩, ht⟩, ha⟩
    obtain ⟨front, rfl⟩ := List.getLast?_eq_some_iff.mp ht
    cases front
    case nil => exact absurd hl (by decide)
    case cons q body =>
      obtain rfl : q = 34 := by simpa using hh
      refine ⟨body, ?_, rfl⟩
      simpa only [List.cons_append, List.drop_one, List.tail_cons, List.dropLast_concat] using ha
  case mpr =>
    rintro ⟨body, hb, rfl⟩
    refine ⟨⟨⟨by simp, rfl⟩, List.getLast?_eq_some_iff.mpr ⟨34 :: body, rfl⟩⟩, ?_⟩
    simpa only [List.drop_one, List.tail_cons, List.dropLast_concat] using hb

-- A tag is a quoted text, behind the mark of a weak one.
theorem validETag_iff : validETag tag = true ↔
    ∃ pre body : Bytes, (pre = [] ∨ pre = .text "W/") ∧ (∀ c ∈ body, opaqueChar c = true) ∧
      pre ++ 34 :: (body ++ [34]) = tag := by
  have hv : validETag tag = true ↔ ∃ body : Bytes, (∀ c ∈ body, opaqueChar c = true) ∧
    34 :: (body ++ [34]) = trimPrefix (.text "W/") tag := quoted_iff
  rw [hv]
  constructor
  case mp =>
    rintro ⟨body, hb, he⟩
    unfold trimPrefix at he
    split at he
    case isTrue hw =>
      have ⟨l, hl⟩ := List.isPrefixOf_iff_prefix.mp hw
      refine ⟨_, body, .inr rfl, hb, ?_⟩
      rw [he, ← hl, List.drop_left]
    case isFalse => exact ⟨[], body, .inl rfl, hb, he⟩
  case mpr =>
    rintro ⟨pre, body, rfl | rfl, hb, rfl⟩
    case inl => exact ⟨body, hb, rfl⟩
    case inr => exact ⟨body, hb, rfl⟩

theorem idxOf?_append_cons {c : UInt8} (h : c ∉ body) : (body ++ c :: rest).idxOf? c = some body.length := by
  rw [List.idxOf?_eq_some_iff]
  refine ⟨by simp, by simp, fun j hj => ?_⟩
  rw [List.getElem_append_left hj]
  exact fun he => h (he ▸ List.getElem_mem hj)

theorem tagAt_append {pre : Bytes} (hb : 34 ∉ body)
    (hv : validETag (pre ++ 34 :: (body ++ [34])) = true) :
    tagAt (pre ++ 34 :: (body ++ [34]) ++ rest) pre.length =
      some (pre ++ 34 :: (body ++ [34]), rest) := by
  have hl : (pre ++ 34 :: (body ++ [34])).length = body.length + pre.length + 2 := by
    simp
    omega
  have hd : (pre ++ 34 :: (body ++ [34]) ++ rest).drop (pre.length + 1) = body ++ 34 :: rest := by
    simp
  rw [tagAt, if_neg (by simp), hd, idxOf?_append_cons hb]
  simp only [← hl, List.take_left, List.drop_left, hv, if_true]

theorem nextTag_append (h : validETag tag = true) (rest : Bytes) : nextTag (tag ++ rest) = some (tag, rest) := by
  have ⟨pre, body, hp, hb, ht⟩ := validETag_iff.mp h
  have hs : (if (Bytes.text "W/").isPrefixOf (tag ++ rest) then 2 else 0) = pre.length := by
    subst ht
    obtain rfl | rfl := hp <;> rfl
  rw [nextTag, hs, ← ht]
  exact tagAt_append (fun hm => absurd (hb 34 hm) (by decide)) (ht ▸ h)

-- The bytes of the grammar are not white space.
theorem notMem_spaces {c : UInt8} (hc : c = 34 ∨ c = 44 ∨ c = 87) : ∀ w ∈ Bytes.spaces, c ∉ w := by
  obtain rfl | rfl | rfl := hc <;> decide

namespace TagList

-- A list begins with a mark or a quote, and ends with a quote.
theorem begins (h : TagList value tags) : ∃ c l, (c = 34 ∨ c = 44 ∨ c = 87) ∧ c :: l = value := by
  have hv {tag : Bytes} (hv : validETag tag = true) (rest : Bytes) :
      ∃ c l, (c = 34 ∨ c = 44 ∨ c = 87) ∧ c :: l = tag ++ rest := by
    have ⟨pre, body, hp, _, ht⟩ := validETag_iff.mp hv
    subst ht
    obtain rfl | rfl := hp
    case inl => exact ⟨34, _, .inl rfl, rfl⟩
    case inr => exact ⟨87, _, .inr (.inr rfl), rfl⟩
  cases h
  case single h => simpa using hv h []
  case cons h _ _ _ => exact hv h _

theorem ends (h : TagList value tags) : ∃ l : Bytes, l ++ [34] = value := by
  induction h
  case single tag h =>
    have ⟨pre, body, _, _, ht⟩ := validETag_iff.mp h
    exact ⟨pre ++ 34 :: body, by simpa using ht⟩
  case cons hi =>
    have ⟨l, hl⟩ := hi
    exact ⟨_, by rw [← hl, ← List.append_assoc, ← List.cons_append, ← List.append_assoc,
      ← List.append_assoc]⟩

theorem trimRight_append (h : TagList value tags) (b : Bytes) : trimRight (b ++ value) = b ++ value := by
  have ⟨l, hl⟩ := h.ends
  rw [← hl, ← List.append_assoc, Bytes.trimRight_append_cons (notMem_spaces (.inl rfl))]
  rfl

theorem trimSpace_append {b : Bytes} (h : TagList value tags) (hb : Space b) :
    trimSpace (b ++ value) = value := by
  have ⟨c, l, hc, hl⟩ := h.begins
  have hn : trimLeft (c :: l) = c :: l := Bytes.trimLeft_append_cons (x := []) (notMem_spaces hc)
  rw [trimSpace, hb.trimLeft_append, ← hl, hn, hl]
  exact h.trimRight_append []

-- What comes after the first tag of a list.
theorem cases_nextTag (h : TagList value tags) (ht : nextTag value = some (tag, rest)) :
    rest = [] ∧ tags = [tag] ∨
    ∃ b b' rest' tags', rest = b ++ 44 :: (b' ++ rest') ∧ tags = tag :: tags' ∧
      trimSpace rest = 44 :: (b' ++ rest') ∧ trimSpace (b' ++ rest') = rest' ∧ TagList rest' tags' := by
  cases h
  case single h =>
    have hs := nextTag_append h []
    rw [List.append_nil, ht] at hs
    cases hs
    exact .inl ⟨rfl, rfl⟩
  case cons h hb hb' hl =>
    rw [nextTag_append h] at ht
    cases ht
    refine .inr ⟨_, _, _, _, rfl, rfl, ?_, hl.trimSpace_append hb', hl⟩
    rw [Bytes.trimSpace_append_cons (notMem_spaces (.inr (.inl rfl))), hb.trimLeft_eq_nil,
      hl.trimRight_append, List.nil_append]

theorem nextTag_ne_none (h : TagList value tags) : nextTag value ≠ none := by
  cases h
  case single h =>
    have hs := nextTag_append h []
    rw [List.append_nil] at hs
    simp [hs]
  case cons h _ _ _ => simp [nextTag_append h]

theorem ne_nil (h : TagList value tags) : value ≠ [] := by
  have ⟨c, l, _, hl⟩ := h.begins
  simp [← hl]

section Round

variable {c : UInt8} {l : Bytes}

-- A round at the last tag, in front of a comma, and in front of something else.
theorem iff_of_last (ht : nextTag value = some (tag, rest)) (hv : trimRight value = value)
    (hr : trimSpace rest = []) : TagList value tags ↔ tags = [tag] := by
  have ⟨hg, ha⟩ := append_of_tagAt ht
  have ht' : trimRight rest = rest := Bytes.trimRight_of_append (x := tag) (by rw [ha, hv])
  constructor
  case mp =>
    intro h
    obtain ⟨_, he⟩ | ⟨b, b', rest', tags', _, _, hs, _⟩ := h.cases_nextTag ht
    case inl => exact he
    case inr => simp [hr] at hs
  case mpr =>
    have ⟨b, hb, he⟩ := Bytes.exists_space_trimSpace ht'
    rw [hr, List.append_nil] at he
    subst he
    rintro rfl
    rw [← ha, hb.eq_nil ht', List.append_nil]
    exact .single hg

theorem iff_of_comma (ht : nextTag value = some (tag, rest)) (hv : trimRight value = value)
    (hr : trimSpace rest = 44 :: l) :
    TagList value tags ↔ ∃ tags', tags = tag :: tags' ∧ TagList (trimSpace l) tags' := by
  have ⟨hg, ha⟩ := append_of_tagAt ht
  have ht' : trimRight rest = rest := Bytes.trimRight_of_append (x := tag) (by rw [ha, hv])
  constructor
  case mp =>
    intro h
    obtain ⟨he, _⟩ | ⟨b, b', rest', tags', _, he, hs, hs', h'⟩ := h.cases_nextTag ht
    case inl =>
      subst he
      cases hr
    case inr =>
      obtain rfl : l = b' ++ rest' := (List.cons.inj (hr.symm.trans hs)).2
      exact ⟨tags', he, by rwa [hs']⟩
  case mpr =>
    rintro ⟨tags', rfl, h⟩
    have ⟨b, hb, he⟩ := Bytes.exists_space_trimSpace ht'
    rw [hr] at he
    have hl : trimRight l = l := Bytes.trimRight_of_append (x := b ++ [44]) (by simpa [he] using ht')
    have ⟨b', hb', he'⟩ := Bytes.exists_space_trimSpace hl
    rw [← ha, ← he, ← he']
    exact .cons hg hb hb' h

theorem not_of_other (ht : nextTag value = some (tag, rest)) (hr : trimSpace rest = c :: l)
    (hc : c ≠ 44) : ¬TagList value tags := by
  intro h
  obtain ⟨he, _⟩ | ⟨b, b', rest', tags', _, _, hs, _⟩ := h.cases_nextTag ht
  case inl =>
    subst he
    cases hr
  case inr => exact hc (List.cons.inj (hr.symm.trans hs)).1

end Round
end TagList

-- The loop goes through a list, and leaves it early only if it is none.
theorem scanTags_iff (hn : value ≠ []) (hv : trimRight value = value) :
    scanTags stored matched value = true ↔
      ∃ tags, TagList value tags ∧ (matched = true ∨ ∃ tag ∈ tags, weakMatch tag stored = true) := by
  fun_induction scanTags
  case case1 => exact absurd rfl hn
  case case2 ht => exact iff_of_false nofun fun ⟨_, h, _⟩ => h.nextTag_ne_none ht
  case case3 tag rest ht _ hr =>
    simp only [TagList.iff_of_last ht hv hr, exists_eq_left, List.mem_singleton]
    exact Bool.or_eq_true_iff
  case case4 tag rest ht c l hr _ hc =>
    exact iff_of_false nofun fun ⟨_, h, _⟩ => TagList.not_of_other ht hr hc h
  case case5 tag rest ht c l hr _ hc hl =>
    obtain rfl : c = 44 := not_not.mp hc
    refine iff_of_false nofun ?_
    rintro ⟨tags, h, _⟩
    have ⟨tags', _, h'⟩ := (TagList.iff_of_comma ht hv hr).mp h
    exact h'.ne_nil hl
  case case6 matched value _ tag rest ht matched' c l hr _ hc hl hi =>
    obtain rfl : c = 44 := not_not.mp hc
    have hm : matched' = true ↔ matched = true ∨ weakMatch tag stored = true := Bool.or_eq_true_iff
    rw [hi hl Bytes.trimRight_trimRight]
    simp only [TagList.iff_of_comma ht hv hr, hm, or_assoc]
    constructor
    case mp =>
      rintro ⟨tags, h, hm⟩
      exact ⟨tag :: tags, ⟨tags, rfl, h⟩, hm.imp_right (List.exists_mem_cons_iff ..).mpr⟩
    case mpr =>
      rintro ⟨_, ⟨tags, rfl, h⟩, hm⟩
      exact ⟨tags, h, hm.imp_right (List.exists_mem_cons_iff ..).mp⟩

end Tags

-- A request with tags is answered without a body exactly if they are a star, or a list which has the
-- tag of the stored object.
theorem clientNotModified_of_tags {parseTime : Bytes → Option Int} {r h : Header}
    (hr : r.hasHeader (.text "If-None-Match") = true) : clientNotModified parseTime r h = true ↔
      r.noneMatch = .text "*" ∨ validETag (h.get (.text "ETag")) = true ∧
        ∃ tags, TagList r.noneMatch tags ∧ ∃ tag ∈ tags, weakMatch tag (h.get (.text "ETag")) = true := by
  rw [clientNotModified, if_pos hr]
  simp only
  split
  case isTrue he => simp [he]
  case isFalse he =>
    split
    case isFalse hv => simp [he, hv]
    case isTrue hv =>
      by_cases hn : r.noneMatch = []
      case pos =>
        have hl tags : ¬TagList r.noneMatch tags := fun hl => hl.ne_nil hn
        rw [scanTags, if_pos hn]
        simp [he, hl]
      case neg =>
        rw [scanTags_iff hn Bytes.trimRight_trimRight]
        simp [he, hv]

theorem clientNotModified_of_dates {parseTime : Bytes → Option Int} {r h : Header}
    (hr : r.hasHeader (.text "If-None-Match") = false) : clientNotModified parseTime r h = true ↔
      ∃ modified since, parseTime (h.get (.text "Last-Modified")) = some modified ∧
        parseTime (r.get (.text "If-Modified-Since")) = some since ∧ modified ≤ since := by
  rw [clientNotModified, if_neg (by simp [hr])]
  split
  case h_1 modified since hm hs => simp [hm, hs]
  case h_2 hn =>
    refine iff_of_false nofun ?_
    rintro ⟨modified, since, hm, hs, _⟩
    exact hn modified since hm hs

-- The dates matter only where there are no tags.
theorem clientNotModified_iff (parseTime : Bytes → Option Int) (r h : Header) :
    clientNotModified parseTime r h = true ↔
      (r.hasHeader (.text "If-None-Match") = true ∧ (r.noneMatch = .text "*" ∨
        validETag (h.get (.text "ETag")) = true ∧ ∃ tags, TagList r.noneMatch tags ∧
          ∃ tag ∈ tags, weakMatch tag (h.get (.text "ETag")) = true)) ∨
      (r.hasHeader (.text "If-None-Match") = false ∧
        ∃ modified since, parseTime (h.get (.text "Last-Modified")) = some modified ∧
          parseTime (r.get (.text "If-Modified-Since")) = some since ∧ modified ≤ since) := by
  cases hr : r.hasHeader (.text "If-None-Match")
  case true  => simp [clientNotModified_of_tags hr]
  case false => simp [clientNotModified_of_dates hr]

end Bakemono
