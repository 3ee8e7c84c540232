import Mathlib.Data.List.DropRight

/-!
# Text, as the standard library of the source cuts it

A string is the list of its characters, and the operations are stated over
lists of anything: a prefix stripped, a split at the first occurrence of a
separator, both ends trimmed. Splitting at every occurrence is `List.splitOn`.
A prefix and a separator come with the one equivalence that says what is
answered, which is what later proofs rewrite with.
-/

namespace Lib

/-- A string. -/
abbrev Str := List Char

variable {α : Type*}

/-! ## A prefix -/

section prefixes

variable [DecidableEq α]

/-- `strip_prefix`. -/
def stripPrefix (pre s : List α) : Option (List α) := s.dropPrefix? pre

theorem stripPrefix_eq_some {pre s rest : List α} :
    stripPrefix pre s = some rest ↔ s = pre ++ rest := by
  rw [stripPrefix, List.dropPrefix?_eq_some_iff]
  constructor
  · rintro ⟨pre', rfl, hpre⟩; rw [eq_of_beq hpre]
  · rintro rfl; exact ⟨pre, rfl, beq_self_eq_true pre⟩

@[simp] theorem stripPrefix_append (pre s : List α) :
    stripPrefix pre (pre ++ s) = some s :=
  stripPrefix_eq_some.2 rfl

theorem stripPrefix_eq_none {pre s : List α} :
    stripPrefix pre s = none ↔ ¬ pre <+: s := by
  rw [Option.eq_none_iff_forall_ne_some]
  constructor
  · rintro h ⟨rest, rfl⟩
    exact h rest (stripPrefix_append pre rest)
  · intro h rest hrest
    exact h ⟨rest, (stripPrefix_eq_some.1 hrest).symm⟩

/-! ## The first separator -/

/-- `split_once`. -/
def splitOnce (sep : α) : List α → Option (List α × List α)
  | [] => none
  | a :: s =>
      if a = sep then some ([], s)
      else (splitOnce sep s).map fun parts => (a :: parts.1, parts.2)

theorem splitOnce_eq_some {sep : α} {s before after : List α} :
    splitOnce sep s = some (before, after) ↔
      s = before ++ sep :: after ∧ sep ∉ before := by
  induction s generalizing before with
  | nil => simp [splitOnce]
  | cons a s ih =>
      unfold splitOnce
      split
      · next ha =>
          subst ha
          cases before with
          | nil => simp
          | cons b before =>
              simp only [Option.some.injEq, Prod.mk.injEq, List.cons_append,
                List.cons.injEq, List.mem_cons]
              constructor
              · rintro ⟨h, -⟩; cases h
              · rintro ⟨⟨rfl, -⟩, hb⟩; exact absurd (.inl rfl) hb
      · next ha =>
          cases before with
          | nil => simp [ha]
          | cons b before =>
              simp only [Option.map_eq_some_iff, Prod.mk.injEq, Prod.exists,
                List.cons_append, List.cons.injEq, List.mem_cons, not_or]
              constructor
              · rintro ⟨x, y, hs, ⟨rfl, rfl⟩, rfl⟩
                obtain ⟨hs, hx⟩ := ih.1 hs
                exact ⟨⟨rfl, hs⟩, Ne.symm ha, hx⟩
              · rintro ⟨⟨rfl, hs⟩, -, hx⟩
                exact ⟨before, after, ih.2 ⟨hs, hx⟩, ⟨rfl, rfl⟩, rfl⟩

theorem splitOnce_eq_none {sep : α} {s : List α} :
    splitOnce sep s = none ↔ sep ∉ s := by
  induction s with
  | nil => simp [splitOnce]
  | cons a s ih =>
      unfold splitOnce
      split
      · next ha => simp [ha]
      · next ha => simp [ih, Ne.symm ha]

theorem splitOnce_append {sep : α} {before : List α} (h : sep ∉ before)
    (after : List α) :
    splitOnce sep (before ++ sep :: after) = some (before, after) :=
  splitOnce_eq_some.2 ⟨rfl, h⟩

end prefixes

/-! ## The first occurrence -/

section occurrences

variable [DecidableEq α]

/-- `find`, given as what stands before the first occurrence of the pattern
and what stands after it. -/
def breakOn (pat : List α) : List α → Option (List α × List α)
  | [] => (stripPrefix pat []).map fun rest => ([], rest)
  | a :: s =>
      match stripPrefix pat (a :: s) with
      | some rest => some ([], rest)
      | none => (breakOn pat s).map fun parts => (a :: parts.1, parts.2)

theorem breakOn_eq_some {pat s before after : List α}
    (h : breakOn pat s = some (before, after)) : s = before ++ pat ++ after := by
  induction s generalizing before with
  | nil =>
      obtain ⟨rest, hstrip, heq⟩ := Option.map_eq_some_iff.1 h
      cases heq
      exact stripPrefix_eq_some.1 hstrip
  | cons a s ih =>
      rw [breakOn] at h
      split at h
      · next rest hstrip =>
          cases h
          exact stripPrefix_eq_some.1 hstrip
      · obtain ⟨parts, hparts, heq⟩ := Option.map_eq_some_iff.1 h
        cases heq
        rw [ih hparts]
        rfl

end occurrences

/-! ## Every separator -/

section separators

variable [DecidableEq α]

/-- What is split at a separator has none left. -/
theorem sep_not_mem_splitOn {sep : α} {s part : List α} (h : part ∈ s.splitOn sep) :
    sep ∉ part := by
  induction s generalizing part with
  | nil =>
      rw [List.splitOn_nil, List.mem_singleton] at h
      rw [h]
      exact List.not_mem_nil
  | cons a s ih =>
      rw [List.splitOn_cons_eq_if_modifyHead] at h
      by_cases ha : a = sep
      · rw [if_pos (beq_iff_eq.2 ha)] at h
        rcases List.mem_cons.1 h with rfl | h
        · exact List.not_mem_nil
        · exact ih h
      · rw [if_neg (mt beq_iff_eq.1 ha)] at h
        cases hs : s.splitOn sep with
        | nil => exact absurd hs (List.splitOn_ne_nil sep s)
        | cons first parts =>
            rw [hs, List.modifyHead_cons] at h
            rcases List.mem_cons.1 h with rfl | h
            · intro hmem
              rcases List.mem_cons.1 hmem with heq | hmem
              · exact ha heq.symm
              · exact ih (hs ▸ List.mem_cons_self) hmem
            · exact ih (hs ▸ List.mem_cons_of_mem _ h)

/-- Lines that each end in a separator, split at it. -/
theorem splitOn_flatMap {sep : α} {parts : List (List α)}
    (h : ∀ part ∈ parts, sep ∉ part) :
    (parts.flatMap fun part => part ++ [sep]).splitOn sep = parts ++ [[]] := by
  induction parts with
  | nil => exact List.splitOn_nil sep
  | cons part parts ih =>
      have htail := ih fun other hother => h other (List.mem_cons_of_mem _ hother)
      rw [List.flatMap_cons, List.append_assoc, List.singleton_append,
        List.splitOn_append_cons_self_of_not_mem (h part List.mem_cons_self), htail]
      rfl

/-- The first occurrence, after a text that its first character is not in. -/
theorem breakOn_append {c : α} {pat before : List α} (h : c ∉ before) (after : List α) :
    breakOn (c :: pat) (before ++ c :: pat ++ after) = some (before, after) := by
  induction before with
  | nil =>
      have hstrip : stripPrefix (c :: pat) (c :: (pat ++ after)) = some after :=
        stripPrefix_append (c :: pat) after
      show breakOn (c :: pat) (c :: (pat ++ after)) = _
      rw [breakOn, hstrip]
  | cons a before ih =>
      have ha : a ≠ c := fun ha => h (ha ▸ List.mem_cons_self)
      have hstrip : ∀ s, stripPrefix (c :: pat) (a :: s) = none := fun s =>
        stripPrefix_eq_none.2 fun hpre => ha (List.cons_prefix_cons.1 hpre).1.symm
      rw [List.cons_append, List.cons_append, breakOn, hstrip,
        ih (List.not_mem_of_not_mem_cons h)]
      rfl

end separators

/-! ## Both ends -/

/-- `trim_matches`: drop what `p` accepts at either end. -/
def trimWith (p : α → Bool) (s : List α) : List α :=
  (s.dropWhile p).rdropWhile p

/-- What `p` rejects survives a trim. -/
theorem mem_trimWith {p : α → Bool} {s : List α} {c : α} (hc : c ∈ s)
    (hp : p c = false) : c ∈ trimWith p s := by
  have hfront : c ∈ s.dropWhile p := by
    have happ := List.takeWhile_append_dropWhile (p := p) (l := s)
    rw [← happ] at hc
    rcases List.mem_append.1 hc with hc | hc
    · rw [List.mem_takeWhile_imp hc] at hp; cases hp
    · exact hc
  have happ := List.rdropWhile_append_rtakeWhile (p := p) (l := s.dropWhile p)
  rw [← happ] at hfront
  rcases List.mem_append.1 hfront with hc | hc
  · exact hc
  · have hall := List.mem_rtakeWhile_imp hc
    rw [hall] at hp
    cases hp

/-- A trim takes off any padding around a text that `p` rejects. -/
theorem trimWith_pad {p : α → Bool} {pre s post : List α}
    (hpre : ∀ c ∈ pre, p c) (hs : ∀ c ∈ s, p c = false)
    (hpost : ∀ c ∈ post, p c) : trimWith p (pre ++ s ++ post) = s := by
  unfold trimWith
  rw [List.append_assoc, List.dropWhile_append_of_pos hpre]
  cases s with
  | nil => simpa [List.rdropWhile_eq_nil_iff] using
      fun c hc => hpost c ((List.dropWhile_sublist p).subset hc)
  | cons a s =>
      have ha : ¬ p a = true := by rw [hs a List.mem_cons_self]; decide
      rw [List.cons_append, List.dropWhile_cons_of_neg ha, List.rdropWhile,
        ← List.cons_append, List.reverse_append,
        List.dropWhile_append_of_pos (fun c hc => hpost c (List.mem_reverse.1 hc))]
      have hrev : List.dropWhile p (a :: s).reverse = (a :: s).reverse := by
        refine List.dropWhile_eq_self_iff.2 fun hlen => ?_
        rw [hs _ (List.mem_reverse.1 (List.getElem_mem hlen))]
        decide
      rw [hrev, List.reverse_reverse]

/-! ## A suffix -/

/-- A suffix without `x` begins after the last `x` there is. -/
theorem suffix_append_cons {s a b : List α} {x : α} (hx : x ∉ s) :
    s <:+ a ++ x :: b ↔ s <:+ b := by
  constructor
  · intro h
    rcases List.suffix_or_suffix_of_suffix h (List.suffix_append a (x :: b)) with
      h | ⟨front, rfl⟩
    · exact (List.suffix_cons_iff.1 h).resolve_left fun heq =>
        hx (heq ▸ List.mem_cons_self)
    · exact absurd (List.mem_append_right _ List.mem_cons_self) hx
  · intro h
    exact h.trans ((List.suffix_cons x b).trans (List.suffix_append a _))

/-! ## Bytes -/

/-- `str::as_bytes`. -/
def asBytes (s : Str) : List UInt8 := s.flatMap String.utf8EncodeChar

/-- `str::len`, which counts bytes. -/
def byteLen : Str → Nat
  | [] => 0
  | c :: s => c.utf8Size + byteLen s

theorem length_asBytes (s : Str) : (asBytes s).length = byteLen s := by
  induction s with
  | nil => rfl
  | cons c s ih =>
      rw [asBytes, List.flatMap_cons, List.length_append, ← asBytes, ih,
        String.length_utf8EncodeChar, byteLen]

/-! ## A table searched by a key -/

section tables

variable {β : Type*} [DecidableEq β] {f : α → β}

theorem find?_key {l : List α} (h : (l.map f).Nodup) {a : α} (ha : a ∈ l) :
    l.find? (fun x => f x = f a) = some a := by
  induction l with
  | nil => cases ha
  | cons b l ih =>
      obtain ⟨hb, hl⟩ := List.nodup_cons.1 h
      rcases List.mem_cons.1 ha with rfl | ha
      · simp
      · have hne : f b ≠ f a := fun heq => hb (heq ▸ List.mem_map_of_mem ha)
        rw [List.find?_cons_of_neg (by simpa using hne)]
        exact ih hl ha

theorem find?_key_eq_some {l : List α} {b : β} {a : α}
    (h : l.find? (fun x => f x = b) = some a) : a ∈ l ∧ f a = b :=
  ⟨List.mem_of_find?_eq_some h, by simpa using List.find?_some h⟩

end tables

end Lib
