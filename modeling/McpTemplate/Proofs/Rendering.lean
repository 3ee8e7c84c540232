import McpTemplate.Src.HttpGet

/-!
# How a body is shown

The tool shows a body whole, or cuts it at the last character that ends within
the limit and says so. The loop that looks for the cut walks down to a
position that ends a prefix, and position 0 always does, so it never takes one
from 0 and the cut never falls inside a character.

A cut text is told from a whole one by its length: the cut gives up less than
a character, the marker is longer than that, and so whatever carries the
marker after a cut is longer than any text that is shown whole.
-/

namespace McpTemplate.Server

open Lib Bridge

def MARKER : Str := "…[truncated]".toList

/-- The loop of `truncation_boundary`, one iteration at a time: where it is,
and where it stops. There is no step from position 0. -/
inductive LoopsTo (s : Str) : (index stop : Nat) → Prop
  | stop {index : Nat} (h : isCharBoundary s index = true) : LoopsTo s index index
  | step {index stop : Nat} (h : isCharBoundary s (index + 1) = false)
      (rest : LoopsTo s index stop) : LoopsTo s (index + 1) stop

/-- `p` is what a text that is too long is cut to. -/
structure Cut (s p : Str) : Prop where
  tooLong : HTTP_GET_BODY_LIMIT < byteLen s
  isPrefix : p <+: s
  within : byteLen p ≤ HTTP_GET_BODY_LIMIT
  longest : ∀ q, q <+: s → byteLen q ≤ HTTP_GET_BODY_LIMIT → q <+: p
  full : 4093 ≤ byteLen p

/-- What is shown for a body of this text. -/
structure Shows (s shown : Str) : Prop where
  whole : byteLen s ≤ HTTP_GET_BODY_LIMIT → shown = s
  cut : HTTP_GET_BODY_LIMIT < byteLen s → ∃ p, Cut s p ∧ shown = p ++ MARKER

/-! ## The loop -/

theorem loopsTo_boundaryFrom (s : Str) (index : Nat) :
    LoopsTo s index (boundaryFrom s index) := by
  induction index with
  | zero => exact .stop rfl
  | succ index ih =>
      rw [boundaryFrom]
      split
      · next h => exact .stop h
      · next h => exact .step (Bool.not_eq_true _ ▸ h) ih

theorem LoopsTo.isCharBoundary {s : Str} {index stop : Nat} (h : LoopsTo s index stop) :
    Lib.isCharBoundary s stop = true := by
  induction h with
  | stop h => exact h
  | step _ _ ih => exact ih

theorem LoopsTo.le {s : Str} {index stop : Nat} (h : LoopsTo s index stop) :
    stop ≤ index := by
  induction h with
  | stop _ => exact Nat.le_refl _
  | step _ _ ih => exact Nat.le_succ_of_le ih

/-- The loop passes no boundary by. -/
theorem LoopsTo.le_stop {s : Str} {index stop n : Nat} (h : LoopsTo s index stop)
    (hn : Lib.isCharBoundary s n = true) (hle : n ≤ index) : n ≤ stop := by
  induction h with
  | stop _ => exact hle
  | step hinside _ ih =>
      refine ih (Nat.lt_succ_iff.1 (Nat.lt_of_le_of_ne hle ?_))
      intro heq
      rw [heq, hinside] at hn
      cases hn

/-- What the loop comes to is the last end of a prefix that fits. -/
theorem truncationBoundary_eq (s : Str) (limit : Nat) :
    truncationBoundary s limit = byteLen (takeBytes limit s) := by
  have hloop := loopsTo_boundaryFrom s (min limit (byteLen s))
  have hpre := isPrefix_takeBytes limit s
  refine Nat.le_antisymm ?_ ?_
  · obtain ⟨q, hq, hlen⟩ := isCharBoundary_iff.1 hloop.isCharBoundary
    have hfits : byteLen q ≤ limit := by
      rw [hlen]
      exact hloop.le.trans (Nat.min_le_left _ _)
    rw [truncationBoundary, ← hlen]
    exact byteLen_prefix_le (prefix_takeBytes hq hfits)
  · exact hloop.le_stop (isCharBoundary_iff.2 ⟨_, hpre, rfl⟩)
      (Nat.le_min.2 ⟨byteLen_takeBytes_le limit s, byteLen_prefix_le hpre⟩)

theorem truncate_truncationBoundary (s : Str) (limit : Nat) :
    truncate s (truncationBoundary s limit) = some (takeBytes limit s) := by
  rw [truncationBoundary_eq]
  exact truncate_byteLen (isPrefix_takeBytes limit s)

/-! ## The body -/

theorem cut_takeBytes {s : Str} (h : HTTP_GET_BODY_LIMIT < byteLen s) :
    Cut s (takeBytes HTTP_GET_BODY_LIMIT s) where
  tooLong := h
  isPrefix := isPrefix_takeBytes _ s
  within := byteLen_takeBytes_le _ s
  longest _ hq hle := prefix_takeBytes hq hle
  full := by
    have hlt := lt_byteLen_takeBytes h.le
    rw [HTTP_GET_BODY_LIMIT] at hlt ⊢
    omega

theorem renderBody_of_le {bytes : List UInt8}
    (h : byteLen (fromUtf8Lossy bytes) ≤ HTTP_GET_BODY_LIMIT) :
    renderBody bytes = some (fromUtf8Lossy bytes) := by
  rw [renderBody, if_neg (Nat.not_lt.2 h)]

theorem renderBody_of_lt {bytes : List UInt8}
    (h : HTTP_GET_BODY_LIMIT < byteLen (fromUtf8Lossy bytes)) :
    renderBody bytes =
      some (takeBytes HTTP_GET_BODY_LIMIT (fromUtf8Lossy bytes) ++ MARKER) := by
  unfold renderBody
  dsimp only
  rw [if_pos h, truncate_truncationBoundary]
  rfl

/-- The tool shows every body, and never panics over one. -/
theorem renderBody_shows (bytes : List UInt8) :
    ∃ shown, renderBody bytes = some shown ∧ Shows (fromUtf8Lossy bytes) shown := by
  rcases Nat.lt_or_ge HTTP_GET_BODY_LIMIT (byteLen (fromUtf8Lossy bytes)) with
    hlong | hshort
  · refine ⟨_, renderBody_of_lt hlong, ?_, ?_⟩
    · intro hshort
      exact absurd hlong (Nat.not_lt.2 hshort)
    · intro _
      exact ⟨_, cut_takeBytes hlong, rfl⟩
  · refine ⟨_, renderBody_of_le hshort, ?_, ?_⟩
    · intro _
      rfl
    · intro hlong
      exact absurd hlong (Nat.not_lt.2 hshort)

theorem Shows.cases {s shown : Str} (h : Shows s shown) :
    (byteLen s ≤ HTTP_GET_BODY_LIMIT ∧ shown = s) ∨
      ∃ p, Cut s p ∧ shown = p ++ MARKER := by
  rcases Nat.lt_or_ge HTTP_GET_BODY_LIMIT (byteLen s) with hlong | hshort
  · exact .inr (h.cut hlong)
  · exact .inl ⟨hshort, h.whole hshort⟩

/-- With its marker a cut text is longer than any that is shown whole. -/
theorem Cut.lt_byteLen {s p : Str} (h : Cut s p) :
    HTTP_GET_BODY_LIMIT < byteLen (p ++ MARKER) := by
  have hmarker : byteLen MARKER = 14 := by decide
  have hfull := h.full
  rw [byteLen_append, hmarker, HTTP_GET_BODY_LIMIT]
  omega

/-- Two texts are shown alike only where both are cut, and to the same. -/
theorem Shows.both_cut {s t shown : Str} (hne : s ≠ t) (hs : Shows s shown)
    (ht : Shows t shown) :
    ∃ p, Cut s p ∧ Cut t p ∧ shown = p ++ MARKER := by
  rcases hs.cases with ⟨hshort, rfl⟩ | ⟨p, hp, rfl⟩
  · rcases ht.cases with ⟨-, rfl⟩ | ⟨q, hq, rfl⟩
    · exact absurd rfl hne
    · exact absurd hq.lt_byteLen (Nat.not_lt.2 hshort)
  · rcases ht.cases with ⟨hshort, rfl⟩ | ⟨q, hq, heq⟩
    · exact absurd hp.lt_byteLen (Nat.not_lt.2 hshort)
    · cases List.append_cancel_right heq
      exact ⟨p, hp, hq, rfl⟩

/-- Every body is shown, whole or cut to the longest prefix of characters
within the limit; the loop stops at a boundary from wherever it is started, so
no cut panics; and what two different texts both show is a cut of either. -/
theorem bodies_safe_and_unambiguous :
    (∀ (http : Http) (response : Response),
      ∃ shown, Shows (fromUtf8Lossy response.body) shown ∧
        fetched http (.ok response) = some (.ok (.success
          ["HTTP ".toList ++ http.displayStatus response.status ++
            '\n' :: shown]))) ∧
      (∀ (s : Str) (limit : Nat),
        LoopsTo s (min limit (byteLen s)) (truncationBoundary s limit) ∧
          isCharBoundary s (truncationBoundary s limit) = true ∧
          (truncate s (truncationBoundary s limit)).isSome) ∧
      ∀ (a b : List UInt8) (shown : Str), fromUtf8Lossy a ≠ fromUtf8Lossy b →
        renderBody a = some shown → renderBody b = some shown →
          ∃ p, Cut (fromUtf8Lossy a) p ∧ Cut (fromUtf8Lossy b) p ∧
            shown = p ++ MARKER := by
  refine ⟨?_, ?_, ?_⟩
  · intro http response
    obtain ⟨shown, hrender, hshows⟩ := renderBody_shows response.body
    refine ⟨shown, hshows, ?_⟩
    rw [fetched, hrender]
    rfl
  · intro s limit
    have hloop := loopsTo_boundaryFrom s (min limit (byteLen s))
    refine ⟨hloop, hloop.isCharBoundary, ?_⟩
    rw [truncate_truncationBoundary]
    rfl
  · intro a b shown hne ha hb
    obtain ⟨shownA, hshownA, hshowsA⟩ := renderBody_shows a
    obtain ⟨shownB, hshownB, hshowsB⟩ := renderBody_shows b
    cases ha.symm.trans hshownA
    cases hb.symm.trans hshownB
    exact hshowsA.both_cut hne hshowsB

end McpTemplate.Server
