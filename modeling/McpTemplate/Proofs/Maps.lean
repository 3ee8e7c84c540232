import McpTemplate.Src.Json
import Mathlib.Data.Char
import Mathlib.Data.List.Lex
import Mathlib.Data.List.Sort

/-!
# Maps in the order of their keys

A map is kept in the order of its keys, each of which it has once. So it is
determined by what it answers for every key, which is how two maps are shown
to be the same, however each was built.

A map whose keys all got a prefix is in order still, and gives the map back
when the prefix is taken off: no two keys come together that were apart, one
that had the prefix already included.
-/

namespace McpTemplate.Json

open Lib

namespace Map

/-- The keys ascend, and so each is there once. -/
def Ordered (m : Map) : Prop := m.Pairwise fun field later => field.1 < later.1

instance : Std.Irrefl fun field later : Str × Value => field.1 < later.1 :=
  ⟨fun field => lt_irrefl field.1⟩

instance : Std.Antisymm fun field later : Str × Value => field.1 < later.1 :=
  ⟨fun _ _ h h' => absurd h' (lt_asymm h)⟩

theorem get_eq_none_of_lt {key : Str} {m : Map} (h : ∀ field ∈ m, key < field.1) :
    get key m = none := by
  induction m with
  | nil => rfl
  | cons field m ih =>
      have hne : ¬ key = field.1 := ne_of_lt (h field List.mem_cons_self)
      rw [get, if_neg hne]
      exact ih fun other hother => h other (List.mem_cons_of_mem _ hother)

/-- A map in order answers with its fields. -/
theorem Ordered.get_eq_some {m : Map} (h : Ordered m) {key : Str} {value : Value} :
    get key m = some value ↔ (key, value) ∈ m := by
  induction m with
  | nil => simp
  | cons field m ih =>
      obtain ⟨k, v⟩ := field
      obtain ⟨hfirst, htail⟩ := List.pairwise_cons.1 h
      rw [get, List.mem_cons, Prod.mk.injEq]
      by_cases hk : key = k
      · subst hk
        rw [if_pos rfl, Option.some.injEq]
        constructor
        · intro hv
          exact .inl ⟨rfl, hv.symm⟩
        · intro hmem
          rcases hmem with ⟨-, rfl⟩ | hmem
          · rfl
          · exact absurd (hfirst _ hmem) (lt_irrefl _)
      · rw [if_neg hk, ih htail]
        simp [hk]

/-- Two maps in order that answer alike are the same. -/
theorem Ordered.ext {m m' : Map} (h : Ordered m) (h' : Ordered m')
    (hget : ∀ key, get key m = get key m') : m = m' := by
  refine List.Pairwise.eq_of_mem_iff h h' fun field => ?_
  rw [← h.get_eq_some, ← h'.get_eq_some, hget]

theorem mem_insert {key : Str} {value : Value} {m : Map} {field : Str × Value}
    (h : field ∈ insert key value m) : field = (key, value) ∨ field ∈ m := by
  induction m with
  | nil => exact .inl (List.mem_singleton.1 h)
  | cons first m ih =>
      rw [insert] at h
      split at h
      · next heq =>
          subst heq
          rcases List.mem_cons.1 h with rfl | h
          · exact .inl rfl
          · exact .inr (List.mem_cons_of_mem _ h)
      · split at h
        · exact List.mem_cons.1 h
        · rcases List.mem_cons.1 h with rfl | h
          · exact .inr List.mem_cons_self
          · exact (ih h).imp_right (List.mem_cons_of_mem _)

theorem Ordered.insert {m : Map} (h : Ordered m) (key : Str) (value : Value) :
    Ordered (insert key value m) := by
  induction m with
  | nil => exact List.pairwise_singleton _ _
  | cons first m ih =>
      obtain ⟨k, v⟩ := first
      obtain ⟨hfirst, htail⟩ := List.pairwise_cons.1 h
      rw [Map.insert]
      by_cases heq : key = k
      · rw [if_pos heq]
        exact List.pairwise_cons.2 ⟨hfirst, htail⟩
      · rw [if_neg heq]
        by_cases hlt : key < k
        · rw [if_pos hlt]
          refine List.pairwise_cons.2 ⟨fun field hfield => ?_, h⟩
          rcases List.mem_cons.1 hfield with rfl | hfield
          · exact hlt
          · exact lt_trans hlt (hfirst field hfield)
        · rw [if_neg hlt]
          have hgt : k < key := lt_of_le_of_ne (le_of_not_gt hlt) (Ne.symm heq)
          refine List.pairwise_cons.2 ⟨fun field hfield => ?_, ih htail⟩
          rcases mem_insert hfield with rfl | hfield
          · exact hgt
          · exact hfirst field hfield

theorem ordered_foldl_insert {fields : List (Str × Value)} {m : Map} (h : Ordered m) :
    Ordered (fields.foldl (fun m field => insert field.1 field.2 m) m) := by
  induction fields generalizing m with
  | nil => exact h
  | cons field fields ih => exact ih (h.insert field.1 field.2)

theorem get_foldl_insert {fields : Map} (h : Ordered fields) (key : Str) (m : Map) :
    get key (fields.foldl (fun m field => insert field.1 field.2 m) m) =
      (get key fields).or (get key m) := by
  induction fields generalizing m with
  | nil => rfl
  | cons field fields ih =>
      obtain ⟨hfirst, htail⟩ := List.pairwise_cons.1 h
      rw [List.foldl_cons, ih htail, get_insert, get]
      by_cases hkey : key = field.1
      · have hnone : get key fields = none := get_eq_none_of_lt (hkey ▸ hfirst)
        rw [if_pos hkey, if_pos hkey, hnone]
        rfl
      · rw [if_neg hkey, if_neg hkey]

/-- A map whose fields are inserted one after another comes out as it was. -/
theorem Ordered.foldl_insert_eq {fields : Map} (h : Ordered fields) :
    fields.foldl (fun m field => Map.insert field.1 field.2 m) [] = fields := by
  refine Ordered.ext (ordered_foldl_insert List.Pairwise.nil) h fun key => ?_
  rw [get_foldl_insert h, get_nil, Option.or_none]

theorem Ordered.filter {m : Map} (h : Ordered m) (p : Str × Value → Bool) :
    Ordered (m.filter p) := List.Pairwise.filter p h

theorem get_filter (p : Str → Bool) (key : Str) (m : Map) :
    get key (m.filter fun field => p field.1) = if p key then get key m else none := by
  induction m with
  | nil => exact (ite_self _).symm
  | cons field m ih =>
      rw [List.filter_cons]
      split
      · next hp =>
          rw [get, get, ih]
          by_cases hkey : key = field.1
          · rw [if_pos hkey, if_pos hkey, hkey, if_pos hp]
          · rw [if_neg hkey, if_neg hkey]
      · next hp =>
          rw [ih, get]
          by_cases hkey : key = field.1
          · rw [if_pos hkey, hkey, if_neg hp, if_neg hp]
          · rw [if_neg hkey]

end Map

theorem ordered_json {fields : List (Str × Value)} {m : Map}
    (h : json fields = .object m) :
    Map.Ordered m := by
  cases h
  exact Map.ordered_foldl_insert List.Pairwise.nil

/-! ## A prefix of every key -/

namespace Map

def prefixKeys (pre : Str) (m : Map) : Map :=
  m.map fun field => (pre ++ field.1, field.2)

/-- The fields whose keys have the prefix, without it. -/
def stripKeys (pre : Str) (m : Map) : Map :=
  m.filterMap fun field => (stripPrefix pre field.1).map fun key => (key, field.2)

theorem Ordered.prefixKeys {m : Map} (h : Ordered m) (pre : Str) :
    Ordered (prefixKeys pre m) := by
  refine List.Pairwise.map _ ?_ h
  intro field later hlt
  exact List.append_left_lt hlt

theorem stripKeys_prefixKeys (pre : Str) (m : Map) :
    stripKeys pre (prefixKeys pre m) = m := by
  have hfield : ∀ field : Str × Value,
      (stripPrefix pre (pre ++ field.1)).map (fun key => (key, field.2)) =
        some field := by
    intro field
    rw [stripPrefix_append]
    rfl
  rw [stripKeys, prefixKeys, List.filterMap_map]
  exact (List.filterMap_congr fun field _ => hfield field).trans List.filterMap_some

end Map

end McpTemplate.Json
