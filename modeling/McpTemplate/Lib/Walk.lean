import Mathlib.Data.List.Nodup

/-!
# Walking a tree that is only given by its listings

A tree is a function that lists the children of a directory, and answers
`none` for what is no directory; a child may be a directory itself. `walk`
goes through it depth first and returns every child it is shown. Its fuel
bounds the depth, so it fails where the fuel runs out or a directory it was
shown does not list.

`Tree` collects what a family of directories has to satisfy for the walk to
succeed from each of them: listing a directory of the family shows only
directories of the family, of lower rank. Then fuel above the rank is enough,
and the walk returns exactly what is `Below`. `Apart` adds where the keys of
the children lie, and then no key is returned twice.
-/

namespace Lib

variable {U N K : Type*} (list : U → Option (List N)) (asDir : N → Option U)

/-- The children listed so far, with what lies below each directory among
them. -/
def walkList (walkDir : U → Option (List N)) : List N → Option (List N)
  | [] => some []
  | n :: nodes =>
      ((asDir n).elim (some []) walkDir).bind fun below =>
        (walkList walkDir nodes).map fun rest => n :: (below ++ rest)

def walk : Nat → U → Option (List N)
  | 0, _ => none
  | fuel + 1, u => (list u).bind (walkList asDir (walk fuel))

/-- What a walk from `u` can come to. -/
inductive Below : U → N → Prop
  | child {u nodes n} (hlist : list u = some nodes) (hn : n ∈ nodes) : Below u n
  | deep {u nodes n v m} (hlist : list u = some nodes) (hn : n ∈ nodes)
      (hv : asDir n = some v) (hm : Below v m) : Below u m

/-- A family of directories that list one another with falling rank. -/
structure Tree (rank : U → Nat) (IsDir : U → Prop) : Prop where
  lists : ∀ u, IsDir u → ∃ nodes, list u = some nodes
  dirs : ∀ u, IsDir u → ∀ nodes, list u = some nodes → ∀ n ∈ nodes, ∀ v,
    asDir n = some v → IsDir v ∧ rank v < rank u

/-- Where the keys of a family's children lie: inside their directory, and
apart from one another. -/
structure Apart (key : N → K) (Inside : U → K → Prop) (IsDir : U → Prop) :
    Prop where
  nodup : ∀ u, IsDir u → ∀ nodes, list u = some nodes → (nodes.map key).Nodup
  inside : ∀ u, IsDir u → ∀ nodes, list u = some nodes → ∀ n ∈ nodes,
    Inside u (key n)
  deeper : ∀ u, IsDir u → ∀ nodes, list u = some nodes → ∀ n ∈ nodes, ∀ v,
    asDir n = some v → ∀ k, Inside v k → Inside u k
  outside : ∀ u, IsDir u → ∀ nodes, list u = some nodes → ∀ n ∈ nodes, ∀ v,
    asDir n = some v → ∀ n' ∈ nodes, ¬ Inside v (key n')
  disjoint : ∀ u, IsDir u → ∀ nodes, list u = some nodes → ∀ n ∈ nodes,
    ∀ n' ∈ nodes, ∀ v v', asDir n = some v → asDir n' = some v' →
      key n ≠ key n' → ∀ k, Inside v k → ¬ Inside v' k

variable {list asDir}

theorem walkList_cons {walkDir : U → Option (List N)} {n : N}
    {nodes result : List N}
    (h : walkList asDir walkDir (n :: nodes) = some result) :
    ∃ below rest, (asDir n).elim (some []) walkDir = some below ∧
      walkList asDir walkDir nodes = some rest ∧
      result = n :: (below ++ rest) := by
  obtain ⟨below, hbelow, h⟩ := Option.bind_eq_some_iff.1 h
  obtain ⟨rest, hrest, heq⟩ := Option.map_eq_some_iff.1 h
  exact ⟨below, rest, hbelow, hrest, heq.symm⟩

/-- Only below a directory is there anything. -/
theorem dir_of_mem_below {walkDir : U → Option (List N)} {n m : N}
    {below : List N} (h : (asDir n).elim (some []) walkDir = some below)
    (hm : m ∈ below) : ∃ v, asDir n = some v ∧ walkDir v = some below := by
  cases hn : asDir n with
  | none => rw [hn] at h; cases h; cases hm
  | some v => rw [hn] at h; exact ⟨v, rfl, h⟩

theorem walkList_mono {walkDir walkDir' : U → Option (List N)}
    (h : ∀ v below, walkDir v = some below → walkDir' v = some below)
    {nodes result : List N}
    (hresult : walkList asDir walkDir nodes = some result) :
    walkList asDir walkDir' nodes = some result := by
  induction nodes generalizing result with
  | nil => exact hresult
  | cons n nodes ih =>
      obtain ⟨below, rest, hbelow, hrest, rfl⟩ := walkList_cons hresult
      have hdir : (asDir n).elim (some []) walkDir' = some below := by
        cases hn : asDir n with
        | none => rw [hn] at hbelow; exact hbelow
        | some v => rw [hn] at hbelow; exact h v below hbelow
      rw [walkList, hdir, Option.bind_some, ih hrest]
      rfl

/-- More fuel does not change what a walk returns. -/
theorem walk_mono {fuel fuel' : Nat} (h : fuel ≤ fuel') {u : U}
    {result : List N} (hwalk : walk list asDir fuel u = some result) :
    walk list asDir fuel' u = some result := by
  induction fuel generalizing fuel' u result with
  | zero => cases hwalk
  | succ fuel ih =>
      obtain ⟨more, rfl⟩ := Nat.exists_eq_add_of_le' h
      obtain ⟨nodes, hlist, hwalk⟩ := Option.bind_eq_some_iff.1 hwalk
      show (list u).bind (walkList asDir (walk list asDir (more + fuel))) = _
      rw [hlist, Option.bind_some]
      exact walkList_mono (fun v below hv => ih (by omega) hv) hwalk

/-- What a walk over some children returns, where each directory among them
can be walked. -/
theorem walkList_spec {walkDir : U → Option (List N)} {nodes : List N}
    (h : ∀ n ∈ nodes, ∀ v, asDir n = some v → ∃ below, walkDir v = some below) :
    ∃ result, walkList asDir walkDir nodes = some result ∧
      ∀ m, m ∈ result ↔ m ∈ nodes ∨ ∃ n ∈ nodes, ∃ v below,
        asDir n = some v ∧ walkDir v = some below ∧ m ∈ below := by
  induction nodes with
  | nil => exact ⟨[], rfl, by simp⟩
  | cons n nodes ih =>
      obtain ⟨rest, hrest, hmem⟩ :=
        ih fun n' hn' => h n' (List.mem_cons_of_mem _ hn')
      cases hdir : asDir n with
      | none =>
          refine ⟨n :: rest, by simp [walkList, hdir, hrest], fun m => ?_⟩
          simp [hmem, hdir, or_assoc]
      | some v =>
          obtain ⟨below, hbelow⟩ := h n List.mem_cons_self v hdir
          refine ⟨n :: (below ++ rest), by simp [walkList, hdir, hbelow, hrest],
            fun m => ?_⟩
          simp only [List.mem_cons, List.mem_append, hmem, exists_eq_or_imp,
            hdir, Option.some.injEq, exists_and_left, exists_eq_left',
            hbelow]
          tauto

/-- A walk over some children returns these and what lies inside them. -/
theorem walkList_inside {walkDir : U → Option (List N)} {key : N → K}
    {Inside : U → K → Prop} {nodes result : List N}
    (hresult : walkList asDir walkDir nodes = some result)
    (hbelow : ∀ n ∈ nodes, ∀ v below, asDir n = some v →
      walkDir v = some below → ∀ m ∈ below, Inside v (key m)) :
    ∀ m ∈ result, m ∈ nodes ∨
      ∃ n ∈ nodes, ∃ v, asDir n = some v ∧ Inside v (key m) := by
  induction nodes generalizing result with
  | nil => cases hresult; simp
  | cons n nodes ih =>
      obtain ⟨below, rest, hdir, hrest, rfl⟩ := walkList_cons hresult
      have htail : ∀ n' ∈ nodes, n' ∈ n :: nodes :=
        fun n' hn' => List.mem_cons_of_mem _ hn'
      intro m hm
      rcases List.mem_cons.1 hm with rfl | hm
      · exact .inl List.mem_cons_self
      · rcases List.mem_append.1 hm with hm | hm
        · obtain ⟨v, hv, hwalk⟩ := dir_of_mem_below hdir hm
          exact .inr ⟨n, List.mem_cons_self, v, hv,
            hbelow n List.mem_cons_self v below hv hwalk m hm⟩
        · rcases ih hrest (fun n' hn' => hbelow n' (htail n' hn')) m hm with
            hm | ⟨n', hn', v, hv, hin⟩
          · exact .inl (htail m hm)
          · exact .inr ⟨n', htail n' hn', v, hv, hin⟩

/-- And it returns no key twice, where these do not and what lies inside them
is apart. -/
theorem walkList_nodup {walkDir : U → Option (List N)} {key : N → K}
    {Inside : U → K → Prop} {nodes result : List N}
    (hresult : walkList asDir walkDir nodes = some result)
    (hnodup : (nodes.map key).Nodup)
    (hbelow : ∀ n ∈ nodes, ∀ v below, asDir n = some v →
      walkDir v = some below →
        (below.map key).Nodup ∧ ∀ m ∈ below, Inside v (key m))
    (houtside : ∀ n ∈ nodes, ∀ v, asDir n = some v →
      ∀ n' ∈ nodes, ¬ Inside v (key n'))
    (hdisjoint : ∀ n ∈ nodes, ∀ n' ∈ nodes, ∀ v v', asDir n = some v →
      asDir n' = some v' → key n ≠ key n' → ∀ k, Inside v k → ¬ Inside v' k) :
    (result.map key).Nodup := by
  induction nodes generalizing result with
  | nil => cases hresult; exact List.nodup_nil
  | cons n nodes ih =>
      obtain ⟨below, rest, hdir, hrest, rfl⟩ := walkList_cons hresult
      obtain ⟨hn, hnodes⟩ := List.nodup_cons.1 hnodup
      have hself : n ∈ n :: nodes := List.mem_cons_self
      have htail : ∀ n' ∈ nodes, n' ∈ n :: nodes :=
        fun n' hn' => List.mem_cons_of_mem _ hn'
      have hrestNodup : (rest.map key).Nodup := ih hrest hnodes
        (fun n' hn' => hbelow n' (htail n' hn'))
        (fun n' hn' v hv m hm => houtside n' (htail n' hn') v hv m (htail m hm))
        (fun n' hn' m hm => hdisjoint n' (htail n' hn') m (htail m hm))
      have hrestMem := walkList_inside hrest fun n' hn' v below hv hwalk =>
        (hbelow n' (htail n' hn') v below hv hwalk).2
      have hbelowMem : ∀ m ∈ below, ∃ v, asDir n = some v ∧ Inside v (key m) := by
        intro m hm
        obtain ⟨v, hv, hwalk⟩ := dir_of_mem_below hdir hm
        exact ⟨v, hv, (hbelow n hself v below hv hwalk).2 m hm⟩
      have hbelowNodup : (below.map key).Nodup := by
        cases below with
        | nil => exact List.nodup_nil
        | cons m below =>
            obtain ⟨v, hv, hwalk⟩ := dir_of_mem_below hdir List.mem_cons_self
            exact (hbelow n hself v _ hv hwalk).1
      rw [List.map_cons, List.map_append, List.nodup_cons, List.nodup_append]
      refine ⟨?_, hbelowNodup, hrestNodup, ?_⟩
      · -- the first child is none of those that follow
        intro hmem
        rcases List.mem_append.1 hmem with hmem | hmem
        · obtain ⟨m, hm, heq⟩ := List.mem_map.1 hmem
          obtain ⟨v, hv, hin⟩ := hbelowMem m hm
          exact houtside n hself v hv n hself (heq ▸ hin)
        · obtain ⟨m, hm, heq⟩ := List.mem_map.1 hmem
          rcases hrestMem m hm with hm | ⟨n', hn', v, hv, hin⟩
          · exact hn (heq ▸ List.mem_map_of_mem hm)
          · exact houtside n' (htail n' hn') v hv n hself (heq ▸ hin)
      · -- nor is anything below it
        intro k hk k' hk' heq
        obtain ⟨m, hm, rfl⟩ := List.mem_map.1 hk
        obtain ⟨m', hm', rfl⟩ := List.mem_map.1 hk'
        obtain ⟨v, hv, hin⟩ := hbelowMem m hm
        rcases hrestMem m' hm' with hm' | ⟨n', hn', v', hv', hin'⟩
        · exact houtside n hself v hv m' (htail m' hm') (heq ▸ hin)
        · have hne : key n ≠ key n' := fun h => hn (h ▸ List.mem_map_of_mem hn')
          exact hdisjoint n hself n' (htail n' hn') v v' hv hv' hne (key m) hin
            (heq ▸ hin')

/-- Fuel above the rank is enough, and the walk returns what is below. -/
theorem Tree.walk_spec {rank : U → Nat} {IsDir : U → Prop}
    (h : Tree list asDir rank IsDir) {u : U} (hu : IsDir u) {fuel : Nat}
    (hfuel : rank u < fuel) :
    ∃ result, walk list asDir fuel u = some result ∧
      ∀ m, m ∈ result ↔ Below list asDir u m := by
  induction fuel generalizing u with
  | zero => exact absurd hfuel (Nat.not_lt_zero _)
  | succ fuel ih =>
      obtain ⟨nodes, hlist⟩ := h.lists u hu
      have hsub : ∀ n ∈ nodes, ∀ v, asDir n = some v →
          ∃ below, walk list asDir fuel v = some below ∧
            ∀ m, m ∈ below ↔ Below list asDir v m := by
        intro n hn v hv
        obtain ⟨hdir, hrank⟩ := h.dirs u hu nodes hlist n hn v hv
        exact ih hdir (by omega)
      obtain ⟨result, hresult, hmem⟩ := walkList_spec fun n hn v hv => by
        obtain ⟨below, hbelow, -⟩ := hsub n hn v hv
        exact ⟨below, hbelow⟩
      refine ⟨result, by simp [walk, hlist, hresult], fun m => ?_⟩
      rw [hmem]
      constructor
      · rintro (hm | ⟨n, hn, v, below, hv, hbelow, hm⟩)
        · exact .child hlist hm
        · obtain ⟨below', hbelow', hiff⟩ := hsub n hn v hv
          rw [hbelow] at hbelow'
          cases hbelow'
          exact .deep hlist hn hv ((hiff m).1 hm)
      · intro hm
        cases hm with
        | child hlist' hm =>
            rw [hlist] at hlist'
            cases hlist'
            exact .inl hm
        | deep hlist' hn hv hm =>
            rw [hlist] at hlist'
            cases hlist'
            obtain ⟨below, hbelow, hiff⟩ := hsub _ hn _ hv
            exact .inr ⟨_, hn, _, below, hv, hbelow, (hiff m).2 hm⟩

/-- What a walk comes to is listed by a directory of the family. -/
theorem Tree.below_listed {rank : U → Nat} {IsDir : U → Prop}
    (h : Tree list asDir rank IsDir) {u : U} {m : N}
    (hbelow : Below list asDir u m) (hu : IsDir u) :
    ∃ v nodes, IsDir v ∧ list v = some nodes ∧ m ∈ nodes := by
  induction hbelow with
  | child hlist hn => exact ⟨_, _, hu, hlist, hn⟩
  | deep hlist hn hv _ ih => exact ih (h.dirs _ hu _ hlist _ hn _ hv).1

/-- A walk of a family that lies apart returns no key twice. -/
theorem Apart.walk_nodup {rank : U → Nat} {IsDir : U → Prop} {key : N → K}
    {Inside : U → K → Prop} (ht : Tree list asDir rank IsDir)
    (h : Apart list asDir key Inside IsDir) {u : U} (hu : IsDir u) {fuel : Nat}
    {result : List N} (hwalk : walk list asDir fuel u = some result) :
    (result.map key).Nodup ∧ ∀ m ∈ result, Inside u (key m) := by
  induction fuel generalizing u result with
  | zero => cases hwalk
  | succ fuel ih =>
      obtain ⟨nodes, hlist, hwalk⟩ := Option.bind_eq_some_iff.1 hwalk
      have hbelow : ∀ n ∈ nodes, ∀ v below, asDir n = some v →
          walk list asDir fuel v = some below →
            (below.map key).Nodup ∧ ∀ m ∈ below, Inside v (key m) :=
        fun n hn v below hv hb => ih (ht.dirs u hu nodes hlist n hn v hv).1 hb
      refine ⟨walkList_nodup hwalk (h.nodup u hu nodes hlist) hbelow
        (h.outside u hu nodes hlist) (h.disjoint u hu nodes hlist),
        fun m hm => ?_⟩
      have hinside := walkList_inside hwalk fun n hn v below hv hb =>
        (hbelow n hn v below hv hb).2
      rcases hinside m hm with hm | ⟨n, hn, v, hv, hin⟩
      · exact h.inside u hu nodes hlist m hm
      · exact h.deeper u hu nodes hlist n hn v hv _ hin

end Lib
