import McpTemplate.Lib.Machine
import Mathlib.Data.List.Basic

/-!
# Moving the steps of a run past one another

Two neighbouring steps of a run by different parties can often be made in the
other order with the same end. When that is so for every pair that stands the
wrong way round by some rank, a whole run can be sorted by rank: the same
steps, each showing what it showed, every party's own steps in their own
order, and the same final state.

`Sortable` is the condition on two neighbours, `exists_sorted` the result. A
run is compared with its sorted form through its log, whose entries keep what
a step showed and the rank it had when it was made.
-/

namespace Lib.Machine

/-! ## Exchanging neighbours -/

section exchanged

variable {α : Type*} {R : α → α → Prop}

/-- One list from another by exchanging neighbours that `R` lets pass. -/
inductive Exchanged (R : α → α → Prop) : List α → List α → Prop
  | refl (l : List α) : Exchanged R l l
  | cons (x : α) {l l' : List α} (h : Exchanged R l l') :
      Exchanged R (x :: l) (x :: l')
  | swap {x y : α} (h : R x y) (l : List α) :
      Exchanged R (x :: y :: l) (y :: x :: l)
  | trans {l₁ l₂ l₃ : List α} (h : Exchanged R l₁ l₂) (h' : Exchanged R l₂ l₃) :
      Exchanged R l₁ l₃

theorem Exchanged.perm {l l' : List α} (h : Exchanged R l l') : l.Perm l' := by
  induction h with
  | refl l => exact .refl l
  | cons x _ ih => exact ih.cons x
  | swap _ l => exact .swap _ _ l
  | trans _ _ ih ih' => exact ih.trans ih'

/-- Where no two entries that pass one another are both kept, what is kept
stays in its order. -/
theorem Exchanged.filter {p : α → Bool}
    (hp : ∀ x y, R x y → p x = true → p y = false) {l l' : List α}
    (h : Exchanged R l l') : l.filter p = l'.filter p := by
  induction h with
  | refl l => rfl
  | cons x _ ih => rw [List.filter_cons, List.filter_cons, ih]
  | @swap x y hxy l =>
      cases hx : p x with
      | false => simp only [List.filter_cons, hx, Bool.false_eq_true, if_false]
      | true =>
          have hy := hp x y hxy hx
          simp only [List.filter_cons, hx, hy, Bool.false_eq_true, if_false]
  | trans _ _ ih ih' => exact ih.trans ih'

end exchanged

/-! ## Logs -/

variable {S A O ι : Type*} (step : S → A → Option S) (emit : S → A → List O)
  (rank : S → A → Nat) (actor : A → ι)

/-- A step as it was made: what it showed, and its rank. -/
structure Entry (A O : Type*) where
  action : A
  shown : List O
  rank : Nat

def entryAt (s : S) (a : A) : List (Entry A O) := [⟨a, emit s a, rank s a⟩]

/-- The steps of a run, which is a trace of its own. -/
def log (s : S) (as : List A) : List (Entry A O) :=
  trace step (entryAt emit rank) s as

/-- The two entries belong to different parties, and stand the wrong way
round. -/
def Passes (x y : Entry A O) : Prop :=
  actor x.action ≠ actor y.action ∧ y.rank < x.rank

/-- Neighbours that stand the wrong way round belong to different parties and
can be made in the other order, showing the same at the same ranks. -/
def Sortable : Prop :=
  ∀ s s₁ s₂ a b, step s a = some s₁ → step s₁ b = some s₂ →
    rank s₁ b < rank s a → actor a ≠ actor b ∧
      ∃ s₁', step s b = some s₁' ∧ step s₁' a = some s₂ ∧
        rank s b = rank s₁ b ∧ rank s₁' a = rank s a ∧
        emit s b = emit s₁ b ∧ emit s₁' a = emit s a

variable {step emit rank actor}

theorem log_cons {s s' : S} {a : A} {as : List A} (h : step s a = some s') :
    log step emit rank s (a :: as) =
      ⟨a, emit s a, rank s a⟩ :: log step emit rank s' as := by
  rw [log, trace_cons h]
  rfl

theorem log_actions (emit : S → A → List O) (rank : S → A → Nat) {s s' : S}
    {as : List A} (h : run step s as = some s') :
    (log step emit rank s as).map Entry.action = as := by
  induction as generalizing s with
  | nil => rfl
  | cons a as ih =>
      obtain ⟨s₁, ha, hr⟩ := run_cons.1 h
      rw [log_cons ha, List.map_cons, ih hr]

theorem log_shown (emit : S → A → List O) (rank : S → A → Nat) {s s' : S}
    {as : List A} (h : run step s as = some s') :
    (log step emit rank s as).flatMap Entry.shown = trace step emit s as := by
  induction as generalizing s with
  | nil => rfl
  | cons a as ih =>
      obtain ⟨s₁, ha, hr⟩ := run_cons.1 h
      rw [log_cons ha, List.flatMap_cons, ih hr, trace_cons ha]

/-! ## Sorting -/

/-- A run whose log is sorted by rank. -/
def SortedBy (l : List (Entry A O)) : Prop := l.Pairwise fun x y => x.rank ≤ y.rank

/-- A step before a sorted run finds its place in it. -/
theorem insert_step (hsort : Sortable step emit rank actor) {s s₁ s' : S} {a : A}
    {as : List A} (ha : step s a = some s₁) (hrun : run step s₁ as = some s')
    (has : SortedBy (log step emit rank s₁ as)) :
    ∃ as', run step s as' = some s' ∧ SortedBy (log step emit rank s as') ∧
      Exchanged (Passes actor) (log step emit rank s (a :: as))
        (log step emit rank s as') := by
  induction as generalizing s s₁ a with
  | nil =>
      refine ⟨[a], run_cons.2 ⟨s₁, ha, hrun⟩, ?_, .refl _⟩
      rw [log_cons ha]
      exact List.pairwise_singleton _ _
  | cons b as ih =>
      obtain ⟨s₂, hb, hrest⟩ := run_cons.1 hrun
      rw [log_cons hb] at has
      obtain ⟨hleast, htail⟩ := List.pairwise_cons.1 has
      by_cases hrank : rank s₁ b < rank s a
      · -- `b` goes first; `a` finds its place behind it
        obtain ⟨hactor, s₁', hb', ha', hrb, hra, heb, hea⟩ :=
          hsort s s₁ s₂ a b ha hb hrank
        obtain ⟨as', hrun', hsorted, hex⟩ := ih ha' hrest htail
        have hswap : Exchanged (Passes actor) (log step emit rank s (a :: b :: as))
            (log step emit rank s (b :: a :: as)) := by
          rw [log_cons ha, log_cons hb, log_cons hb', log_cons ha', hrb, hra, heb, hea]
          exact .swap ⟨hactor, hrank⟩ _
        refine ⟨b :: as', run_cons.2 ⟨s₁', hb', hrun'⟩, ?_, ?_⟩
        · rw [log_cons hb']
          refine List.pairwise_cons.2 ⟨?_, hsorted⟩
          intro x hx
          have hmem := hex.perm.mem_iff.2 hx
          rw [log_cons ha', List.mem_cons] at hmem
          show rank s b ≤ x.rank
          rcases hmem with rfl | hmem
          · show rank s b ≤ rank s₁' a
            omega
          · have hle : rank s₁ b ≤ x.rank := hleast x hmem
            omega
        · refine hswap.trans ?_
          rw [log_cons hb', log_cons hb']
          exact .cons _ hex
      · refine ⟨a :: b :: as, run_cons.2 ⟨s₁, ha, hrun⟩, ?_, .refl _⟩
        rw [log_cons ha, log_cons hb]
        refine List.pairwise_cons.2 ⟨?_, has⟩
        intro x hx
        show rank s a ≤ x.rank
        rcases List.mem_cons.1 hx with rfl | hx
        · show rank s a ≤ rank s₁ b
          omega
        · have hle : rank s₁ b ≤ x.rank := hleast x hx
          omega

/-- Every run can be sorted by rank. -/
theorem exists_sorted (hsort : Sortable step emit rank actor) {s s' : S}
    {as : List A} (hrun : run step s as = some s') :
    ∃ as', run step s as' = some s' ∧ SortedBy (log step emit rank s as') ∧
      Exchanged (Passes actor) (log step emit rank s as)
        (log step emit rank s as') := by
  induction as generalizing s with
  | nil => exact ⟨[], hrun, List.Pairwise.nil, .refl _⟩
  | cons a as ih =>
      obtain ⟨s₁, ha, hr⟩ := run_cons.1 hrun
      obtain ⟨mid, hmid, hsorted, hex⟩ := ih hr
      obtain ⟨as', hrun', hsorted', hex'⟩ := insert_step hsort ha hmid hsorted
      refine ⟨as', hrun', hsorted', Exchanged.trans ?_ hex'⟩
      rw [log_cons ha, log_cons ha]
      exact .cons _ hex

/-- What two exchanged logs agree on: the steps of each party in order, and
the steps of each rank in order. -/
theorem Exchanged.same_actor [DecidableEq ι] {l l' : List (Entry A O)}
    (h : Exchanged (Passes actor) l l') (i : ι) :
    l.filter (fun x => actor x.action = i) =
      l'.filter (fun x => actor x.action = i) := by
  refine h.filter ?_
  intro x y hxy hx
  have hi : actor x.action = i := of_decide_eq_true hx
  refine decide_eq_false ?_
  intro hy
  exact hxy.1 (hi.trans hy.symm)

theorem Exchanged.same_rank {l l' : List (Entry A O)}
    (h : Exchanged (Passes actor) l l') (k : Nat) :
    l.filter (fun x => x.rank = k) = l'.filter (fun x => x.rank = k) := by
  refine h.filter ?_
  intro x y hxy hx
  have hk : x.rank = k := of_decide_eq_true hx
  have hlt := hxy.2
  refine decide_eq_false ?_
  omega

/-- A sorted log of three ranks, cut between them. -/
theorem SortedBy.cut {l : List (Entry A O)} (h : SortedBy l)
    (hle : ∀ x ∈ l, x.rank ≤ 2) :
    l = l.filter (fun x => x.rank = 0) ++ l.filter (fun x => x.rank = 1) ++
      l.filter (fun x => x.rank = 2) := by
  induction l with
  | nil => rfl
  | cons x l ih =>
      obtain ⟨hx, hl⟩ := List.pairwise_cons.1 h
      have ih' := ih hl fun y hy => hle y (List.mem_cons_of_mem x hy)
      have hrank : x.rank = 0 ∨ x.rank = 1 ∨ x.rank = 2 := by
        have := hle x List.mem_cons_self
        omega
      have hnone : ∀ k < x.rank, l.filter (fun y => y.rank = k) = [] := by
        intro k hk
        refine List.filter_eq_nil_iff.2 fun y hy => ?_
        have := hx y hy
        simp only [decide_eq_true_eq]
        omega
      rcases hrank with h0 | h1 | h2
      · simpa [List.filter_cons, h0] using ih'
      · have h0 := hnone 0 (by omega)
        rw [h0, List.nil_append] at ih'
        simpa [List.filter_cons, h1, h0] using ih'
      · have h0 := hnone 0 (by omega)
        have h1 := hnone 1 (by omega)
        rw [h0, h1, List.nil_append, List.nil_append] at ih'
        simpa [List.filter_cons, h2, h0, h1] using ih'

end Lib.Machine
