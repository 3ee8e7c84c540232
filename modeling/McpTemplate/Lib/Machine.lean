import Mathlib.Data.List.Basic

/-!
# Step machines, their runs and what a run shows

A machine is a partial function `step : S → A → Option S`: every choice of
the environment is in the action, so a run is a list of actions and nothing
else, and replaying one is evaluation. An observer sees a machine through
`emit`, which says what one step shows, and a run through `trace`, which
strings those together.

Two rules carry every proof about runs. `run_invariant` is the plain one: a
predicate that every step keeps holds wherever a run leads. `trace_invariant`
is the one with a memory: its predicate also speaks about everything shown so
far, which is how an order of events is stated without a history inside the
state. The second takes a condition on steps as well, for statements that hold
only of the runs which meet it.
-/

namespace Lib.Machine

variable {S A O : Type*} (step : S → A → Option S) (emit : S → A → List O)

/-- The state a list of actions leads to; `none` where one is not enabled. -/
def run : S → List A → Option S
  | s, [] => some s
  | s, a :: as => (step s a).bind fun s' => run s' as

/-- Everything a run shows, in order. -/
def trace : S → List A → List O
  | _, [] => []
  | s, a :: as => emit s a ++ (step s a).elim [] fun s' => trace s' as

/-- Every step of the run meets `C`, asked of the state before the step. -/
def Meets (C : S → A → Prop) : S → List A → Prop
  | _, [] => True
  | s, a :: as => C s a ∧ ∀ s', step s a = some s' → Meets C s' as

@[simp] theorem trace_nil (s : S) : trace step emit s [] = [] := rfl

variable {step emit}

theorem run_cons {s s'' : S} {a : A} {as : List A} :
    run step s (a :: as) = some s'' ↔
      ∃ s', step s a = some s' ∧ run step s' as = some s'' := by
  simp only [run, Option.bind_eq_some_iff]

theorem trace_cons {s s' : S} {a : A} {as : List A} (h : step s a = some s') :
    trace step emit s (a :: as) = emit s a ++ trace step emit s' as := by
  simp [trace, h]

theorem trace_append {s s' : S} {as bs : List A}
    (h : run step s as = some s') :
    trace step emit s (as ++ bs) =
      trace step emit s as ++ trace step emit s' bs := by
  induction as generalizing s with
  | nil => cases h; rfl
  | cons a as ih =>
      obtain ⟨s₁, ha, hr⟩ := run_cons.1 h
      rw [List.cons_append, trace_cons ha, trace_cons ha, ih hr,
        List.append_assoc]

theorem run_append {s s' : S} {as bs : List A} (h : run step s as = some s') :
    run step s (as ++ bs) = run step s' bs := by
  induction as generalizing s with
  | nil => cases h; rfl
  | cons a as ih =>
      obtain ⟨s₁, ha, hr⟩ := run_cons.1 h
      rw [List.cons_append, run, ha, Option.bind_some, ih hr]

theorem run_append_eq_some {s s'' : S} {as bs : List A} :
    run step s (as ++ bs) = some s'' ↔
      ∃ s', run step s as = some s' ∧ run step s' bs = some s'' := by
  cases h : run step s as with
  | some s' => simp [run_append h]
  | none =>
      simp only [reduceCtorEq, false_and, exists_false, iff_false]
      intro hrun
      induction as generalizing s with
      | nil => cases h
      | cons a as ih =>
          obtain ⟨s₁, ha, hr⟩ := run_cons.1 hrun
          rw [run, ha, Option.bind_some] at h
          exact ih h hr

/-- A machine whose every step is some steps of another does runs of the
other, and shows what they show. -/
theorem run_simulates {T B P : Type*} {step' : T → B → Option T}
    (emit' : T → B → List P) (abs : S → T) (under : S → A → List B)
    (hstep : ∀ s a s', step s a = some s' →
      run step' (abs s) (under s a) = some (abs s'))
    {s s' : S} {as : List A} (h : run step s as = some s') :
    run step' (abs s) (trace step under s as) = some (abs s') ∧
      trace step' emit' (abs s) (trace step under s as) =
        trace step (fun s a => trace step' emit' (abs s) (under s a)) s as := by
  induction as generalizing s with
  | nil => cases h; exact ⟨rfl, rfl⟩
  | cons a as ih =>
      obtain ⟨s₁, ha, hr⟩ := run_cons.1 h
      obtain ⟨hrun, htrace⟩ := ih hr
      have hunder := hstep s a s₁ ha
      rw [trace_cons ha, run_append hunder, trace_append hunder, htrace,
        trace_cons ha]
      exact ⟨hrun, rfl⟩

/-- A run is a trace of itself. -/
theorem trace_actions {s s' : S} {as : List A} (h : run step s as = some s') :
    trace step (fun _ a => [a]) s as = as := by
  induction as generalizing s with
  | nil => rfl
  | cons a as ih =>
      obtain ⟨s₁, ha, hr⟩ := run_cons.1 h
      rw [trace_cons ha, ih hr, List.singleton_append]

/-- A predicate every step keeps holds wherever a run leads. -/
theorem run_invariant {I : S → Prop}
    (hstep : ∀ s a s', I s → step s a = some s' → I s')
    {s s' : S} {as : List A} (hs : I s) (h : run step s as = some s') :
    I s' := by
  induction as generalizing s with
  | nil => cases h; exact hs
  | cons a as ih =>
      obtain ⟨s₁, ha, hr⟩ := run_cons.1 h
      exact ih (hstep s a s₁ hs ha) hr

/-- The rule with a memory, over runs whose every step meets `C`: what holds
of the trace so far and the state, and is kept by every such step, holds at
the end. -/
theorem trace_invariant {C : S → A → Prop} {I : List O → S → Prop}
    (hstep : ∀ t s a s', I t s → C s a → step s a = some s' →
      I (t ++ emit s a) s')
    {s s' : S} {as : List A} (hs : I [] s) (hC : Meets step C s as)
    (h : run step s as = some s') : I (trace step emit s as) s' := by
  suffices hgen : ∀ t, I t s → I (t ++ trace step emit s as) s' by
    simpa using hgen [] hs
  clear hs
  induction as generalizing s with
  | nil => cases h; intro t ht; simpa using ht
  | cons a as ih =>
      intro t ht
      obtain ⟨s₁, ha, hr⟩ := run_cons.1 h
      rw [trace_cons ha, ← List.append_assoc]
      exact ih (hC.2 s₁ ha) hr _ (hstep t s a s₁ ht hC.1 ha)

/-- A condition that every action of the list meets in every state. -/
theorem meets_of_forall {C : S → A → Prop} {as : List A}
    (h : ∀ a ∈ as, ∀ s, C s a) (s : S) : Meets step C s as := by
  induction as generalizing s with
  | nil => trivial
  | cons a as ih =>
      have htail := ih fun b hb => h b (List.mem_cons_of_mem a hb)
      exact ⟨h a List.mem_cons_self s, fun s' _ => htail s'⟩

theorem meets_true (s : S) (as : List A) : Meets step (fun _ _ => True) s as :=
  meets_of_forall (fun _ _ _ => trivial) s

theorem meets_cons {C : S → A → Prop} {s s' : S} {a : A} {as : List A}
    (h : step s a = some s') :
    Meets step C s (a :: as) ↔ C s a ∧ Meets step C s' as := by
  simp [Meets, h]

theorem meets_cons_none {C : S → A → Prop} {s : S} {a : A} {as : List A}
    (h : step s a = none) : Meets step C s (a :: as) ↔ C s a := by
  simp [Meets, h]

instance decidableMeets (C : S → A → Prop) [∀ s a, Decidable (C s a)] :
    ∀ s as, Decidable (Meets step C s as)
  | _, [] => isTrue trivial
  | s, a :: as =>
      match h : step s a with
      | none => decidable_of_iff (C s a) (meets_cons_none h).symm
      | some s' =>
          have := decidableMeets C s' as
          decidable_of_iff (C s a ∧ Meets step C s' as) (meets_cons h).symm

/-- The same rule over all runs. -/
theorem trace_invariant_all {I : List O → S → Prop}
    (hstep : ∀ t s a s', I t s → step s a = some s' → I (t ++ emit s a) s')
    {s s' : S} {as : List A} (hs : I [] s) (h : run step s as = some s') :
    I (trace step emit s as) s' :=
  trace_invariant (fun t s a s' hI _ ha => hstep t s a s' hI ha) hs
    (meets_true s as) h

/-! ## Before and after an event

A trace grows at its end, so what precedes an event is settled when it
happens, and what follows it grows by one event a step.
-/

theorem concat_eq_split {α : Type} {l pre post : List α} {a x : α} :
    l ++ [a] = pre ++ x :: post →
      (l = pre ∧ a = x ∧ post = []) ∨
        ∃ post', post = post' ++ [a] ∧ l = pre ++ x :: post' := by
  intro h
  rcases List.eq_nil_or_concat post with rfl | ⟨post', b, rfl⟩
  · obtain ⟨hl, ha⟩ := List.append_inj' h rfl
    exact .inl ⟨hl, by simpa using ha, rfl⟩
  · rw [List.concat_eq_append, ← List.cons_append, ← List.append_assoc] at h
    obtain ⟨hl, ha⟩ := List.append_inj' h rfl
    have hab : a = b := by simpa using ha
    exact .inr ⟨post', by rw [hab, List.concat_eq_append], hl⟩

theorem follows_concat {α : Type} {l : List α} {a : α} {P : α → Prop}
    {Q Q' : List α → Prop} (hnew : P a → Q' [])
    (hold : ∀ post, Q post → Q' (post ++ [a]))
    (h : ∀ pre x post, l = pre ++ x :: post → P x → Q post) :
    ∀ pre x post, l ++ [a] = pre ++ x :: post → P x → Q' post := by
  intro pre x post heq hx
  rcases concat_eq_split heq with ⟨-, rfl, rfl⟩ | ⟨post', rfl, heq'⟩
  · exact hnew hx
  · exact hold post' (h pre x post' heq' hx)

theorem precedes_concat {α : Type} {l : List α} {a : α} {P : α → Prop}
    {Q : List α → Prop} (hnew : P a → Q l)
    (h : ∀ pre x post, l = pre ++ x :: post → P x → Q pre) :
    ∀ pre x post, l ++ [a] = pre ++ x :: post → P x → Q pre := by
  intro pre x post heq hx
  rcases concat_eq_split heq with ⟨rfl, rfl, -⟩ | ⟨post', -, heq'⟩
  · exact hnew hx
  · exact h pre x post' heq' hx

end Lib.Machine
