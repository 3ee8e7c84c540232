import McpTemplate.Proofs.Channels
import Mathlib.Algebra.BigOperators.Group.List.Basic

/-!
# `drive` runs tool code as if `fetch` were a call

`drive` stops and re-enters `block_on` around every request, with the tool
future suspended in between and the reply travelling through a `oneshot`
cell. `Tool.direct` is what a tool author has in mind instead: the same code,
with `fetch(r).await` replaced by performing `r` on the spot. This file shows
the first is the second.

Three lemmas say what one turn of `drive` does, one for each way a poll of
the `select!` can end, and `drive_rule` is the loop rule they give: what
polling the future and serving a job both keep holds when `drive` returns.

For one tool the proof follows the tool. Whatever state its future is in, all
that matters is which tool code the next poll resumes, so the induction is on
that.

For a join the invariant is per arm (`Arm`): the value the arm is heading for
never changes, and an arm inside a `fetch` either has its own request in the
queue or its own reply in the cell. The number an `Arm` carries counts the
polls the arm still needs; its sum with the queue length drops whenever
anything happens at all, which is why the join ends under every polling order
that does not forget an arm for good.
-/

namespace McpTemplate.Bridge

open Lib

variable {Req Resp Val W σ : Type}

/-! ## Turns of `drive` -/

section Turns

variable {fut : Future σ Req Resp Val} {perform : W → Req → Reply Resp × W}

theorem blockOn_mono : ∀ {n m : Nat} {s : σ} {b : Channels Req Resp}
    {out : Step Req Val × σ × Channels Req Resp},
    blockOn fut n s b = some out → n ≤ m → blockOn fut m s b = some out := by
  intro n
  induction n with
  | zero => intro m s b out h _; simp [blockOn] at h
  | succ n ih =>
      intro m s b out h hle
      obtain ⟨m, rfl⟩ : ∃ k, m = k + 1 := ⟨m - 1, by omega⟩
      rw [blockOn] at h ⊢
      rcases hp : pollSelect fut s b with ⟨st, s', b'⟩
      rw [hp] at h
      cases st with
      | some st => exact h
      | none => exact ih h (by omega)

/-- A fuel that got an answer gets the same answer with more. -/
theorem drive_mono : ∀ {n m : Nat} {s : σ} {b : Channels Req Resp} {w : W}
    {out : Driven Req Resp Val W},
    drive fut perform n s b w = some out → n ≤ m →
    drive fut perform m s b w = some out := by
  intro n
  induction n with
  | zero => intro m s b w out h _; simp [drive] at h
  | succ n ih =>
      intro m s b w out h hle
      obtain ⟨m, rfl⟩ : ∃ k, m = k + 1 := ⟨m - 1, by omega⟩
      rw [drive] at h ⊢
      cases hb : blockOn fut (n + 1) s b with
      | none => rw [hb] at h; simp at h
      | some res =>
          rw [hb] at h
          rw [blockOn_mono hb hle]
          rcases res with ⟨st, s', b'⟩
          cases st with
          | done v => exact h
          | job j =>
              simp only [Option.map_eq_some_iff] at h ⊢
              obtain ⟨o, ho, rfl⟩ := h
              exact ⟨o, ih ho (by omega), rfl⟩

theorem drive_done {s s' : σ} {b b' : Channels Req Resp} {w : W} {v : Val}
    (hp : pollSelect fut s b = (some (.done v), s', b')) :
    drive fut perform 1 s b w = some ⟨v, [], b', w⟩ := by
  simp [drive, blockOn, hp]

theorem drive_job {s s' : σ} {b b' : Channels Req Resp} {w : W} {j : Job Req}
    {n : Nat} {out : Driven Req Resp Val W}
    (hp : pollSelect fut s b = (some (.job j), s', b'))
    (h : drive fut perform n s' (b'.sendReply j (perform w j.request).1)
      (perform w j.request).2 = some out) :
    drive fut perform (n + 1) s b w =
      some { out with requests := j.request :: out.requests } := by
  rw [drive, blockOn, hp]
  simp only [h, Option.map_some]

/-- A poll that suspends costs one unit and changes nothing else. -/
theorem drive_pending {s s' : σ} {b b' : Channels Req Resp} {w : W} {n : Nat}
    {out : Driven Req Resp Val W}
    (hp : pollSelect fut s b = (none, s', b'))
    (h : drive fut perform n s' b' w = some out) :
    drive fut perform (n + 1) s b w = some out := by
  cases n with
  | zero => simp [drive] at h
  | succ n =>
      have hblock : blockOn fut (n + 1 + 1) s b = blockOn fut (n + 1) s' b' := by
        rw [blockOn, hp]
      rw [drive, hblock]
      rw [drive] at h
      cases hb : blockOn fut (n + 1) s' b' with
      | none => rw [hb] at h; simp at h
      | some res =>
          rw [hb] at h
          rcases res with ⟨st, s₁, b₁⟩
          cases st with
          | done v => exact h
          | job j =>
              simp only [Option.map_eq_some_iff] at h ⊢
              obtain ⟨o, ho, rfl⟩ := h
              exact ⟨o, drive_mono ho (Nat.le_succ n), rfl⟩

theorem pollSelect_queue {s : σ} {b b' : Channels Req Resp} {j : Job Req}
    (h : b.pollNextJob = some (j, b')) :
    pollSelect fut s b = (some (.job j), s, b') := by
  simp [pollSelect, h]

theorem pollSelect_ready {s s' : σ} {b b' : Channels Req Resp} {v : Val}
    (hq : b.queue = []) (hf : fut s b = (.ready v, s', b')) :
    pollSelect fut s b = (some (.done v), s', b') := by
  simp [pollSelect, Channels.pollNextJob_eq_none.2 hq, hf]

theorem pollSelect_pending {s s' : σ} {b b' : Channels Req Resp}
    (hq : b.queue = []) (hf : fut s b = (.pending, s', b')) :
    pollSelect fut s b = (none, s', b') := by
  simp [pollSelect, Channels.pollNextJob_eq_none.2 hq, hf]

/-- What one poll of the future and one served job both keep. -/
structure Keeps (fut : Future σ Req Resp Val)
    (perform : W → Req → Reply Resp × W) (J : σ → Channels Req Resp → Prop)
    (Q : Val → Prop) : Prop where
  ready : ∀ {s b v s' b'}, J s b → b.queue = [] →
    fut s b = (.ready v, s', b') → Q v
  pending : ∀ {s b s' b'}, J s b → b.queue = [] →
    fut s b = (.pending, s', b') → J s' b'
  serve : ∀ {s b j b'} (w : W), J s b → b.pollNextJob = some (j, b') →
    J s (b'.sendReply j (perform w j.request).1)

theorem Keeps.pollSelect {J : σ → Channels Req Resp → Prop} {Q : Val → Prop}
    (hk : Keeps fut perform J Q) {s s' : σ} {b b' : Channels Req Resp}
    {st : Option (Step Req Val)} (hJ : J s b)
    (h : pollSelect fut s b = (st, s', b')) :
    match st with
    | none => J s' b'
    | some (.done v) => Q v
    | some (.job j) => ∀ w, J s' (b'.sendReply j (perform w j.request).1) := by
  cases hq : b.pollNextJob with
  | some jb =>
      obtain ⟨j, b₁⟩ := jb
      rw [pollSelect_queue hq] at h
      simp only [Prod.mk.injEq] at h
      obtain ⟨rfl, rfl, rfl⟩ := h
      exact fun w => hk.serve w hJ hq
  | none =>
      have hnil := Channels.pollNextJob_eq_none.1 hq
      rcases hf : fut s b with ⟨p, s₁, b₁⟩
      cases p with
      | ready v =>
          rw [pollSelect_ready hnil hf] at h
          simp only [Prod.mk.injEq] at h
          obtain ⟨rfl, rfl, rfl⟩ := h
          exact hk.ready hJ hnil hf
      | pending =>
          rw [pollSelect_pending hnil hf] at h
          simp only [Prod.mk.injEq] at h
          obtain ⟨rfl, rfl, rfl⟩ := h
          exact hk.pending hJ hnil hf

theorem Keeps.blockOn {J : σ → Channels Req Resp → Prop} {Q : Val → Prop}
    (hk : Keeps fut perform J Q) : ∀ {n : Nat} {s s' : σ}
    {b b' : Channels Req Resp} {st : Step Req Val}, J s b →
    blockOn fut n s b = some (st, s', b') →
    match st with
    | .done v => Q v
    | .job j => ∀ w, J s' (b'.sendReply j (perform w j.request).1) := by
  intro n
  induction n with
  | zero => intro s s' b b' st _ h; simp [Bridge.blockOn] at h
  | succ n ih =>
      intro s s' b b' st hJ h
      rw [Bridge.blockOn] at h
      rcases hp : Bridge.pollSelect fut s b with ⟨st₁, s₁, b₁⟩
      have hone := hk.pollSelect hJ hp
      rw [hp] at h
      cases st₁ with
      | none => exact ih hone h
      | some st₁ =>
          simp only [Option.some.injEq, Prod.mk.injEq] at h
          obtain ⟨rfl, rfl, rfl⟩ := h
          cases st₁ with
          | done v => exact hone
          | job j => exact hone

/-- The loop rule of `drive`. -/
theorem drive_rule {J : σ → Channels Req Resp → Prop} {Q : Val → Prop}
    (hk : Keeps fut perform J Q) : ∀ {n : Nat} {s : σ}
    {b : Channels Req Resp} {w : W} {out : Driven Req Resp Val W}, J s b →
    drive fut perform n s b w = some out → Q out.value := by
  intro n
  induction n with
  | zero => intro s b w out _ h; simp [drive] at h
  | succ n ih =>
      intro s b w out hJ h
      rw [drive] at h
      cases hb : Bridge.blockOn fut (n + 1) s b with
      | none => rw [hb] at h; simp at h
      | some res =>
          rcases res with ⟨st, s', b'⟩
          have hone := hk.blockOn hJ hb
          rw [hb] at h
          cases st with
          | done v =>
              simp only [Option.some.injEq] at h
              subst h
              exact hone
          | job j =>
              simp only [Option.map_eq_some_iff] at h
              obtain ⟨o, ho, rfl⟩ := h
              have hQ := ih (hone w) ho
              exact hQ

end Turns

/-! ## One tool -/

/-- The direct-style run: `fetch(r).await` performs `r` on the spot. -/
def Tool.direct (perform : W → Req → Reply Resp × W) :
    Tool Req Resp Val → W → Val × List Req × W
  | .done value, w => (value, [], w)
  | .pause next, w => next.direct perform w
  | .fetch request next, w =>
      let (result, w') := perform w request
      let (value, requests, w'') := (next result).direct perform w'
      (value, request :: requests, w'')

/-- From any state whose next poll resumes `tool`, `drive` does what the
direct run of `tool` does. -/
theorem drive_of_poll_eq (perform : W → Req → Reply Resp × W)
    (tool : Tool Req Resp Val) :
    ∀ (s : ToolState Req Resp Val) (b : Channels Req Resp) (w : W),
    b.queue = [] → Tool.poll s b = tool.resume b →
    ∃ n b', b'.queue = [] ∧
      drive Tool.poll perform n s b w =
        some ⟨(tool.direct perform w).1, (tool.direct perform w).2.1, b',
          (tool.direct perform w).2.2⟩ := by
  induction tool with
  | done v =>
      intro s b w hq hs
      exact ⟨1, b, hq, drive_done (pollSelect_ready hq hs)⟩
  | pause next ih =>
      intro s b w hq hs
      obtain ⟨n, b', hq', hn⟩ := ih (.ready next) b w hq rfl
      exact ⟨n + 1, b', hq', drive_pending (pollSelect_pending hq hs) hn⟩
  | fetch r next ih =>
      intro s b w hq hs
      -- The future suspends with its job alone in the queue; the next poll
      -- of the `select!` takes that job; the reply wakes the future.
      let j : Job Req := ⟨r, b.fresh⟩
      let b₁ : Channels Req Resp := { (b.submit r).2 with queue := [] }
      let b₂ := b₁.sendReply j (perform w r).1
      have hjob : (b.submit r).2.pollNextJob = some (j, b₁) := by
        rw [Channels.pollNextJob_eq_some]
        simp [hq, j, b₁]
      have hresume : Tool.poll (.waiting b.fresh next) b₂ =
          (next (perform w r).1).resume b₂ := by
        simp [Tool.poll, Channels.awaitReply, b₂, j]
      obtain ⟨n, b', hq', hn⟩ :=
        ih (perform w r).1 (.waiting b.fresh next) b₂ (perform w r).2 rfl hresume
      exact ⟨n + 1 + 1, b', hq', drive_pending (pollSelect_pending hq hs)
        (drive_job (pollSelect_queue hjob) hn)⟩

/-! ## Tools joined

From here on `perform` answers by the request alone: `f` is what it
answers. -/

/-- The value a tool returns when every request `r` is answered `f r`. -/
def Tool.result (f : Req → Reply Resp) : Tool Req Resp Val → Val
  | .done value => value
  | .pause next => next.result f
  | .fetch request next => (next (f request)).result f

/-- The polls and served jobs a tool still needs. -/
def Tool.size (f : Req → Reply Resp) : Tool Req Resp Val → Nat
  | .done _ => 1
  | .pause next => next.size f + 1
  | .fetch request next => (next (f request)).size f + 2

theorem Tool.direct_eq_result {perform : W → Req → Reply Resp × W}
    {f : Req → Reply Resp} (hf : ∀ w r, (perform w r).1 = f r)
    (tool : Tool Req Resp Val) (w : W) :
    (tool.direct perform w).1 = tool.result f := by
  induction tool generalizing w with
  | done v => rfl
  | pause next ih => exact ih w
  | fetch r next ih =>
      rw [Tool.result, ← hf w r]
      exact ih (perform w r).1 (perform w r).2

/-- The arm is heading for the value, and needs that many polls. -/
inductive Arm (f : Req → Reply Resp) (b : Channels Req Resp) :
    Val → Nat → Branch Req Resp Val → Prop
  | finished (v : Val) : Arm f b v 0 (.finished v)
  | ready (tool : Tool Req Resp Val) :
      Arm f b (tool.result f) (tool.size f) (.running (.ready tool))
  | queued (c : ReplyId) (r : Req) (next : Reply Resp → Tool Req Resp Val)
      (hq : ⟨r, c⟩ ∈ b.queue) :
      Arm f b ((next (f r)).result f) ((next (f r)).size f)
        (.running (.waiting c next))
  | replied (c : ReplyId) (res : Reply Resp)
      (next : Reply Resp → Tool Req Resp Val) (hs : b.slots c = .sent res)
      (hc : c < b.fresh) :
      Arm f b ((next res).result f) ((next res).size f)
        (.running (.waiting c next))

section Join

variable {f : Req → Reply Resp}

theorem Arm.submit {b : Channels Req Resp} {v : Val} {m : Nat}
    {br : Branch Req Resp Val} (h : Arm f b v m br) (r : Req) :
    Arm f (b.submit r).2 v m br := by
  cases h with
  | finished => exact .finished v
  | ready tool => exact .ready tool
  | queued c r' next hq => exact .queued c r' next (List.mem_append_left _ hq)
  | replied c res next hs hc =>
      refine .replied c res next ?_ (Nat.lt_succ_of_lt hc)
      rw [Channels.submit_slots, Function.update_of_ne (Nat.ne_of_lt hc)]
      exact hs

/-- Serving the job at the head answers the arm that waits for it, and no
other. -/
theorem Arm.serve {b b' : Channels Req Resp} {j : Job Req} {v : Val} {m : Nat}
    {br : Branch Req Resp Val} (hb : b.Wf)
    (hj : b.pollNextJob = some (j, b')) (h : Arm f b v m br) :
    Arm f (b'.sendReply j (f j.request)) v m br := by
  obtain ⟨hq, hb'⟩ := Channels.pollNextJob_eq_some.1 hj
  obtain ⟨_, _, hlt, hpend⟩ := hb.pollNextJob hj
  have hslots : b'.slots = b.slots := by rw [hb']
  have hfresh : b'.fresh = b.fresh := by rw [hb']
  cases h with
  | finished => exact .finished v
  | ready tool => exact .ready tool
  | queued c r next hmem =>
      rw [hq] at hmem
      rcases List.mem_cons.1 hmem with rfl | hmem
      · exact .replied c (f r) next (by simp) hlt
      · exact .queued c r next hmem
  | replied c res next hs hc =>
      refine .replied c res next ?_ (by simpa [hfresh] using hc)
      have hne : c ≠ j.reply := by
        rintro rfl
        rw [hslots, hs] at hpend
        cases hpend
      rw [Channels.sendReply_slots, Function.update_of_ne hne, hslots]
      exact hs

/-- The bridge after a poll of an arm: as before, or with one job more. -/
def Grows (b b' : Channels Req Resp) : Prop :=
  b' = b ∨ ∃ r, b' = (b.submit r).2

theorem Grows.wf {b b' : Channels Req Resp} (h : Grows b b') (hb : b.Wf) :
    b'.Wf := by
  rcases h with rfl | ⟨r, rfl⟩
  · exact hb
  · exact hb.submit r

/-- A change of the bridge that disturbs no arm. -/
def KeepsArms (Val : Type) (f : Req → Reply Resp) (b b' : Channels Req Resp) :
    Prop :=
  ∀ (v : Val) (m : Nat) (br : Branch Req Resp Val),
    Arm f b v m br → Arm f b' v m br

theorem Grows.keepsArms {b b' : Channels Req Resp} (h : Grows b b') :
    KeepsArms Val f b b' := by
  intro v m br ha
  rcases h with rfl | ⟨r, rfl⟩
  · exact ha
  · exact ha.submit r

/-- Resuming tool code brings its arm one step closer. -/
theorem Tool.resume_spec (tool : Tool Req Resp Val) (b : Channels Req Resp) :
    Grows b (tool.resume b).2.2 ∧
      match (tool.resume b).1 with
      | .ready v => v = tool.result f ∧ (tool.resume b).2.2 = b ∧ 0 < tool.size f
      | .pending => ∃ m, Arm f (tool.resume b).2.2 (tool.result f) m
          (.running (tool.resume b).2.1) ∧
          m + (tool.resume b).2.2.queue.length <
            tool.size f + b.queue.length := by
  cases tool with
  | done v => exact ⟨.inl rfl, rfl, rfl, Nat.one_pos⟩
  | pause next =>
      refine ⟨.inl rfl, next.size f, .ready next, ?_⟩
      simp only [Tool.resume, Tool.size]
      omega
  | fetch r next =>
      refine ⟨.inr ⟨r, rfl⟩, (next (f r)).size f,
        .queued b.fresh r next (by simp [Tool.resume]), ?_⟩
      simp only [Tool.resume, Tool.size, Channels.submit_queue,
        List.length_append, List.length_singleton]
      omega

/-- An arm a poll cannot move: finished, or inside a `fetch` that is still
queued. -/
def Stuck (b : Channels Req Resp) (br : Branch Req Resp Val) : Prop :=
  br.value? ≠ none ∨ b.queue ≠ []

/-- One arm polled: nothing happens because nothing can, or the arm comes
closer to its value. -/
theorem Branch.poll_spec {b : Channels Req Resp} {v : Val} {m : Nat}
    {br : Branch Req Resp Val} (hb : b.Wf) (h : Arm f b v m br) :
    (br.poll b = (br, b) ∧ Stuck b br) ∨
      Grows b (br.poll b).2 ∧ ∃ m', Arm f (br.poll b).2 v m' (br.poll b).1 ∧
        m' + (br.poll b).2.queue.length < m + b.queue.length := by
  -- The two arms that run tool code run it the same way.
  have hresume : ∀ (tool : Tool Req Resp Val) (s : ToolState Req Resp Val),
      Tool.poll s b = tool.resume b →
      Grows b ((Branch.running s).poll b).2 ∧
        ∃ m', Arm f ((Branch.running s).poll b).2 (tool.result f) m'
          ((Branch.running s).poll b).1 ∧
          m' + ((Branch.running s).poll b).2.queue.length <
            tool.size f + b.queue.length := by
    intro tool s hs
    obtain ⟨hg, hspec⟩ := Tool.resume_spec (f := f) tool b
    simp only [Branch.poll, hs]
    rcases hr : tool.resume b with ⟨p, s', b'⟩
    rw [hr] at hg hspec
    cases p with
    | ready v =>
        obtain ⟨rfl, hb', hpos⟩ := hspec
        simp only at hb'
        subst hb'
        refine ⟨hg, 0, .finished _, ?_⟩
        simp only
        omega
    | pending =>
        exact ⟨hg, hspec⟩
  cases h with
  | finished v => exact .inl ⟨rfl, .inl (by simp [Branch.value?])⟩
  | ready tool => exact .inr (hresume tool _ rfl)
  | queued c r next hq =>
      have hs : b.slots c = .pending := hb.pending _ hq
      refine .inl ⟨?_, .inr (List.ne_nil_of_mem hq)⟩
      simp [Branch.poll, Tool.poll, Channels.awaitReply, hs]
  | replied c res next hs hc =>
      exact .inr (hresume (next res) _ (by
        simp [Tool.poll, Channels.awaitReply, hs]))

/-! The arms together. `goals` lists the value each arm is heading for and
the polls it needs; only the second changes. -/

/-- Every arm of the join is on its way to its own goal. -/
def Arms (f : Req → Reply Resp) (b : Channels Req Resp)
    (goals : List (Val × Nat)) (branches : List (Branch Req Resp Val)) : Prop :=
  List.Forall₂ (fun goal br => Arm f b goal.1 goal.2 br) goals branches

def needs : List (Val × Nat) → Nat
  | [] => 0
  | goal :: goals => goal.2 + needs goals

/-- The polls and served jobs the join still needs. -/
def remaining (goals : List (Val × Nat)) (b : Channels Req Resp) : Nat :=
  needs goals + b.queue.length

theorem Arms.mono {b b' : Channels Req Resp} {goals : List (Val × Nat)}
    {branches : List (Branch Req Resp Val)} (h : Arms f b goals branches)
    (hk : KeepsArms Val f b b') : Arms f b' goals branches :=
  List.Forall₂.imp (fun _ _ ha => hk _ _ _ ha) h

/-- Replacing one arm by another with the same goal. -/
theorem Arms.set {b : Channels Req Resp} {goals : List (Val × Nat)}
    {branches : List (Branch Req Resp Val)} {i : Nat}
    {br : Branch Req Resp Val} (h : Arms f b goals branches)
    (hi : branches[i]? = some br) :
    ∃ v m, Arm f b v m br ∧ ∀ {b' m' br'},
      KeepsArms Val f b b' → Arm f b' v m' br' →
      ∃ goals', Arms f b' goals' (branches.set i br') ∧
        goals'.map Prod.fst = goals.map Prod.fst ∧
        needs goals' + m = needs goals + m' := by
  induction h generalizing i with
  | nil => simp at hi
  | @cons goal br₀ goals branches ha hrest ih =>
      cases i with
      | zero =>
          simp only [List.getElem?_cons_zero, Option.some.injEq] at hi
          subst hi
          refine ⟨goal.1, goal.2, ha, fun {b' m' br'} hk hbr' => ?_⟩
          refine ⟨(goal.1, m') :: goals, ?_, by simp, ?_⟩
          · exact .cons hbr' (Arms.mono hrest hk)
          · rw [needs, needs]
            omega
      | succ i =>
          obtain ⟨v, m, harm, hset⟩ := ih (i := i) (by simpa using hi)
          refine ⟨v, m, harm, fun {b' m' br'} hk hbr' => ?_⟩
          obtain ⟨goals', hg, hfst, hsnd⟩ := hset hk hbr'
          refine ⟨goal :: goals', ?_, by simp [hfst], ?_⟩
          · exact .cons (hk _ _ _ ha) hg
          · rw [needs, needs]
            omega

/-- One round of polling: nothing happens because every arm it visits is
stuck, or the join comes closer to its end. -/
theorem pollBranches_spec : ∀ (order : List Nat) {b : Channels Req Resp}
    {goals : List (Val × Nat)} {branches : List (Branch Req Resp Val)},
    b.Wf → Arms f b goals branches →
    (pollBranches order branches b = (branches, b) ∧
      ∀ i ∈ order, ∀ br, branches[i]? = some br → Stuck b br) ∨
    ∃ goals', (pollBranches order branches b).2.Wf ∧
      Arms f (pollBranches order branches b).2 goals'
        (pollBranches order branches b).1 ∧
      goals'.map Prod.fst = goals.map Prod.fst ∧
      remaining goals' (pollBranches order branches b).2 <
        remaining goals b := by
  intro order
  induction order with
  | nil => intro b goals branches _ _; exact .inl ⟨rfl, by simp⟩
  | cons i order ih =>
      intro b goals branches hb harms
      rw [pollBranches]
      cases hi : branches[i]? with
      | none =>
          simp only
          rcases ih hb harms with ⟨heq, hstuck⟩ | hprog
          · refine .inl ⟨heq, fun k hk br hbr => ?_⟩
            rcases List.mem_cons.1 hk with rfl | hk
            · rw [hi] at hbr; cases hbr
            · exact hstuck k hk br hbr
          · exact .inr hprog
      | some br =>
          simp only
          obtain ⟨v, m, harm, hset⟩ := harms.set hi
          rcases Branch.poll_spec hb harm with ⟨heq, hst⟩ | ⟨hg, m', harm', hlt⟩
          · have hself : branches.set i br = branches := by
              obtain ⟨hlt, rfl⟩ := List.getElem?_eq_some_iff.1 hi
              exact List.set_getElem_self hlt
            rw [heq, hself]
            rcases ih hb harms with ⟨heq', hstuck⟩ | hprog
            · refine .inl ⟨heq', fun k hk br' hbr => ?_⟩
              rcases List.mem_cons.1 hk with rfl | hk
              · rw [hi] at hbr; cases hbr; exact hst
              · exact hstuck k hk br' hbr
            · exact .inr hprog
          · obtain ⟨goals', harms', hfst, hsnd⟩ := hset hg.keepsArms harm'
            have hdrop : remaining goals' (br.poll b).2 < remaining goals b := by
              unfold remaining
              omega
            rcases ih (hg.wf hb) harms' with ⟨heq', _⟩ | ⟨goals₂, hb₂, ha₂, hf₂, hlt₂⟩
            · rw [heq']
              exact .inr ⟨goals', hg.wf hb, harms', hfst, hdrop⟩
            · exact .inr ⟨goals₂, hb₂, ha₂, hf₂.trans hfst, by omega⟩

theorem Arm.value {b : Channels Req Resp} {v v' : Val} {m : Nat}
    {br : Branch Req Resp Val} (h : Arm f b v m br) (hv : br.value? = some v') :
    v' = v := by
  cases h with
  | finished => cases hv; rfl
  | ready | queued | replied => cases hv

theorem Arms.values {b : Channels Req Resp} {goals : List (Val × Nat)}
    {branches : List (Branch Req Resp Val)} {values : List Val}
    (h : Arms f b goals branches)
    (hv : branches.mapM Branch.value? = some values) :
    values = goals.map Prod.fst := by
  induction h generalizing values with
  | nil => simpa using hv.symm
  | @cons goal br goals branches ha hrest ih =>
      simp only [List.mapM_cons, Option.bind_eq_bind, Option.bind_eq_some_iff,
        Option.pure_def, Option.some.injEq] at hv
      obtain ⟨v, hbr, vs, hvs, rfl⟩ := hv
      rw [ha.value hbr, ih hvs, List.map_cons]

theorem exists_running {branches : List (Branch Req Resp Val)}
    (h : branches.mapM Branch.value? = none) :
    ∃ (i : Nat) (br : Branch Req Resp Val),
      branches[i]? = some br ∧ br.value? = none := by
  induction branches with
  | nil => simp at h
  | cons br branches ih =>
      cases hbr : br.value? with
      | none => exact ⟨0, br, rfl, hbr⟩
      | some v =>
          have hrest : branches.mapM Branch.value? = none := by
            cases hm : branches.mapM Branch.value? with
            | none => rfl
            | some vs => simp [List.mapM_cons, hbr, hm] at h
          obtain ⟨i, br', hi, hnone⟩ := ih hrest
          exact ⟨i + 1, br', by simpa using hi, hnone⟩

/-- Every arm keeps its goal, whatever the order of polling. -/
theorem join_keeps (order : Nat → List Nat)
    {perform : W → Req → Reply Resp × W} (hf : ∀ w r, (perform w r).1 = f r)
    (values : List Val) :
    Keeps (Join.poll order) perform
      (fun s b => b.Wf ∧ ∃ goals, Arms f b goals s.branches ∧
        goals.map Prod.fst = values)
      (· = values) := by
  have hround : ∀ {s : JoinState Req Resp Val} {b : Channels Req Resp}
      {goals : List (Val × Nat)}, b.Wf → Arms f b goals s.branches →
      goals.map Prod.fst = values →
      (pollBranches (order s.polls) s.branches b).2.Wf ∧
        ∃ goals', Arms f (pollBranches (order s.polls) s.branches b).2 goals'
          (pollBranches (order s.polls) s.branches b).1 ∧
          goals'.map Prod.fst = values := by
    intro s b goals hb harms hvals
    rcases pollBranches_spec (order s.polls) hb harms with ⟨heq, _⟩ | hprog
    · rw [heq]; exact ⟨hb, goals, harms, hvals⟩
    · obtain ⟨goals', hb', harms', hfst, _⟩ := hprog
      exact ⟨hb', goals', harms', hfst.trans hvals⟩
  constructor
  · rintro s b v s' b' ⟨hb, goals, harms, hvals⟩ _ hp
    obtain ⟨_, goals', harms', hvals'⟩ := hround hb harms hvals
    simp only [Join.poll] at hp
    cases hm : (pollBranches (order s.polls) s.branches b).1.mapM
        Branch.value? with
    | none => simp [hm] at hp
    | some vs =>
        simp only [hm, Prod.mk.injEq, Poll.ready.injEq] at hp
        rw [← hp.1, harms'.values hm, hvals']
  · rintro s b s' b' ⟨hb, goals, harms, hvals⟩ _ hp
    have hnext := hround hb harms hvals
    simp only [Join.poll] at hp
    cases hm : (pollBranches (order s.polls) s.branches b).1.mapM
        Branch.value? with
    | some vs => simp [hm] at hp
    | none =>
        simp only [hm, Prod.mk.injEq, true_and] at hp
        obtain ⟨rfl, rfl⟩ := hp
        exact hnext
  · rintro s b j b' w ⟨hb, goals, harms, hvals⟩ hj
    obtain ⟨hb', hnot, _, _⟩ := hb.pollNextJob hj
    rw [hf w]
    exact ⟨hb'.sendReply hnot _, goals,
      harms.mono fun _ _ _ ha => ha.serve hb hj, hvals⟩

/-- A polling order that comes back to each of the first `k` arms for ever:
a woken arm is polled again. -/
def Fair (order : Nat → List Nat) (k : Nat) : Prop :=
  ∀ i, i < k → ∀ n, ∃ n', n ≤ n' ∧ i ∈ order n'

theorem pollSelect_join {order : Nat → List Nat} {s : JoinState Req Resp Val}
    {b b' : Channels Req Resp} {branches : List (Branch Req Resp Val)}
    (hnil : b.queue = [])
    (h : pollBranches (order s.polls) s.branches b = (branches, b')) :
    pollSelect (Join.poll order) s b =
      ((branches.mapM Branch.value?).map Step.done,
        ⟨branches, s.polls + 1⟩, b') := by
  cases hm : branches.mapM Branch.value? with
  | some vs => exact pollSelect_ready hnil (by simp [Join.poll, h, hm])
  | none => exact pollSelect_pending hnil (by simp [Join.poll, h, hm])

/-- One turn on an empty queue, when the join does not end in it: the arms
come closer to their end, or every arm the poll visited is stuck. -/
theorem join_turn {order : Nat → List Nat}
    {perform : W → Req → Reply Resp × W} {s : JoinState Req Resp Val}
    {b : Channels Req Resp} {w : W} {goals : List (Val × Nat)}
    (hnil : b.queue = []) (hb : b.Wf) (harms : Arms f b goals s.branches)
    (hend : ¬ ∃ out, drive (Join.poll order) perform 1 s b w = some out) :
    ∃ s' b', pollSelect (Join.poll order) s b = (none, s', b') ∧ b'.Wf ∧
      s'.branches.length = s.branches.length ∧ s'.polls = s.polls + 1 ∧
      ((∃ goals', Arms f b' goals' s'.branches ∧
          remaining goals' b' < remaining goals b) ∨
        s'.branches = s.branches ∧ b' = b ∧
          s.branches.mapM Branch.value? = none ∧
          ∀ i ∈ order s.polls, ∀ br, s.branches[i]? = some br → Stuck b br) := by
  rcases hp : pollBranches (order s.polls) s.branches b with ⟨branches, b'⟩
  have hsel := pollSelect_join hnil hp
  cases hm : branches.mapM Branch.value? with
  | some vs =>
      rw [hm] at hsel
      exact absurd ⟨_, drive_done hsel⟩ hend
  | none =>
      rw [hm] at hsel
      refine ⟨⟨branches, s.polls + 1⟩, b', hsel, ?_⟩
      rcases pollBranches_spec (order s.polls) hb harms with ⟨heq, hst⟩ | hprog
      · rw [hp, Prod.mk.injEq] at heq
        obtain ⟨rfl, rfl⟩ := heq
        exact ⟨hb, rfl, rfl, .inr ⟨rfl, rfl, hm, hst⟩⟩
      · rw [hp] at hprog
        obtain ⟨goals', hb', harms', hfst, hlt⟩ := hprog
        have hlen := congrArg List.length hfst
        simp only [List.length_map] at hlen
        refine ⟨hb', ?_, rfl, .inl ⟨goals', harms', hlt⟩⟩
        rw [← harms'.length_eq, ← harms.length_eq, hlen]

/-- On an empty queue the join turns until the poll that visits an arm that
can move, when a turn that brings the arms closer to their end is enough. -/
theorem drive_join_waits {order : Nat → List Nat}
    {perform : W → Req → Reply Resp × W} {k need : Nat}
    {b : Channels Req Resp} {w : W} {goals : List (Val × Nat)}
    (hnil : b.queue = []) (hb : b.Wf) (hneed : remaining goals b = need)
    (hcloser : ∀ (s' : JoinState Req Resp Val) (b' : Channels Req Resp)
      (goals' : List (Val × Nat)), s'.branches.length = k → b'.Wf →
      Arms f b' goals' s'.branches → remaining goals' b' < need →
      ∃ n out, drive (Join.poll order) perform n s' b' w = some out)
    (wait : Nat) :
    ∀ s : JoinState Req Resp Val, s.branches.length = k →
      Arms f b goals s.branches →
      (s.branches.mapM Branch.value? = none →
        ∃ i ∈ order (s.polls + wait), ∃ br, s.branches[i]? = some br ∧
          ¬ Stuck b br) →
      ∃ n out, drive (Join.poll order) perform n s b w = some out := by
  induction wait with
  | zero =>
      intro s hk harms htarget
      by_cases hend : ∃ out, drive (Join.poll order) perform 1 s b w = some out
      · exact ⟨1, hend⟩
      · obtain ⟨s', b', hsel, hb', hlen, -, hprog | ⟨-, -, hm, hst⟩⟩ :=
          join_turn hnil hb harms hend
        · obtain ⟨goals', harms', hlt⟩ := hprog
          obtain ⟨n, out, hn⟩ := hcloser s' b' goals' (hlen.trans hk) hb' harms'
            (hneed ▸ hlt)
          exact ⟨n + 1, out, drive_pending hsel hn⟩
        · obtain ⟨i, hi, br, hbr, hnot⟩ := htarget hm
          exact absurd (hst i hi br hbr) hnot
  | succ wait ih =>
      intro s hk harms htarget
      by_cases hend : ∃ out, drive (Join.poll order) perform 1 s b w = some out
      · exact ⟨1, hend⟩
      · obtain ⟨s', b', hsel, hb', hlen, hpolls, hprog | ⟨hsame, rfl, hm, -⟩⟩ :=
          join_turn hnil hb harms hend
        · obtain ⟨goals', harms', hlt⟩ := hprog
          obtain ⟨n, out, hn⟩ := hcloser s' b' goals' (hlen.trans hk) hb' harms'
            (hneed ▸ hlt)
          exact ⟨n + 1, out, drive_pending hsel hn⟩
        · -- a turn in which nothing moved brings the poll one turn nearer
          have hnear : s'.polls + wait = s.polls + (wait + 1) := by omega
          obtain ⟨n, out, hn⟩ := ih s' (hlen.trans hk) (hsame ▸ harms) (by
            rw [hnear, hsame]
            exact htarget)
          exact ⟨n + 1, out, drive_pending hsel hn⟩

/-- Under a fair order the join ends, by induction on what its arms still
need. -/
theorem drive_join_returns {order : Nat → List Nat}
    {perform : W → Req → Reply Resp × W} (hf : ∀ w r, (perform w r).1 = f r)
    {k : Nat} (hfair : Fair order k) :
    ∀ (need : Nat) {goals : List (Val × Nat)} (s : JoinState Req Resp Val)
    (b : Channels Req Resp) (w : W), s.branches.length = k → b.Wf →
    Arms f b goals s.branches → remaining goals b = need →
    ∃ n out, drive (Join.poll order) perform n s b w = some out := by
  intro need
  induction need using Nat.strongRecOn with
  | ind need ih =>
    intro goals s b w hk hb harms hneed
    cases hq : b.pollNextJob with
    | some jb =>
        -- A job is queued: `drive` serves it before it polls anything.
        obtain ⟨j, b'⟩ := jb
        obtain ⟨hb', hnot, _, _⟩ := hb.pollNextJob hq
        have hlen : b.queue.length = b'.queue.length + 1 := by
          rw [(Channels.pollNextJob_eq_some.1 hq).1, List.length_cons]
        have hserve := harms.mono (fun _ _ _ ha => ha.serve hb hq)
        rw [← hf w j.request] at hserve
        have hlt : remaining goals (b'.sendReply j (perform w j.request).1) <
            need := by
          rw [← hneed]
          simp only [remaining, Channels.sendReply_queue, hlen]
          omega
        obtain ⟨n, out, hn⟩ := ih _ hlt s _ (perform w j.request).2 hk
          (hb'.sendReply hnot _) hserve rfl
        exact ⟨n + 1, _, drive_job (pollSelect_queue hq) hn⟩
    | none =>
        have hnil := Channels.pollNextJob_eq_none.1 hq
        -- The poll at which some arm that can move is visited.
        obtain ⟨wait, htarget⟩ : ∃ wait,
            s.branches.mapM Branch.value? = none →
              ∃ i ∈ order (s.polls + wait), ∃ br, s.branches[i]? = some br ∧
                ¬ Stuck b br := by
          cases hm : s.branches.mapM Branch.value? with
          | some vs => exact ⟨0, fun h => by cases h⟩
          | none =>
              obtain ⟨i, br, hi, hnone⟩ := exists_running hm
              have hlt : i < k := by
                rw [← hk]; exact (List.getElem?_eq_some_iff.1 hi).1
              obtain ⟨n', hn', hmem⟩ := hfair i hlt s.polls
              refine ⟨n' - s.polls, fun _ => ⟨i, ?_, br, hi, ?_⟩⟩
              · rwa [Nat.add_sub_cancel' hn']
              · simp [Stuck, hnone, hnil]
        exact drive_join_waits hnil hb hneed
          (fun s' b' goals' hk' hb' harms' hlt =>
            ih _ hlt s' b' w hk' hb' harms' rfl)
          wait s hk harms htarget

end Join

theorem Arms.start {f : Req → Reply Resp} (b : Channels Req Resp)
    (tools : List (Tool Req Resp Val)) :
    Arms f b (tools.map fun tool => (tool.result f, tool.size f))
      (Join.start tools).branches := by
  induction tools with
  | nil => exact .nil
  | cons tool tools ih => exact .cons (.ready tool) ih

/-- `drive` is the direct run. One tool: the same value, the same requests in
the same order, the same effect on the outside world, and an empty queue.
Tools joined, when requests are answered by what they are: whenever `drive`
returns, each tool has the value of its own direct run, whatever the polling
order; and under an order that polls every arm again and again it returns. -/
theorem drive_runs_tools_directly (perform : W → Req → Reply Resp × W)
    (b : Channels Req Resp) (w : W) (hq : b.queue = []) :
    (∀ tool : Tool Req Resp Val, ∃ n b', b'.queue = [] ∧ ∀ m, n ≤ m →
      drive Tool.poll perform m (.ready tool) b w =
        some ⟨(tool.direct perform w).1, (tool.direct perform w).2.1, b',
          (tool.direct perform w).2.2⟩) ∧
    ((∃ f : Req → Reply Resp, ∀ w r, (perform w r).1 = f r) →
      ∀ (tools : List (Tool Req Resp Val)) (order : Nat → List Nat),
        (∀ m out, drive (Join.poll order) perform m (Join.start tools) b w =
            some out →
          out.value = tools.map fun tool => (tool.direct perform w).1) ∧
        (Fair order tools.length → ∃ n out, ∀ m, n ≤ m →
          drive (Join.poll order) perform m (Join.start tools) b w =
            some out)) := by
  constructor
  · intro tool
    obtain ⟨n, b', hq', hn⟩ :=
      drive_of_poll_eq perform tool (.ready tool) b w hq rfl
    exact ⟨n, b', hq', fun m hm => drive_mono hn hm⟩
  · rintro ⟨f, hf⟩ tools order
    have hb : b.Wf := .of_queue_nil hq
    have harms := Arms.start (f := f) b tools
    constructor
    · intro m out hm
      have hvals := drive_rule (join_keeps order hf (tools.map (Tool.result f)))
        ⟨hb, _, harms, by simp⟩ hm
      rw [hvals]
      exact List.map_congr_left fun tool _ => (tool.direct_eq_result hf w).symm
    · intro hfair
      obtain ⟨n, out, hn⟩ := drive_join_returns hf hfair _ (Join.start tools) b
        w (by simp [Join.start]) hb harms rfl
      exact ⟨n, out, fun m hm => drive_mono hn hm⟩

/-- A tool that fetches its argument and then what the reply says, and a tool
that waits first, joined with the second polled first. -/
theorem drive_runs_tools_directly_pair :
    let perform : Nat → Nat → Reply Nat × Nat := fun w r => (.ok (r + 1), w + 1)
    let chained : Tool Nat Nat (Option (Reply Nat)) :=
      .fetch 10 fun
        | .ok r => .fetch r fun res => .done (some res)
        | .error _ => .done none
    let waits : Tool Nat Nat (Option (Reply Nat)) :=
      .pause (.fetch 5 fun res => .done (some res))
    ∃ n out, ∀ m, n ≤ m →
      drive (Join.poll fun _ => [1, 0]) perform m
        (Join.start [chained, waits]) .init 0 = some out ∧
      out.value = [some (.ok 12), some (.ok 6)] := by
  intro perform chained waits
  have hboth := (drive_runs_tools_directly perform
    .init 0 rfl).2 ⟨fun r => .ok (r + 1), fun _ _ => rfl⟩ [chained, waits]
    (fun _ => [1, 0])
  obtain ⟨n, out, hn⟩ := hboth.2 (fun i hi k => ⟨k, Nat.le_refl k, by
    have hi' : i < 2 := hi
    simp only [List.mem_cons, List.not_mem_nil, or_false]
    omega⟩)
  exact ⟨n, out, fun m hm => ⟨hn m hm, hboth.1 m out (hn m hm)⟩⟩

end McpTemplate.Bridge
