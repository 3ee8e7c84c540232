import McpTemplate.Src.Bridge

/-!
# The job queue and its reply channels stay consistent

A queued job owns the sending half of a reply channel, so as long as it is
queued nobody has answered it, no other queued job answers to the same
channel, and the channel was made before now. `Channels.Wf` says that, and
every operation of the bridge keeps it; the one side condition is on a reply
or a drop, which must be for a job that has left the queue.
-/

namespace McpTemplate.Bridge

open Lib

variable {Req Resp : Type}

/-- Every queued job waits on a pending reply channel of its own. -/
structure Channels.Wf (b : Channels Req Resp) : Prop where
  fresh : ∀ j ∈ b.queue, j.reply < b.fresh
  pending : ∀ j ∈ b.queue, b.slots j.reply = .pending
  nodup : (b.queue.map Job.reply).Nodup

namespace Channels.Wf

theorem of_queue_nil {b : Channels Req Resp} (h : b.queue = []) : b.Wf :=
  ⟨by simp [h], by simp [h], by simp [h]⟩

theorem submit {b : Channels Req Resp} (hb : b.Wf) (r : Req) :
    (b.submit r).2.Wf := by
  refine ⟨?_, ?_, ?_⟩
  · intro j hj
    rcases List.mem_append.1 hj with hj | hj
    · exact Nat.lt_succ_of_lt (hb.fresh j hj)
    · rw [List.mem_singleton.1 hj]; exact Nat.lt_succ_self _
  · intro j hj
    rcases List.mem_append.1 hj with hj | hj
    · have hne : j.reply ≠ b.fresh := Nat.ne_of_lt (hb.fresh j hj)
      rw [submit_slots, Function.update_of_ne hne]
      exact hb.pending j hj
    · rw [List.mem_singleton.1 hj, submit_slots, Function.update_self]
  · rw [submit_queue, List.map_append, List.map_singleton]
    refine List.nodup_append.2 ⟨hb.nodup, by simp, ?_⟩
    intro c hc c' hc'
    obtain ⟨j, hj, rfl⟩ := List.mem_map.1 hc
    rw [List.mem_singleton.1 hc']
    exact Nat.ne_of_lt (hb.fresh j hj)

/-- Taking a job leaves it the only holder of its channel. -/
theorem pollNextJob {b b' : Channels Req Resp} {j : Job Req} (hb : b.Wf)
    (h : b.pollNextJob = some (j, b')) :
    b'.Wf ∧ j.reply ∉ b'.queue.map Job.reply ∧ j.reply < b'.fresh ∧
      b'.slots j.reply = .pending := by
  obtain ⟨hq, hb'⟩ := pollNextJob_eq_some.1 h
  have hslots : b'.slots = b.slots := by rw [hb']
  have hfresh : b'.fresh = b.fresh := by rw [hb']
  have hnodup := hb.nodup
  rw [hq, List.map_cons, List.nodup_cons] at hnodup
  have hmem : ∀ k ∈ b'.queue, k ∈ b.queue := fun k hk => by
    rw [hq]; exact List.mem_cons_of_mem _ hk
  have hj : j ∈ b.queue := by rw [hq]; exact List.mem_cons_self
  refine ⟨⟨?_, ?_, hnodup.2⟩, hnodup.1, ?_, ?_⟩
  · intro k hk; rw [hfresh]; exact hb.fresh k (hmem k hk)
  · intro k hk; rw [hslots]; exact hb.pending k (hmem k hk)
  · rw [hfresh]; exact hb.fresh j hj
  · rw [hslots]; exact hb.pending j hj

/-- Writing to a channel no queued job holds. -/
theorem update {b : Channels Req Resp} (hb : b.Wf) {c : ReplyId}
    (hc : c ∉ b.queue.map Job.reply) (slot : Slot Resp) :
    Channels.Wf { b with slots := Function.update b.slots c slot } := by
  refine ⟨hb.fresh, fun j hj => ?_, hb.nodup⟩
  have hne : j.reply ≠ c := by
    rintro rfl
    exact hc (List.mem_map_of_mem hj)
  exact (Function.update_of_ne hne _ _).trans (hb.pending j hj)

theorem sendReply {b : Channels Req Resp} (hb : b.Wf) {j : Job Req}
    (hj : j.reply ∉ b.queue.map Job.reply) (result : Reply Resp) :
    (b.sendReply j result).Wf :=
  hb.update hj _

theorem dropJob {b : Channels Req Resp} (hb : b.Wf) {j : Job Req}
    (hj : j.reply ∉ b.queue.map Job.reply) : (b.dropJob j).Wf :=
  hb.update hj _

theorem drainStaleJobs (b : Channels Req Resp) : b.drainStaleJobs.Wf :=
  of_queue_nil (drainStaleJobs_queue b)

end Channels.Wf

end McpTemplate.Bridge
