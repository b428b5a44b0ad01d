/-
# The prefetch queue

Model of the lists of prefetches of `Queued` (mem/cache/prefetch/queued.cc).  `alreadyInQueue`
searches a prefetch to raise its priority, and its loop goes on by one packet once it found it:
the packet that is raised is the one behind.
-/
import Gem5.Run

open List

namespace PrefetchQueue

/-- A prefetch with its priority; of `pfInfo` the address and the security are compared. -/
structure DeferredPacket (α : Type) where
  pfInfo : α
  priority : ℤ
  deriving DecidableEq

variable {α : Type}

/-- The loop that swaps `it` with packets of a lower priority.  `front` has what is before `prev`,
the last one first, and `between` what is between `prev` and `it`. -/
def bubble (it : DeferredPacket α) (between behind : List (DeferredPacket α)) :
    List (DeferredPacket α) → List (DeferredPacket α)
  | [] => between ++ it :: behind
  | prev :: front =>
    if prev.priority < it.priority then bubble it [] (between ++ prev :: behind) front
    else bubble it (prev :: between) behind front

variable [DecidableEq α]

def alreadyInQueue (queue : List (DeferredPacket α)) (pfi : α) (priority : ℤ) :
    Bool × List (DeferredPacket α) :=
  match queue.dropWhile (·.pfInfo ≠ pfi) with
  | [] => (false, queue)
  -- `it++` of the loop comes before its test, so `it` is past the packet that was found
  | [_] => (true, queue)
  | found :: it :: behind =>
    (true, if it.priority < priority then
        bubble { it with priority } [] behind (found :: (queue.takeWhile (·.pfInfo ≠ pfi)).reverse)
      else queue)

/-- The packet of a request, and no other, gets its priority if that is higher, and the order
is restored. -/
def Updated (queue : List (DeferredPacket α)) (pfi : α) (priority : ℤ)
    (result : Bool × List (DeferredPacket α)) : Prop :=
  (result.1 ↔ ∃ e ∈ queue, e.pfInfo = pfi) ∧
    if ∃ e ∈ queue, e.pfInfo = pfi ∧ e.priority < priority then
      result.2.Perm (queue.map fun e => if e.pfInfo = pfi then { e with priority } else e) ∧
        result.2.Pairwise fun e e' => e'.priority ≤ e.priority
    else result.2 = queue

omit [DecidableEq α] in
theorem bubble_perm (it : DeferredPacket α) (between behind front : List (DeferredPacket α)) :
    (bubble it between behind front).Perm (it :: (front ++ between ++ behind)) := by
  induction front generalizing between behind with
  | nil => exact perm_middle
  | cons prev front ih =>
    rw [bubble]
    split_ifs <;> refine (ih _ _).trans (Perm.cons it ?_)
    · rw [append_nil, ← append_assoc]
      exact perm_middle.trans (by simp)
    · rw [append_assoc, cons_append]
      exact perm_middle.trans (by simp)

/-- **A request updates its packet** just if there is nothing to update: there is no such packet,
or it and the one behind it have at least this priority. -/
theorem updated_iff {queue : List (DeferredPacket α)} (hdistinct : (queue.map (·.pfInfo)).Nodup)
    (pfi : α) (priority : ℤ) :
    Updated queue pfi priority (alreadyInQueue queue pfi priority) ↔
      ∀ n ∈ (queue.dropWhile (·.pfInfo ≠ pfi)).take 2, priority ≤ n.priority := by
  rw [alreadyInQueue]
  cases hdrop : queue.dropWhile (·.pfInfo ≠ pfi) with
  | nil =>
    have hnone : ∀ e ∈ queue, e.pfInfo ≠ pfi := by simpa using hdrop
    refine iff_of_true ⟨by simpa using hnone, ?_⟩ nofun
    rw [if_neg fun ⟨e, he, heq, _⟩ => hnone e he heq]
  | cons found rest =>
    have hsplit := takeWhile_append_dropWhile (p := fun e => e.pfInfo ≠ pfi) (l := queue)
    have hpfi := head?_dropWhile_not (fun e => e.pfInfo ≠ pfi) queue
    rw [hdrop] at hsplit hpfi
    replace hpfi : found.pfInfo = pfi := by simpa using hpfi
    have hmem : found ∈ queue := hsplit ▸ mem_append_right _ mem_cons_self
    have hlow : (∃ e ∈ queue, e.pfInfo = pfi ∧ e.priority < priority) ↔
        found.priority < priority := by
      refine ⟨fun ⟨e, he, heq, hlt⟩ => ?_, fun hlt => ⟨found, hmem, hpfi, hlt⟩⟩
      exact inj_on_of_nodup_map hdistinct he hmem (heq.trans hpfi.symm) ▸ hlt
    -- if it had to be raised it would not be there as it was
    have hresult : ∀ queue', found ∈ queue' → (Updated queue pfi priority (true, queue') ↔
        priority ≤ found.priority ∧ queue' = queue) := by
      intro queue' hin
      simp only [Updated, hlow]
      split_ifs with hlt
      · refine iff_of_false (fun h => ?_) fun h => h.1.not_gt hlt
        obtain ⟨e, he, heq⟩ := mem_map.mp (h.2.1.mem_iff.mp hin)
        split_ifs at heq with hsame
        · exact hlt.ne (by rw [← heq])
        · exact hsame (heq ▸ hpfi)
      · exact and_congr (iff_of_true (by simpa using ⟨found, hmem, hpfi⟩) (not_lt.mp hlt)) .rfl
    cases rest with
    | nil => simpa using hresult queue hmem
    | cons it behind =>
      dsimp only
      split_ifs with hraise
      · have hperm := bubble_perm { it with priority } [] behind
          (found :: (queue.takeWhile (·.pfInfo ≠ pfi)).reverse)
        rw [hresult _ (hperm.mem_iff.mpr (by simp))]
        refine iff_of_false (fun h => ?_) fun h => (h it (by simp)).not_gt hraise
        have hin : { it with priority } ∈ queue := h.2 ▸ hperm.mem_iff.mpr mem_cons_self
        have hit : it ∈ queue := hsplit ▸ by simp
        exact hraise.ne (congrArg (·.priority) (inj_on_of_nodup_map hdistinct hit hin rfl))
      · simp [hresult queue hmem, not_lt.mp hraise]

theorem updated_iff_two : Updated [⟨1, 5⟩, ⟨2, 3⟩] 1 2 (alreadyInQueue [⟨1, 5⟩, ⟨2, 3⟩] 1 2) :=
  (updated_iff (by decide) 1 2).mpr (by decide)

/-- A request for the first packet raises the second one. -/
theorem next_raised : alreadyInQueue [⟨1, 5⟩, ⟨2, 3⟩] 1 7 = (true, [⟨2, 7⟩, ⟨1, 5⟩]) := by
  decide

end PrefetchQueue
