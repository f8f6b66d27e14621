import Csci402.Proc.SchedCalls
import Mathlib.Data.List.Nodup

/-! The order in a wait queue: its sleepers, oldest first, each with the time at
which it queued. Going to sleep adds an entry at the end, becoming runnable takes
one out, and calls that leave the queue alone change nothing. -/

namespace Csci402.Proc.Sched

variable {T W : Type*}

/-- The sleepers of a wait queue with the times at which they queued, oldest first. -/
def entries (w : W) (s : Sched T W) : List (T × ℕ) :=
  (s.queue (.wait w)).tqList.reverse.map fun t => (t, s.stamp t)

variable {w : W} {s : Sched T W}

theorem entries_congr {s' : Sched T W} (hq : (s'.queue (.wait w)).tqList = (s.queue (.wait w)).tqList)
    (hs : ∀ t ∈ (s.queue (.wait w)).tqList, s'.stamp t = s.stamp t) : entries w s' = entries w s := by
  rw [entries,entries,hq]
  exact List.map_congr_left fun t ht => by rw [hs t (by simpa using ht)]

theorem Apart.entries {s' : Sched T W} (h : QueueInv s) (ha : Apart w s s') : entries w s' = Sched.entries w s :=
  entries_congr (by rw [ha.queue]) fun t ht => ha.stamp t ((h.mem _ t).mp ht)

theorem QueueInv.nodup_entries (h : QueueInv s) (w : W) : (entries w s).Nodup :=
  (List.nodup_reverse.mpr (h.nodup _)).map fun _ _ he => congrArg Prod.fst he

variable {t : T}

/-- The oldest sleeper has the first entry. -/
theorem entries_eq_cons {l : List T} (hl : (s.queue (.wait w)).tqList = l ++ [t]) :
    entries w s = (t, s.stamp t) :: l.reverse.map fun u => (u, s.stamp u) := by
  simp [entries,hl]

variable [DecidableEq T] [DecidableEq W]

theorem entries_slept (h : QueueInv s) (w : W) (k : KtState) (hc : (s.thr s.curthr).ktWchan = none) :
    entries w (slept w k s) = entries w s ++ [(s.curthr, s.clock)] := by
  have hm : ∀ t ∈ (s.queue (.wait w)).tqList, t ≠ s.curthr := by
    rintro t ht rfl
    simp [h.mem,hc] at ht
  have hs : (s.queue (.wait w)).tqList.reverse.map (fun t => (t, (slept w k s).stamp t)) =
      entries w s := List.map_congr_left fun t ht => by
    simp [slept,schedSwitch,insertHead,setState,Sched.modify,hm t (by simpa using ht)]
  rw [← hs]
  simp [entries,slept,schedSwitch,insertHead,setState,Sched.modify]

theorem entries_switched (h : QueueInv s) (w : W)
    (ht : (s.thr t).ktWchan = some .runq) : entries w (switched t s) = entries w s := by
  have hm : t ∉ (s.queue (.wait w)).tqList := fun hm => by
    simp [h.mem,ht] at hm
  exact entries_congr (by simp [switched,unlink,List.erase_of_not_mem hm]) fun _ _ => rfl

theorem entries_moved_of_ne (h : QueueInv s) {q : Queue W}
    (ht : (s.thr t).ktWchan = some q) (hq : q ≠ .wait w) (f : Kthread W → Kthread W) :
    entries w (moved q t f s) = entries w s := by
  have hm : t ∉ (s.queue (.wait w)).tqList := fun hm => by
    simp [h.mem,ht,hq] at hm
  refine entries_congr ?_ fun u hu => ?_
  · simp [moved,insertHead,Sched.modify,unlink,List.erase_of_not_mem hm]
  · have : u ≠ t := fun e => hm (e ▸ hu)
    simp [moved,insertHead,Sched.modify,unlink,this]

/-- A sleeper that becomes runnable takes its entry out. -/
theorem entries_moved (h : QueueInv s) (ht : (s.thr t).ktWchan = some (.wait w)) (f : Kthread W → Kthread W) :
    (t, s.stamp t) ∈ entries w s ∧
      entries w (moved (.wait w) t f s) = (entries w s).filter (· ≠ (t, s.stamp t)) := by
  have hm : t ∈ (s.queue (.wait w)).tqList := (h.mem _ t).mpr ht
  refine ⟨by simpa [entries] using hm,?_⟩
  have hl : ((moved (.wait w) t f s).queue (.wait w)).tqList =
      (s.queue (.wait w)).tqList.filter (· ≠ t) := by
    simp [moved,insertHead,Sched.modify,unlink,(h.nodup _).erase_eq_filter,bne,beq_eq_decide]
  have hf : (s.queue (.wait w)).tqList.reverse.filter
        ((fun e => decide (e ≠ (t, s.stamp t))) ∘ fun t => (t, s.stamp t)) =
      (s.queue (.wait w)).tqList.reverse.filter (· ≠ t) :=
    List.filter_congr fun u _ => by
      by_cases hu : u = t <;> simp [hu]
  rw [entries,hl,entries,List.filter_map,← List.filter_reverse,hf]
  refine List.map_congr_left fun u hu => ?_
  have hu : u ≠ t := by simpa using (List.mem_filter.mp hu).2
  simp [moved,insertHead,Sched.modify,unlink,hu]

end Csci402.Proc.Sched
