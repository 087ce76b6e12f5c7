import LittleDb.Store.LifeSteps

/-! The table files of a directory and the open tables: one list in two orders. -/

namespace Store

open List SortedMap

/-- The files are the open tables in reverse, with numbers a scan finds. -/
structure Listed (files sstables : List (Nat × Table)) : Prop where
  mirrored : files = sstables.reverse
  descending : (sstables.map Prod.fst).Pairwise (· > ·)
  low : ∀ e ∈ sstables, e.1 < 10 ^ 6

namespace Listed

variable {files sstables : List (Nat × Table)}

theorem empty : Listed [] [] := ⟨rfl, .nil, by simp⟩

theorem discover {dir : Dir} (listed : Listed dir.tables sstables) : discoverSSTables dir = dir.tables := by
  refine filter_eq_self.mpr fun e found => ?_
  rw [listed.mirrored] at found
  simpa using listed.low e (mem_reverse.mp found)

theorem below_next (listed : Listed files sstables) {e : Nat × Table} (found : e ∈ sstables) :
    e.1 < (files.getLast?.map fun e => e.1 + 1).getD 1 := by
  rw [listed.mirrored, getLast?_reverse]
  have order := listed.descending
  cases sstables with
  | nil => cases found
  | cons newest older =>
    obtain ⟨below, _⟩ := pairwise_cons.mp order
    rcases mem_cons.mp found with rfl | old
    · exact Nat.lt_succ_self _
    · exact (below e.1 (mem_map_of_mem old)).trans (Nat.lt_succ_self _)

theorem flush {id : Nat} {t : Table} (listed : Listed files sstables) (above : ∀ e ∈ sstables, e.1 < id)
    (low : id < 10 ^ 6) : Listed (SortedMap.put id t files) ((id, t) :: sstables) := by
  refine ⟨?_, ?_, ?_⟩
  · rw [listed.mirrored, reverse_cons, ← append_nil sstables.reverse, put_append]
    · simp [SortedMap.put]
    · exact fun e found => above e (mem_reverse.mp found)
  · refine pairwise_cons.mpr ⟨fun id' found => ?_, listed.descending⟩
    obtain ⟨e, inside, rfl⟩ := mem_map.mp found
    exact above e inside
  · intro e found
    rcases mem_cons.mp found with rfl | old
    · exact low
    · exact listed.low e old

variable {front others : List (Nat × Table)} {out : Nat} {t : Table}

theorem around (listed : Listed files (front ++ (out, t) :: others)) : (∀ e ∈ front, out < e.1) ∧
    (∀ e ∈ others, e.1 < out) ∧ (∀ e ∈ front, ∀ e' ∈ others, e'.1 < e.1) ∧ (others.map Prod.fst).Nodup := by
  have order := listed.descending
  rw [map_append, map_cons] at order
  obtain ⟨_, lower, across⟩ := pairwise_append.mp order
  obtain ⟨below, rest⟩ := pairwise_cons.mp lower
  refine ⟨fun e found => ?_, fun e found => ?_, fun e found e' found' => ?_, rest.imp fun gt => gt.ne'⟩
  · exact across e.1 (mem_map_of_mem found) out (by simp)
  · exact below e.1 (mem_map_of_mem found)
  · exact across e.1 (mem_map_of_mem found) e'.1 (by simp [mem_map_of_mem found'])

theorem filter_removed {gone left : List (Nat × Table)} (distinct : ((gone ++ left).map Prod.fst).Nodup) :
    (gone ++ left).filter (fun e => e.1 ∉ gone.map Prod.fst) = left := by
  rw [map_append] at distinct
  have apart := (nodup_append.mp distinct).2.2
  rw [filter_append, filter_eq_nil_iff.mpr, filter_eq_self.mpr, nil_append]
  · intro e found
    rw [decide_eq_true_eq]
    exact fun removed => apart e.1 removed e.1 (mem_map_of_mem found) rfl
  · intro e found
    rw [decide_eq_true_eq, not_not]
    exact mem_map_of_mem found

/-- A merged table over the newest input keeps the order of the numbers. -/
theorem compact (listed : Listed files (front ++ (out, t) :: others)) (merged : Table) (n : Nat) :
    Listed (((others.take n).map Prod.fst).foldl (fun m id => SortedMap.erase id m) (SortedMap.put out merged files))
    (front ++ (out, merged) :: others.drop n) := by
  obtain ⟨above, below, across, distinct⟩ := listed.around
  refine ⟨?_, ?_, ?_⟩
  · have placed : SortedMap.put out merged files =
        others.reverse ++ (out, merged) :: front.reverse := by
      rw [listed.mirrored, reverse_append, reverse_cons, append_assoc,
        put_append fun e found => below e (mem_reverse.mp found)]
      simp [SortedMap.put]
    rw [placed, foldl_erase, filter_append, filter_cons]
    -- Neither the merged table nor a newer one is among those removed.
    have stays : ∀ e : Nat × Table, out ≤ e.1 → e.1 ∉ (others.take n).map Prod.fst := by
      intro e high gone
      obtain ⟨e', taken, same⟩ := mem_map.mp gone
      have lower := below e' (mem_of_mem_take taken)
      omega
    have newer : front.reverse.filter (fun e => e.1 ∉ (others.take n).map Prod.fst) = front.reverse := by
      refine filter_eq_self.mpr fun e found => ?_
      simpa only [decide_eq_true_eq] using stays e (above e (mem_reverse.mp found)).le
    have left : others.reverse.filter (fun e => e.1 ∉ (others.take n).map Prod.fst) =
        (others.drop n).reverse := by
      rw [filter_reverse]
      congr 1
      rw [← take_append_drop n others] at distinct
      have removed := filter_removed distinct
      rwa [take_append_drop] at removed
    rw [if_pos (by simpa only [decide_eq_true_eq] using stays (out, merged) (le_refl _)), newer, left]
    simp
  · have order := listed.descending
    rw [map_append, map_cons] at order ⊢
    refine order.sublist (List.Sublist.append_left (List.Sublist.cons_cons _ ?_) _)
    exact (drop_sublist n others).map Prod.fst
  · intro e found
    rcases mem_append.mp found with old | later
    · exact listed.low e (by simp [old])
    · rcases mem_cons.mp later with rfl | left
      · exact listed.low (out, t) (by simp)
      · exact listed.low e (by simp [mem_of_mem_drop left])

end Listed

namespace Db

variable {db : Db} {job : Job}

theorem pickCompaction_inputs (picked : db.pickCompaction = some job) (some_table : 0 < db.trigger) :
    ∃ t others, job.inputs = (job.outputID, t) :: others ∧
      db.sstables = db.sstables.take (db.sstables.length - db.trigger) ++ job.inputs := by
  obtain ⟨inputs, enough⟩ := pickCompaction_cases picked
  have size : job.inputs.length = db.trigger := by
    rw [inputs, length_drop]
    omega
  cases shape : job.inputs with
  | nil => rw [shape, length_nil] at size; omega
  | cons e others =>
    refine ⟨e.2, others, ?_, ?_⟩
    · simp [Job.outputID, shape]
    · rw [← shape, inputs, take_append_drop]

theorem obsolete_eq {files front others : List (Nat × Table)} {t : Table}
    (inputs : job.inputs = (job.outputID, t) :: others)
    (listed : Listed files (front ++ (job.outputID, t) :: others)) : job.obsolete = others.map Prod.fst := by
  have below := listed.around.2.1
  rw [Job.obsolete, inputs, map_cons, filter_cons_of_neg (by simp)]
  refine filter_eq_self.mpr fun id found => ?_
  obtain ⟨e, inside, rfl⟩ := mem_map.mp found
  simpa using (below e inside).ne

end Db

end Store
