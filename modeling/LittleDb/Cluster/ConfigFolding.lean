import LittleDb.Cluster.Compaction

/-! Membership across compactions and crashes: the base configuration file and the log file together. -/

namespace Cluster

open List Option Node RaftLog

theorem Members.adoptAll_overlap (m : Members) (es : List Entry) {j k : Nat} (order : j ≤ k) :
    (m.adoptAll (es.take k)).adoptAll (es.drop j) = m.adoptAll es := by
  -- The entries in between are adopted twice, the second time to no effect.
  have front : es.take k = es.take j ++ (es.take k).drop j := by
    conv_lhs => rw [← take_append_drop j (es.take k), take_take, min_eq_left order]
  have back : es.drop j = (es.take k).drop j ++ es.drop k := by
    conv_lhs => rw [← take_append_drop k es]
    rw [drop_append, length_take]
    congr 1
    rcases le_total k es.length with long | short
    · rw [min_eq_left long, Nat.sub_eq_zero_of_le order, drop_zero]
    · rw [drop_of_length_le short, drop_nil]
  conv_lhs => rw [front, back]
  conv_rhs => rw [← take_append_drop k es, front]
  simp only [adoptAll_append, adoptAll_again]

inductive CompactStop where
  | before
  | configWritten
  | logReplaced
  deriving DecidableEq, Repr

/-- A node with its base configuration file, and one that never compacts. -/
structure Folding where
  /-- The node; its log stands for the log file too. -/
  node : Node
  twin : Node
  configFile : Option (List UInt8)

namespace Folding

/-- The base configuration a start finds: that of the file, or a given one. -/
def readBase (boot : Members) (file : Option (List UInt8)) : Members := (file.map decodeConfig).getD boot

/-- The base configuration file of a compaction, if it gets that far. -/
def foldConfig (f : Folding) (settings : Settings) : Option (List UInt8) :=
  let n := f.node
  if settings.snapshotThreshold = 0 ∨ n.log.entries.length < settings.snapshotThreshold ∨
      n.lastApplied ≤ n.log.baseIndex ∨ n.configAsOf n.lastApplied = n.baseConfig then f.configFile
  else some (encodeConfig (n.configAsOf n.lastApplied))

/-- What a start finds on disk after a crash in a compaction. -/
def stopIn (boot : Members) (f : Folding) (settings : Settings) (stop : CompactStop) (compacted : Node) : Folding :=
  let file := if stop = .before then f.configFile else f.foldConfig settings
  let log := if stop = .logReplaced then compacted.log else f.node.log
  { f with node := { f.node with log := log, baseConfig := readBase boot file }, configFile := file }

/-- Both nodes are built anew, with the index that the store recovers. -/
def restart (f : Folding) (recovered : Nat) (peers : List NodeID) (save : Save) : Folding :=
  { f with node := { f.node with stored := recovered }.rebuild peers save
           twin := { f.twin with stored := recovered }.rebuild peers save }

/-- Drops the entries from an index on and derives the configuration anew. -/
def truncate (n : Node) (idx : Nat) : Node :=
  let n := { n with log := n.log.truncateFrom idx }
  { n with config := n.deriveConfig }

inductive Act where
  | append (e : Entry)
  | truncate (idx : Nat)
  | apply (idx : Nat)
  | compact (settings : Settings)
  /-- The node crashes in a compaction, and restarts with a recovered index. -/
  | crash (settings : Settings) (stop : CompactStop) (recovered : Nat) (peers : List NodeID) (save : Save)

/-- One step of node and twin; a start refuses a store behind the base. -/
def step (boot : Members) (f : Folding) : Act → Option (Folding × List Unit)
  | .append e => some ({ f with node := Server.appendOwn f.node e, twin := Server.appendOwn f.twin e }, [])
  | .truncate idx =>
    if f.node.lastApplied < idx then
      some ({ f with node := truncate f.node idx, twin := truncate f.twin idx }, [])
    else none
  | .apply idx =>
    if f.node.lastApplied ≤ idx then some ({ f with node := { f.node with lastApplied := idx } }, []) else none
  | .compact settings =>
    (f.node.maybeCompact settings).map fun n => ({ f with node := n, configFile := f.foldConfig settings }, [])
  | .crash settings stop recovered peers save =>
    (f.node.maybeCompact settings).bind fun compacted =>
      let left := f.stopIn boot settings stop compacted
      if left.node.log.baseIndex ≤ recovered then some (left.restart recovered peers save, []) else none

/-- The store recovers every entry that was applied before the crash. -/
def keepsApplied (f : Folding) : Act → Bool
  | .crash _ _ recovered _ _ => decide (f.node.lastApplied ≤ recovered)
  | _ => true

/-- Base configuration, log and file of the node, said by its twin's log. -/
structure Sound (boot : Members) (f : Folding) (folded : Nat) : Prop where
  log : f.node.log.Shortens f.twin.log
  above : f.node.log.baseIndex ≤ folded
  applied : folded ≤ f.node.lastApplied
  inside : folded ≤ f.twin.log.lastIndex
  base : f.node.baseConfig = f.twin.configAsOf folded
  file : readBase boot f.configFile = f.node.baseConfig

/-- Both nodes act on the configuration that their log implies. -/
def Derived (f : Folding) : Prop := f.node.config = f.node.deriveConfig ∧ f.twin.config = f.twin.deriveConfig

variable {boot : Members} {f f' : Folding} {folded : Nat} {new : List Unit}

variable {idx : Nat} {n : Node} {settings : Settings}

theorem Sound.configAsOf (sound : f.Sound boot folded) (behind : folded ≤ idx) :
    f.node.configAsOf idx = f.twin.configAsOf idx := by
  have first := sound.log.above
  have above := sound.above
  have joined := f.twin.baseConfig.adoptAll_overlap (f.twin.log.entries.take (idx - f.twin.log.baseIndex))
    (show f.node.log.baseIndex - f.twin.log.baseIndex ≤ folded - f.twin.log.baseIndex by omega)
  rw [take_take, min_eq_left (by omega), drop_take] at joined
  rw [configAsOf_eq, sound.base, configAsOf_eq, configAsOf_eq, sound.log.entries, ← joined]
  congr 2
  omega

theorem configAsOf_last (n : Node) (last : n.log.lastIndex ≤ idx) : n.configAsOf idx = n.deriveConfig := by
  unfold RaftLog.lastIndex at last
  rw [configAsOf_eq, deriveConfig_eq, take_of_length_le (by omega)]

theorem Sound.deriveConfig (sound : f.Sound boot folded) : f.node.deriveConfig = f.twin.deriveConfig := by
  have same := sound.configAsOf sound.inside
  rwa [configAsOf_last f.node sound.log.lastIndex.le, configAsOf_last f.twin (le_refl _)] at same

theorem configAsOf_decoded (n : Node) (idx : Nat) :
    n.configAsOf idx = n.baseConfig ∨ ∃ data, n.configAsOf idx = decodeConfig data := by
  unfold Node.configAsOf
  split
  · exact .inr ⟨_, rfl⟩
  · exact .inl rfl

theorem config_appendOwn (derived : n.config = n.deriveConfig) (e : Entry) :
    (Server.appendOwn n e).config = (Server.appendOwn n e).deriveConfig := by
  rw [deriveConfig_eq]
  show n.config.adopt e = n.baseConfig.adoptAll (n.log.entries ++ [e])
  rw [derived, deriveConfig_eq, Members.adoptAll_concat]

section

variable (sound : f.Sound boot folded)

include sound

theorem Sound.append (e : Entry) :
    Sound boot { f with node := Server.appendOwn f.node e, twin := Server.appendOwn f.twin e } folded := by
  have inside := sound.inside
  refine ⟨sound.log.append e, sound.above, sound.applied, ?_, ?_, sound.file⟩
  · exact inside.trans (by simp [Server.appendOwn])
  · have kept : (f.twin.log.entries ++ [e]).take (folded - f.twin.log.baseIndex) =
        f.twin.log.entries.take (folded - f.twin.log.baseIndex) := by
      unfold RaftLog.lastIndex at inside
      rw [take_append_of_le_length (by omega)]
    rw [configAsOf_eq]
    show f.node.baseConfig = f.twin.baseConfig.adoptAll ((f.twin.log.entries ++ [e]).take (folded - f.twin.log.baseIndex))
    rw [kept, sound.base, configAsOf_eq]

theorem Sound.truncate (behind : f.node.lastApplied < idx) :
    Sound boot { f with node := truncate f.node idx, twin := truncate f.twin idx } folded := by
  have later := sound.applied
  have above := sound.above
  refine ⟨sound.log.truncateFrom (by omega), ?_, sound.applied, ?_, ?_, sound.file⟩
  · simpa [Folding.truncate] using sound.above
  · exact le_lastIndex_truncateFrom sound.inside (by omega)
  · -- Nothing up to the folded index was dropped.
    have kept : (f.twin.log.truncateFrom idx).entries.take (folded - f.twin.log.baseIndex) =
        f.twin.log.entries.take (folded - f.twin.log.baseIndex) := by
      unfold RaftLog.truncateFrom
      split_ifs
      · rfl
      · rw [take_take, min_eq_left (by omega)]
      · rfl
    rw [configAsOf_eq]
    show f.node.baseConfig = f.twin.baseConfig.adoptAll
      ((f.twin.log.truncateFrom idx).entries.take (folded - (f.twin.log.truncateFrom idx).baseIndex))
    rw [baseIndex_truncateFrom, kept, sound.base, configAsOf_eq]

theorem Sound.folds
    (done : f.node.maybeCompact settings = some n) : readBase boot (f.foldConfig settings) = n.baseConfig ∧
      ((n = f.node ∧ f.foldConfig settings = f.configFile) ∨ ∃ t, f.node.log.term f.node.lastApplied = some t ∧
        f.node.log.baseIndex < f.node.lastApplied ∧ n = { f.node with
          baseConfig := f.node.configAsOf f.node.lastApplied, log := f.node.log.compactTo f.node.lastApplied t }) := by
  unfold Node.maybeCompact at done
  split_ifs at done with idle
  · cases done
    have kept : f.foldConfig settings = f.configFile := if_pos (by tauto)
    exact ⟨kept ▸ sound.file, .inl ⟨rfl, kept⟩⟩
  · split at done
    · cases done
    · next t known =>
      cases done
      refine ⟨?_, .inr ⟨t, known, by omega, rfl⟩⟩
      rcases configAsOf_decoded f.node f.node.lastApplied with same | ⟨data, decoded⟩
      · have kept : f.foldConfig settings = f.configFile := if_pos (by tauto)
        rw [kept, sound.file, same]
      · unfold Folding.foldConfig
        dsimp only
        split_ifs with kept
        · have same : f.node.configAsOf f.node.lastApplied = f.node.baseConfig := by tauto
          rw [sound.file, same]
        · rw [readBase, map_some, getD_some, decoded, decodeConfig_encodeConfig (decodeConfig_fits data)]

theorem Sound.stopIn (stop : CompactStop)
    (done : f.node.maybeCompact settings = some n) : ∃ later, (f.stopIn boot settings stop n).Sound boot later := by
  have old : Sound boot ⟨{ f.node with baseConfig := readBase boot f.configFile }, f.twin, f.configFile⟩ folded :=
    ⟨sound.log, sound.above, sound.applied, sound.inside, sound.file.trans sound.base, rfl⟩
  obtain ⟨base, ⟨rfl, idle⟩ | ⟨t, known, higher, rfl⟩⟩ := sound.folds done
  · refine ⟨folded, ?_⟩
    simpa only [Folding.stopIn, idle, ite_self] using old
  · by_cases first : stop = .before
    · refine ⟨folded, ?_⟩
      simpa only [Folding.stopIn, first, if_true, reduceCtorEq, if_false] using old
    · -- The file says the configuration as of the applied index, which the log may still hold.
      have reached := term_inside known
      rw [sound.log.lastIndex] at reached
      rw [sound.configAsOf sound.applied] at base
      refine ⟨f.node.lastApplied, ?_⟩
      simp only [Folding.stopIn, first, if_false]
      split_ifs
      · exact ⟨sound.log.compactTo known, baseIndex_compactTo_le _ _ _ higher.le, le_refl _, reached, base, rfl⟩
      · exact ⟨sound.log, higher.le, le_refl _, reached, base, rfl⟩

theorem Sound.compact (done : f.node.maybeCompact settings = some n) :
    ∃ later, Sound boot { f with node := n, configFile := f.foldConfig settings } later := by
  obtain ⟨later, left⟩ := sound.stopIn .logReplaced done
  obtain ⟨base, ⟨rfl, -⟩ | ⟨t, -, -, rfl⟩⟩ := sound.folds done
  all_goals exact ⟨later, left.log, left.above, left.applied, left.inside, base.symm.trans left.base, base⟩

end

theorem rebuild_eq (n : Node) (peers : List NodeID) (save : Save) :
    (n.rebuild peers save).log = n.log ∧ (n.rebuild peers save).baseConfig = n.baseConfig ∧
      (n.rebuild peers save).config = (n.rebuild peers save).deriveConfig ∧
      (n.rebuild peers save).lastApplied = n.stored := by
  unfold Node.rebuild Node.persist
  dsimp only
  split_ifs <;> exact ⟨rfl, rfl, rfl, rfl⟩

theorem Sound.restart (sound : f.Sound boot folded) {recovered : Nat} (kept : f.node.lastApplied ≤ recovered)
    (peers : List NodeID) (save : Save) : (f.restart recovered peers save).Sound boot folded := by
  obtain ⟨log, base, -, applied⟩ := rebuild_eq { f.node with stored := recovered } peers save
  obtain ⟨log', base', -, -⟩ := rebuild_eq { f.twin with stored := recovered } peers save
  refine ⟨?_, ?_, ?_, ?_, ?_, ?_⟩ <;> simp only [Folding.restart, log, log', base, applied, configAsOf_eq, base']
  · exact sound.log
  · exact sound.above
  · exact sound.applied.trans kept
  · exact sound.inside
  · exact sound.base.trans (configAsOf_eq ..)
  · exact sound.file

/-- Every step keeps the files sound and configurations derived. -/
theorem Sound.step (sound : f.Sound boot folded) (derived : f.Derived) {a : Act} (keeps : f.keepsApplied a = true)
    (moved : f.step boot a = some (f', new)) : (∃ later, f'.Sound boot later) ∧ f'.Derived := by
  cases a <;> simp only [Folding.step] at moved
  case append e =>
    cases moved
    exact ⟨⟨folded, sound.append e⟩, config_appendOwn derived.1 e, config_appendOwn derived.2 e⟩
  case truncate idx =>
    split_ifs at moved with behind
    cases moved
    exact ⟨⟨folded, sound.truncate behind⟩, rfl, rfl⟩
  case apply idx =>
    split_ifs at moved with later
    cases moved
    exact ⟨⟨folded, sound.log, sound.above, sound.applied.trans later, sound.inside, sound.base, sound.file⟩, derived⟩
  case compact settings =>
    obtain ⟨n, done, result⟩ := map_eq_some_iff.mp moved
    cases result
    obtain ⟨later, compacted⟩ := sound.compact done
    refine ⟨⟨later, compacted⟩, ?_, derived.2⟩
    rw [compacted.deriveConfig, ← sound.deriveConfig, ← derived.1]
    exact (maybeCompact_keeps done).2.2.2.1
  case crash settings stop recovered peers save =>
    obtain ⟨n, done, rest⟩ := bind_eq_some_iff.mp moved
    split_ifs at rest
    cases rest
    -- The file may be folded further than the log, but not past what is recovered.
    obtain ⟨later, left⟩ := sound.stopIn stop done
    exact ⟨⟨later, left.restart (of_decide_eq_true keeps) peers save⟩, (rebuild_eq ..).2.2.1, (rebuild_eq ..).2.2.1⟩

/-- A restart after any crash derives the configuration from before. -/
theorem Sound.crash (sound : f.Sound boot folded) (derived : f.Derived) {stop : CompactStop} {recovered : Nat}
    {peers : List NodeID} {save : Save}
    (moved : f.step boot (.crash settings stop recovered peers save) = some (f', new)) :
    f'.node.config = f.node.config := by
  obtain ⟨n, done, rest⟩ := bind_eq_some_iff.mp moved
  dsimp only at rest
  split_ifs at rest
  cases rest
  obtain ⟨later, left⟩ := sound.stopIn stop done
  obtain ⟨log, base, config, -⟩ :=
    rebuild_eq { (f.stopIn boot settings stop n).node with stored := recovered } peers save
  calc _ = (f.stopIn boot settings stop n).node.deriveConfig := by
        rw [Folding.restart, config, deriveConfig_eq, deriveConfig_eq, log, base]
    -- The crash leaves the twin, whose log implies what the node acted on.
    _ = f.twin.deriveConfig := left.deriveConfig
    _ = f.node.config := by rw [← sound.deriveConfig, derived.1]

/--
Compaction never loses a membership change, as long as the store recovers what was applied.

Through any appends, truncations, compactions and crashes the node acts on the configuration of its uncompacted
twin, and a restart derives the configuration that the node had, whatever the store recovers.
-/
theorem compaction_keeps_membership {n : Node} {file : Option (List UInt8)} (derived : n.config = n.deriveConfig)
    (based : n.log.baseIndex ≤ n.lastApplied) (read : readBase boot file = n.baseConfig) {past : List Folding}
    {events : List Unit}
    (run : Run.Reach (Folding.step boot) (fun f a => f.keepsApplied a = true) ⟨n, n, file⟩ f past events) :
    f.node.config = f.twin.deriveConfig ∧ f.node.deriveConfig = f.twin.deriveConfig ∧
    ∀ settings stop recovered peers save f' new,
      f.step boot (.crash settings stop recovered peers save) = some (f', new) → f'.node.config = f.node.config := by
  have first : Sound boot ⟨n, n, file⟩ n.log.baseIndex :=
    ⟨.refl _, Nat.le_refl _, based, Nat.le_add_right .., by simp [configAsOf_eq, Members.adoptAll], read⟩
  obtain ⟨⟨folded, sound⟩, kept⟩ := run.invariant (P := fun f _ _ => (∃ folded, f.Sound boot folded) ∧ f.Derived)
    ⟨⟨_, first⟩, derived, derived⟩ fun _ _ _ _ _ _ _ keeps moved before => by
      obtain ⟨⟨folded, sound⟩, kept⟩ := before
      exact sound.step kept keeps moved
  exact ⟨kept.1.trans sound.deriveConfig, sound.deriveConfig,
    fun settings stop recovered peers save f' new moved => sound.crash kept moved⟩

/-- Two members, before a third one is added and the second removed. -/
def twoMembers : Node := Node.fresh 0 [0, 1] (.fullConfig 2)

/-- A crash between the two files, and a truncation after the restart. -/
theorem compaction_keeps_membership_between : ∃ f past events,
    Run.Reach (Folding.step (.fullConfig 2)) (fun f a => f.keepsApplied a = true) ⟨twoMembers, twoMembers, none⟩
      f past events ∧
    f.node.baseConfig = .fullConfig 3 ∧ f.node.log.baseIndex = 0 ∧ f.node.config = f.twin.deriveConfig := by
  obtain ⟨f, past, events, run, last⟩ := Run.exec_exists (Folding.step (.fullConfig 2)) keepsApplied
    ⟨twoMembers, twoMembers, none⟩
    [.append ⟨1, .config, encodeConfig (.fullConfig 3)⟩,
      .append ⟨1, .config, encodeConfig ((Members.fullConfig 3).erase 1)⟩, .apply 1,
      .crash ⟨0, 1⟩ .configWritten 1 [0, 1, 2] .ok, .truncate 2]
    (fun r => decide (r.1.node.baseConfig = .fullConfig 3 ∧ r.1.node.log.baseIndex = 0)) (by decide +kernel)
  obtain ⟨base, index⟩ := of_decide_eq_true last
  exact ⟨f, past, events, run, base, index, (compaction_keeps_membership rfl (Nat.zero_le _) rfl run).1⟩

/--
A store that lost an applied entry finds the base configuration file ahead of it.

A crash between the two files folds index 3 in with two entries recovered; entry 3 is truncated, its member stays.
-/
theorem compaction_outruns_store : ∃ f past events, Run.Reach (Folding.step (.fullConfig 2))
    (fun _ _ => True) ⟨twoMembers, twoMembers, none⟩ f past events ∧ f.node.lastApplied = 2 ∧
    f.node.log.lastIndex = 2 ∧ f.node.deriveConfig = .fullConfig 3 ∧ f.twin.deriveConfig = .fullConfig 2 := by
  obtain ⟨f, past, events, run, last⟩ := Run.exec_exists (Folding.step (.fullConfig 2)) (fun _ _ => true)
    ⟨twoMembers, twoMembers, none⟩
    [.append ⟨1, .data, [7]⟩, .append ⟨1, .data, [8]⟩, .append ⟨1, .config, encodeConfig (.fullConfig 3)⟩, .apply 3,
      .crash ⟨0, 1⟩ .configWritten 2 [0, 1] .ok, .truncate 3]
    (fun r => decide (r.1.node.lastApplied = 2 ∧ r.1.node.log.lastIndex = 2 ∧
      r.1.node.deriveConfig = .fullConfig 3 ∧ r.1.twin.deriveConfig = .fullConfig 2)) (by decide +kernel)
  exact ⟨f, past, events, run.weaken fun _ _ _ => trivial, of_decide_eq_true last⟩

end Folding

end Cluster
