import Grmdb.MapM
import Grmdb.Recovery

namespace Grmdb

/-- How the `undo` loop is left: with the queue empty, or through the `return` in front of the
rebuilding of the indexes. -/
inductive UndoExit where
  | drained
  | early
  deriving DecidableEq, Repr

/-- The records that the `undo` loop rolls back and how it is left; `none` where the rounds do not
suffice. -/
def undoVisits (log : List LogRecord) : Nat → List Lsn → Option (List LogRecord × UndoExit)
  | 0, queue => if queue = [] then some ([], .drained) else none
  | fuel + 1, queue =>
    match queue.max? with
    | none => some ([], .drained)
    | some lsn =>
      if lsn = -1 then some ([], .early)
      else
        (recordAt log lsn).bind fun r =>
          match r.body with
          | .begin => undoVisits log fuel (queue.erase lsn)
          | .insert .. | .delete .. | .update .. =>
            (undoVisits log fuel (r.prevLsn :: queue.erase lsn)).map
              fun (rs, exit) => (r :: rs, exit)
          | _ => undoVisits log fuel queue

theorem undoVisits_nil (log : List LogRecord) (fuel : Nat) :
    undoVisits log fuel [] = some ([], .drained) := by
  cases fuel <;> rfl

/-- The records on the way from an LSN of the transaction down to its BEGIN record. -/
inductive UndoChain (log : List LogRecord) (t : TxnId) : Lsn → List LogRecord → Prop where
  | begin {r : LogRecord} (hr : r ∈ log) (htid : r.logTid = some t) (hbody : r.body = .begin) :
      UndoChain log t r.lsn [r]
  | data {r : LogRecord} {rs : List LogRecord} (hr : r ∈ log) (htid : r.logTid = some t)
      (hbody : r.body.isData = true) (hlt : r.prevLsn < r.lsn) (h : UndoChain log t r.prevLsn rs) :
      UndoChain log t r.lsn (r :: rs)

/-- `undoVisits` sees what the loop over the tables does. -/
theorem undoneLoop_eq_visits (log : List LogRecord) (fuel : Nat) (queue : List Lsn) :
    undoneLoop log fuel queue = (undoVisits log fuel queue).map Prod.fst := by
  induction fuel generalizing queue with
  | zero =>
    unfold undoneLoop undoVisits
    split <;> rfl
  | succ fuel ih =>
    simp only [undoneLoop, undoVisits]
    cases queue.max? with
    | none => rfl
    | some lsn =>
      dsimp only
      split
      · rfl
      · cases recordAt log lsn with
        | none => rfl
        | some r =>
          simp only [Option.bind_some]
          cases r.body <;> simp only [ih, Option.map_map] <;> rfl

namespace UndoChain

variable {log : List LogRecord} {t : TxnId} {lsn : Lsn} {rs : List LogRecord}

theorem mem (h : UndoChain log t lsn rs) {r : LogRecord} (hr : r ∈ rs) :
    r ∈ log ∧ r.logTid = some t := by
  induction h with
  | begin hlog htid _ =>
    rw [List.mem_singleton] at hr
    exact hr ▸ ⟨hlog, htid⟩
  | data hlog htid _ _ _ ih =>
    rcases List.mem_cons.mp hr with rfl | hr
    · exact ⟨hlog, htid⟩
    · exact ih hr

theorem ne_nil (h : UndoChain log t lsn rs) : rs ≠ [] := by
  cases h with
  | begin _ _ _ => exact List.cons_ne_nil _ _
  | data _ _ _ _ _ => exact List.cons_ne_nil _ _

/-- The chain starts with the record of its LSN, and the others are older. -/
theorem le (h : UndoChain log t lsn rs) {r : LogRecord} (hr : r ∈ rs) : r.lsn ≤ lsn := by
  induction h with
  | begin _ _ _ =>
    rw [List.mem_singleton] at hr
    exact hr ▸ le_rfl
  | data _ _ _ hlt _ ih =>
    rcases List.mem_cons.mp hr with rfl | hr
    · exact le_rfl
    · exact (ih hr).trans hlt.le

theorem pairwise (h : UndoChain log t lsn rs) : rs.Pairwise fun r q => q.lsn < r.lsn := by
  induction h with
  | begin _ _ _ => exact List.pairwise_singleton _ _
  | data _ _ _ hlt hrest ih =>
    exact List.pairwise_cons.mpr ⟨fun q hq => (hrest.le hq).trans_lt hlt, ih⟩

end UndoChain

/-- Distinct LSNs leave one way down. -/
theorem UndoChain.unique {log : List LogRecord} {t : TxnId} {lsn : Lsn} {rs rs' : List LogRecord}
    (hlsns : (log.map LogRecord.lsn).Nodup) (h : UndoChain log t lsn rs)
    (h' : UndoChain log t lsn rs') : rs = rs' := by
  induction h generalizing rs' with
  | @begin r hr htid hbody =>
    generalize hl : r.lsn = l at h'
    cases h' with
    | @begin q hq _ _ => rw [List.inj_on_of_nodup_map hlsns hr hq hl]
    | @data q qs hq _ hdata _ _ =>
      rw [← List.inj_on_of_nodup_map hlsns hr hq hl, hbody] at hdata
      cases hdata
  | @data r rs hr htid hdata hlt hnext ih =>
    generalize hl : r.lsn = l at h'
    cases h' with
    | @begin q hq _ hbody =>
      rw [List.inj_on_of_nodup_map hlsns hr hq hl, hbody] at hdata
      cases hdata
    | @data q qs hq _ _ _ hnext' =>
      have hsame := List.inj_on_of_nodup_map hlsns hr hq hl
      subst hsame
      rw [ih hnext']

/-- Where LSNs are distinct, `log_offsets_` has the record of each. -/
theorem recordAt_of_mem {log : List LogRecord} (hlsn : (log.map LogRecord.lsn).Nodup)
    {r : LogRecord} (hr : r ∈ log) : recordAt log r.lsn = some r := by
  have hfind : recordOf log r.lsn = some r := by
    unfold recordOf
    obtain ⟨q, hq⟩ := Option.isSome_iff_exists.mp
      (List.find?_isSome (p := fun q : LogRecord => decide (q.lsn = r.lsn)) |>.mpr ⟨r, hr, by simp⟩)
    have heq : q.lsn = r.lsn := by simpa using List.find?_some hq
    rw [hq, List.inj_on_of_nodup_map hlsn (List.mem_of_find?_eq_some hq) hr heq]
  rw [recordAt, hfind, Option.some_or]

/-- The chains that the entries of the queue stand for, with the transaction of each. -/
structure QueueChains (log : List LogRecord) (queue : List Lsn)
    (chains : List (TxnId × Lsn × List LogRecord)) : Prop where
  queue : queue.Perm (chains.map fun c => c.2.1)
  chain : ∀ c ∈ chains, UndoChain log c.1 c.2.1 c.2.2
  tids : (chains.map Prod.fst).Nodup

def chainRecords (chains : List (TxnId × Lsn × List LogRecord)) : List LogRecord :=
  chains.flatMap fun c => c.2.2

namespace QueueChains

variable {log : List LogRecord} {queue : List Lsn} {t : TxnId} {lsn : Lsn} {rs : List LogRecord}
  {chains chains' : List (TxnId × Lsn × List LogRecord)}

theorem perm (h : QueueChains log queue chains) (hperm : chains.Perm chains') :
    QueueChains log queue chains' :=
  ⟨h.queue.trans (hperm.map _), fun c hc => h.chain c (hperm.mem_iff.mpr hc),
    (hperm.map Prod.fst).nodup_iff.mp h.tids⟩

/-- The chain of the greatest entry, in front of the others. -/
theorem exists_first (h : QueueChains log queue chains) (hlsn : lsn ∈ queue) :
    ∃ t rs rest, chains.Perm ((t, lsn, rs) :: rest) := by
  obtain ⟨c, hc, rfl⟩ := List.mem_map.mp (h.queue.mem_iff.mp hlsn)
  obtain ⟨front, back, rfl⟩ := List.append_of_mem hc
  exact ⟨c.1, c.2.2, front ++ back, List.perm_middle⟩

theorem rest (h : QueueChains log queue ((t, lsn, rs) :: chains)) :
    QueueChains log (queue.erase lsn) chains := by
  refine ⟨?_, fun c hc => h.chain c (List.mem_cons_of_mem _ hc), (List.nodup_cons.mp h.tids).2⟩
  have := h.queue.erase lsn
  rwa [List.map_cons, List.erase_cons_head] at this

/-- The chain goes on with its next record. -/
theorem next {prevLsn : Lsn} (h : QueueChains log queue ((t, lsn, rs) :: chains))
    {rs' : List LogRecord} (hnext : UndoChain log t prevLsn rs') :
    QueueChains log (prevLsn :: queue.erase lsn) ((t, prevLsn, rs') :: chains) := by
  refine ⟨h.rest.queue.cons prevLsn, ?_, h.tids⟩
  intro c hc
  rcases List.mem_cons.mp hc with rfl | hc
  · exact hnext
  · exact h.rest.chain c hc

/-- The other chains have older records than the greatest entry. -/
theorem older (h : QueueChains log queue ((t, lsn, rs) :: chains))
    (hlsns : (log.map LogRecord.lsn).Nodup) (hmax : ∀ l ∈ queue, l ≤ lsn) {r q : LogRecord}
    (hr : r ∈ rs) (hrlsn : r.lsn = lsn) (hq : q ∈ chainRecords chains) : q.lsn < r.lsn := by
  obtain ⟨c, hc, hqc⟩ := List.mem_flatMap.mp hq
  have hchain := h.chain c (List.mem_cons_of_mem _ hc)
  obtain ⟨hrlog, hrtid⟩ := (h.chain _ List.mem_cons_self).mem hr
  obtain ⟨hqlog, hqtid⟩ := hchain.mem hqc
  have hle : q.lsn ≤ r.lsn := by
    have hmem : c.2.1 ∈ queue :=
      h.queue.mem_iff.mpr (List.mem_map_of_mem (List.mem_cons_of_mem _ hc))
    rw [hrlsn]
    exact (hchain.le hqc).trans (hmax _ hmem)
  refine lt_of_le_of_ne hle fun heq => ?_
  have hsame : q = r := List.inj_on_of_nodup_map hlsns hqlog hrlog heq
  rw [hsame, hrtid] at hqtid
  exact (List.nodup_cons.mp h.tids).1 (Option.some.inj hqtid ▸ List.mem_map_of_mem hc)

theorem eq_nil (h : QueueChains log queue chains) (hempty : chainRecords chains = []) :
    queue = [] := by
  have hchains : chains = [] := by
    rw [List.eq_nil_iff_forall_not_mem]
    intro c hc
    have hnil : c.2.2 = [] := List.flatMap_eq_nil_iff.mp hempty c hc
    exact (h.chain c hc).ne_nil hnil
  have := h.queue
  rw [hchains] at this
  exact this.eq_nil

theorem nodup (h : QueueChains log queue chains) : (chainRecords chains).Nodup := by
  refine List.nodup_flatMap.mpr ⟨fun c hc => ?_, ?_⟩
  · refine (h.chain c hc).pairwise.imp fun {r q} hlt heq => ?_
    rw [heq] at hlt
    exact lt_irrefl _ hlt
  · refine (List.pairwise_map.mp h.tids).imp_of_mem fun {c c'} hc hc' hne r hr hr' => ?_
    have htid := ((h.chain c hc).mem hr).2
    rw [((h.chain c' hc').mem hr').2] at htid
    exact hne (Option.some.inj htid).symm

theorem length_le (h : QueueChains log queue chains) :
    (chainRecords chains).length ≤ log.length := by
  refine (h.nodup.subperm fun r hr => ?_).length_le
  obtain ⟨c, hc, hrc⟩ := List.mem_flatMap.mp hr
  exact ((h.chain c hc).mem hrc).1

/-- The loop takes the chains apart, the newest record first, until the queue is empty. -/
theorem visits (h : QueueChains log queue chains) (hlsns : (log.map LogRecord.lsn).Nodup)
    (hvalid : ∀ r ∈ log, r.lsn ≠ INVALID_LSN) {rounds : Nat}
    (hrounds : (chainRecords chains).length ≤ rounds) :
    ∃ visited, (∀ fuel, rounds ≤ fuel → undoVisits log fuel queue = some (visited, .drained)) ∧
      visited.Pairwise (fun r q => q.lsn < r.lsn) ∧
      ∀ r, r ∈ visited ↔ r.body.isData = true ∧ r ∈ chainRecords chains := by
  -- every round takes one record from the chains that are left
  induction rounds generalizing queue chains with
  | zero =>
    have hnil := List.length_eq_zero_iff.mp (Nat.le_zero.mp hrounds)
    refine ⟨[], fun fuel _ => ?_, List.Pairwise.nil, by simp [hnil]⟩
    rw [h.eq_nil hnil, undoVisits_nil]
  | succ rounds ih =>
    cases hmax : queue.max? with
    | none =>
      have hqueue : queue = [] := List.max?_eq_none_iff.mp hmax
      have hchains : chains = [] := by
        have := h.queue
        rw [hqueue] at this
        exact List.map_eq_nil_iff.mp this.symm.eq_nil
      refine ⟨[], fun fuel _ => ?_, List.Pairwise.nil, by simp [hchains, chainRecords]⟩
      rw [hqueue, undoVisits_nil]
    | some lsn =>
      obtain ⟨hmem, hle⟩ := List.max?_eq_some_iff.mp hmax
      obtain ⟨t, rs, rest, hperm⟩ := h.exists_first hmem
      have hcut := h.perm hperm
      have hrecords : ∀ r, r ∈ chainRecords chains ↔ r ∈ rs ∨ r ∈ chainRecords rest := by
        intro r
        rw [chainRecords, (hperm.flatMap_right _).mem_iff, List.flatMap_cons, List.mem_append]
        rfl
      have hcount : (chainRecords chains).length = rs.length + (chainRecords rest).length := by
        rw [chainRecords, (hperm.flatMap_right _).length_eq, List.flatMap_cons, List.length_append]
        rfl
      have hchain : UndoChain log t lsn rs := hcut.chain _ List.mem_cons_self
      cases hchain with
      | @begin r hr htid hbody =>
        have hvisit : ∀ fuel, undoVisits log (fuel + 1) queue =
            undoVisits log fuel (queue.erase r.lsn) := by
          intro fuel
          have hlsn : r.lsn ≠ -1 := hvalid r hr
          simp only [undoVisits, hmax, if_neg hlsn, recordAt_of_mem hlsns hr, Option.bind_some,
            hbody]
        obtain ⟨visited, hrun, hsorted, hall⟩ := ih hcut.rest (by
          rw [List.length_singleton] at hcount
          omega)
        refine ⟨visited, fun fuel hfuel => ?_, hsorted, fun q => ?_⟩
        · obtain ⟨fuel, rfl⟩ : ∃ f, fuel = f + 1 := ⟨fuel - 1, by omega⟩
          rw [hvisit, hrun fuel (by omega)]
        rw [hall, hrecords, List.mem_singleton]
        constructor
        · rintro ⟨hdata, hq⟩
          exact ⟨hdata, .inr hq⟩
        · rintro ⟨hdata, rfl | hq⟩
          · rw [hbody] at hdata
            cases hdata
          · exact ⟨hdata, hq⟩
      | @data r rs hr htid hdata hlt hnext =>
        have hvisit : ∀ fuel, undoVisits log (fuel + 1) queue =
            (undoVisits log fuel (r.prevLsn :: queue.erase r.lsn)).map
              fun (rs, exit) => (r :: rs, exit) := by
          intro fuel
          have hlsn : r.lsn ≠ -1 := hvalid r hr
          simp only [undoVisits, hmax, if_neg hlsn, recordAt_of_mem hlsns hr, Option.bind_some]
          cases hbody : r.body <;> rw [hbody] at hdata <;> first | rfl | cases hdata
        obtain ⟨visited, hrun, hsorted, hall⟩ := ih (hcut.next hnext) (by
          rw [chainRecords, List.flatMap_cons, List.length_append]
          rw [List.length_cons] at hcount
          show rs.length + (chainRecords rest).length ≤ rounds
          omega)
        have hleft : ∀ q, q ∈ chainRecords ((t, r.prevLsn, rs) :: rest) ↔
            q ∈ rs ∨ q ∈ chainRecords rest := by
          intro q
          rw [chainRecords, List.flatMap_cons, List.mem_append]
          rfl
        refine ⟨r :: visited, fun fuel hfuel => ?_, List.pairwise_cons.mpr ⟨?_, hsorted⟩, ?_⟩
        · obtain ⟨fuel, rfl⟩ : ∃ f, fuel = f + 1 := ⟨fuel - 1, by omega⟩
          rw [hvisit, hrun fuel (by omega)]
          rfl
        · intro q hq
          rcases (hleft q).mp ((hall q).mp hq).2 with hq | hq
          · exact (hnext.le hq).trans_lt hlt
          · exact hcut.older hlsns hle List.mem_cons_self rfl hq
        · intro q
          rw [List.mem_cons, hall, hleft, hrecords, List.mem_cons]
          constructor
          · rintro (rfl | ⟨hq, hmem⟩)
            · exact ⟨hdata, .inl (.inl rfl)⟩
            · exact ⟨hq, hmem.imp_left .inr⟩
          · rintro ⟨hq, (rfl | hmem) | hmem⟩
            · exact .inl rfl
            · exact .inr ⟨hq, .inl hmem⟩
            · exact .inr ⟨hq, .inr hmem⟩

end QueueChains

/-- Undo visits the data records on the chains of the ATT, each once and newest first, and gets to
the rebuilding of the indexes. -/
theorem undo_visits_chains {log : List LogRecord} {att : List (TxnId × Lsn)}
    (hlsns : (log.map LogRecord.lsn).Nodup) (hvalid : ∀ r ∈ log, r.lsn ≠ INVALID_LSN)
    (htids : (att.map Prod.fst).Nodup) (hchains : ∀ e ∈ att, ∃ rs, UndoChain log e.1 e.2 rs) :
    ∃ visited, (∀ fuel, log.length ≤ fuel →
        undoVisits log fuel (att.map Prod.snd) = some (visited, .drained)) ∧
      visited.Pairwise (fun r q => q.lsn < r.lsn) ∧
      (∀ r, r ∈ visited ↔ r.body.isData = true ∧
        ∃ e ∈ att, ∃ rs, UndoChain log e.1 e.2 rs ∧ r ∈ rs) ∧
      ∀ fuel db, log.length ≤ fuel →
        undoLoop log fuel (att.map Prod.snd) db = visited.foldlM undoRecord db := by
  choose! way hway using hchains
  have h : QueueChains log (att.map Prod.snd) (att.map fun e => (e.1, e.2, way e)) := by
    refine ⟨by simp [List.map_map, Function.comp_def], ?_, ?_⟩
    · intro c hc
      obtain ⟨e, he, rfl⟩ := List.mem_map.mp hc
      exact hway e he
    · simpa [List.map_map, Function.comp_def] using htids
  obtain ⟨visited, hrun, hsorted, hall⟩ := h.visits hlsns hvalid h.length_le
  refine ⟨visited, hrun, hsorted, fun r => ?_, fun fuel db hfuel => ?_⟩
  · rw [hall, chainRecords, List.flatMap_map, List.mem_flatMap]
    constructor
    · rintro ⟨hdata, e, he, hr⟩
      exact ⟨hdata, e, he, way e, hway e he, hr⟩
    · rintro ⟨hdata, e, he, rs, hrs, hr⟩
      rw [← (hway e he).unique hlsns hrs] at hr
      exact ⟨hdata, e, he, hr⟩
  · rw [undoLoop_eq, undoneLoop_eq_visits, hrun fuel hfuel]
    rfl

/-- Two transactions that have written in turn. -/
def turnsLog : List LogRecord :=
  [⟨0, some 0, -1, .begin⟩, ⟨1, some 1, -1, .begin⟩, ⟨2, some 0, 0, ChainState.rowWrite 7⟩,
    ⟨3, some 1, 1, ChainState.rowWrite 8⟩]

theorem undo_visits_chains_turns :
    ∃ visited, (∀ fuel, turnsLog.length ≤ fuel →
        undoVisits turnsLog fuel ([(0, 2), (1, 3)].map Prod.snd) = some (visited, .drained)) ∧
      visited.Pairwise (fun r q => q.lsn < r.lsn) ∧
      (∀ r, r ∈ visited ↔ r.body.isData = true ∧
        ∃ e ∈ [((0 : TxnId), (2 : Lsn)), (1, 3)], ∃ rs,
          UndoChain turnsLog e.1 e.2 rs ∧ r ∈ rs) ∧
      ∀ fuel db, turnsLog.length ≤ fuel →
        undoLoop turnsLog fuel ([(0, 2), (1, 3)].map Prod.snd) db =
          visited.foldlM undoRecord db := by
  refine undo_visits_chains (by decide) (by decide) (by decide) fun e he => ?_
  rcases List.mem_cons.mp he with rfl | he
  · have hfirst : UndoChain turnsLog 0 0 [⟨0, some 0, -1, .begin⟩] :=
      .begin (r := ⟨0, some 0, -1, .begin⟩) (by decide) rfl rfl
    exact ⟨_, .data (r := ⟨2, some 0, 0, ChainState.rowWrite 7⟩) (by decide) rfl rfl (by decide)
      hfirst⟩
  · rw [List.mem_singleton.mp he]
    have hfirst : UndoChain turnsLog 1 1 [⟨1, some 1, -1, .begin⟩] :=
      .begin (r := ⟨1, some 1, -1, .begin⟩) (by decide) rfl rfl
    exact ⟨_, .data (r := ⟨3, some 1, 1, ChainState.rowWrite 8⟩) (by decide) rfl rfl (by decide)
      hfirst⟩

example : (undoVisits turnsLog 4 [2, 3]).map (fun v => v.1.map LogRecord.lsn) = some [3, 2] := by
  decide +kernel

end Grmdb
