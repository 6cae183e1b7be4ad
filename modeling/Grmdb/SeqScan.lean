import Grmdb.CondMeaning
import Grmdb.RmScan

namespace Grmdb

/-- `scan_`, `rid_`, `is_end_` and `last_rid_` of `SeqScanExecutor`. -/
structure SeqScanState where
  scan : RmScan
  rid : Rid
  isEnd : Bool
  lastRid : Rid

section Loops

variable (f : RmFile) (eval : Bytes → Option Bool)

/-- The first loop of `beginTuple`: the last record that is selected. -/
def seqLast : Nat → RmScan → Rid → Option Rid
  | 0, c, lastRid => if c.isEnd then some lastRid else none
  | fuel + 1, c, lastRid =>
    if c.isEnd then some lastRid
    else
      (f.getRecord c.rid).bind fun tuple =>
        (eval tuple).bind fun ok =>
          (f.scanNext c).bind fun c' => seqLast fuel c' (if ok then c.rid else lastRid)

/-- Its second loop: the first one. -/
def seqFirst : Nat → SeqScanState → Option SeqScanState
  | 0, s => if s.scan.isEnd then some { s with isEnd := true } else none
  | fuel + 1, s =>
    if s.scan.isEnd then some { s with isEnd := true }
    else
      (f.getRecord s.rid).bind fun tuple =>
        (f.scanNext s.scan).bind fun c =>
          (eval tuple).bind fun ok =>
            if ok then some { s with scan := c }
            else seqFirst fuel { s with scan := c, rid := c.rid }

/-- The loop of `nextTuple`. -/
def seqNext : Nat → SeqScanState → Option SeqScanState
  | 0, s => if s.scan.isEnd then some s else none
  | fuel + 1, s =>
    if s.scan.isEnd then some s
    else
      let rid := s.scan.rid
      (f.getRecord rid).bind fun tuple =>
        (f.scanNext s.scan).bind fun c =>
          (eval tuple).bind fun ok =>
            let s := { s with scan := c, rid := rid }
            if ok then some s else seqNext fuel s

/-- The calls of `SeqScanExecutor` on the pages of the file. A record is read together with `rid()`.
`rid₀` is what stands in the `rid_` of a new `RmScan`. -/
def seqScanCursor (rid₀ : Rid) (fuel : Nat) : Cursor (Rid × Bytes) where
  State := SeqScanState
  start s :=
    (f.openScan rid₀).bind fun c =>
      (seqLast f eval fuel c s.lastRid).bind fun lastRid =>
        (f.openScan rid₀).bind fun c => seqFirst f eval fuel ⟨c, c.rid, false, lastRid⟩
  advance s := if s.lastRid = s.rid then some { s with isEnd := true } else seqNext f eval fuel s
  atEnd s := s.isEnd
  read s := (f.getRecord s.rid).map fun tuple => ((s.rid, tuple), s)

end Loops

section Walk

variable {f : RmFile} {eval : Bytes → Option Bool} {p : Rid × Bytes → Bool} {rid₀ : Rid} {fuel : Nat}
  {ahead : List (Rid × Bytes)} {c : RmScan} {s : SeqScanState}

theorem seqLast_eq (hp : ∀ row ∈ ahead, eval row.2 = some (p row)) (hc : f.ScanAhead ahead c)
    (hfuel : ahead.length ≤ fuel) (lastRid : Rid) :
    seqLast f eval fuel c lastRid =
      some (((ahead.filter p).getLast?.map Prod.fst).getD lastRid) := by
  induction ahead generalizing c fuel lastRid with
  | nil =>
    have hend : c.isEnd = true := hc
    cases fuel with
    | zero => simp [seqLast, hend]
    | succ fuel => simp [seqLast, hend]
  | cons row ahead ih =>
    obtain ⟨hend, hrid, hrec, c', hnext, hc'⟩ := hc
    cases fuel with
    | zero => simp at hfuel
    | succ fuel =>
      have hih := ih (fun row hrow => hp row (List.mem_cons_of_mem _ hrow)) hc'
        (Nat.le_of_succ_le_succ hfuel) (if p row then c.rid else lastRid)
      have hhere := hp row List.mem_cons_self
      simp only [seqLast, hend, Bool.false_eq_true, if_false, hrid, hrec, Option.bind_some, hhere,
        hnext]
      rw [hrid] at hih
      rw [hih]
      cases hok : p row with
      | true =>
        rw [List.filter_cons, if_pos hok, List.getLast?_cons]
        cases (ahead.filter p).getLast? with
        | none => rfl
        | some last => rfl
      | false =>
        rw [List.filter_cons, hok, if_neg Bool.false_ne_true, if_neg Bool.false_ne_true]

/-- Where the executor is when the records of a list are ahead, the one that it is at in front. -/
def SeqScanAt (f : RmFile) (p : Rid × Bytes → Bool) : List (Rid × Bytes) → SeqScanState → Prop
  | [], s => s.isEnd = true
  | row :: rest, s =>
    s.isEnd = false ∧ s.rid = row.1 ∧ f.getRecord row.1 = some row.2 ∧
      ((row :: rest).map Prod.fst).Nodup ∧
      (row :: rest).getLast?.map Prod.fst = some s.lastRid ∧
      ∃ ahead before, f.rows = before ++ ahead ∧ f.ScanAhead ahead s.scan ∧ rest = ahead.filter p

theorem seqFirst_at {before : List (Rid × Bytes)} (hfile : f.rows = before ++ ahead)
    (hp : ∀ row ∈ ahead, eval row.2 = some (p row)) (hc : f.ScanAhead ahead s.scan)
    (hrid : s.rid = s.scan.rid) (hend : s.isEnd = false) (hfuel : ahead.length ≤ fuel)
    (hlast : ahead.filter p ≠ [] →
      (ahead.filter p).getLast?.map Prod.fst = some s.lastRid)
    (hnodup : (ahead.map Prod.fst).Nodup) :
    ∃ s', seqFirst f eval fuel s = some s' ∧ SeqScanAt f p (ahead.filter p) s' := by
  induction ahead generalizing s fuel before with
  | nil =>
    have hscan : s.scan.isEnd = true := hc
    cases fuel with
    | zero => exact ⟨{ s with isEnd := true }, by simp [seqFirst, hscan], rfl⟩
    | succ fuel => exact ⟨{ s with isEnd := true }, by simp [seqFirst, hscan], rfl⟩
  | cons row ahead ih =>
    obtain ⟨hscan, hscanRid, hrec, c', hnext, hc'⟩ := hc
    have hhere := hp row List.mem_cons_self
    have hat : s.rid = row.1 := hrid.trans hscanRid
    have hfile' : f.rows = (before ++ [row]) ++ ahead := by rw [hfile]; simp
    rw [List.map_cons, List.nodup_cons] at hnodup
    cases fuel with
    | zero => simp at hfuel
    | succ fuel =>
      simp only [seqFirst, hscan, Bool.false_eq_true, if_false, hat, hrec, Option.bind_some, hnext,
        hhere]
      cases hok : p row with
      | true =>
        rw [List.filter_cons, if_pos hok] at hlast ⊢
        refine ⟨{ s with scan := c', rid := row.1 }, if_pos rfl, hend, rfl, hrec, ?_,
          hlast (List.cons_ne_nil _ _), ahead, before ++ [row], hfile', hc', rfl⟩
        rw [List.map_cons, List.nodup_cons]
        refine ⟨fun hmem => hnodup.1 ?_, hnodup.2.sublist (List.filter_sublist.map _)⟩
        exact (List.filter_sublist.map _).subset hmem
      | false =>
        have hskip : List.filter p (row :: ahead) = ahead.filter p := by
          rw [List.filter_cons, if_neg (by simp [hok])]
        rw [hskip] at hlast ⊢
        exact @ih fuel { s with scan := c', rid := c'.rid } (before ++ [row]) hfile'
          (fun row hrow => hp row (List.mem_cons_of_mem _ hrow)) hc' rfl hend
          (Nat.le_of_succ_le_succ hfuel) hlast hnodup.2

theorem seqNext_at {before : List (Rid × Bytes)} (hfile : f.rows = before ++ ahead)
    (hp : ∀ row ∈ ahead, eval row.2 = some (p row)) (hc : f.ScanAhead ahead s.scan)
    (hend : s.isEnd = false) (hfuel : ahead.length ≤ fuel) (hne : ahead.filter p ≠ [])
    (hlast : (ahead.filter p).getLast?.map Prod.fst = some s.lastRid)
    (hnodup : (ahead.map Prod.fst).Nodup) :
    ∃ s', seqNext f eval fuel s = some s' ∧ SeqScanAt f p (ahead.filter p) s' := by
  induction ahead generalizing s fuel before with
  | nil => exact absurd rfl hne
  | cons row ahead ih =>
    obtain ⟨hscan, hscanRid, hrec, c', hnext, hc'⟩ := hc
    have hhere := hp row List.mem_cons_self
    have hfile' : f.rows = (before ++ [row]) ++ ahead := by rw [hfile]; simp
    rw [List.map_cons, List.nodup_cons] at hnodup
    cases fuel with
    | zero => simp at hfuel
    | succ fuel =>
      simp only [seqNext, hscan, Bool.false_eq_true, if_false, hscanRid, hrec, Option.bind_some,
        hnext, hhere]
      cases hok : p row with
      | true =>
        rw [List.filter_cons, if_pos hok] at hlast ⊢
        refine ⟨{ s with scan := c', rid := row.1 }, if_pos rfl, hend, rfl, hrec, ?_, hlast,
          ahead, before ++ [row], hfile', hc', rfl⟩
        rw [List.map_cons, List.nodup_cons]
        refine ⟨fun hmem => hnodup.1 ?_, hnodup.2.sublist (List.filter_sublist.map _)⟩
        exact (List.filter_sublist.map _).subset hmem
      | false =>
        have hskip : List.filter p (row :: ahead) = ahead.filter p := by
          rw [List.filter_cons, if_neg (by simp [hok])]
        rw [hskip] at hlast hne ⊢
        exact @ih fuel { s with scan := c', rid := row.1 } (before ++ [row]) hfile'
          (fun row hrow => hp row (List.mem_cons_of_mem _ hrow)) hc' hend
          (Nat.le_of_succ_le_succ hfuel) hne hlast hnodup.2

/-- The executor goes along the records that it selects. -/
theorem seqScanCursor_walks (h : f.Paged) (hp : ∀ row ∈ f.rows, eval row.2 = some (p row))
    (hfuel : f.rows.length ≤ fuel) (s₀ : SeqScanState) :
    (seqScanCursor f eval rid₀ fuel).Walks s₀ (f.rows.filter p) (SeqScanAt f p) := by
  obtain ⟨c, hopen, hc⟩ := RmFile.openScan_ahead h rid₀
  constructor
  · intro s _
    have hseqLast := seqLast_eq hp hc hfuel s.lastRid
    obtain ⟨s', hs', hat⟩ := @seqFirst_at f eval p fuel f.rows ⟨c, c.rid, false,
      ((f.rows.filter p).getLast?.map Prod.fst).getD s.lastRid⟩ [] rfl hp hc rfl rfl hfuel (by
        intro hne
        obtain ⟨row, hrow⟩ := Option.isSome_iff_exists.mp (List.getLast?_isSome.mpr hne)
        simp [hrow]) f.rows_nodup
    refine ⟨s', ?_, hat⟩
    simp only [seqScanCursor, hopen, Option.bind_some, hseqLast]
    exact hs'
  · intro rest s hat
    cases rest with
    | nil => exact hat
    | cons row rest => exact hat.1
  · intro row rest s hat
    obtain ⟨hend, hrid, hrec, hrest⟩ := hat
    refine ⟨s, ?_, hend, hrid, hrec, hrest⟩
    simp [seqScanCursor, hrid, hrec]
  · intro row rest s hat
    obtain ⟨hend, hrid, -, hnodup, hlast, ahead, before, hfile, hscan, rfl⟩ := hat
    by_cases hne : ahead.filter p = []
    · rw [hne] at hlast ⊢
      refine ⟨{ s with isEnd := true }, ?_, rfl⟩
      have hsame : s.lastRid = s.rid := by
        rw [hrid]
        simpa using hlast.symm
      simp [seqScanCursor, hsame]
    · obtain ⟨last, hlastRow⟩ := Option.isSome_iff_exists.mp (List.getLast?_isSome.mpr hne)
      rw [List.getLast?_cons, hlastRow, Option.getD_some, Option.map_some] at hlast
      have hdiff : s.lastRid ≠ s.rid := by
        rw [List.map_cons, List.nodup_cons] at hnodup
        rw [hrid, ← Option.some.inj hlast]
        intro heq
        exact hnodup.1 (heq ▸ List.mem_map_of_mem (List.mem_of_getLast? hlastRow))
      have hsub : ahead.Sublist f.rows := hfile ▸ List.sublist_append_right before ahead
      obtain ⟨s', hs', hat'⟩ := @seqNext_at f eval p fuel ahead s before hfile
        (fun row hrow => hp row (hsub.subset hrow)) hscan hend
        (hsub.length_le.trans hfuel) hne (by rw [hlastRow]; exact hlast)
        (f.rows_nodup.sublist (hsub.map _))
      exact ⟨s', by simp only [seqScanCursor, hdiff, if_false]; exact hs', hat'⟩

end Walk

section Filter

variable {cols : List ColMeta} {cond : Condition} {row : Bytes}

/-- What a condition says about a record. -/
def rowMeets (cols : List ColMeta) (row : Bytes) (cond : Condition) : Bool :=
  match getValue cols cond.lhsCol row,
    if cond.isRhsVal then cond.rhsVal else getValue cols cond.rhsCol row with
  | some v, some w => v.meets w cond.op
  | _, _ => false

/-- A condition between a column and a literal or a column of its type. -/
structure ScanCond (cols : List ColMeta) (cond : Condition) : Prop where
  sides : ∃ lhs, findCol cols cond.lhsCol = some lhs ∧
    if cond.isRhsVal then ∃ v, cond.rhsVal = some v ∧ v.type = lhs.type
    else ∃ rhs, findCol cols cond.rhsCol = some rhs ∧ rhs.type = lhs.type

theorem ScanCond.eval (h : ScanCond cols cond) (hcols : ∀ col ∈ cols, col.Plain row.length) :
    evalCond cols cond row = some (rowMeets cols row cond) := by
  have hread : ∀ target col, findCol cols target = some col →
      ∃ v, getValue cols target row = some v ∧ v.type = col.type := by
    intro target col hcol
    obtain ⟨v, hv, htype⟩ := (hcols col (List.mem_of_find?_eq_some hcol)).read
    refine ⟨v, ?_, htype⟩
    rw [getValue, hcol]
    exact hv
  obtain ⟨lhs, hlhs, hside⟩ := h.sides
  obtain ⟨v, hv, hvtype⟩ := hread _ _ hlhs
  have hright : ∃ w, (if cond.isRhsVal then cond.rhsVal else getValue cols cond.rhsCol row) =
      some w ∧ w.type = lhs.type := by
    split at hside
    next hval =>
      obtain ⟨w, hw, htype⟩ := hside
      exact ⟨w, by rw [if_pos hval]; exact hw, htype⟩
    next hval =>
      obtain ⟨rhs, hrhs, htype⟩ := hside
      obtain ⟨w, hw, hwtype⟩ := hread _ _ hrhs
      exact ⟨w, by rw [if_neg hval]; exact hw, hwtype.trans htype⟩
  obtain ⟨w, hw, hwtype⟩ := hright
  have hplain := (hcols lhs (List.mem_of_find?_eq_some hlhs)).int_or_string
  rw [evalCond_meets hv hw (hvtype.trans hwtype.symm) (hvtype ▸ hplain), rowMeets, hv, hw]

end Filter

/-- A file as the executors above a scan see it. -/
def RmFile.table (f : RmFile) : TableFile := ⟨f.rows, f.rows_nodup⟩

/-- The scan over the pages delivers what the scan over the table does. -/
theorem seqScanCursor_table (f : RmFile) (eval : Bytes → Option Bool) (p : Rid × Bytes → Bool)
    (rid₀ : Rid) (s₀ : SeqScanState) (t₀ : ScanState) (h : f.Paged)
    (hp : ∀ row ∈ f.rows, eval row.2 = some (p row)) :
    ∃ rows s t, (seqScanCursor f eval rid₀ f.rows.length).start s₀ = some s ∧
      (seqScanCursor f eval rid₀ f.rows.length).Delivers s rows ∧
      (scanCursor eval f.table).start t₀ = some t ∧
      (scanCursor eval f.table).Delivers t (rows.map Prod.snd) := by
  have hpages := @seqScanCursor_walks f eval p rid₀ f.rows.length h hp le_rfl s₀
  have htable := @scanCursor_walks eval p f.table hp t₀
  obtain ⟨s, hs, hat⟩ := hpages.start s₀ (Or.inl rfl)
  obtain ⟨t, ht, hat'⟩ := htable.start t₀ (Or.inl rfl)
  exact ⟨_, s, t, hs, hpages.delivers hat, ht, htable.delivers hat'⟩

/-- A sequential scan is the filter of the file: the records that satisfy the conditions, by page and
slot, with their places. -/
theorem seqScan_filters (f : RmFile) (cols : List ColMeta) (conds : List Condition) (rid₀ : Rid)
    (s₀ : SeqScanState) (h : f.Paged) (hcols : ∀ col ∈ cols, col.Plain f.recordSize)
    (hrecords : ∀ rid rec, f.record rid = some rec → rec.length = f.recordSize)
    (hconds : ∀ cond ∈ conds, ScanCond cols cond) :
    ∃ rows : List (Rid × Bytes),
      (rows.Pairwise fun a b => a.1.before b.1) ∧
      (∀ rid rec, (rid, rec) ∈ rows ↔
        0 ≤ rid.slotNo ∧ rid.slotNo < f.perPage ∧ f.record rid = some rec ∧
          ∀ cond ∈ conds, rowMeets cols rec cond = true) ∧
      ∃ n, ∀ fuel, n ≤ fuel →
        ∃ s, (seqScanCursor f (evalConds cols conds) rid₀ fuel).start s₀ = some s ∧
          (seqScanCursor f (evalConds cols conds) rid₀ fuel).Delivers s rows := by
  have hp : ∀ row ∈ f.rows, evalConds cols conds row.2 =
      some (conds.all (rowMeets cols row.2)) := by
    rintro ⟨rid, rec⟩ hrow
    obtain ⟨-, -, hrec⟩ := (RmFile.mem_rows h).mp hrow
    have hplain : ∀ col ∈ cols, col.Plain rec.length := by
      rw [hrecords rid rec hrec]
      exact hcols
    exact evalConds_all fun cond hcond => (hconds cond hcond).eval hplain
  refine ⟨f.rows.filter fun row => conds.all (rowMeets cols row.2),
    (RmFile.rowsFrom_pairwise f _ 1).filter _, fun rid rec => ?_, f.rows.length,
    fun fuel hfuel => ?_⟩
  · rw [List.mem_filter, RmFile.mem_rows h, List.all_eq_true, and_assoc, and_assoc]
  · have hwalks := @seqScanCursor_walks f _ _ rid₀ fuel h hp hfuel s₀
    obtain ⟨s, hstart, hat⟩ := hwalks.start s₀ (Or.inl rfl)
    exact ⟨s, hstart, hwalks.delivers hat⟩

/-- One page with the records `(2, 5)` and `(1, 7)`. -/
def twoSlots : RmFile :=
  ⟨8, 2, 1, 2, fun p =>
    if p = 1 then
      some ⟨0, RM_NO_PAGE, 2, fun i => i = 0 ∨ i = 3,
        fun i => if i = 0 then [2, 0, 0, 0, 5, 0, 0, 0] else [1, 0, 0, 0, 7, 0, 0, 0]⟩
    else none⟩

theorem twoSlots_paged : twoSlots.Paged := by
  refine ⟨fun p => ?_, by decide⟩
  simp only [twoSlots]
  split
  next hp => simp [hp]
  next hp =>
    simp only [reduceCtorEq, exists_false, false_iff]
    lia

theorem seqScan_filters_twoSlots :
    ∃ rows : List (Rid × Bytes),
      (rows.Pairwise fun a b => a.1.before b.1) ∧
      (∀ rid rec, (rid, rec) ∈ rows ↔
        0 ≤ rid.slotNo ∧ rid.slotNo < twoSlots.perPage ∧ twoSlots.record rid = some rec ∧
          ∀ cond ∈ [(⟨⟨"a", "x"⟩, .lt, false, ⟨"a", "y"⟩, none⟩ : Condition)],
            rowMeets [⟨"a", "x", .int, 4, 0⟩, ⟨"a", "y", .int, 4, 4⟩] rec cond = true) ∧
      ∃ n, ∀ fuel, n ≤ fuel →
        ∃ s, (seqScanCursor twoSlots (evalConds [⟨"a", "x", .int, 4, 0⟩, ⟨"a", "y", .int, 4, 4⟩]
            [⟨⟨"a", "x"⟩, .lt, false, ⟨"a", "y"⟩, none⟩]) ⟨0, 0⟩ fuel).start
              ⟨⟨⟨0, 0⟩, 0⟩, ⟨0, 0⟩, false, ⟨0, 0⟩⟩ = some s ∧
          (seqScanCursor twoSlots (evalConds [⟨"a", "x", .int, 4, 0⟩, ⟨"a", "y", .int, 4, 4⟩]
            [⟨⟨"a", "x"⟩, .lt, false, ⟨"a", "y"⟩, none⟩]) ⟨0, 0⟩ fuel).Delivers s rows := by
  refine seqScan_filters twoSlots [⟨"a", "x", .int, 4, 0⟩, ⟨"a", "y", .int, 4, 4⟩]
    [⟨⟨"a", "x"⟩, .lt, false, ⟨"a", "y"⟩, none⟩] ⟨0, 0⟩ ⟨⟨⟨0, 0⟩, 0⟩, ⟨0, 0⟩, false, ⟨0, 0⟩⟩
    twoSlots_paged ?_ (fun rid rec hrec => ?_) ?_
  · intro col hcol
    simp only [List.mem_cons, List.not_mem_nil, or_false] at hcol
    rcases hcol with rfl | rfl
    · exact ⟨Or.inl ⟨rfl, rfl⟩, by decide⟩
    · exact ⟨Or.inl ⟨rfl, rfl⟩, by decide⟩
  · obtain ⟨page, hpage, hrec⟩ := Option.bind_eq_some_iff.mp hrec
    simp only [twoSlots] at hpage
    split at hpage
    next =>
      cases hpage
      split at hrec
      next =>
        cases hrec
        dsimp only
        split
        next => rfl
        next => rfl
      next => cases hrec
    next => cases hpage
  · intro cond hcond
    rw [List.mem_singleton] at hcond
    subst hcond
    exact ⟨⟨⟨"a", "x", .int, 4, 0⟩, rfl, ⟨"a", "y", .int, 4, 4⟩, rfl, rfl⟩⟩

end Grmdb
