import Grmdb.GapCover
import Grmdb.PointLookup

namespace Grmdb

open PagedTree Tiling BTree

variable {index : IndexMeta}

/-- What `beginTuple` and `nextTuple` write: `ix_scan_`, `is_end_` and `rid_`. -/
structure IndexScanExecutor where
  ixScan : IxScan
  isEnd_ : Bool
  rid : Rid

namespace IndexScanExecutor

/-- `beginTuple`; `rid` is what stood in `rid_`. Where no other transaction runs, the gap lock is
granted and nobody sets `index_aborted_`, so the loop is left after one round. -/
def beginTuple (L : IxLayout (IxKey index.ixCols)) (s : IxFile (IxKey index.ixCols))
    (conds : List Condition) (bufs : GapBuffers index.ixCols) (rid : Rid) :
    Option IndexScanExecutor :=
  (gap L s conds bufs).bind fun range =>
    let ixScan : IxScan := ⟨range.1.1, range.1.2⟩
    let isEnd_ := decide (range.2.2 < range.2.1)
    if !ixScan.isEnd && !isEnd_ then (ixScan.rid L s).map fun rid => ⟨ixScan, isEnd_, rid⟩
    else some ⟨ixScan, isEnd_, rid⟩

variable {κ : Type}

def nextTuple (L : IxLayout κ) (s : IxFile κ) (e : IndexScanExecutor) :
    Option IndexScanExecutor :=
  (e.ixScan.next s).bind fun ixScan =>
    if !ixScan.isEnd then (ixScan.rid L s).map fun rid => { e with ixScan, rid }
    else some { e with ixScan }

def isEnd (e : IndexScanExecutor) : Bool := e.ixScan.isEnd || e.isEnd_

/-- The rids that a caller reads with `is_end`, `rid` and `nextTuple`, if that takes no more rounds
than `fuel`. -/
def rids (L : IxLayout κ) (s : IxFile κ) : Nat → IndexScanExecutor → Option (List Rid)
  | 0, e => if e.isEnd then some [] else none
  | fuel + 1, e =>
    if e.isEnd then some []
    else (e.nextTuple L s).bind fun next => (rids L s fuel next).map (e.rid :: ·)

/-- A whole scan. -/
def enumerate (L : IxLayout (IxKey index.ixCols)) (s : IxFile (IxKey index.ixCols))
    (conds : List Condition) (bufs : GapBuffers index.ixCols) (rid : Rid) (fuel : Nat) :
    Option (List Rid) :=
  (beginTuple L s conds bufs rid).bind (rids L s fuel)

/-- As long as `rid_` is the rid of the place, the executor reads what its scan reads. -/
theorem rids_eq {L : IxLayout κ} {s : IxFile κ} {e : IndexScanExecutor} (hflag : e.isEnd_ = false)
    (hrid : e.ixScan.isEnd = false → e.ixScan.rid L s = some e.rid) (fuel : Nat) :
    e.rids L s fuel = e.ixScan.rids L s fuel := by
  induction fuel generalizing e with
  | zero => simp [rids, IxScan.rids, isEnd, hflag]
  | succ fuel ih =>
    by_cases hend : e.ixScan.isEnd = true
    · simp [rids, IxScan.rids, isEnd, hend]
    · rw [Bool.not_eq_true] at hend
      have hleft : e.rids L s (fuel + 1) =
          (e.nextTuple L s).bind fun next => (rids L s fuel next).map (e.rid :: ·) := by
        simp [rids, isEnd, hend, hflag]
      have hright : e.ixScan.rids L s (fuel + 1) =
          (e.ixScan.next s).bind fun c => (c.rids L s fuel).map (e.rid :: ·) := by
        simp [IxScan.rids, hend, hrid hend]
      rw [hleft, hright, nextTuple, Option.bind_assoc]
      refine Option.bind_congr fun c _ => ?_
      by_cases hc : c.isEnd = true
      · have hsame := @ih { e with ixScan := c } hflag fun h => absurd (hc.symm.trans h) (by decide)
        rw [hc]
        exact congrArg (Option.map (e.rid :: ·)) hsame
      · rw [Bool.not_eq_true] at hc
        cases hread : c.rid L s with
        | none =>
          cases fuel with
          | zero => simp [IxScan.rids, hc]
          | succ fuel => simp [IxScan.rids, hc, hread]
        | some rid =>
          have hsame := @ih { e with ixScan := c, rid := rid } hflag fun _ => hread
          rw [hc]
          exact congrArg (Option.map (e.rid :: ·)) hsame

/-- A scan reads nothing where its gap ends in front of its start, and else the places between. -/
theorem enumerate_eq {L : IxLayout (IxKey index.ixCols)} {s : IxFile (IxKey index.ixCols)}
    {conds : List Condition} {bufs : GapBuffers index.ixCols} {range : GapRange index.ixCols}
    (h : gap L s conds bufs = some range) (rid : Rid) (fuel : Nat) :
    enumerate L s conds bufs rid fuel =
      if range.2.2 < range.2.1 then some [] else IxScan.rids L s fuel ⟨range.1.1, range.1.2⟩ := by
  rw [enumerate, beginTuple, h, Option.bind_some]
  by_cases hflag : range.2.2 < range.2.1
  · simp only [hflag, decide_true, Bool.not_true, Bool.and_false, Bool.false_eq_true, if_false,
      Option.bind_some, if_true]
    cases fuel with
    | zero => simp [rids, isEnd]
    | succ fuel => simp [rids, isEnd]
  · rw [if_neg hflag]
    by_cases hend : (⟨range.1.1, range.1.2⟩ : IxScan).isEnd = true
    · simp only [hend, Bool.not_true, Bool.false_and, Bool.false_eq_true, if_false,
        Option.bind_some]
      exact rids_eq (decide_eq_false hflag) (fun h => absurd (hend.symm.trans h) (by decide)) fuel
    · rw [Bool.not_eq_true] at hend
      simp only [hend, hflag, decide_false, Bool.not_false, Bool.and_self, if_true]
      cases hread : (⟨range.1.1, range.1.2⟩ : IxScan).rid L s with
      | none =>
        cases fuel with
        | zero => simp [IxScan.rids, hend]
        | succ fuel => simp [IxScan.rids, hend, hread]
      | some rid => exact rids_eq rfl (fun _ => hread) fuel

end IndexScanExecutor

section Beyond

variable {κ : Type} [LinearOrder κ] {s : IxFile κ} {g : Labels PageNo κ} {ls : List PageNo}

/-- Behind the last pair there is no rid. -/
theorem rid_end (h : BTree s g ls) (L : IxLayout κ) {front : List (κ × Rid)} {c : IxScan}
    (hc : s.Names ls front [] c.iid) : c.rid L s = none := by
  obtain ⟨ls₁, p, ls₂, es₁, es₂, rfl, hes, -, hrest, hiid, -⟩ := hc
  obtain ⟨rfl, -⟩ := List.append_eq_nil_iff.mp hrest.symm
  obtain ⟨n, hn, -⟩ := h.mem_leaves.mp (show p ∈ ls₁ ++ p :: ls₂ by simp)
  rw [entriesOf_eq hn, List.append_nil] at hes
  simp [IxScan.rid, IxFile.getRid, hiid, hn, IxNode.size, hes]

/-- A scan that starts behind its stop place runs into the end of the leaves. -/
theorem rids_beyond (h : BTree s g ls) (L : IxLayout κ)
    {front rest front' rest' mid : List (κ × Rid)} {e : κ × Rid} {c : IxScan}
    (hc : s.Names ls front rest c.iid) (hstop : s.Names ls front' rest' c.stop)
    (hfront : front = front' ++ e :: mid) (fuel : Nat) : c.rids L s fuel = none := by
  induction rest generalizing front mid c fuel with
  | nil =>
    have hend : c.isEnd = false := by
      simp only [IxScan.isEnd, decide_eq_false_iff_not]
      intro heq
      have hsame := hc.front_eq h.chain.tiles.nodup (heq ▸ hstop)
      simp [hfront] at hsame
    cases fuel with
    | zero => simp [IxScan.rids, hend]
    | succ fuel => simp [IxScan.rids, hend, rid_end h L hc]
  | cons e' rest ih =>
    have hend : c.isEnd = false := by
      simp only [IxScan.isEnd, decide_eq_false_iff_not]
      intro heq
      have hsame := hc.front_eq h.chain.tiles.nodup (heq ▸ hstop)
      simp [hfront] at hsame
    cases fuel with
    | zero => simp [IxScan.rids, hend]
    | succ fuel =>
      obtain ⟨hrid, iid, hnext, hnames⟩ := h.step L hc hend
      have hleft := @ih (front ++ [e']) (mid ++ [e']) { c with iid := iid } hnames hstop
        (by simp [hfront]) fuel
      simp [IxScan.rids, hend, hrid, hnext, hleft]

end Beyond

end Grmdb
