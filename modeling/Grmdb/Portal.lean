import Grmdb.AggregateExecutor
import Grmdb.JoinExecutors
import Grmdb.SortExecutor

namespace Grmdb

/-- `Portal::convert_plan_executor`; `none` is an error of a constructor, or the use of a null
pointer. An index scan leaves the subquery of its plan aside. -/
def convertPlanExecutor (db : Database) (fuel : Nat) : Plan → Option Executor
  | .null => none
  | .scan s =>
    (db.cat s.tabName).bind fun tab =>
      (db.files s.tabName).bind fun file =>
        if s.indexScan then indexScanExecutor db s tab file
        else seqScanExecutor tab file (db.unsetType s) s.conds
  | .scanSub s clause subPlan =>
    (db.cat s.tabName).bind fun tab =>
      (db.files s.tabName).bind fun file =>
        if s.indexScan then indexScanExecutor db s tab file
        else
          (convertPlanExecutor db fuel subPlan).bind fun sub =>
            subqueryExecutor fuel tab file s.conds clause sub
  | .values vals col => some (valuesExecutor vals col)
  | .join sortMerge left right conds =>
    (convertPlanExecutor db fuel left).bind fun left =>
      (convertPlanExecutor db fuel right).map fun right =>
        if sortMerge then sortMergeExecutor fuel left right conds
        else nestedLoopJoinExecutor fuel left right conds
  | .sort subplan selCol isDesc =>
    (convertPlanExecutor db fuel subplan).bind fun prev =>
      sortExecutor fuel prev selCol isDesc (db.tmpFd (.sort subplan selCol isDesc))
        (db.otherPages (.sort subplan selCol isDesc))
  | .aggr subplan havings aggregates groupBys =>
    (convertPlanExecutor db fuel subplan).bind fun prev =>
      aggregateExecutor db fuel prev havings aggregates groupBys
  | .projection subplan cols selCols =>
    (convertPlanExecutor db fuel subplan).bind fun prev => projectionExecutor prev cols selCols

/-- What an executor delivers when it is run for the first time. -/
def Executor.FirstPass (exec : Executor) (rows : List Bytes) : Prop :=
  ∃ s, exec.cursor.start exec.init = some s ∧ exec.cursor.Delivers s rows

/-- The records of a plan. -/
def Plan.Yields (db : Database) (fuel : Nat) (plan : Plan) (exec : Executor) (rows : List Bytes) :
    Prop :=
  convertPlanExecutor db fuel plan = some exec ∧ exec.FirstPass rows

end Grmdb
