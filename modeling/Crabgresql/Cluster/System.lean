import Crabgresql.Lib.Runs
import Crabgresql.Cluster.Range

/-!
# The cluster

Any number of ranges and the global decisions of range 0. A decision is written
once: a later one for the same global transaction changes nothing. Who asks for
a decision, the coordinator or a participant's abort race, and when, is left
open.
-/

namespace Crabgresql.Cluster

open Mvcc Exec

variable {Row : Type}

structure MultiRangeCluster (Row : Type) where
  glob : GlobalView
  ranges : RangeId → Range Row

inductive ClusterAct (Row : Type)
  | on (r : RangeId) (a : RangeAct Row)
  | decide (g : Xid) (commit : Bool)

/-- `commit_global_decision` through the write-once log. -/
def recordDecision (glob : GlobalView) (g : Xid) (commit : Bool) : GlobalView :=
  if (glob.clog g).isTerminal then glob
  else { glob with clog := Function.update glob.clog g (if commit then .committed else .aborted) }

namespace MultiRangeCluster

def initial : MultiRangeCluster Row := ⟨.initial, fun _ => .initial⟩

def step (C : MultiRangeCluster Row) : ClusterAct Row → Option (MultiRangeCluster Row)
  | .on r a =>
    ((C.ranges r).step C.glob a).map fun R => { C with ranges := Function.update C.ranges r R }
  | .decide g commit => some { C with glob := recordDecision C.glob g commit }

end MultiRangeCluster

def OnRange (ok : GlobalView → Range Row → RangeAct Row → Prop) (C : MultiRangeCluster Row) :
    ClusterAct Row → Prop
  | .on r a => ok C.glob (C.ranges r) a
  | .decide _ _ => True

instance (ok : GlobalView → Range Row → RangeAct Row → Prop) [∀ glob R a, Decidable (ok glob R a)]
    (C : MultiRangeCluster Row) (act : ClusterAct Row) : Decidable (OnRange ok C act) :=
  match act with
  | .on r a => inferInstanceAs (Decidable (ok C.glob (C.ranges r) a))
  | .decide _ _ => isTrue trivial

theorem range_invariant {r : RangeId} {I : GlobalView → Range Row → Prop}
    {ok : GlobalView → Range Row → RangeAct Row → Prop}
    (hstep : ∀ glob R a R', I glob R → ok glob R a → R.step glob a = some R' → I glob R')
    (hdecide : ∀ glob R g commit, I glob R → I (recordDecision glob g commit) R)
    {C C' : MultiRangeCluster Row} {acts : List (ClusterAct Row)} (h0 : I C.glob (C.ranges r))
    (hok : Runs.Along MultiRangeCluster.step (OnRange ok) C acts)
    (h : Runs.exec MultiRangeCluster.step C acts = some C') : I C'.glob (C'.ranges r) := by
  refine Runs.exec_invariant (I := fun C : MultiRangeCluster Row => I C.glob (C.ranges r))
    ?_ h0 hok h
  intro C act C' hI hact hs
  cases act with
  | on r' a =>
    simp only [MultiRangeCluster.step, Option.map_eq_some_iff] at hs
    obtain ⟨R, hR, rfl⟩ := hs
    simp only [Function.update_apply]
    split_ifs with hr
    · subst hr
      exact hstep C.glob (C.ranges r) a R hI hact hR
    · exact hI
  | decide g commit =>
    cases hs
    exact hdecide C.glob (C.ranges r) g commit hI

end Crabgresql.Cluster
