import Crabgresql.Cluster.Watermark
import Crabgresql.Cluster.Linear

/-!
# Terms and read barriers

The terms of the entries of a log do not decrease, and once the leader of a term
has passed its read barrier, a proposal of an earlier term that is not in the log
never will be. The runs below keep the last such term. The gate of a leader opens
only after its sweep of the current term.
-/

namespace Crabgresql.Cluster

open Mvcc Kv Procarray Lockmgr Exec Session Engine Recovery Range

variable {Row : Type}

structure Led (Row : Type) where
  range : Range Row
  /-- The last term whose leader has passed a read barrier or appended an entry. -/
  barrier : ℕ

namespace Range

/-- The term under which the entry that an action appends was proposed. -/
def appendEpoch (R : Range Row) : RangeAct Row → Option ℕ
  | .call n s (.apply true) _ =>
    match (R.sess n s).pc with
    | .committing _ epoch _ => some epoch
    | _ => none
  | .late i => R.inflight[i]?.map Prod.fst
  | .advance _ true => some R.term
  | _ => none

/-- The node whose read barrier an action waits for: in its settling, and when a REPEATABLE READ
block takes its snapshot. -/
def awaitsBarrier (R : Range Row) : RangeAct Row → Option NodeId
  | .settle n => some n
  | .call n s (.begin true) _ => if (R.sess n s).txn = .idle then some n else none
  | _ => none

end Range

namespace Led

def initial : Led Row := ⟨.initial, 0⟩

def step (L : Led Row) : LeaderAct Row → Option (Led Row)
  | .on glob a =>
    if (∀ epoch ∈ L.range.appendEpoch a, L.barrier ≤ epoch) ∧
        ∀ n ∈ L.range.awaitsBarrier a, L.range.leader = some n then
      (L.range.step glob a).map fun R =>
        ⟨R, if (L.range.awaitsBarrier a).isSome then L.range.term
          else max L.barrier ((L.range.appendEpoch a).getD 0)⟩
    else none
  | .reseed n => some ⟨L.range.reseed n, L.barrier⟩

/-- The inversion of a step: what it appends was proposed in the term of the last barrier or
later. -/
inductive Steps (L : Led Row) : LeaderAct Row → Led Row → Prop
  | on (glob : GlobalView) (a : RangeAct Row) (R : Range Row) (barrier : ℕ)
      (hs : L.range.step glob a = some R)
      (happend : ∀ epoch ∈ L.range.appendEpoch a, L.barrier ≤ epoch)
      (hlead : ∀ n ∈ L.range.awaitsBarrier a, L.range.leader = some n)
      (hbarrier : barrier =
        if (L.range.awaitsBarrier a).isSome then L.range.term
        else max L.barrier ((L.range.appendEpoch a).getD 0)) :
      Steps L (.on glob a) ⟨R, barrier⟩
  | reseed (n : NodeId) : Steps L (.reseed n) ⟨L.range.reseed n, L.barrier⟩

theorem step_cases {L L' : Led Row} {act : LeaderAct Row} (h : L.step act = some L') :
    Steps L act L' := by
  cases act with
  | reseed n =>
    cases h
    exact .reseed n
  | on glob a =>
    simp only [step] at h
    obtain ⟨hcond, h⟩ := Option.ite_none_right_eq_some.mp h
    obtain ⟨R, hR, rfl⟩ := Option.map_eq_some_iff.mp h
    exact .on glob a R _ hR hcond.1 hcond.2 rfl

end Led

/-- Nothing is proposed under a later term. -/
structure EpochInv (R : Range Row) : Prop where
  proposed : ∀ n s b epoch after, (R.sess n s).pc = .committing b epoch after → epoch ≤ R.term
  flight : ∀ p ∈ R.inflight, p.1 ≤ R.term

section Epochs

variable {R R' : Range Row} {glob : GlobalView} {act : RangeAct Row}

theorem Move.epoch_of {env : Env} {v v' : View Row} {a : Act Row} (hm : Move env v a v')
    (ha : ∀ ok, a ≠ .apply ok) {b : Batch Row} {epoch : ℕ} {after : After}
    (hpc' : v'.self.pc = .committing b epoch after) : epoch = env.epoch := by
  cases hm with
  | fail =>
    simp only [failPc] at hpc'
    split_ifs at hpc'
    cases hpc'
    rfl
  | done =>
    simp only at hpc'
    split_ifs at hpc'
  | wait f r pick lm hpc =>
    rw [hpc] at hpc'
    cases hpc'
  | apply ok => exact absurd rfl (ha ok)
  | submit | stage | commit | abort | join => cases hpc'; rfl
  | _ => cases hpc'

theorem Range.epochOf_le (R : Range Row) (n : NodeId) : R.epochOf n ≤ R.term := by
  unfold epochOf
  split_ifs
  · exact le_rfl
  · exact Nat.zero_le _

theorem epochInv_step (h : EpochInv R) (hs : R.step glob act = some R') : EpochInv R' where
  proposed n s b epoch after hpc := by
    refine le_trans ?_ (term_le_step hs)
    have hb := became_step hs n s
    generalize R'.sess n s = u at hb hpc
    cases hb with
    | same => exact h.proposed n s b epoch after hpc
    | new => cases hpc
    | returned b' epoch' after' ok =>
      exact absurd hpc (returned_not_committing _ b' after' ok)
    | moved a v lag hact ha hadm hmove =>
      rw [Move.epoch_of hmove ha hpc]
      exact R.epochOf_le n
  flight p hp := by
    refine le_trans ?_ (term_le_step hs)
    rcases inflight_step hs hp with hp | ⟨n, s, b, after, -, -, hpc, -⟩ | ⟨n, term, lo, -, -, -, rfl⟩
    · exact h.flight p hp
    · exact h.proposed n s b p.1 after hpc
    · exact R.epochOf_le n

theorem EpochInv.appendEpoch_le (h : EpochInv R) : (R.appendEpoch act).getD 0 ≤ R.term := by
  unfold appendEpoch
  split
  · rename_i n s lag
    split
    · rename_i b epoch after hpc
      exact h.proposed n s b epoch after hpc
    · exact Nat.zero_le _
  · rename_i i
    cases hget : R.inflight[i]? with
    | none => exact Nat.zero_le _
    | some p => exact h.flight p (List.mem_of_getElem? hget)
  · exact le_rfl
  · exact Nat.zero_le _

end Epochs

/-- The gate and the barrier fit the term. -/
structure GateInv (L : Led Row) : Prop where
  epochs : EpochInv L.range
  barrier : L.barrier ≤ L.range.term
  seeded : L.range.seeded = true → L.barrier = L.range.term
  served : ∀ n, (L.range.nodes n).served ≤ L.range.term
  sweeps : ∀ n t, (L.range.nodes n).sweep.term = some t → t ≤ L.range.term
  idle : ∀ n, L.range.leader = some n → (L.range.nodes n).served = L.range.term →
    (L.range.nodes n).sweep = .idle

theorem gateInv_initial : GateInv (Led.initial : Led Row) where
  epochs := ⟨fun n s b epoch after h => (by cases h), fun p h => (by cases h)⟩
  barrier := le_rfl
  seeded h := by cases h
  served _ := le_rfl
  sweeps n t h := by cases h
  idle n h := by cases h

section Gates

variable {L : Led Row} {R : Range Row} {n : NodeId}

variable {barrier : ℕ}

/-- A step within the term, or into the next one. -/
theorem GateInv.next (h : GateInv L) (hepochs : EpochInv R) (hbarrier : barrier ≤ L.range.term)
    (hseeded : R.seeded = true → barrier = R.term)
    (hterm : R.term = L.range.term ∧ (∀ m, R.leader = some m → L.range.leader = some m) ∨
      R.term = L.range.term + 1 ∧ ∀ m, (R.nodes m).served = (L.range.nodes m).served)
    (hnodes : ∀ m, Gates L.range R m) : GateInv ⟨R, barrier⟩ := by
  have hle : L.range.term ≤ R.term := by omega
  refine ⟨hepochs, hbarrier.trans hle, hseeded,
    fun m => ((hnodes m).served_le (h.sweeps m) (h.served m)).trans hle,
    fun m t ht => ((hnodes m).term_le (h.sweeps m) ht).trans hle, fun m hl hs => ?_⟩
  change (R.nodes m).served = R.term at hs
  rcases hterm with ⟨hterm, hlead⟩ | ⟨hterm, hsame⟩
  · rw [hterm] at hs
    exact (hnodes m).idle (h.idle m (hlead m hl)) hs
  · have hserved := h.served m
    have hold := hsame m
    omega

theorem GateInv.barrier_step (h : GateInv L) {a : RangeAct Row}
    (hbarrier : barrier = if (L.range.awaitsBarrier a).isSome then L.range.term
      else max L.barrier ((L.range.appendEpoch a).getD 0)) :
    L.barrier ≤ barrier ∧ barrier ≤ L.range.term := by
  rw [hbarrier]
  split_ifs
  · exact ⟨h.barrier, le_rfl⟩
  · exact ⟨le_max_left _ _, max_le h.barrier h.epochs.appendEpoch_le⟩

theorem gateInv_step {L' : Led Row} {act : LeaderAct Row} (h : GateInv L)
    (hstep : L.step act = some L') : GateInv L' := by
  cases Led.step_cases hstep with
  | reseed n =>
    refine h.next ⟨fun m s b epoch after hpc => ?_, h.epochs.flight⟩ h.barrier h.seeded
      (.inl ⟨rfl, fun m hm => hm⟩) fun m => .inl ⟨?_, ?_⟩
    · rw [show (L.range.reseed n).sess m s = _ from sess_setNode_same (by rfl) m s] at hpc
      exact h.epochs.proposed m s b epoch after hpc
    · exact field_setNode Node.sweep (by rfl) m
    · exact field_setNode Node.served (by rfl) m
  | on glob a R barrier hs happend hlead hbarrier =>
    obtain ⟨hb, hle⟩ := h.barrier_step hbarrier
    have hkept : L.range.seeded = true → barrier = L.range.term := fun hs =>
      le_antisymm hle ((h.seeded hs).symm.le.trans hb)
    have hnext := fun hseeded hterm =>
      h.next (epochInv_step h.epochs hs) hle hseeded hterm (gates_step hs)
    cases leads_step hs with
    | kept hl hterm hseed =>
      exact hnext (fun hs => (hkept (hseed ▸ hs)).trans hterm.symm)
        (.inl ⟨hterm, fun m hm => hl ▸ hm⟩)
    | settle n hn hl hterm =>
      exact hnext (fun _ => hbarrier.trans hterm.symm) (.inl ⟨hterm, fun m hm => hl ▸ hm⟩)
    | elect n heq =>
      subst heq
      exact hnext nofun (.inr ⟨rfl, fun _ => rfl⟩)
    | crash n heq =>
      subst heq
      exact hnext (fun hs => (hkept (L.range.seeded_crash n hs)).trans (L.range.term_crash n).symm)
        (.inl ⟨L.range.term_crash n, fun m hm => (L.range.leader_crash n hm).1⟩)

/-- Within a term the leader keeps its gate open, its counters seeded and its barrier passed. -/
structure Tenure (L L' : Led Row) : Prop where
  term : L'.range.term = L.range.term
  barrier : L.barrier ≤ L'.barrier
  leader : ∀ m, L'.range.leader = some m → L.range.leader = some m
  seeded : ∀ m, L'.range.leader = some m → L.range.seeded = true → L'.range.seeded = true
  served : ∀ m, L'.range.leader = some m → (L.range.nodes m).served = L.range.term →
    (L'.range.nodes m).served = L.range.term

theorem GateInv.tenure {L' : Led Row} {act : LeaderAct Row} (h : GateInv L)
    (hstep : L.step act = some L') :
    (∃ glob n, act = .on glob (.elect n) ∧ L' = ⟨L.range.elect n, L.barrier⟩) ∨ Tenure L L' := by
  cases Led.step_cases hstep with
  | reseed =>
    exact .inr ⟨rfl, le_rfl, fun _ hm => hm, fun _ _ => id, fun m _ hs =>
      (field_setNode Node.served (by rfl) m).trans hs⟩
  | on glob a R barrier hs happend hlead hbarrier =>
    have hb := (h.barrier_step hbarrier).1
    have hserved : ∀ m, R.leader = some m → L.range.leader = some m →
        (L.range.nodes m).served = L.range.term → (R.nodes m).served = L.range.term := by
      intro m hm hold hserved
      exact ((gates_step hs m).served (h.idle m hold hserved) hm).trans hserved
    cases leads_step hs with
    | kept hl hterm hseed =>
      exact .inr ⟨hterm, hb, fun m hm => hl ▸ hm, fun _ _ hs => hseed.trans hs, fun m hm =>
        hserved m hm (hl ▸ hm)⟩
    | settle n hn hl hterm hseed =>
      exact .inr ⟨hterm, hb, fun m hm => hl ▸ hm, fun _ _ _ => hseed, fun m hm =>
        hserved m hm (hl ▸ hm)⟩
    | elect n heq =>
      subst heq
      obtain rfl : barrier = L.barrier := hbarrier.trans (Nat.max_zero _)
      exact .inl ⟨glob, n, rfl, rfl⟩
    | crash n heq =>
      subst heq
      refine .inr ⟨L.range.term_crash n, hb, fun m hm => (L.range.leader_crash n hm).1, ?_,
        fun m hm => hserved m hm (L.range.leader_crash n hm).1⟩
      intro m hm hseed
      change (L.range.crash n).leader = some m at hm
      change (L.range.crash n).seeded = true
      unfold Range.crash at hm ⊢
      split_ifs at hm ⊢
      exact hseed

end Gates

end Crabgresql.Cluster
