import Crabgresql.Cluster.Allocator

/-!
# No global xid is returned twice

The durable counter is stored as it is put, so it grows only if the batches are
applied in the order in which they read it. In such runs, and with every batch
proposed in the term whose barrier its call has seen, the calls that succeed
return different xids.
-/

namespace Crabgresql.Cluster

open Mvcc Kv Gtm List Allocator Runs Option

variable {Row : Type}
variable {j : ℕ} {d : Call} {m : NodeId} {a : AllocAct}

/-- Batches are applied in the order in which they read the counter, and a leader proposes a
batch in the term in which the call found it serving. -/
def InOrder (A : Allocator Row) : AllocAct → Prop
  | .apply i => ∀ c ∈ A.calls i, ∀ r ∈ c.read, A.lastStamp < r.2
  | .propose i => ∀ c ∈ A.calls i, A.leader = some c.node → c.served = some A.term
  | _ => True

instance (A : Allocator Row) (a : AllocAct) : Decidable (InOrder A a) := by
  unfold InOrder
  split <;> infer_instance

/-- A call of the last term that passed its barrier. -/
structure Live (A : Allocator Row) (i : ℕ) (c : Call) : Prop where
  call : A.calls i = some c
  served : c.served = some A.barrier

/-- The counter of node `n` may still be read for a live call. -/
def Source (A : Allocator Row) (n : NodeId) : Prop :=
  A.serves n = true ∨ ∃ i c, Live A i c ∧ c.node = n ∧ c.progress = .arrived

structure AllocInv (A : Allocator Row) : Prop where
  barrier : A.barrier ≤ A.term
  served : ∀ i c t, A.calls i = some c → c.served = some t → t ≤ A.barrier
  epoch : ∀ i c v st e, A.calls i = some c → c.progress = .proposed v st (some e) →
    c.served = some e
  node : ∀ n i c, Source A n → Live A i c → c.node = n
  stamp : ∀ i c v st, A.calls i = some c → c.read = some (v, st) → st < A.clock
  last : A.lastStamp < A.clock
  nodup : A.returned.Nodup
  returned : ∀ g ∈ A.returned, g < A.next
  owed : ∀ i c g, Live A i c → c.job = .begin g → g ∉ A.returned
  owed_ne : ∀ i j c d g, Live A i c → Live A j d → c.job = .begin g → d.job = .begin g → i = j
  above : ∀ i c g v st, Live A i c → c.job = .begin g → c.read = some (v, st) → g < v
  ordered : ∀ i j c d v v' st st', Live A i c → Live A j d → c.read = some (v, st) →
    d.read = some (v', st') → st < st' → v ≤ v'
  tip : ∀ i c v st, Live A i c → c.read = some (v, st) → A.lastStamp < st → A.next ≤ v
  source : ∀ n, Source A n → A.next ≤ (A.gtms n).nextGlobal
  source_read : ∀ n i c v st, Source A n → Live A i c → c.read = some (v, st) →
    v ≤ (A.gtms n).nextGlobal
  source_owed : ∀ n i c g, Source A n → Live A i c → c.job = .begin g → g < (A.gtms n).nextGlobal

variable {A A' : Allocator Row} {i : ℕ} {n : NodeId}

/-- Call `c` of a later state is call `d` of an earlier one, at most further on its way. -/
structure Follows (d c : Call) : Prop where
  node : c.node = d.node
  job : c.job = d.job
  served : c.served = d.served
  read : c.read = d.read
  arrived : c.progress = .arrived → d.progress = .arrived

theorem Follows.refl (c : Call) : Follows c c := ⟨rfl, rfl, rfl, rfl, id⟩

/-- A step that takes, reads and applies nothing. -/
structure Quiet (A A' : Allocator Row) : Prop where
  log : A'.log = A.log
  barrier : A'.barrier = A.barrier
  term : A.term ≤ A'.term
  returned : A'.returned = A.returned
  clock : A'.clock = A.clock
  lastStamp : A'.lastStamp = A.lastStamp
  calls : ∀ i c, A'.calls i = some c → ∃ d, A.calls i = some d ∧ Follows d c
  epoch : ∀ i c v st e, A'.calls i = some c → c.progress = .proposed v st (some e) →
    c.served = some e
  serves : ∀ n, A'.serves n = true → A.serves n = true
  source : ∀ n, Source A' n → A'.gtms n = A.gtms n

variable {c : Call}

theorem Quiet.live (hq : Quiet A A') (hc : Live A' i c) : ∃ d, Live A i d ∧ Follows d c := by
  obtain ⟨d, hd, hf⟩ := hq.calls i c hc.call
  exact ⟨d, ⟨hd, hf.served ▸ hq.barrier ▸ hc.served⟩, hf⟩

theorem Quiet.source_of (hq : Quiet A A') (hs : Source A' n) : Source A n := by
  rcases hs with hs | ⟨i, c, hc, hn, ha⟩
  · exact .inl (hq.serves n hs)
  · obtain ⟨d, hd, hf⟩ := hq.live hc
    exact .inr ⟨i, d, hd, hf.node ▸ hn, hf.arrived ha⟩

theorem Quiet.next (hq : Quiet A A') : A'.next = A.next := by
  simp only [Allocator.next, tip, hq.log]

theorem AllocInv.quiet (h : AllocInv A) (hq : Quiet A A') : AllocInv A' where
  barrier := hq.barrier ▸ h.barrier.trans hq.term
  served i c t hc ht := by
    obtain ⟨d, hd, hf⟩ := hq.calls i c hc
    exact hq.barrier ▸ h.served i d t hd (hf.served ▸ ht)
  epoch := hq.epoch
  node n i c hs hc := by
    obtain ⟨d, hd, hf⟩ := hq.live hc
    exact hf.node ▸ h.node n i d (hq.source_of hs) hd
  stamp i c v st hc hr := by
    obtain ⟨d, hd, hf⟩ := hq.calls i c hc
    exact hq.clock ▸ h.stamp i d v st hd (hf.read ▸ hr)
  last := hq.lastStamp ▸ hq.clock ▸ h.last
  nodup := hq.returned ▸ h.nodup
  returned := by
    rw [hq.returned, hq.next]
    exact h.returned
  owed i c g hc hj := by
    obtain ⟨d, hd, hf⟩ := hq.live hc
    exact hq.returned ▸ h.owed i d g hd (hf.job ▸ hj)
  owed_ne i j c c' g hc hc' hj hj' := by
    obtain ⟨d, hd, hf⟩ := hq.live hc
    obtain ⟨d', hd', hf'⟩ := hq.live hc'
    exact h.owed_ne i j d d' g hd hd' (hf.job ▸ hj) (hf'.job ▸ hj')
  above i c g v st hc hj hr := by
    obtain ⟨d, hd, hf⟩ := hq.live hc
    exact h.above i d g v st hd (hf.job ▸ hj) (hf.read ▸ hr)
  ordered i j c c' v v' st st' hc hc' hr hr' hlt := by
    obtain ⟨d, hd, hf⟩ := hq.live hc
    obtain ⟨d', hd', hf'⟩ := hq.live hc'
    exact h.ordered i j d d' v v' st st' hd hd' (hf.read ▸ hr) (hf'.read ▸ hr') hlt
  tip i c v st hc hr hlt := by
    obtain ⟨d, hd, hf⟩ := hq.live hc
    exact hq.next ▸ h.tip i d v st hd (hf.read ▸ hr) (hq.lastStamp ▸ hlt)
  source n hs := by
    rw [hq.next, hq.source n hs]
    exact h.source n (hq.source_of hs)
  source_read n i c v st hs hc hr := by
    obtain ⟨d, hd, hf⟩ := hq.live hc
    rw [hq.source n hs]
    exact h.source_read n i d v st (hq.source_of hs) hd (hf.read ▸ hr)
  source_owed n i c g hs hc hj := by
    obtain ⟨d, hd, hf⟩ := hq.live hc
    rw [hq.source n hs]
    exact h.source_owed n i d g (hq.source_of hs) hd (hf.job ▸ hj)

theorem Allocator.serves_unique (hn : A.serves n = true) (hm : A.serves m = true) : n = m := by
  simp only [serves, Bool.and_eq_true, decide_eq_true_eq] at hn hm
  exact some.inj (hn.1.symm.trans hm.1)

theorem AllocInv.source_eq (h : AllocInv A) (hn : A.serves n = true) (hm : Source A m) : m = n := by
  rcases hm with hm | ⟨j, c, hc, rfl, -⟩
  · exact serves_unique hm hn
  · exact h.node n j c (.inl hn) hc

theorem Allocator.calls_setCall {d : Option Call} (hc : (A.setCall i d).calls j = some c) :
    (j = i ∧ d = some c) ∨ (j ≠ i ∧ A.calls j = some c) := by
  by_cases hj : j = i
  · subst hj
    exact .inl ⟨rfl, by simpa [setCall] using hc⟩
  · exact .inr ⟨hj, by simpa [setCall, hj] using hc⟩

structure Arrival (A : Allocator Row) (n : NodeId) (job : Job) (served : Option ℕ) (gtm : Gtm) :
    Prop where
  le : (A.gtms n).nextGlobal ≤ gtm.nextGlobal
  served : ∀ t, served = some t → t = A.barrier ∧ A.serves n = true
  fresh : ∀ g, job = .begin g → (A.gtms n).nextGlobal = g ∧ g < gtm.nextGlobal ∧ A.serves n = true

section Arrive

variable {job : Job} {served : Option ℕ} {gtm : Gtm}

theorem Arrival.live (ha : Arrival A n job served gtm) {c : Call}
    (hc : Live (A.arrive i n job served gtm) j c) :
    (j = i ∧ c = ⟨n, job, served, .arrived, true⟩ ∧ A.serves n = true) ∨ (j ≠ i ∧ Live A j c) := by
  rcases calls_setCall hc.call with ⟨hj, hd⟩ | ⟨hj, hd⟩
  · cases hd
    exact .inl ⟨hj, rfl, (ha.served _ hc.served).2⟩
  · exact .inr ⟨hj, hd, hc.served⟩

theorem Arrival.source (ha : Arrival A n job served gtm)
    (hs : Source (A.arrive i n job served gtm) m) : Source A m := by
  rcases hs with hs | ⟨j, c, hc, hm, hp⟩
  · exact .inl hs
  · rcases ha.live hc with ⟨-, rfl, hn⟩ | ⟨-, hc'⟩
    · exact .inl (hm ▸ hn)
    · exact .inr ⟨j, c, hc', hm, hp⟩

theorem Arrival.gtm_le (ha : Arrival A n job served gtm) (m : NodeId) :
    (A.gtms m).nextGlobal ≤ ((A.arrive i n job served gtm).gtms m).nextGlobal := by
  by_cases hm : m = n
  · subst hm
    simpa [arrive] using ha.le
  · simp [arrive, hm]

theorem AllocInv.arrive (h : AllocInv A) (hnone : A.calls i = none)
    (ha : Arrival A n job served gtm) : AllocInv (A.arrive i n job served gtm) where
  barrier := h.barrier
  served j c t hc ht := by
    rcases calls_setCall hc with ⟨-, hd⟩ | ⟨-, hd⟩
    · cases hd
      exact (ha.served t ht).1.le
    · exact h.served j c t hd ht
  epoch j c v st e hc hp := by
    rcases calls_setCall hc with ⟨-, hd⟩ | ⟨-, hd⟩
    · cases hd
      cases hp
    · exact h.epoch j c v st e hd hp
  node m j c hs hc := by
    rcases ha.live hc with ⟨-, rfl, hn⟩ | ⟨-, hc'⟩
    · exact (h.source_eq hn (ha.source hs)).symm
    · exact h.node m j c (ha.source hs) hc'
  stamp j c v st hc hr := by
    rcases calls_setCall hc with ⟨-, hd⟩ | ⟨-, hd⟩
    · cases hd
      cases hr
    · exact h.stamp j c v st hd hr
  last := h.last
  nodup := h.nodup
  returned := h.returned
  owed j c g hc hjob hg := by
    rcases ha.live hc with ⟨-, rfl, hn⟩ | ⟨-, hc'⟩
    · have hlt := h.returned g hg
      have hle := h.source n (.inl hn)
      have hnext := (ha.fresh g hjob).1
      exact absurd (hlt.trans_le (hle.trans_eq hnext)) (lt_irrefl g)
    · exact h.owed j c g hc' hjob hg
  owed_ne j k c d g hc hd hj hk := by
    rcases ha.live hc with ⟨rfl, rfl, hn⟩ | ⟨hne, hc'⟩ <;>
      rcases ha.live hd with ⟨rfl, rfl, hn'⟩ | ⟨hne', hd'⟩
    · rfl
    · have hlt := h.source_owed n k d g (.inl hn) hd' hk
      exact absurd (ha.fresh g hj).1 hlt.ne'
    · have hlt := h.source_owed n j c g (.inl hn') hc' hj
      exact absurd (ha.fresh g hk).1 hlt.ne'
    · exact h.owed_ne j k c d g hc' hd' hj hk
  above j c g v st hc hj hr := by
    rcases ha.live hc with ⟨-, rfl, hn⟩ | ⟨-, hc'⟩
    · cases hr
    · exact h.above j c g v st hc' hj hr
  ordered j k c d v v' st st' hc hd hr hr' := by
    rcases ha.live hc with ⟨-, rfl, hn⟩ | ⟨-, hc'⟩
    · cases hr
    rcases ha.live hd with ⟨-, rfl, hn⟩ | ⟨-, hd'⟩
    · cases hr'
    exact h.ordered j k c d v v' st st' hc' hd' hr hr'
  tip j c v st hc hr := by
    rcases ha.live hc with ⟨-, rfl, hn⟩ | ⟨-, hc'⟩
    · cases hr
    · exact h.tip j c v st hc' hr
  source m hs := (h.source m (ha.source hs)).trans (ha.gtm_le m)
  source_read m j c v st hs hc hr := by
    rcases ha.live hc with ⟨-, rfl, hn⟩ | ⟨-, hc'⟩
    · cases hr
    · exact (h.source_read m j c v st (ha.source hs) hc' hr).trans (ha.gtm_le m)
  source_owed m j c g hs hc hj := by
    rcases ha.live hc with ⟨-, rfl, hn⟩ | ⟨-, hc'⟩
    · have hm := h.source_eq hn (ha.source hs)
      subst hm
      simpa [arrive] using (ha.fresh g hj).2.1
    · exact (h.source_owed m j c g (ha.source hs) hc' hj).trans_le (ha.gtm_le m)

end Arrive

theorem Allocator.serves_iff : A.serves n = true ↔ A.leader = some n ∧ A.barrier = A.term := by
  simp [serves]

theorem allocInv_begin (h : AllocInv A) (hs : A.begin i n = some A') :
    AllocInv A' ∧ A.next ≤ A'.next := by
  unfold begin at hs
  split_ifs at hs with hg
  cases hs
  have ha : Arrival A n (.begin (A.gtms n).nextGlobal) (some A.term)
      ⟨(A.gtms n).nextGlobal + 1⟩ := by
    refine ⟨Nat.le_succ _, fun t ht => ⟨?_, hg.2⟩, fun g hjob => ?_⟩
    · exact (some.inj ht).symm.trans (serves_iff.mp hg.2).2.symm
    · cases hjob
      exact ⟨rfl, Nat.lt_succ_self _, hg.2⟩
  exact ⟨h.arrive hg.1 ha, le_rfl⟩

theorem allocInv_decide (h : AllocInv A) {g : Xid} {commit : Bool}
    (hs : A.decide i n g commit = some A') : AllocInv A' ∧ A.next ≤ A'.next := by
  have ha : Arrival A n (.decision g commit) (if A.serves n then some A.term else none)
      (A.gtms n) := by
    refine ⟨le_rfl, fun t ht => ?_, fun g' hjob => nomatch hjob⟩
    split_ifs at ht with hserves
    exact ⟨(some.inj ht).symm.trans (serves_iff.mp hserves).2.symm, hserves⟩
  unfold Allocator.decide at hs
  by_cases hg : A.calls i = none
  · rw [if_pos hg] at hs
    cases hs
    exact ⟨h.arrive hg ha, le_rfl⟩
  · rw [if_neg hg] at hs
    cases hs

section Built

variable {c : Call}

theorem calls_built (hd : (A.built i c).calls j = some d) :
    (j = i ∧ d = { c with progress := .built (A.gtms c.node).nextGlobal A.clock }) ∨
      (j ≠ i ∧ A.calls j = some d) := by
  rcases calls_setCall hd with ⟨hj, hnew⟩ | hold
  · exact .inl ⟨hj, (some.inj hnew).symm⟩
  · exact .inr hold

theorem live_built (hc : A.calls i = some c) (hd : Live (A.built i c) j d) :
    (j = i ∧ d = { c with progress := .built (A.gtms c.node).nextGlobal A.clock } ∧ Live A i c) ∨
      (j ≠ i ∧ Live A j d) := by
  rcases calls_built hd.call with ⟨hj, rfl⟩ | ⟨hj, hold⟩
  · exact .inl ⟨hj, rfl, hc, hd.served⟩
  · exact .inr ⟨hj, hold, hd.served⟩

theorem source_built (hc : A.calls i = some c) (hs : Source (A.built i c) n) : Source A n := by
  rcases hs with hs | ⟨j, d, hd, hn, hp⟩
  · exact .inl hs
  · rcases live_built hc hd with ⟨-, rfl, -⟩ | ⟨-, hd'⟩
    · cases hp
    · exact .inr ⟨j, d, hd', hn, hp⟩

theorem AllocInv.built (h : AllocInv A) (hc : A.calls i = some c) (hp : c.progress = .arrived) :
    AllocInv (A.built i c) := by
  have hsource : Live A i c → Source A c.node := fun hlive => .inr ⟨i, c, hlive, rfl, hp⟩
  exact {
    barrier := h.barrier
    served := fun j d t hd ht => by
      rcases calls_built hd with ⟨-, rfl⟩ | ⟨-, hold⟩
      · exact h.served i c t hc ht
      · exact h.served j d t hold ht
    epoch := fun j d v st e hd hprog => by
      rcases calls_built hd with ⟨-, rfl⟩ | ⟨-, hold⟩
      · cases hprog
      · exact h.epoch j d v st e hold hprog
    node := fun m j d hs hd => by
      rcases live_built hc hd with ⟨-, rfl, hlive⟩ | ⟨-, hold⟩
      · exact h.node m i c (source_built hc hs) hlive
      · exact h.node m j d (source_built hc hs) hold
    stamp := fun j d v st hd hr => by
      rcases calls_built hd with ⟨-, rfl⟩ | ⟨-, hold⟩
      · cases hr
        exact Nat.lt_succ_self _
      · exact (h.stamp j d v st hold hr).trans (Nat.lt_succ_self _)
    last := h.last.trans (Nat.lt_succ_self _)
    nodup := h.nodup
    returned := h.returned
    owed := fun j d g hd hj => by
      rcases live_built hc hd with ⟨-, rfl, hlive⟩ | ⟨-, hold⟩
      · exact h.owed i c g hlive hj
      · exact h.owed j d g hold hj
    owed_ne := fun j k d e g hd he hj hk => by
      rcases live_built hc hd with ⟨rfl, rfl, hlive⟩ | ⟨-, hold⟩ <;>
        rcases live_built hc he with ⟨rfl, rfl, hlive'⟩ | ⟨-, hold'⟩
      · rfl
      · exact h.owed_ne _ _ _ _ g hlive hold' hj hk
      · exact h.owed_ne _ _ _ _ g hold hlive' hj hk
      · exact h.owed_ne _ _ _ _ g hold hold' hj hk
    above := fun j d g v st hd hj hr => by
      rcases live_built hc hd with ⟨-, rfl, hlive⟩ | ⟨-, hold⟩
      · cases hr
        exact h.source_owed c.node i c g (hsource hlive) hlive hj
      · exact h.above j d g v st hold hj hr
    ordered := fun j k d e v v' st st' hd he hr hr' hlt => by
      rcases live_built hc hd with ⟨-, rfl, hlive⟩ | ⟨-, hold⟩ <;>
        rcases live_built hc he with ⟨-, rfl, hlive'⟩ | ⟨-, hold'⟩
      · cases hr
        cases hr'
        exact le_rfl
      · cases hr
        exact absurd (h.stamp k e v' st' hold'.call hr') hlt.not_gt
      · cases hr'
        exact h.source_read c.node j d v st (hsource hlive') hold hr
      · exact h.ordered j k d e v v' st st' hold hold' hr hr' hlt
    tip := fun j d v st hd hr hlt => by
      rcases live_built hc hd with ⟨-, rfl, hlive⟩ | ⟨-, hold⟩
      · cases hr
        exact h.source c.node (hsource hlive)
      · exact h.tip j d v st hold hr hlt
    source := fun m hs => h.source m (source_built hc hs)
    source_read := fun m j d v st hs hd hr => by
      rcases live_built hc hd with ⟨-, rfl, hlive⟩ | ⟨-, hold⟩
      · cases hr
        exact h.node m i c (source_built hc hs) hlive ▸ le_rfl
      · exact h.source_read m j d v st (source_built hc hs) hold hr
    source_owed := fun m j d g hs hd hj => by
      rcases live_built hc hd with ⟨-, rfl, hlive⟩ | ⟨-, hold⟩
      · exact h.source_owed m i c g (source_built hc hs) hlive hj
      · exact h.source_owed m j d g (source_built hc hs) hold hj }

end Built

theorem allocInv_read (h : AllocInv A) (hs : A.read i = some A') :
    AllocInv A' ∧ A.next ≤ A'.next := by
  unfold Allocator.read at hs
  split at hs
  · rename_i c hc
    split_ifs at hs with hp
    cases hs
    exact ⟨h.built hc hp, le_rfl⟩
  · cases hs

section Applied

variable {c : Call} {value : Xid} {stamp : ℕ}

theorem calls_applied (hd : (A.applied i c value stamp).calls j = some d) :
    j ≠ i ∧ A.calls j = some d := by
  rcases calls_setCall hd with ⟨-, hnew⟩ | hold
  · cases hnew
  · exact hold

theorem live_applied (hd : Live (A.applied i c value stamp) j d) : j ≠ i ∧ Live A j d := by
  obtain ⟨hj, hold⟩ := calls_applied hd.call
  exact ⟨hj, hold, hd.served⟩

theorem source_applied (hs : Source (A.applied i c value stamp) n) : Source A n := by
  rcases hs with hs | ⟨j, d, hd, hn, hp⟩
  · exact .inl hs
  · exact .inr ⟨j, d, (live_applied hd).2, hn, hp⟩

theorem next_applied : (A.applied i c value stamp).next = max value globalXidBase := by
  have htip : (A.applied i c value stamp).tip = applyBatch A.tip (c.job.ops value) := by
    rw [tip, applied, foldl_append]
    rfl
  rw [Allocator.next, htip]
  cases c.job <;> exact readNextGlobal_put _ ⟨value⟩

theorem mem_reply {g : Xid} (h : g ∈ reply c) : reply c = [g] ∧ c.job = .begin g := by
  unfold reply at h ⊢
  split at h
  · split_ifs at h ⊢
    · rw [mem_singleton] at h
      subst h
      exact ⟨rfl, ‹_›⟩
    · cases h
  · cases h

theorem AllocInv.next_le (h : AllocInv A) (hlive : Live A i c)
    (hread : c.read = some (value, stamp)) (hlt : A.lastStamp < stamp) :
    A.next ≤ value ∧ (A.applied i c value stamp).next = value := by
  have hle := h.tip i c value stamp hlive hread hlt
  have hbase : globalXidBase ≤ A.next := base_le_readNextGlobal _
  exact ⟨hle, next_applied.trans (max_eq_left (hbase.trans hle))⟩

theorem AllocInv.applied (h : AllocInv A) (hlive : Live A i c)
    (hread : c.read = some (value, stamp)) (hlt : A.lastStamp < stamp) :
    AllocInv (A.applied i c value stamp) := by
  obtain ⟨hle, hnext⟩ := h.next_le hlive hread hlt
  exact {
    barrier := h.barrier
    served := fun j d t hd => h.served j d t (calls_applied hd).2
    epoch := fun j d v st e hd => h.epoch j d v st e (calls_applied hd).2
    node := fun m j d hs hd => h.node m j d (source_applied hs) (live_applied hd).2
    stamp := fun j d v st hd => h.stamp j d v st (calls_applied hd).2
    last := h.stamp i c value stamp hlive.call hread
    nodup := by
      refine List.Nodup.append h.nodup ?_ fun g hg hg' => ?_
      · unfold reply
        split <;> [split_ifs; skip] <;> simp
      · exact h.owed i c g hlive (mem_reply hg').2 hg
    returned := fun g hg => by
      rw [hnext]
      rcases mem_append.mp hg with hg | hg
      · exact (h.returned g hg).trans_le hle
      · exact h.above i c g value stamp hlive (mem_reply hg).2 hread
    owed := fun j d g hd hj hg => by
      obtain ⟨hne, hold⟩ := live_applied hd
      rcases mem_append.mp hg with hg | hg
      · exact h.owed j d g hold hj hg
      · exact hne (h.owed_ne j i d c g hold hlive hj (mem_reply hg).2)
    owed_ne := fun j k d e g hd he =>
      h.owed_ne j k d e g (live_applied hd).2 (live_applied he).2
    above := fun j d g v st hd => h.above j d g v st (live_applied hd).2
    ordered := fun j k d e v v' st st' hd he =>
      h.ordered j k d e v v' st st' (live_applied hd).2 (live_applied he).2
    tip := fun j d v st hd hr hst => by
      rw [hnext]
      exact h.ordered i j c d value v stamp st hlive (live_applied hd).2 hread hr hst
    source := fun m hs => by
      rw [hnext]
      exact h.source_read m i c value stamp (source_applied hs) hlive hread
    source_read := fun m j d v st hs hd =>
      h.source_read m j d v st (source_applied hs) (live_applied hd).2
    source_owed := fun m j d g hs hd =>
      h.source_owed m j d g (source_applied hs) (live_applied hd).2 }

end Applied

theorem apply_cases (hs : A.apply i = some A') : ∃ c value stamp epoch, A.calls i = some c ∧
      c.progress = .proposed value stamp (some epoch) ∧ A.barrier ≤ epoch ∧
      A' = A.applied i c value stamp := by
  unfold apply at hs
  split at hs
  · rename_i c hc
    split at hs
    · rename_i value stamp epoch hp
      split_ifs at hs with hbar
      cases hs
      exact ⟨c, value, stamp, epoch, hc, hp, hbar, rfl⟩
    · cases hs
  · cases hs

theorem allocInv_apply (h : AllocInv A) (hok : InOrder A (.apply i)) (hs : A.apply i = some A') :
    AllocInv A' ∧ A.next ≤ A'.next := by
  obtain ⟨c, value, stamp, epoch, hc, hp, hbar, rfl⟩ := apply_cases hs
  have hread : c.read = some (value, stamp) := by simp [Call.read, hp]
  have hlt : A.lastStamp < stamp := hok c hc _ hread
  have hlive : Live A i c := by
    have hepoch := h.epoch i c value stamp epoch hc hp
    have hle := h.served i c epoch hc hepoch
    exact ⟨hc, hepoch.trans (congrArg some (le_antisymm hle hbar))⟩
  obtain ⟨hle, hnext⟩ := h.next_le hlive hread hlt
  exact ⟨h.applied hlive hread hlt, hle.trans_eq hnext.symm⟩

theorem quiet_setCall (h : AllocInv A) (hd : A.calls i = some d) (hf : Follows d c)
    (hepoch : ∀ v st e, c.progress = .proposed v st (some e) → c.served = some e) :
    Quiet A (A.setCall i (some c)) where
  log := rfl
  barrier := rfl
  term := le_rfl
  returned := rfl
  clock := rfl
  lastStamp := rfl
  calls j e he := by
    rcases calls_setCall he with ⟨rfl, hnew⟩ | ⟨-, hold⟩
    · cases hnew
      exact ⟨d, hd, hf⟩
    · exact ⟨e, hold, .refl e⟩
  epoch j e v st t he hp := by
    rcases calls_setCall he with ⟨-, hnew⟩ | ⟨-, hold⟩
    · cases hnew
      exact hepoch v st t hp
    · exact h.epoch j e v st t hold hp
  serves _ hs := hs
  source _ _ := rfl

theorem allocInv_propose (h : AllocInv A) (hok : InOrder A (.propose i))
    (hs : A.propose i = some A') : AllocInv A' ∧ A.next ≤ A'.next := by
  unfold propose at hs
  split at hs
  · rename_i c hc
    split at hs
    · rename_i value stamp hp
      cases hs
      refine ⟨h.quiet (quiet_setCall h hc ⟨rfl, rfl, rfl, ?_, fun ha => nomatch ha⟩ ?_), le_rfl⟩
      · simp [Call.read, hp]
      · intro v st e hprog
        simp only [Progress.proposed.injEq, epochOf] at hprog
        obtain ⟨-, -, hepoch⟩ := hprog
        split_ifs at hepoch with hlead
        rw [← hepoch]
        exact hok c hc hlead
    · cases hs
  · cases hs

theorem allocInv_refuse (h : AllocInv A) (hs : A.refuse i = some A') :
    AllocInv A' ∧ A.next ≤ A'.next := by
  unfold refuse at hs
  split at hs
  · rename_i c hc
    split at hs
    · rename_i value stamp epoch hp
      cases hs
      refine ⟨h.quiet (quiet_setCall h hc ⟨rfl, rfl, rfl, rfl, id⟩ ?_), le_rfl⟩
      exact fun v st e hprog => h.epoch i c v st e hc hprog
    · cases hs
  · cases hs

theorem allocInv_elect (h : AllocInv A) (n : NodeId) : AllocInv (A.elect n) := by
  refine h.quiet ⟨rfl, rfl, Nat.le_succ _, rfl, rfl, rfl, fun j c hc => ⟨c, hc, .refl c⟩, h.epoch,
    fun m hs => ?_, fun _ _ => rfl⟩
  have hbar : A.barrier = A.term + 1 := (serves_iff.mp hs).2
  have hle := h.barrier
  omega

theorem survives_follows (h : survives n d = some c) :
    Follows d c ∧ c.progress = d.progress ∧ (c.progress = .arrived → c.node ≠ n) := by
  unfold survives at h
  split_ifs at h with hn
  · split at h
    · rename_i v st e hp
      cases h
      exact ⟨⟨rfl, rfl, rfl, rfl, id⟩, rfl, fun ha => by simp [hp] at ha⟩
    · cases h
  · cases h
    exact ⟨.refl _, rfl, fun _ => hn⟩

theorem allocInv_crash (h : AllocInv A) (n : NodeId) (k : ℕ) : AllocInv (A.crash n k) := by
  have hcalls : ∀ {j c}, (A.crash n k).calls j = some c →
      ∃ d, A.calls j = some d ∧ survives n d = some c := fun hc =>
    bind_eq_some_iff.mp hc
  have hserves : ∀ m, (A.crash n k).serves m = true → A.serves m = true ∧ m ≠ n := by
    intro m hs
    obtain ⟨hlead, hbar⟩ := serves_iff.mp hs
    simp only [crash] at hlead hbar
    split_ifs at hlead with hn
    exact ⟨serves_iff.mpr ⟨hlead, hbar⟩, fun hm => hn (hm ▸ hlead)⟩
  refine h.quiet ⟨rfl, rfl, le_rfl, rfl, rfl, rfl, fun j c hc => ?_, fun j c v st e hc hp => ?_,
    fun m hs => (hserves m hs).1, fun m hs => ?_⟩
  · obtain ⟨d, hd, hsurv⟩ := hcalls hc
    exact ⟨d, hd, (survives_follows hsurv).1⟩
  · obtain ⟨d, hd, hsurv⟩ := hcalls hc
    obtain ⟨hf, hprog, -⟩ := survives_follows hsurv
    exact hf.served.trans (h.epoch j d v st e hd (hprog ▸ hp))
  · have hne : m ≠ n := by
      rcases hs with hs | ⟨j, c, hc, rfl, hp⟩
      · exact (hserves m hs).2
      · obtain ⟨d, -, hsurv⟩ := hcalls hc.call
        exact (survives_follows hsurv).2.2 hp
    exact Function.update_of_ne hne _ _

/-- The invariant where no call is live. -/
theorem AllocInv.of_dead (hdead : ∀ {i c}, ¬ Live A i c) (barrier : A.barrier ≤ A.term)
    (served : ∀ i c t, A.calls i = some c → c.served = some t → t ≤ A.barrier)
    (epoch : ∀ i c v st e, A.calls i = some c → c.progress = .proposed v st (some e) →
      c.served = some e)
    (stamp : ∀ i c v st, A.calls i = some c → c.read = some (v, st) → st < A.clock)
    (last : A.lastStamp < A.clock) (nodup : A.returned.Nodup)
    (returned : ∀ g ∈ A.returned, g < A.next)
    (serves : ∀ n, A.serves n = true → A.next ≤ (A.gtms n).nextGlobal) : AllocInv A where
  barrier := barrier
  served := served
  epoch := epoch
  node _ _ _ _ hc := absurd hc hdead
  stamp := stamp
  last := last
  nodup := nodup
  returned := returned
  owed _ _ _ hc := absurd hc hdead
  owed_ne _ _ _ _ _ hc := absurd hc hdead
  above _ _ _ _ _ hc := absurd hc hdead
  ordered _ _ _ _ _ _ _ _ hc := absurd hc hdead
  tip _ _ _ _ hc := absurd hc hdead
  source n := fun
    | .inl hs => serves n hs
    | .inr ⟨_, _, hc, _⟩ => absurd hc hdead
  source_read _ _ _ _ _ _ hc := absurd hc hdead
  source_owed _ _ _ _ _ hc := absurd hc hdead

theorem AllocInv.reseeded (h : AllocInv A) (hlead : A.leader = some n) (hlt : A.barrier < A.term) :
    AllocInv (A.reseeded n) := by
  refine .of_dead (fun {j c} hc => ?_) le_rfl
    (fun j c t hc ht => (h.served j c t hc ht).trans hlt.le) h.epoch h.stamp h.last h.nodup
    h.returned fun m hs => ?_
  · have hle := h.served j c A.term hc.call hc.served
    omega
  · have hm : m = n := some.inj ((serves_iff.mp hs).1.symm.trans hlead)
    subst hm
    simp only [reseeded, Function.update_self]
    exact le_max_right _ _

theorem allocInv_reseed (h : AllocInv A) (hs : A.reseed = some A') :
    AllocInv A' ∧ A.next ≤ A'.next := by
  unfold reseed at hs
  split at hs
  · rename_i n hlead
    split_ifs at hs with hlt
    cases hs
    exact ⟨h.reseeded hlead hlt, le_rfl⟩
  · cases hs

theorem allocInv_initial : AllocInv (initial : Allocator Row) :=
  .of_dead (fun hc => nomatch hc.call) le_rfl (fun _ _ _ hc => nomatch hc)
    (fun _ _ _ _ _ hc => nomatch hc) (fun _ _ _ _ hc => nomatch hc) Nat.zero_lt_one nodup_nil
    (fun _ hg => nomatch hg) fun _ hs => nomatch (serves_iff.mp hs).1

theorem allocInv_step (h : AllocInv A) (hok : InOrder A a) (hs : A.step a = some A') :
    AllocInv A' ∧ A.next ≤ A'.next := by
  cases a with
  | begin => exact allocInv_begin h hs
  | decide => exact allocInv_decide h hs
  | read => exact allocInv_read h hs
  | propose => exact allocInv_propose h hok hs
  | apply => exact allocInv_apply h hok hs
  | refuse => exact allocInv_refuse h hs
  | elect n =>
    cases hs
    exact ⟨allocInv_elect h n, le_rfl⟩
  | crash n k =>
    cases hs
    exact ⟨allocInv_crash h n k, le_rfl⟩
  | reseed => exact allocInv_reseed h hs

/-- No two calls return the same global xid, the durable counter is above all that were
returned, and it never decreases. -/
theorem beginGlobal_unique {acts later : List AllocAct} {A A' : Allocator Row}
    (h : exec step .initial acts = some A)
    (hlater : exec step A later = some A')
    (hok : Runs.Along step InOrder (.initial : Allocator Row) (acts ++ later)) :
    A'.returned.Nodup ∧ (∀ g ∈ A'.returned, g < A'.next) ∧ A.next ≤ A'.next := by
  obtain ⟨hok₁, hok₂⟩ := along_append hok h
  have hA : AllocInv A :=
    exec_invariant (fun _ _ _ hI hi hs => (allocInv_step hI hi hs).1) allocInv_initial hok₁ h
  have hA' : AllocInv A' ∧ A.next ≤ A'.next := by
    refine exec_invariant (I := fun B => AllocInv B ∧ A.next ≤ B.next)
      (fun B a B' hI hi hs => ?_) ⟨hA, le_rfl⟩ hok₂ hlater
    obtain ⟨hB', hle⟩ := allocInv_step hI.1 hi hs
    exact ⟨hB', hI.2.trans hle⟩
  exact ⟨hA'.1.nodup, hA'.1.returned, hA'.2⟩

section Runs

/-- Two calls of `begin_global_durable` on leader 0, each with its counter read. -/
def twoBegins : List AllocAct :=
  [.elect 0, .reseed, .begin 0 0, .read 0, .begin 1 0, .read 1, .propose 0, .propose 1]

def nextBegin : List AllocAct :=
  [.elect 1, .reseed, .begin 2 1, .read 2, .propose 2, .apply 2]

end Runs

/-- The batch that read the counter first is applied last and takes the counter back: the next
leader returns the second xid again. -/
theorem beginGlobal_repeats : ∃ A : Allocator ℕ, exec step .initial
        (twoBegins ++ [.apply 1, .apply 0] ++ nextBegin) = some A ∧
      A.returned = [globalXidBase + 1, globalXidBase, globalXidBase + 1] :=
  exists_some (by decide)

/-- In the order of the reads the three xids differ. -/
theorem beginGlobal_unique_in_turn : ∃ A A' : Allocator ℕ,
      exec step .initial (twoBegins ++ [.apply 0, .apply 1]) = some A ∧
      exec step A nextBegin = some A' ∧ A'.returned.length = 3 ∧
      A'.returned.Nodup ∧ A.next ≤ A'.next := by
  obtain ⟨A, hA, A', hA', hlen⟩ :
      ∃ A ∈ exec step (.initial : Allocator ℕ) (twoBegins ++ [.apply 0, .apply 1]),
        ∃ A' ∈ exec step A nextBegin, A'.returned.length = 3 := by decide
  have hok : Runs.Along step InOrder (.initial : Allocator ℕ)
      ((twoBegins ++ [.apply 0, .apply 1]) ++ nextBegin) := by decide
  have hunique := beginGlobal_unique hA hA' hok
  exact ⟨A, A', hA, hA', hlen, hunique.1, hunique.2.2⟩

end Crabgresql.Cluster
