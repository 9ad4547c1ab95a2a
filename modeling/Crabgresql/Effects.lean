import Crabgresql.Engine

/-!
# What a session step can do to the shared state

One inversion of the step function for the store and the running set. It
holds in both persist modes and with or without global transactions; what a
step does to its own session is left open.
-/

namespace Crabgresql.Session

open Mvcc Kv Procarray Lockmgr Exec View

variable {Row : Type}
variable {y : Xid}

/-- The store after the counter put of an allocation, which only `durable` mode makes. -/
def persist (env : Env) (kv : Store Row) (k : CounterKey) (n : ℕ) : Store Row :=
  match env.cfg.mode with
  | .durable => kv.setCounter k n
  | .replicated => kv

/-- What action `a` can do to the store and the running set, from `v` to `v'`. -/
inductive Effect (env : Env) (v v' : View Row) (a : Act Row) : Prop
  | quiet (hkv : v'.kv = v.kv) (hpa : v'.pa = v.pa)
  | allocXid (hkv : v'.kv = persist env v.kv .nextXid (v.pa.nextXid + 1))
      (hpa : v'.pa = ⟨v.pa.nextXid + 1, ProcArray.register v.pa.running v.pa.nextXid⟩)
  | allocRowids (t : TableId) (n : ℕ) (hkv : v'.kv = persist env v.kv (.seq t) n)
      (hpa : v'.pa = v.pa)
  | commit (b : Batch Row) (epoch : ℕ) (after : After) (ha : a = .apply true)
      (hpc : v.self.pc = .committing b epoch after)
      (hkv : v'.kv = commitBatch env.cfg.mode v.kv b.ops) (hpa : v'.pa = v.pa)
  | finish (x : Xid) (hkv : v'.kv = v.kv) (hpa : v'.pa = v.pa.finish x)

variable {env : Env} {v v' : View Row} {a : Act Row}

theorem beginWrite_eq (env : Env) (kv : Store Row) (pa : ProcArray) :
    pa.beginWrite env.cfg.mode kv =
      (pa.nextXid, persist env kv .nextXid (pa.nextXid + 1),
        ⟨pa.nextXid + 1, ProcArray.register pa.running pa.nextXid⟩) := by
  unfold ProcArray.beginWrite persist
  cases env.cfg.mode <;> rfl

theorem step_effect (h : step env v a = some v') : Effect env v v' a := by
  cases a with
  | begin | select | commit | rollback | takeSnapshot | next | acquire | recheck | propose
  | release | join =>
    simp only [step, begin, select, commit, rollback, takeSnapshot, View.next, acquire, recheck,
      propose, release, join] at h
    repeat' split at h
    all_goals cases h
    all_goals exact .quiet rfl rfl
  | start w =>
    simp only [step, start, beginWrite_eq] at h
    split at h
    · cases h
      exact .allocXid rfl rfl
    · split at h <;> cases h
      · exact .quiet rfl rfl
      · exact .allocXid rfl rfl
    · cases h
      exact .quiet rfl rfl
    · cases h
  | scan =>
    simp only [step, scan] at h
    split at h
    · split at h
      · cases h
        exact .quiet rfl rfl
      · rename_i t rows _
        have hkv : ∀ n, (v.seq.alloc env.cfg.mode v.kv t n).2.1 =
            persist env v.kv (.seq t) (v.seq.current v.kv t + n) := by
          intro n
          unfold SequenceManager.alloc persist
          cases env.cfg.mode <;> rfl
        split_ifs at h
        · cases h
          exact .quiet rfl rfl
        · split at h <;> cases h <;> exact .allocRowids t _ (hkv _) rfl
      · cases h
        exact .quiet rfl rfl
    · cases h
  | apply ok =>
    simp only [step, View.apply] at h
    split at h
    · rename_i b epoch after hpc
      cases h
      cases ok with
      | true => exact .commit b epoch after rfl hpc rfl rfl
      | false => exact .quiet rfl rfl
    · cases h
  | finish =>
    simp only [step, finish] at h
    split at h <;> cases h <;> exact .finish _ rfl rfl
  | drop =>
    simp only [step, drop] at h
    split at h
    · split at h <;> cases h
      · exact .quiet rfl rfl
      · exact .finish _ rfl rfl
    · cases h

theorem eq_apply_of_committing {b : Batch Row} {epoch : ℕ} {after : After}
    (hpc : v.self.pc = .committing b epoch after) (h : step env v a = some v') :
    ∃ ok, a = .apply ok := by
  cases a <;> simp [step, begin, select, commit, rollback, start,
    takeSnapshot, scan, View.next, acquire, recheck, propose, finish,
    release, join, drop, hpc] at h ⊢

theorem eq_finish_of_finishing {x : Xid} {ack : Bool} (hpc : v.self.pc = .finishing x ack)
    (h : step env v a = some v') : a = .finish := by
  cases a <;> simp [step, begin, select, commit, rollback, start,
    takeSnapshot, scan, View.next, acquire, recheck, propose, View.apply,
    release, join, drop, hpc] at h ⊢

theorem finished_register {pa : ProcArray} (hy : pa.Finished y) :
    (⟨pa.nextXid + 1, ProcArray.register pa.running pa.nextXid⟩ : ProcArray).Finished y := by
  refine ⟨lt_trans hy.1 (Nat.lt_succ_self _), ?_⟩
  rw [ProcArray.mem_register, not_or]
  exact ⟨ne_of_lt hy.1, hy.2⟩

theorem finished_finish {pa : ProcArray} {x : Xid} (hy : pa.Finished y) :
    (pa.finish x).Finished y :=
  ⟨hy.1, fun hm => hy.2 (ProcArray.mem_running_finish.mp hm).1⟩

theorem finished_step (h : step env v a = some v') (hy : v.pa.Finished y) : v'.pa.Finished y := by
  cases step_effect h with
  | quiet _ hpa | allocRowids _ _ _ hpa | commit _ _ _ _ _ _ hpa => exact hpa ▸ hy
  | allocXid _ hpa => exact hpa ▸ finished_register hy
  | finish x _ hpa => exact hpa ▸ finished_finish hy

@[simp] theorem clogGet_persist (env : Env) (kv : Store Row) (k : CounterKey) (n : ℕ) (y : Xid) :
    (persist env kv k n).clogGet y = kv.clogGet y := by
  unfold persist
  cases env.cfg.mode <;> rfl

theorem clogGet_step (h : step env v a = some v') (y : Xid) : v'.kv.clogGet y = v.kv.clogGet y ∨
      ∃ b epoch after, a = .apply true ∧ v.self.pc = .committing b epoch after ∧
        v'.kv = commitBatch env.cfg.mode v.kv b.ops := by
  cases step_effect h with
  | quiet hkv | finish _ hkv => exact .inl (by rw [hkv])
  | allocXid hkv | allocRowids _ _ hkv => exact .inl (by rw [hkv, clogGet_persist])
  | commit b epoch after ha hpc hkv => exact .inr ⟨b, epoch, after, ha, hpc, hkv⟩

end Crabgresql.Session
