import Crabgresql.Lib.Runs
import Crabgresql.Effects
import Crabgresql.Cluster.Bounds

/-!
# Who is answerable for a running xid and a row lock

A transaction is registered and takes locks on behalf of the session that runs
it. The session deregisters it and releases its locks when it ends it. This
holds in both persist modes and whether or not commits succeed.
-/

namespace Crabgresql.Session

open Mvcc Kv Procarray Lockmgr Exec Cluster View

variable {Row : Type}
variable {x : Xid} {f : Frame Row}

section Steps

variable {env : Env} {v v' : View Row} {a : Act Row}

/-- The same outside the engine, on an engine that proposes its counters. -/
def Env.replicated (env : Env) : Env := { env with cfg := { env.cfg with mode := .replicated } }

/-- The session without what the persist mode decides of its statement: the puts that are left to
the batch, unless that is the record of an abort. -/
def Sess.stripped (u : Sess Row) : Sess Row :=
  { u with
    pc :=
      match u.pc with
      | .looping f => .looping { f with seqOps := [] }
      | .committing b epoch (.close false) => .committing b epoch (.close false)
      | .committing b epoch after => .committing { b with nextXid := none } epoch after
      | pc => pc }

theorem stripped_keeps (u : Sess Row) :
    activeXid u.stripped = activeXid u ∧ holding u.stripped = holding u ∧
      (Coherent u.stripped ↔ Coherent u) := by
  obtain ⟨txn, gx, pc, err⟩ := u
  cases pc with
  | committing b epoch after => rcases after with _ | _ | _ | _ <;> exact ⟨rfl, rfl, Iff.rfl⟩
  | _ => exact ⟨rfl, rfl, Iff.rfl⟩

/-- A step does the same in both modes, but for the store and the puts left to the batch. -/
theorem step_replicated (h : step env v a = some v') :
    ∃ w, step env.replicated v a = some w ∧ w.pa = v'.pa ∧ w.lm = v'.lm ∧
      w.self.stripped = v'.self.stripped := by
  obtain ⟨⟨mode, multi⟩, glob, epoch⟩ := env
  obtain ⟨kv, pa, lm, seq, txn, gx, pc, err⟩ := v
  cases mode with
  | replicated => exact ⟨v', h, rfl, rfl, rfl⟩
  | durable =>
    cases a with
    | commit | start =>
      cases pc with
      | ready =>
        cases txn with
        | inTransaction c =>
          obtain ⟨_ | x, _, _, _, _⟩ := c <;> cases h <;> exact ⟨_, rfl, rfl, rfl, rfl⟩
        | _ =>
          cases h
          exact ⟨_, rfl, rfl, rfl, rfl⟩
      | _ => cases h
    | scan =>
      cases pc with
      | scanning f =>
        obtain ⟨_, _, _, _, _, work, _, _, _⟩ := f
        cases work with
        | insert t rows =>
          simp only [step, scan] at h ⊢
          split_ifs at h ⊢
          · cases h
            exact ⟨_, rfl, rfl, rfl, rfl⟩
          · simp only [SequenceManager.alloc, Env.replicated] at h ⊢
            cases hcs : insertChanges t (seq.current kv t) rows <;> rw [hcs] at h <;> cases h <;>
              exact ⟨_, rfl, rfl, rfl, rfl⟩
        | _ =>
          cases h
          exact ⟨_, rfl, rfl, rfl, rfl⟩
      | _ => cases h
    | propose =>
      cases pc with
      | looping f =>
        simp only [step, propose] at h ⊢
        split_ifs at h ⊢
        · cases h
          exact ⟨_, rfl, rfl, rfl, rfl⟩
        · cases h
          exact ⟨_, rfl, rfl, rfl, rfl⟩
        · cases h
          exact ⟨_, rfl, rfl, rfl, rfl⟩
        · cases txn <;> cases h
          exact ⟨_, rfl, rfl, rfl, rfl⟩
      | _ => cases h
    | apply ok =>
      cases pc with
      | committing b epoch after =>
        rcases after with _ | _ | _ <;> cases ok <;> cases h <;> exact ⟨_, rfl, rfl, rfl, rfl⟩
      | _ => cases h
    | _ => exact ⟨v', h, rfl, rfl, rfl⟩

theorem Handles.congr {w : View Row} (h : Handles v w) (hpa : w.pa = v'.pa) (hlm : w.lm = v'.lm)
    (hact : activeXid w.self = activeXid v'.self) (hhold : holding w.self = holding v'.self) :
    Handles v v' := by
  cases h with
  | keep h₁ h₂ h₃ h₄ => exact .keep (hact ▸ h₁) (hhold ▸ h₂) (hpa ▸ h₃) (hlm ▸ h₄)
  | alloc h₁ h₂ h₃ h₄ => exact .alloc h₁ (hact ▸ h₂) (hpa ▸ h₃) (hlm ▸ h₄)
  | deregister x h₁ h₂ h₃ h₄ => exact .deregister x h₁ (hhold ▸ h₂) (hpa ▸ h₃) (hlm ▸ h₄)
  | release x h₁ h₂ h₃ h₄ h₅ => exact .release x h₁ h₂ (hhold ▸ h₃) (hpa ▸ h₄) (hlm ▸ h₅)
  | abandon x h₁ h₂ h₃ h₄ => exact .abandon x h₁ (hhold ▸ h₂) (hpa ▸ h₃) (hlm ▸ h₄)

theorem step_handles (hc : Coherent v.self) (h : step env v a = some v') :
    Coherent v'.self ∧ Handles v v' := by
  obtain ⟨w, hw, hpa, hlm, hself⟩ := step_replicated h
  obtain ⟨hact, hhold, hcoh⟩ := stripped_keeps w.self
  obtain ⟨hact', hhold', hcoh'⟩ := stripped_keeps v'.self
  rw [hself] at hact hhold hcoh
  obtain ⟨hcw, hhandles⟩ := (step_move rfl hw).handles hc
  exact ⟨hcoh'.mp (hcoh.mpr hcw), hhandles.congr hpa hlm (hact.symm.trans hact') (hhold.symm.trans hhold')⟩

theorem Handles.holding_cases (h : Handles v v') :
    (holding v'.self = holding v.self ∨ holding v'.self = none) ∧ v'.pa.nextXid = v.pa.nextXid ∨
      holding v.self = none ∧ holding v'.self = some v.pa.nextXid ∧
        v'.pa.nextXid = v.pa.nextXid + 1 := by
  cases h with
  | keep hact hhold hpa => exact .inl ⟨.inl hhold, by rw [hpa]⟩
  | alloc hnone hact hpa => exact .inr ⟨hnone, holding_of_activeXid hact, by rw [hpa]⟩
  | deregister x hold hhold hpa =>
    refine .inl ⟨.inl (hhold.trans (holding_of_activeXid hold).symm), ?_⟩
    rw [hpa, ProcArray.nextXid_finish]
  | release x hhold hnone hnew hpa => exact .inl ⟨.inr hnew, by rw [hpa]⟩
  | abandon x hold hnew hpa =>
    refine .inl ⟨.inr hnew, ?_⟩
    rw [hpa, ProcArray.nextXid_finish]

/-- A running xid after the step was the session's already, is new to it, or runs for another
session. -/
theorem Handles.running (h : Handles v v') (hx : x ∈ v'.pa.running) :
    activeXid v'.self = some x ∨ activeXid v.self ≠ some x ∧ x ∈ v.pa.running := by
  cases h with
  | keep hact hhold hpa =>
    rw [hpa] at hx
    rw [hact]
    by_cases hself : activeXid v.self = some x
    · exact .inl hself
    · exact .inr ⟨hself, hx⟩
  | alloc hnone hact hpa =>
    rw [hpa] at hx
    rcases ProcArray.mem_register.mp hx with rfl | hx
    · exact .inl hact
    · refine .inr ⟨fun hself => ?_, hx⟩
      rw [holding_of_activeXid hself] at hnone
      cases hnone
  | release y hhold hnone hnew hpa =>
    rw [hpa] at hx
    exact .inr ⟨by simp [hnone], hx⟩
  | deregister y hold _ hpa | abandon y hold _ hpa =>
    rw [hpa] at hx
    obtain ⟨hx, hne⟩ := ProcArray.mem_running_finish.mp hx
    refine .inr ⟨?_, hx⟩
    rw [hold]
    exact fun heq => hne (Option.some.inj heq).symm

theorem Handles.locks (h : Handles v v') {k : RowKey} (hx : v'.lm.Holds k x) :
    holding v'.self = some x ∨ holding v.self ≠ some x ∧ v.lm.Holds k x := by
  have hcase : v.lm.Holds k x → holding v'.self = holding v.self →
      holding v'.self = some x ∨ holding v.self ≠ some x ∧ v.lm.Holds k x := by
    intro hx heq
    by_cases hself : holding v.self = some x
    · exact .inl (heq.trans hself)
    · exact .inr ⟨hself, hx⟩
  cases h with
  | keep hact hhold hpa hlm =>
    rcases hlm k x hx with hx | hself
    · exact hcase hx hhold
    · exact .inl (hhold.trans (holding_of_activeXid hself))
  | alloc hnone hact hpa hlm =>
    rw [hlm] at hx
    exact .inr ⟨by simp [hnone], hx⟩
  | deregister y hold hhold hpa hlm =>
    rw [hlm] at hx
    exact hcase hx (hhold.trans (holding_of_activeXid hold).symm)
  | release y hhold _ _ _ hlm =>
    rw [hlm] at hx
    obtain ⟨hx, hne⟩ := LockMgr.holds_releaseAll hx
    refine .inr ⟨?_, hx⟩
    rw [hhold]
    exact fun heq => hne (Option.some.inj heq).symm
  | abandon y hold _ _ hlm =>
    rw [hlm] at hx
    obtain ⟨hx, hne⟩ := LockMgr.holds_releaseAll hx
    refine .inr ⟨?_, hx⟩
    rw [holding_of_activeXid hold]
    exact fun heq => hne (Option.some.inj heq).symm

end Steps

end Crabgresql.Session

namespace Crabgresql.Engine

open Mvcc Kv Procarray Lockmgr Exec Session Cluster

variable {Row : Type}

/-- Every running xid and every row lock belongs to one session, which will release it. -/
structure Owned (e : SqlEngine Row) : Prop where
  coherent : ∀ s, Coherent (e.sessions s)
  running : ∀ x ∈ e.pa.running, ∃ s, activeXid (e.sessions s) = some x
  locks : ∀ k x, e.lm.Holds k x → ∃ s, holding (e.sessions s) = some x
  below : ∀ s x, holding (e.sessions s) = some x → x < e.pa.nextXid
  sole : ∀ s s' x, holding (e.sessions s) = some x → holding (e.sessions s') = some x → s = s'

theorem owned_boot (kv : Store Row) : Owned (SqlEngine.boot kv) where
  coherent _ := trivial
  running x hx := by cases hx
  locks k x hx := by
    obtain ⟨l, hl, -⟩ := hx
    cases hl
  below s x hx := by cases hx
  sole s s' x hx := by cases hx

section Set

variable {e : SqlEngine Row} {s : SessionId} {v : View Row}

theorem sessions_set_same : (e.set s v).sessions s = v.self := Function.update_self ..

theorem sessions_set_ne {s' : SessionId} (h : s' ≠ s) : (e.set s v).sessions s' = e.sessions s' :=
  Function.update_of_ne h ..

theorem holding_set (hv : Handles (e.view s) v) {s' : SessionId}
    (hx : holding ((e.set s v).sessions s') = some x) : holding (e.sessions s') = some x ∨
      s' = s ∧ x = e.pa.nextXid ∧ e.pa.nextXid < v.pa.nextXid := by
  by_cases hs : s' = s
  · subst hs
    rw [sessions_set_same] at hx
    rcases hv.holding_cases with ⟨heq | hnone, -⟩ | ⟨-, hnew, hlt⟩
    · exact .inl (heq.symm.trans hx)
    · rw [hnone] at hx
      cases hx
    · rw [hnew] at hx
      cases hx
      exact .inr ⟨rfl, rfl, hlt ▸ Nat.lt_succ_self _⟩
  · rw [sessions_set_ne hs] at hx
    exact .inl hx

theorem nextXid_set (hv : Handles (e.view s) v) : e.pa.nextXid ≤ (e.set s v).pa.nextXid := by
  rcases hv.holding_cases with ⟨-, hn⟩ | ⟨-, -, hn⟩
  · exact hn.ge
  · exact (Nat.le_succ _).trans hn.ge

theorem Owned.set (h : Owned e) (hc : Coherent v.self) (hv : Handles (e.view s) v) :
    Owned (e.set s v) := by
  have hother : ∀ {f : Sess Row → Option Xid} {x : Xid}, f (e.sessions s) ≠ some x →
      (∃ s', f (e.sessions s') = some x) → ∃ s', f ((e.set s v).sessions s') = some x := by
    rintro f x hne ⟨s', hs'⟩
    refine ⟨s', ?_⟩
    rw [sessions_set_ne]
    · exact hs'
    · rintro rfl
      exact hne hs'
  refine ⟨fun s' => ?_, fun x hx => ?_, fun k x hx => ?_, fun s' x hx => ?_, ?_⟩
  · by_cases hs : s' = s
    · subst hs
      rw [sessions_set_same]
      exact hc
    · rw [sessions_set_ne hs]
      exact h.coherent s'
  · rcases hv.running hx with hself | ⟨hne, hx⟩
    · exact ⟨s, by rw [sessions_set_same]; exact hself⟩
    · exact hother hne (h.running x hx)
  · rcases hv.locks hx with hself | ⟨hne, hx⟩
    · exact ⟨s, by rw [sessions_set_same]; exact hself⟩
    · exact hother hne (h.locks k x hx)
  · rcases holding_set hv hx with hx | ⟨-, rfl, hlt⟩
    · exact (h.below s' x hx).trans_le (nextXid_set hv)
    · exact hlt
  · intro s₁ s₂ x h₁ h₂
    rcases holding_set hv h₁ with ho₁ | ⟨rfl, hx₁, -⟩ <;>
      rcases holding_set hv h₂ with ho₂ | ⟨rfl, hx₂, -⟩
    · exact h.sole s₁ s₂ x ho₁ ho₂
    · exact absurd (h.below s₁ x ho₁) (hx₂ ▸ lt_irrefl _)
    · exact absurd (h.below s₂ x ho₂) (hx₁ ▸ lt_irrefl _)
    · rfl

/-- No session but `s` holds `x`, and none ever will. -/
structure HeldOnlyBy (e : SqlEngine Row) (s : SessionId) (x : Xid) : Prop where
  only : ∀ s', holding (e.sessions s') = some x → s' = s
  old : x < e.pa.nextXid

theorem Owned.heldOnlyBy (h : Owned e) (hx : holding (e.sessions s) = some x) : HeldOnlyBy e s x :=
  ⟨fun s' hs' => h.sole s' s x hs' hx, h.below s x hx⟩

theorem HeldOnlyBy.set {s₀ : SessionId} (h : HeldOnlyBy e s₀ x) (hv : Handles (e.view s) v) :
    HeldOnlyBy (e.set s v) s₀ x := by
  refine ⟨fun s' hs' => ?_, h.old.trans_le (nextXid_set hv)⟩
  rcases holding_set hv hs' with hs' | ⟨-, hx, -⟩
  · exact h.only s' hs'
  · exact absurd h.old (hx ▸ lt_irrefl _)

theorem HeldOnlyBy.ended (h : HeldOnlyBy e s x) (ho : Owned e)
    (hx : holding (e.sessions s) ≠ some x) : x ∉ e.pa.running ∧ ∀ k, ¬ e.lm.Holds k x := by
  refine ⟨fun hrun => ?_, fun k hk => ?_⟩
  · obtain ⟨s', hs'⟩ := ho.running x hrun
    have hheld := holding_of_activeXid hs'
    rw [h.only s' hheld] at hheld
    exact hx hheld
  · obtain ⟨s', hs'⟩ := ho.locks k x hk
    rw [h.only s' hs'] at hs'
    exact hx hs'

end Set

section Runs

variable {e e' : SqlEngine Row}

/-- A step of a session, in whatever mode, epoch and global view it runs. -/
abbrev AnyCall (Row : Type) := Env × SessionId × Act Row

def SqlEngine.call (e : SqlEngine Row) (c : AnyCall Row) : Option (SqlEngine Row) :=
  e.step c.1 c.2.1 c.2.2

theorem owned_exec {I : SqlEngine Row → Prop} {cs : List (AnyCall Row)}
    (hset : ∀ {e s v}, I e → Handles (e.view s) v → I (e.set s v)) (h : Owned e ∧ I e)
    (hrun : Runs.exec SqlEngine.call e cs = some e') : Owned e' ∧ I e' := by
  refine Runs.exec_invariant (I := fun e => Owned e ∧ I e) (fun e c e' hI _ hs => ?_) h
    (Runs.along_trivial (fun _ _ => trivial) e cs) hrun
  obtain ⟨v, hv, rfl⟩ := Option.map_eq_some_iff.mp hs
  obtain ⟨hc, hhandles⟩ := step_handles (v := e.view c.2.1) (hI.1.coherent c.2.1) hv
  exact ⟨hI.1.set hc hhandles, hset hI.2 hhandles⟩

def replicatedCall (a : Act ℕ) : AnyCall ℕ := (⟨⟨.replicated, false⟩, .initial, 1⟩, 0, a)

def openedBlock : List (AnyCall ℕ) :=
  [.begin false, .start (.insert 1 [.ok 10])].map replicatedCall

/-- The batch of the block and the record of its abort are both lost. -/
def lostBlock : List (AnyCall ℕ) :=
  [.takeSnapshot, .scan, .propose, .apply false, .rollback, .apply false, .finish, .release].map
    replicatedCall

end Runs

end Crabgresql.Engine
