import Crabgresql.Mvcc

/-!
# The row-lock manager

Locks are per row, exclusive or shared, and held by xids until `releaseAll`. A
blocked request records the one holder it waits for; a request that would close
a cycle of such edges is refused. The source keeps holders in a hash set, so
which holder a conflict names is arbitrary: `acquire` takes the choice as an
argument and refuses one that is not among the candidates.
-/

namespace Crabgresql.Lockmgr

open Std (ExtTreeMap)
open Mvcc List

inductive LockMode
  | shared
  | exclusive
  deriving DecidableEq, Repr

structure RowLock where
  mode : LockMode
  holders : List Xid
  deriving DecidableEq, Repr

structure LockMgr where
  locks : RowKey → Option RowLock
  waitFor : ExtTreeMap Xid Xid

inductive Acquire
  | acquired (lm : LockMgr)
  | conflict (candidates : List Xid)

inductive Outcome
  | granted (lm : LockMgr)
  | waiting (lm : LockMgr)
  | deadlock (lm : LockMgr)

def Outcome.mgr : Outcome → LockMgr
  | .granted lm | .waiting lm | .deadlock lm => lm

namespace LockMgr

variable {lm : LockMgr} {x pick y : Xid} {k : RowKey} {mode : LockMode} {o : Outcome}
variable {k' : RowKey}

def new : LockMgr := ⟨fun _ => none, ∅⟩

def setLock (lm : LockMgr) (k : RowKey) (l : RowLock) : LockMgr :=
  { lm with locks := Function.update lm.locks k (some l) }

def tryAcquire (lm : LockMgr) (k : RowKey) (mode : LockMode) (x : Xid) : Acquire :=
  match lm.locks k with
  | none => .acquired (lm.setLock k ⟨mode, [x]⟩)
  | some l =>
    if x ∈ l.holders then
      if mode = .exclusive ∧ l.mode = .shared then
        if l.holders.length = 1 then .acquired (lm.setLock k { l with mode := .exclusive })
        else .conflict (l.holders.filter (· ≠ x))
      else .acquired lm
    else if mode = .shared ∧ l.mode = .shared then
      .acquired (lm.setLock k { l with holders := x :: l.holders })
    else .conflict l.holders

/-- Walk the edges from `cur`; the walk ends at an xid without an edge or at one already seen,
so the number of edges bounds it. -/
def reaches (waitFor : ExtTreeMap Xid Xid) (target : Xid) : ℕ → List Xid → Xid → Bool
  | 0, _, _ => false
  | fuel + 1, seen, cur =>
    if cur = target then true
    else if cur ∈ seen then false
    else
      match waitFor[cur]? with
      | some next => reaches waitFor target fuel (cur :: seen) next
      | none => false

def checkCycle (waitFor : ExtTreeMap Xid Xid) (holder x : Xid) : Bool :=
  reaches waitFor x (waitFor.size + 2) [] holder

def acquire (lm : LockMgr) (k : RowKey) (mode : LockMode) (x pick : Xid) : Option Outcome :=
  match lm.tryAcquire k mode x with
  | .acquired lm' => some (.granted { lm' with waitFor := lm'.waitFor.erase x })
  | .conflict candidates =>
    if pick ∈ candidates then
      if checkCycle lm.waitFor pick x then
        some (.deadlock { lm with waitFor := lm.waitFor.erase x })
      else some (.waiting { lm with waitFor := lm.waitFor.insert x pick })
    else none

def releaseAll (lm : LockMgr) (x : Xid) : LockMgr where
  locks k :=
    match lm.locks k with
    | none => none
    | some l =>
      if l.holders.filter (· ≠ x) = [] then none
      else some { l with holders := l.holders.filter (· ≠ x) }
  waitFor := lm.waitFor.erase x

/-- Recovery installs an inherited writer's lock without looking at other holders. -/
def reacquireExclusive (lm : LockMgr) (k : RowKey) (x : Xid) : LockMgr :=
  match lm.locks k with
  | none => lm.setLock k ⟨.exclusive, [x]⟩
  | some l =>
    lm.setLock k ⟨.exclusive, if x ∈ l.holders then l.holders else x :: l.holders⟩

def HoldsExclusive (lm : LockMgr) (k : RowKey) (x : Xid) : Prop :=
  ∃ l, lm.locks k = some l ∧ l.mode = .exclusive ∧ x ∈ l.holders

def Holds (lm : LockMgr) (k : RowKey) (x : Xid) : Prop :=
  ∃ l, lm.locks k = some l ∧ x ∈ l.holders

def Sole (lm : LockMgr) : Prop :=
  ∀ k l, lm.locks k = some l → l.mode = .exclusive → ∃ x, l.holders = [x]

theorem sole_new : Sole new := by
  intro k l h
  cases h

theorem Sole.unique (h : Sole lm) (hx : lm.HoldsExclusive k x) (hy : lm.Holds k y) : y = x := by
  obtain ⟨l, hl, hm, hxl⟩ := hx
  obtain ⟨l', hl', hyl⟩ := hy
  rw [hl] at hl'
  cases hl'
  obtain ⟨z, hz⟩ := h k l hl hm
  rw [hz, mem_singleton] at hxl hyl
  rw [hxl, hyl]

theorem HoldsExclusive.holds (h : lm.HoldsExclusive k x) : lm.Holds k x := by
  obtain ⟨l, hl, -, hx⟩ := h
  exact ⟨l, hl, hx⟩

/-- The inversion of a granted request: the lock of the row changes to one that `x` holds in the
requested strength, keeping the other holders, and no other row's lock changes. -/
theorem tryAcquire_acquired {lm' : LockMgr} (h : lm.tryAcquire k mode x = .acquired lm') :
    (∀ k', k' ≠ k → lm'.locks k' = lm.locks k') ∧
      ∃ l', lm'.locks k = some l' ∧ x ∈ l'.holders ∧ (mode = .exclusive → l'.mode = .exclusive) ∧
        (lm.locks k = some l' ∨ l' = ⟨mode, [x]⟩ ∨
          ∃ l, lm.locks k = some l ∧ l.mode = .shared ∧
            (l'.mode = .exclusive ∧ l'.holders = [x] ∨
              l'.mode = .shared ∧ l'.holders = x :: l.holders)) := by
  unfold tryAcquire at h
  split at h
  · cases h
    refine ⟨fun k' hk => by simp [setLock, hk], ⟨mode, [x]⟩, by simp [setLock], by simp, ?_, ?_⟩
    · exact id
    · exact .inr (.inl rfl)
  · rename_i l hl
    split_ifs at h with hx hup hlen hsh
    · cases h
      obtain ⟨y, hy⟩ := length_eq_one_iff.mp hlen
      have hxy : l.holders = [x] := by
        rw [hy, mem_singleton] at hx
        rw [hy, hx]
      refine ⟨fun k' hk => by simp [setLock, hk], { l with mode := .exclusive },
        by simp [setLock], hx, fun _ => rfl, .inr (.inr ⟨l, hl, hup.2, .inl ⟨rfl, hxy⟩⟩)⟩
    · cases h
      refine ⟨fun _ _ => rfl, l, hl, hx, ?_, .inl hl⟩
      intro hm
      cases hlm : l.mode with
      | shared => exact absurd ⟨hm, hlm⟩ hup
      | exclusive => rfl
    · cases h
      refine ⟨fun k' hk => by simp [setLock, hk], { l with holders := x :: l.holders },
        by simp [setLock], by simp, ?_, .inr (.inr ⟨l, hl, hsh.2, .inr ⟨hsh.2, rfl⟩⟩)⟩
      intro hm
      rw [hsh.1] at hm
      cases hm

theorem acquire_cases (h : lm.acquire k mode x pick = some o) :
    (∃ lm' lm'', o = .granted lm' ∧ lm.tryAcquire k mode x = .acquired lm'' ∧
        lm'.locks = lm''.locks) ∨
      o.mgr.locks = lm.locks ∧ ∀ lm', o ≠ .granted lm' := by
  unfold acquire at h
  split at h
  · rename_i lm'' hacq
    cases h
    exact .inl ⟨_, lm'', rfl, hacq, rfl⟩
  · split_ifs at h
    · cases h
      exact .inr ⟨rfl, fun _ hc => by cases hc⟩
    · cases h
      exact .inr ⟨rfl, fun _ hc => by cases hc⟩

theorem acquire_exclusive {lm' : LockMgr}
    (h : lm.acquire k .exclusive x pick = some (.granted lm')) : lm'.HoldsExclusive k x := by
  rcases acquire_cases h with ⟨lm₁, lm₂, ho, hacq, hlocks⟩ | ⟨-, hng⟩
  · cases ho
    obtain ⟨-, l, hl, hx, hm, -⟩ := tryAcquire_acquired hacq
    exact ⟨l, by rw [hlocks, hl], hm rfl, hx⟩
  · exact absurd rfl (hng lm')

theorem acquire_locks_exclusive {l : RowLock} (h : lm.acquire k mode x pick = some o)
    (hl : lm.locks k' = some l) (hm : l.mode = .exclusive) : o.mgr.locks k' = some l := by
  rcases acquire_cases h with ⟨lm₁, lm₂, rfl, hacq, hlocks⟩ | ⟨hlocks, -⟩
  · refine (congrFun hlocks _).trans ?_
    by_cases hk : k' = k
    · subst hk
      have hup : ¬ (mode = .exclusive ∧ l.mode = .shared) := by simp [hm]
      have hsh : ¬ (mode = .shared ∧ l.mode = .shared) := by simp [hm]
      simp only [tryAcquire, hl, if_neg hup, if_neg hsh] at hacq
      split_ifs at hacq
      cases hacq
      exact hl
    · rw [(tryAcquire_acquired hacq).1 k' hk]
      exact hl
  · exact (congrFun hlocks _).trans hl

theorem acquire_holdsExclusive (h : lm.acquire k mode x pick = some o) (hy : lm.HoldsExclusive k' y) :
    o.mgr.HoldsExclusive k' y := by
  obtain ⟨l, hl, hm, hyl⟩ := hy
  exact ⟨l, acquire_locks_exclusive h hl hm, hm, hyl⟩

theorem acquire_sole (hs : lm.Sole) (h : lm.acquire k mode x pick = some o) : o.mgr.Sole := by
  intro k' l hl hm
  rcases acquire_cases h with ⟨lm₁, lm₂, rfl, hacq, hlocks⟩ | ⟨hlocks, -⟩
  · obtain ⟨hne, l', hl', hx, -, hcase⟩ := tryAcquire_acquired hacq
    have hl₂ : lm₂.locks k' = some l := (congrFun hlocks _).symm.trans hl
    by_cases hk : k' = k
    · subst hk
      rw [hl'] at hl₂
      cases hl₂
      rcases hcase with hsame | rfl | ⟨l₀, -, -, ⟨-, hx'⟩ | ⟨hsh, -⟩⟩
      · exact hs _ _ hsame hm
      · exact ⟨x, rfl⟩
      · exact ⟨x, hx'⟩
      · rw [hm] at hsh
        cases hsh
    · rw [hne k' hk] at hl₂
      exact hs k' l hl₂ hm
  · exact hs k' l ((congrFun hlocks _).symm.trans hl) hm

theorem acquire_holds (h : lm.acquire k mode x pick = some o) (hy : o.mgr.Holds k' y) :
    lm.Holds k' y ∨ y = x := by
  obtain ⟨l, hl, hyl⟩ := hy
  rcases acquire_cases h with ⟨lm₁, lm₂, rfl, hacq, hlocks⟩ | ⟨hlocks, -⟩
  · obtain ⟨hne, l', hl', -, -, hcase⟩ := tryAcquire_acquired hacq
    have hl₂ : lm₂.locks k' = some l := (congrFun hlocks _).symm.trans hl
    by_cases hk : k' = k
    · subst hk
      rw [hl'] at hl₂
      cases hl₂
      rcases hcase with hsame | rfl | ⟨l₀, hl₀, -, ⟨-, hx⟩ | ⟨-, hx⟩⟩
      · exact .inl ⟨_, hsame, hyl⟩
      · exact .inr (mem_singleton.mp hyl)
      · rw [hx] at hyl
        exact .inr (mem_singleton.mp hyl)
      · rw [hx] at hyl
        rcases mem_cons.mp hyl with hyx | hyl
        · exact .inr hyx
        · exact .inl ⟨l₀, hl₀, hyl⟩
    · rw [hne k' hk] at hl₂
      exact .inl ⟨l, hl₂, hyl⟩
  · exact .inl ⟨l, (congrFun hlocks _).symm.trans hl, hyl⟩

theorem holds_releaseAll (h : (lm.releaseAll x).Holds k y) : lm.Holds k y ∧ y ≠ x := by
  obtain ⟨l, hl, hyl⟩ := h
  simp only [releaseAll] at hl
  split at hl
  · cases hl
  · rename_i l₀ hl₀
    split_ifs at hl
    cases hl
    obtain ⟨hy, hne⟩ := mem_filter.mp hyl
    exact ⟨⟨l₀, hl₀, hy⟩, of_decide_eq_true hne⟩

theorem releaseAll_holdsExclusive (hne : y ≠ x) (hy : lm.HoldsExclusive k y) :
    (lm.releaseAll x).HoldsExclusive k y := by
  obtain ⟨l, hl, hm, hyl⟩ := hy
  have hin : y ∈ l.holders.filter (· ≠ x) := by simp [hyl, hne]
  have hnil : l.holders.filter (· ≠ x) ≠ [] := ne_nil_of_mem hin
  refine ⟨{ l with holders := l.holders.filter (· ≠ x) }, ?_, hm, hin⟩
  simp only [releaseAll, hl]
  rw [if_neg hnil]

theorem releaseAll_sole (hs : lm.Sole) : (lm.releaseAll x).Sole := by
  intro k l hl hm
  simp only [releaseAll] at hl
  split at hl
  · cases hl
  · rename_i l₀ hl₀
    split_ifs at hl with hnil
    cases hl
    obtain ⟨z, hz⟩ := hs k l₀ hl₀ hm
    rw [hz] at hnil ⊢
    by_cases hzx : z = x
    · simp [hzx] at hnil
    · exact ⟨z, by simp [hzx]⟩

end LockMgr

end Crabgresql.Lockmgr
