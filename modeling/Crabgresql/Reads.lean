import Crabgresql.Cluster.Apply

/-!
# What a SELECT returns

The snapshots a read resolves versions with, and the rows it returns. A scan is
determined by which version of which row is live: two stores that agree on that
return the same rows in the same order.
-/

namespace Crabgresql.Reads

open Mvcc Kv Procarray Exec Session Cluster List Option

variable {Row : Type}

/-- `read_context`: the local snapshot, the own xid and the global snapshot of a read. -/
def readContext (env : Env) (v : View Row) : Option (Snapshot × Option Xid × Snapshot) :=
  match v.self.txn with
  | .idle => some (v.pa.snapshot, none, globalReadSnapshot env none)
  | .inTransaction c =>
    if c.repeatableRead then some (c.snapshot, c.xid, globalReadSnapshot env c.globalSnapshot)
    else some (v.pa.snapshot, c.xid, globalReadSnapshot env none)
  | .failed _ => none

def selectRows (env : Env) (v : View Row) (t : TableId) : Option (List (RowId × Row)) :=
  (readContext env v).map fun ctx =>
    (scanLive v.kv env.glob ctx.2.2 ctx.1 ctx.2.1 t).map fun e => (e.1, e.2.2)

section Live

variable (kv : Store Row) (status : Xid → XidStatus) (snap : Snapshot) (own : Option Xid)

def liveAt (k : RowKey) (y : Xid) : Option Row :=
  (kv.version k y).bind fun t => if isLive status snap own t then some t.row else none

variable {kv status snap own}

theorem liveAt_eq_some {k : RowKey} {y : Xid} {row : Row} :
    liveAt kv status snap own k y = some row ↔
      ∃ t, kv.version k y = some t ∧ isLive status snap own t = true ∧ t.row = row := by
  simp only [liveAt, bind_eq_some_iff, ite_none_right_eq_some, Option.some.injEq]

theorem foldl_keepGreatest_le {l : List (Tuple Row)} {acc : Option (Xid × Row)} {v : Xid × Row}
    (h : l.foldl keepGreatest acc = some v) :
    (∀ t ∈ l, t.xmin ≤ v.1) ∧ ∀ p, acc = some p → p.1 ≤ v.1 := by
  induction l generalizing acc with
  | nil =>
    refine ⟨fun t ht => (nomatch ht), fun p hp => ?_⟩
    rw [foldl_nil, hp] at h
    cases h
    exact le_rfl
  | cons t l ih =>
    obtain ⟨htail, hacc⟩ := ih h
    -- the accumulator after `t` is at least `t` and at least what it was
    have hstep : ∃ p, keepGreatest acc t = some p ∧ t.xmin ≤ p.1 ∧ ∀ q, acc = some q → q.1 ≤ p.1 := by
      cases acc with
      | none => exact ⟨_, rfl, le_rfl, fun q hq => by cases hq⟩
      | some =>
        simp only [keepGreatest]
        split_ifs with hlt
        · refine ⟨_, rfl, le_rfl, fun q' hq' => ?_⟩
          cases hq'
          exact le_of_lt hlt
        · refine ⟨_, rfl, not_lt.mp hlt, fun q' hq' => ?_⟩
          cases hq'
          exact le_rfl
    obtain ⟨p, hp, ht, hle⟩ := hstep
    have hpv := hacc p hp
    refine ⟨fun t' ht' => ?_, fun q hq => le_trans (hle q hq) hpv⟩
    rcases mem_cons.mp ht' with rfl | ht'
    · exact le_trans ht hpv
    · exact htail t' ht'

theorem findVisibleOne_iff (hf : Formed kv) {k : RowKey} {y : Xid} {row : Row} :
    findVisibleOne status snap own (kv.rowVersions k) = some (y, row) ↔
      liveAt kv status snap own k y = some row ∧
        ∀ y' row', liveAt kv status snap own k y' = some row' → y' ≤ y := by
  have hforward : ∀ {y : Xid} {row : Row},
      findVisibleOne status snap own (kv.rowVersions k) = some (y, row) →
      liveAt kv status snap own k y = some row ∧
        ∀ y' row', liveAt kv status snap own k y' = some row' → y' ≤ y := by
    intro y row h
    refine ⟨?_, fun y' row' hlive => ?_⟩
    · obtain ⟨t, ht, hl, hv⟩ := findVisibleOne_some status snap own h
      obtain ⟨x, hx⟩ := (mem_rowVersions kv).mp ht
      cases hv
      rw [hf k x t hx]
      exact liveAt_eq_some.mpr ⟨t, hx, hl, rfl⟩
    · obtain ⟨t, hx, hl, -⟩ := liveAt_eq_some.mp hlive
      have hmem : t ∈ liveVersions status snap own (kv.rowVersions k) :=
        (mem_liveVersions status snap own).mpr ⟨(mem_rowVersions kv).mpr ⟨y', hx⟩, hl⟩
      rw [← hf k y' t hx]
      exact (foldl_keepGreatest_le h).1 t hmem
  constructor
  · exact hforward
  · rintro ⟨hlive, hmax⟩
    obtain ⟨t, hx, hl, -⟩ := liveAt_eq_some.mp hlive
    obtain ⟨⟨y₁, row₁⟩, hv⟩ := isSome_iff_exists.mp
      (findVisibleOne_isSome status snap own ((mem_rowVersions kv).mpr ⟨y, hx⟩) hl)
    obtain ⟨hlive₁, hmax₁⟩ := hforward hv
    have hy : y₁ = y := le_antisymm (hmax y₁ row₁ hlive₁) (hmax₁ y row hlive)
    subst hy
    rw [hlive] at hlive₁
    cases hlive₁
    exact hv

end Live

section Scan

theorem rowids_sorted (kv : Store Row) (t : TableId) : (kv.rowids t).Pairwise (· < ·) := by
  have hle : (kv.rowids t).Pairwise (· ≤ ·) := pairwise_insertionSort (· ≤ ·) _
  exact (hle.and (rowids_nodup kv t)).imp fun h => lt_of_le_of_ne h.1 h.2

theorem filterMap_eq_of_sorted {β : Type*} {f : ℕ → Option β} {l l' : List ℕ}
    (hl : l.Pairwise (· < ·)) (hl' : l'.Pairwise (· < ·))
    (h : ∀ r, (f r).isSome = true → (r ∈ l ↔ r ∈ l')) : l.filterMap f = l'.filterMap f := by
  have hfilter : ∀ l : List ℕ, l.filterMap f = (l.filter fun r => (f r).isSome).filterMap f := by
    intro l
    induction l with
    | nil => rfl
    | cons r l ih =>
      cases hr : f r with
      | none | some => simp [hr, ih]
  rw [hfilter l, hfilter l']
  congr 1
  refine List.Pairwise.eq_of_mem_iff (hl.filter _) (hl'.filter _) fun r => ?_
  simp only [mem_filter]
  constructor
  · rintro ⟨hr, hs⟩
    exact ⟨(h r hs).mp hr, hs⟩
  · rintro ⟨hr, hs⟩
    exact ⟨(h r hs).mpr hr, hs⟩

variable {kv kv' : Store Row} {glob glob' : GlobalView} {gsnap gsnap' snap snap' : Snapshot}
  {own own' : Option Xid}

theorem mem_scanLive {t : TableId} {r : RowId} {v : Xid × Row} :
    (r, v) ∈ scanLive kv glob gsnap snap own t ↔
      findVisibleOne (globalStatus kv glob gsnap) snap own (kv.rowVersions (t, r)) = some v := by
  simp only [scanLive, mem_filterMap, map_eq_some_iff, Prod.mk.injEq]
  constructor
  · rintro ⟨r', -, v', hv', rfl, rfl⟩
    exact hv'
  · intro hv
    obtain ⟨u, hu, -⟩ := findVisibleOne_some _ _ _ hv
    obtain ⟨x, hx⟩ := (mem_rowVersions kv).mp hu
    exact ⟨r, (mem_rowids kv).mpr ⟨x, u, hx⟩, v, hv, rfl, rfl⟩

theorem scanLive_congr (hf : Formed kv) (hf' : Formed kv') {t : TableId}
    (h : ∀ r y, liveAt kv' (globalStatus kv' glob' gsnap') snap' own' (t, r) y =
      liveAt kv (globalStatus kv glob gsnap) snap own (t, r) y) :
    scanLive kv' glob' gsnap' snap' own' t = scanLive kv glob gsnap snap own t := by
  have hone : ∀ r, findVisibleOne (globalStatus kv' glob' gsnap') snap' own'
      (kv'.rowVersions (t, r)) =
      findVisibleOne (globalStatus kv glob gsnap) snap own (kv.rowVersions (t, r)) := by
    intro r
    refine Option.ext fun v => ?_
    obtain ⟨y, row⟩ := v
    rw [findVisibleOne_iff hf', findVisibleOne_iff hf]
    simp only [h]
  have hrow : ∀ {kv : Store Row} {glob gsnap snap own} {r : RowId},
      ((findVisibleOne (globalStatus kv glob gsnap) snap own (kv.rowVersions (t, r))).map
        fun v => (r, v.1, v.2)).isSome = true → r ∈ kv.rowids t := by
    intro kv glob gsnap snap own r hsome
    rw [isSome_map] at hsome
    obtain ⟨v, hv⟩ := isSome_iff_exists.mp hsome
    obtain ⟨u, hu, -⟩ := findVisibleOne_some _ _ _ hv
    obtain ⟨x, hx⟩ := (mem_rowVersions kv).mp hu
    exact (mem_rowids kv).mpr ⟨x, u, hx⟩
  unfold scanLive
  simp only [hone]
  refine filterMap_eq_of_sorted (rowids_sorted kv' t) (rowids_sorted kv t) fun r hsome => ?_
  have hsome' := hsome
  rw [← hone] at hsome'
  exact ⟨fun _ => hrow hsome, fun _ => hrow hsome'⟩

end Scan

end Crabgresql.Reads
