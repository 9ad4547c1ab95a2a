import Crabgresql.Single.Evolve

/-!
# Visibility along a chain

Under a view that satisfies `ViewInv` the visible versions of a row lie on the
frontier of a downward closed part of its chain, so there is at most one. For a
transaction that has locked the row and sees all of its chain it is the last
version, and that is what the recheck returns.
-/

namespace Crabgresql.Single

open Mvcc Kv Procarray Lockmgr Exec Session Engine List

variable {Row : Type} {sh : Shared Row}
variable {a b : Xid} {glob : GlobalView}

theorem globalStatus_eq (h : SharedInv sh) (glob : GlobalView) (gsnap : Snapshot) :
    globalStatus sh.kv glob gsnap = sh.kv.clogGet := by
  funext x
  unfold globalStatus
  cases hx : sh.kv.clogGet x with
  | prepared g => exact absurd hx (h.unprepared x g)
  | _ => rfl

def Seen (sh : Shared Row) (S : Snapshot) (own : Option Xid) (x : Xid) : Prop :=
  own = some x ∨ S.canSee x ∧ sh.Committed x

variable {x : Xid} {k : RowKey}

theorem committedVisible_eq_seen {S : Snapshot} {own : Option Xid} :
    committedVisible x S own sh.kv.clogGet = true ↔ Seen sh S own x :=
  committedVisible_iff

theorem committed_or_open (h : SharedInv sh) (ha : a ∈ sh.log.chain k) :
    sh.Committed a ∨ a ∈ sh.pa.running ∧ ¬ sh.Committed a := by
  obtain ⟨e, he, rfl⟩ := (Chronicle.mem_authors Entry.xid).mp ha
  simp only [History.rowLog, mem_filter, mem_append] at he
  rcases he.1 with hh | hp
  · exact .inl (h.hist_committed e hh)
  · exact .inr (h.pend_open e hp)

theorem chain_lt (h : SharedInv sh) (ha : a ∈ sh.log.chain k) : a < sh.pa.nextXid := by
  rcases committed_or_open h ha with hc | ⟨hr, -⟩
  · apply h.clog_lt
    rw [hc]
    decide
  · exact h.running_lt a hr

theorem chain_ne_zero (h : SharedInv sh) (ha : a ∈ sh.log.chain k) : a ≠ invalidXid := by
  rintro rfl
  rcases committed_or_open h ha with hc | ⟨hr, -⟩
  · have hz := h.zero.2
    rw [hc] at hz
    cases hz
  · exact h.zero.1 hr

theorem committed_of_finished (h : SharedInv sh) (ha : a ∈ sh.log.chain k)
    (hf : sh.pa.Finished a) : sh.Committed a := by
  rcases committed_or_open h ha with hc | ⟨hr, -⟩
  · exact hc
  · exact absurd hf (not_finished_of_running hr)

theorem getElem_mem_dropLast {α : Type*} {l : List α} {i : ℕ} (hi : i + 1 < l.length) :
    l[i] ∈ l.dropLast := by
  rw [mem_iff_getElem]
  refine ⟨i, ?_, ?_⟩
  · rw [length_dropLast]
    omega
  · rw [getElem_dropLast]

theorem last_of_running (h : RowInv sh k) (hx : x ∈ sh.log.chain k)
    (hr : x ∈ sh.pa.running) : (sh.log.chain k).getLast? = some x := by
  have hne : sh.log.chain k ≠ [] := ne_nil_of_mem hx
  rw [← dropLast_append_getLast hne] at hx
  rcases mem_append.mp hx with hd | hl
  · exact absurd (h.settled x hd).2 (not_finished_of_running hr)
  · rw [mem_singleton] at hl
    rw [hl, getLast?_eq_some_getLast hne]

theorem finished_of_ne_running (h : RowInv sh k) (hx : x ∈ sh.log.chain k)
    (hr : x ∈ sh.pa.running) (ha : a ∈ sh.log.chain k) (hne : a ≠ x) : sh.pa.Finished a := by
  obtain ⟨c, hc⟩ := List.getLast?_eq_some_iff.mp (last_of_running h hx hr)
  have had : a ∈ (sh.log.chain k).dropLast := by
    rw [hc] at ha ⊢
    rw [dropLast_concat]
    simpa [hne] using ha
  exact (h.settled a had).2

theorem viewInv_snapshot (h : SharedInv sh) {own : Option Xid}
    (hown : ∀ x, own = some x → x ∈ sh.pa.running) : ViewInv sh sh.pa.snapshot own where
  finished a ha := ProcArray.canSee_snapshot.mp ha
  closed k := by
    rw [pairwise_iff_getElem]
    intro i j hi hj hij _
    have hmem := getElem_mem_dropLast (l := sh.log.chain k) (i := i) (by omega)
    exact ProcArray.canSee_snapshot.mpr ((h.row k).settled _ hmem).2
  covers k x hx hxc a ha hne :=
    ProcArray.canSee_snapshot.mpr (finished_of_ne_running (h.row k) hxc (hown x hx) ha hne)

section View

variable {S : Snapshot} {own : Option Xid} {k : RowKey}

theorem seen_closed (h : SharedInv sh) (hV : ViewInv sh S own) :
    (sh.log.chain k).Pairwise fun a b => Seen sh S own b → Seen sh S own a := by
  rw [pairwise_iff_getElem]
  intro i j hi hj hij hb
  have hcom := ((h.row k).settled _
    (getElem_mem_dropLast (l := sh.log.chain k) (i := i) (by omega))).1
  rcases hb with hown | ⟨hsee, -⟩
  · have hne : (sh.log.chain k)[i] ≠ (sh.log.chain k)[j] := by
      intro heq
      have := ((h.row k).nodup.getElem_inj_iff).mp heq
      omega
    exact .inr ⟨hV.covers k _ hown (getElem_mem hj) _ (getElem_mem hi) hne, hcom⟩
  · exact .inr ⟨pairwise_iff_getElem.mp (hV.closed k) i j hi hj hij hsee, hcom⟩

theorem not_seen_of_dead (hrun : ∀ x, own = some x → x ∈ sh.pa.running) {x : Xid}
    (hd : sh.Dead x) : ¬ Seen sh S own x := by
  rintro (ho | ⟨-, hc⟩)
  · exact not_finished_of_running (hrun x ho) hd.1
  · exact hd.2 hc

theorem live_frontier (h : SharedInv sh) (hrun : ∀ x, own = some x → x ∈ sh.pa.running)
    {t : Tuple Row} (ht : sh.kv.version k a = some t) (hl : isLive sh.kv.clogGet S own t = true) :
    ∃ i : ℕ, (sh.log.chain k)[i]? = some a ∧ Seen sh S own a ∧
      ∀ b, (sh.log.chain k)[i + 1]? = some b → ¬ Seen sh S own b := by
  rw [isLive_iff, committedVisible_eq_seen] at hl
  obtain ⟨hmin, hmax⟩ := hl
  obtain ⟨hxmin, hmem⟩ := (h.row k).version a t ht
  rw [hxmin] at hmin
  have hchain : a ∈ sh.log.chain k :=
    hmem.resolve_right fun hd => not_seen_of_dead hrun hd hmin
  obtain ⟨i, hi, hia⟩ := mem_iff_getElem.mp hchain
  refine ⟨i, by rw [getElem?_eq_getElem hi, hia], hmin, ?_⟩
  intro b hb hseen
  obtain ⟨r, -, hver⟩ := (h.row k).stamped i a b (by rw [getElem?_eq_getElem hi, hia]) hb
  rw [ht] at hver
  cases hver
  rcases hmax with hz | hnv
  · exact chain_ne_zero h (mem_of_getElem? hb) hz
  · rw [committedVisible_eq_seen.mpr hseen] at hnv
    cases hnv

theorem live_unique (h : SharedInv sh) (hV : ViewInv sh S own)
    (hrun : ∀ x, own = some x → x ∈ sh.pa.running) {t u : Tuple Row}
    (ht : sh.kv.version k a = some t) (hu : sh.kv.version k b = some u)
    (hlt : isLive sh.kv.clogGet S own t = true) (hlu : isLive sh.kv.clogGet S own u = true) :
    a = b := by
  obtain ⟨i, hi, hsa, hna⟩ := live_frontier h hrun ht hlt
  obtain ⟨j, hj, hsb, hnb⟩ := live_frontier h hrun hu hlu
  have hij := Chronicle.frontier_unique (seen_closed h hV) hi hj hsa hsb hna hnb
  rw [hij, hj] at hi
  exact (Option.some.inj hi).symm

theorem liveVersions_length (h : SharedInv sh) (hV : ViewInv sh S own)
    (hrun : ∀ x, own = some x → x ∈ sh.pa.running) :
    (liveVersions sh.kv.clogGet S own (sh.kv.rowVersions k)).length ≤ 1 := by
  have hdistinct : (sh.kv.rowVersions k).Pairwise fun t u =>
      isLive sh.kv.clogGet S own t = true → isLive sh.kv.clogGet S own u = true → False := by
    refine rowVersions_pairwise sh.kv k ?_
    intro a b t u hab ht hu hlt hlu
    exact hab (live_unique h hV hrun ht hu hlt hlu)
  have hlive := hdistinct.filter (isLive sh.kv.clogGet S own)
  change ((sh.kv.rowVersions k).filter (isLive sh.kv.clogGet S own)).length ≤ 1
  cases hv : (sh.kv.rowVersions k).filter (isLive sh.kv.clogGet S own) with
  | nil => simp
  | cons t l =>
    cases l with
    | nil => simp
    | cons u =>
      have htu := hlive
      rw [hv, pairwise_cons] at htu
      have hlt : t ∈ (sh.kv.rowVersions k).filter (isLive sh.kv.clogGet S own) := by simp [hv]
      have hlu : u ∈ (sh.kv.rowVersions k).filter (isLive sh.kv.clogGet S own) := by simp [hv]
      exact (htu.1 u (by simp) (mem_filter.mp hlt).2 (mem_filter.mp hlu).2).elim

theorem findVisibleOne_last (h : SharedInv sh) (hrun : ∀ x, own = some x → x ∈ sh.pa.running)
    (hall : ∀ a ∈ sh.log.chain k, Seen sh S own a) {v : Xid × Row}
    (hf : findVisibleOne sh.kv.clogGet S own (sh.kv.rowVersions k) = some v) :
    (sh.log.chain k).getLast? = some v.1 ∧ sh.log.image k v.1 = some v.2 := by
  obtain ⟨t, ht, hl, rfl⟩ := findVisibleOne_some _ _ _ hf
  obtain ⟨a, ha⟩ := (mem_rowVersions sh.kv).mp ht
  have hxmin := ((h.row k).version a t ha).1
  obtain ⟨i, hi, hsa, hna⟩ := live_frontier h hrun ha hl
  have hlast : (sh.log.chain k).getLast? = some a := by
    obtain ⟨hil, hia⟩ := List.getElem?_eq_some_iff.mp hi
    rw [getLast?_eq_getElem?]
    by_cases hnext : i + 1 < (sh.log.chain k).length
    · have hsome := getElem?_eq_getElem hnext
      exact absurd (hall _ (getElem_mem hnext)) (hna _ hsome)
    · have hidx : (sh.log.chain k).length - 1 = i := by omega
      rw [hidx, hi]
  rw [hxmin]
  refine ⟨hlast, ?_⟩
  cases him : sh.log.image k a with
  | none =>
    have hmax := (h.row k).gone a t hlast him ha
    rw [isLive_iff] at hl
    rcases hl.2 with hz | hnv
    · exact absurd (hmax.symm.trans hz) (chain_ne_zero h (mem_of_getLast? hlast))
    · rw [hmax, committedVisible_eq_seen.mpr hsa] at hnv
      cases hnv
  | some r =>
    obtain ⟨m, hm, -⟩ := (h.row k).live a r hlast him
    rw [ha] at hm
    cases hm
    rfl

end View

section Recheck

variable {S : Snapshot} {x : Xid} {k : RowKey}

theorem others_ended (h : SharedInv sh) (hlock : sh.lm.HoldsExclusive k x)
    (hfin : ∀ a, S.canSee a → sh.pa.Finished a) (hT : Target sh S x k) (ha : a ∈ sh.log.chain k)
    (hne : a ≠ x) : sh.Committed a ∧ sh.pa.Finished a := by
  have hf : sh.pa.Finished a := by
    refine ⟨chain_lt h ha, ?_⟩
    intro hr
    rcases (h.row k).guarded a ha hr with hl | hhead
    · exact hne (h.sole.unique hlock hl.holds)
    · obtain ⟨b, hb, hbx⟩ := hT
      rw [hb] at hhead
      cases hhead
      rcases hbx with rfl | hs
      · exact hne rfl
      · exact not_finished_of_running hr (hfin _ hs)
  exact ⟨committed_of_finished h ha hf, hf⟩

theorem changedSince_false (h : SharedInv sh) (hc : changedSince sh.kv glob S k x = false) {r : Row}
    (hv : sh.kv.version k a = some ⟨a, b, r⟩) (hb : b ≠ invalidXid) (hbx : b ≠ x)
    (hcom : sh.Committed b) : S.canSee b := by
  unfold changedSince at hc
  rw [List.any_eq_false] at hc
  have hmem := (mem_rowVersions sh.kv).mpr ⟨a, hv⟩
  have hnot := hc _ hmem
  rw [globalStatus_eq h] at hnot
  by_contra hns
  apply hnot
  have hcom' : sh.kv.clogGet b = .committed := hcom
  simp [hb, hbx, hcom', hns]

theorem changedSince_true (h : SharedInv sh) {r : Row} (hv : sh.kv.version k a = some ⟨a, b, r⟩)
    (hb : b ≠ invalidXid) (hbx : b ≠ x) (hcom : sh.Committed b) (hns : ¬ S.canSee b) :
    changedSince sh.kv glob S k x = true := by
  cases hc : changedSince sh.kv glob S k x with
  | true => rfl
  | false => exact absurd (changedSince_false h hc hv hb hbx hcom) hns

theorem sees_all (h : SharedInv sh) (hlock : sh.lm.HoldsExclusive k x)
    (hfin : ∀ a, S.canSee a → sh.pa.Finished a) (hT : Target sh S x k)
    (hc : changedSince sh.kv glob S k x = false) (ha : a ∈ sh.log.chain k) (hne : a ≠ x) :
    S.canSee a := by
  obtain ⟨i, hi, rfl⟩ := mem_iff_getElem.mp ha
  have hcom := (others_ended h hlock hfin hT ha hne).1
  cases i with
  | zero =>
    obtain ⟨b, hb, hbx⟩ := hT
    rw [head?_eq_getElem?, getElem?_eq_getElem hi] at hb
    cases hb
    exact hbx.resolve_left hne
  | succ i =>
    have hi' : i < (sh.log.chain k).length := by omega
    obtain ⟨r, -, hv⟩ := (h.row k).stamped i _ _ (getElem?_eq_getElem hi')
      (getElem?_eq_getElem hi)
    exact changedSince_false h hc hv (chain_ne_zero h ha) hne hcom

theorem evalPlanQual_current (h : SharedInv sh) (hlock : sh.lm.HoldsExclusive k x)
    (hrun : x ∈ sh.pa.running) (hfin : ∀ a, S.canSee a → sh.pa.Finished a) (hT : Target sh S x k)
    {rr : Bool} {v : Xid × Row} (he : evalPlanQual sh.kv glob sh.pa S k x rr = .ok (some v)) :
    Current sh x (coverOf rr S) k v.1 v.2 := by
  have hothers : ∀ a ∈ sh.log.chain k, a ≠ x → sh.Committed a ∧ sh.pa.Finished a :=
    fun a ha hne => others_ended h hlock hfin hT ha hne
  have hown : ∀ y, some x = some y → y ∈ sh.pa.running := by
    intro y hy
    exact Option.some.inj hy ▸ hrun
  unfold evalPlanQual at he
  simp only [globalStatus_eq h] at he
  cases hc : changedSince sh.kv glob S k x with
  | true =>
    cases rr with
    | true => simp [hc] at he
    | false =>
      simp only [hc, if_true, Bool.false_eq_true, if_false] at he
      have hall : ∀ a ∈ sh.log.chain k, Seen sh sh.pa.snapshot (some x) a := by
        intro a ha
        by_cases hax : a = x
        · exact .inl (by rw [hax])
        · have ho := hothers a ha hax
          exact .inr ⟨ProcArray.canSee_snapshot.mpr ho.2, ho.1⟩
      obtain ⟨hlast, him⟩ := findVisibleOne_last h hown hall (Except.ok.inj he)
      refine ⟨hlock, hlast, him, hothers, ?_⟩
      intro S' hS'
      simp [coverOf] at hS'
  | false =>
    simp only [hc, Bool.false_eq_true, if_false] at he
    have hsee : ∀ a ∈ sh.log.chain k, a ≠ x → S.canSee a :=
      fun a ha hne => sees_all h hlock hfin hT hc ha hne
    have hall : ∀ a ∈ sh.log.chain k, Seen sh S (some x) a := by
      intro a ha
      by_cases hax : a = x
      · exact .inl (by rw [hax])
      · exact .inr ⟨hsee a ha hax, (hothers a ha hax).1⟩
    obtain ⟨hlast, him⟩ := findVisibleOne_last h hown hall (Except.ok.inj he)
    refine ⟨hlock, hlast, him, hothers, ?_⟩
    intro S' hS' a ha hne
    unfold coverOf at hS'
    split_ifs at hS'
    cases hS'
    exact hsee a ha hne

theorem scanLive_target (h : SharedInv sh) (hV : ViewInv sh S (some x)) (hrun : x ∈ sh.pa.running)
    {gsnap : Snapshot} {t : TableId} {v : RowId × Xid × Row}
    (hv : v ∈ scanLive sh.kv glob gsnap S (some x) t) : Target sh S x (t, v.1) := by
  have hown : ∀ y, some x = some y → y ∈ sh.pa.running := by
    intro y hy
    exact Option.some.inj hy ▸ hrun
  unfold scanLive at hv
  rw [mem_filterMap] at hv
  obtain ⟨r, -, hr⟩ := hv
  rw [globalStatus_eq h, Option.map_eq_some_iff] at hr
  obtain ⟨w, hw, rfl⟩ := hr
  obtain ⟨tup, htup, hl, -⟩ := findVisibleOne_some _ _ _ hw
  obtain ⟨a, ha⟩ := (mem_rowVersions sh.kv).mp htup
  obtain ⟨i, hi, hsa, -⟩ := live_frontier h hown ha hl
  obtain ⟨hil, hia⟩ := List.getElem?_eq_some_iff.mp hi
  have hpos : 0 < (sh.log.chain (t, r)).length := by omega
  have hhead : Seen sh S (some x) (sh.log.chain (t, r))[0] := by
    by_cases hi0 : i = 0
    · subst hi0
      rw [hia]
      exact hsa
    · have hpair := pairwise_iff_getElem.mp (seen_closed (k := (t, r)) h hV) 0 i hpos hil
        (by omega)
      rw [hia] at hpair
      exact hpair hsa
  refine ⟨(sh.log.chain (t, r))[0], by rw [head?_eq_getElem?, getElem?_eq_getElem hpos], ?_⟩
  rcases hhead with ho | ⟨hs, -⟩
  · exact .inl (Option.some.inj ho).symm
  · exact .inr hs

end Recheck

end Crabgresql.Single
