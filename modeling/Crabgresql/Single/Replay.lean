import Crabgresql.Reads
import Crabgresql.Single.Isolation

/-!
# A read is a replay of the history

What a scan returns under a snapshot and for an own transaction is what the
changes of a row leave when one replays those committed before the snapshot, in
commit order, and then the own ones. The scan may run long after the snapshot.
-/

namespace Crabgresql.Single

open Mvcc Kv Procarray Lockmgr Exec Session Engine Reads Function List Option Runs Chronicle Tracked
open Entry Bool

variable {Row : Type}
variable {T T' T₁ T₂ : Tracked Row} {e : Event Row} {es : List (Event Row)}

section Seen

variable {sh : Shared Row} {S : Snapshot} {own : Option Xid} {k : RowKey}

/-- The changes of the row that the view includes. -/
def seenLog (sh : Shared Row) (S : Snapshot) (own : Option Xid) (k : RowKey) : List (Entry Row) :=
  (sh.log.rowLog k).filter fun e => committedVisible e.xid S own sh.kv.clogGet

theorem seen_pairwise (h : SharedInv sh) (hV : ViewInv sh S own) (k : RowKey) :
    (sh.log.chain k).Pairwise fun a b =>
      committedVisible b S own sh.kv.clogGet = true →
        committedVisible a S own sh.kv.clogGet = true := by
  refine (seen_closed h hV).imp ?_
  intro a b hab hb
  exact committedVisible_eq_seen.mpr (hab (committedVisible_eq_seen.mp hb))

theorem live_last (h : SharedInv sh) (hV : ViewInv sh S own)
    (hrun : ∀ x, own = some x → x ∈ sh.pa.running) {a : Xid} {t : Tuple Row}
    (ht : sh.kv.version k a = some t) (hl : isLive sh.kv.clogGet S own t = true) :
    ((sh.log.chain k).filter fun b => committedVisible b S own sh.kv.clogGet).getLast? =
      some a := by
  obtain ⟨i, hi, hseen, hnext⟩ := live_frontier h hrun ht hl
  refine (getLast?_filter_iff (seen_pairwise h hV k)).mpr
    ⟨i, hi, committedVisible_eq_seen.mpr hseen, fun b hb hvis => ?_⟩
  exact hnext b hb (committedVisible_eq_seen.mp hvis)

/-- If that transaction left an image, its version is live with this image; if it deleted the row,
its version, if it has one, is not live. -/
theorem last_live (h : SharedInv sh) (hV : ViewInv sh S own)
    (hrun : ∀ x, own = some x → x ∈ sh.pa.running) {a : Xid}
    (ha : ((sh.log.chain k).filter fun b => committedVisible b S own sh.kv.clogGet).getLast? =
      some a) :
    (∀ r, sh.log.image k a = some r →
        ∃ t, sh.kv.version k a = some t ∧ t.row = r ∧ isLive sh.kv.clogGet S own t = true) ∧
      (sh.log.image k a = none → ∀ t, sh.kv.version k a = some t →
        isLive sh.kv.clogGet S own t = false) := by
  obtain ⟨i, hi, hvis, hnext⟩ := (getLast?_filter_iff (seen_pairwise h hV k)).mp ha
  obtain ⟨hlt, hia⟩ := List.getElem?_eq_some_iff.mp hi
  by_cases hend : i + 1 < (sh.log.chain k).length
  · -- a later transaction, which the view does not include, stamped the version
    have hb := getElem?_eq_getElem hend
    obtain ⟨r, himage, hver⟩ := (h.row k).stamped i a _ hi hb
    refine ⟨fun r' hr' => ?_, fun hnone => ?_⟩
    · rw [himage] at hr'
      cases hr'
      refine ⟨_, hver, rfl, ?_⟩
      rw [isLive_iff]
      exact ⟨hvis, .inr (not_eq_true _ ▸ hnext _ hb)⟩
    · rw [himage] at hnone
      cases hnone
  · have hlast : (sh.log.chain k).getLast? = some a := by
      have hidx : (sh.log.chain k).length - 1 = i := by omega
      rw [getLast?_eq_getElem?, hidx, hi]
    refine ⟨fun r hr => ?_, fun hnone t ht => ?_⟩
    · obtain ⟨m, hver, hm⟩ := (h.row k).live a r hlast hr
      refine ⟨_, hver, rfl, ?_⟩
      rw [isLive_iff]
      refine ⟨hvis, hm.imp id fun hdead => ?_⟩
      rw [eq_false_iff, ne_eq, committedVisible_eq_seen]
      exact not_seen_of_dead hrun hdead
    · have hmax := (h.row k).gone a t hlast hnone ht
      rw [eq_false_iff, ne_eq, isLive_iff, hmax]
      rintro ⟨-, hzero | hno⟩
      · exact chain_ne_zero h (mem_of_getLast? hlast) hzero
      · rw [hvis] at hno
        cases hno

theorem findVisibleOne_seenLog (h : SharedInv sh) (hV : ViewInv sh S own)
    (hrun : ∀ x, own = some x → x ∈ sh.pa.running) (k : RowKey) :
    (findVisibleOne sh.kv.clogGet S own (sh.kv.rowVersions k)).map Prod.snd =
      final post none (seenLog sh S own k) := by
  have hauthors : authors xid (seenLog sh S own k) =
      (sh.log.chain k).filter fun b => committedVisible b S own sh.kv.clogGet :=
    authors_filter xid (fun b => committedVisible b S own sh.kv.clogGet)
      (h.row k).nodup
  have hfound : ∀ v, findVisibleOne sh.kv.clogGet S own (sh.kv.rowVersions k) = some v →
      ∃ t, sh.kv.version k v.1 = some t ∧ t.row = v.2 ∧ isLive sh.kv.clogGet S own t = true := by
    intro v hv
    obtain ⟨t, ht, hl, rfl⟩ := findVisibleOne_some _ _ _ hv
    obtain ⟨a, ha⟩ := (mem_rowVersions sh.kv).mp ht
    rw [((h.row k).version a t ha).1]
    exact ⟨t, ha, rfl, hl⟩
  cases hlast : ((sh.log.chain k).filter
      fun b => committedVisible b S own sh.kv.clogGet).getLast? with
  | none =>
    have hnil : seenLog sh S own k = [] := by
      rw [← authors_eq_nil xid, hauthors, ← List.getLast?_eq_none_iff]
      exact hlast
    rw [hnil, final, map_eq_none_iff]
    by_contra hne
    obtain ⟨v, hv⟩ := ne_none_iff_exists'.mp hne
    obtain ⟨t, ht, -, hl⟩ := hfound v hv
    rw [live_last h hV hrun ht hl] at hlast
    cases hlast
  | some a =>
    have hfinal : final post none (seenLog sh S own k) = sh.log.image k a := by
      obtain ⟨-, hvis⟩ := mem_filter.mp (mem_of_getLast? hlast)
      rw [final_eq_lastImage post xid (hauthors ▸ hlast)]
      exact lastImage_filter xid post
        (fun b => committedVisible b S own sh.kv.clogGet) _ hvis
    obtain ⟨hshown, hgone⟩ := last_live h hV hrun hlast
    have hself : ∀ v, findVisibleOne sh.kv.clogGet S own (sh.kv.rowVersions k) = some v →
        ∃ t, sh.kv.version k a = some t ∧ t.row = v.2 ∧
          isLive sh.kv.clogGet S own t = true := by
      intro v hv
      obtain ⟨t, ht, hrow, hl⟩ := hfound v hv
      have hva := live_last h hV hrun ht hl
      rw [hlast] at hva
      cases hva
      exact ⟨t, ht, hrow, hl⟩
    rw [hfinal]
    cases himage : sh.log.image k a with
    | none =>
      rw [map_eq_none_iff]
      by_contra hne
      obtain ⟨v, hv⟩ := ne_none_iff_exists'.mp hne
      obtain ⟨t, ht, -, hl⟩ := hself v hv
      rw [hgone himage t ht] at hl
      cases hl
    | some r =>
      obtain ⟨t, ht, hrow, hl⟩ := hshown r himage
      obtain ⟨v, hv⟩ := isSome_iff_exists.mp
        (findVisibleOne_isSome sh.kv.clogGet S own ((mem_rowVersions sh.kv).mpr ⟨a, ht⟩) hl)
      obtain ⟨t', ht', hrow', -⟩ := hself v hv
      rw [ht] at ht'
      cases ht'
      rw [hv, map_some, ← hrow', hrow]

end Seen

section Later

theorem hist_event (h : Inv T) (hs : T.event e = some T') :
    ∃ ext, T'.sh.log.hist = T.sh.log.hist ++ ext ∧ ∀ e ∈ ext, e.xid ∈ T.sh.pa.running := by
  have hkeep : ∃ ext, T.sh.log.hist = T.sh.log.hist ++ ext ∧ ∀ e ∈ ext, e.xid ∈ T.sh.pa.running :=
    ⟨[], (append_nil _).symm, fun e he => by cases he⟩
  obtain ⟨s, a⟩ | s := e
  case readError =>
    obtain ⟨v, -, rfl⟩ := map_eq_some_iff.mp hs
    exact hkeep
  obtain ⟨-, v, -, rfl⟩ := step_cases hs
  change ∃ ext, (T.sh.log.after (T.sessions s) a).hist = _ ∧ _
  unfold History.after
  split
  · split
    · rename_i b epoch after hpc
      unfold History.write
      split
      · -- a commit adds the changes of its own transaction
        have hrun : b.xid ∈ T.sh.pa.running := by
          refine (h.sess s).running b.xid ?_
          unfold activeXid
          rw [hpc]
        refine ⟨_, append_assoc _ _ _, fun e he => ?_⟩
        rcases mem_append.mp he with hpend | hown
        · rw [of_decide_eq_true (mem_filter.mp hpend).2]
          exact hrun
        · obtain ⟨c, -, rfl⟩ := List.mem_map.mp hown
          exact hrun
      · exact hkeep
    · exact hkeep
  · split <;> exact hkeep
  · split <;> exact hkeep
  · exact hkeep

theorem finished_event (hs : T.event e = some T') {x : Xid} (hx : T.sh.pa.Finished x) :
    T'.sh.pa.Finished x := by
  cases e with
  | call =>
    obtain ⟨-, v, hv, rfl⟩ := step_cases hs
    exact finished_step hv hx
  | readError =>
    obtain ⟨v, hv, rfl⟩ := map_eq_some_iff.mp hs
    obtain ⟨-, txn, e, rfl, -⟩ := selectFails_cases hv
    exact hx

/-- What has happened since `T₁`: what had ended has stayed so, and the history has grown by
changes of transactions that had not. -/
structure Since (T₁ T : Tracked Row) : Prop where
  inv : Inv T
  finished : ∀ x, T₁.sh.pa.Finished x → T.sh.pa.Finished x
  hist : ∃ ext, T.sh.log.hist = T₁.sh.log.hist ++ ext ∧ ∀ e ∈ ext, ¬ T₁.sh.pa.Finished e.xid

theorem Since.refl (h : Inv T) : Since T T :=
  ⟨h, fun _ hx => hx, [], (append_nil _).symm, fun e he => by cases he⟩

theorem Since.event (h : Since T₁ T) (hs : T.event e = some T') : Since T₁ T' := by
  refine ⟨inv_event h.inv hs, fun x hx => finished_event hs (h.finished x hx), ?_⟩
  obtain ⟨ext, hext, hnot⟩ := h.hist
  obtain ⟨ext', hext', hrun⟩ := hist_event h.inv hs
  refine ⟨ext ++ ext', by rw [hext', hext, append_assoc], fun e he => ?_⟩
  rcases mem_append.mp he with he | he
  · exact hnot e he
  · exact fun hfin => not_finished_of_running (hrun e he) (h.finished e.xid hfin)

theorem since_exec (h : Inv T₁) (he : exec event T₁ es = some T₂) : Since T₁ T₂ :=
  exec_invariant (fun _ _ _ hI _ hs => hI.event hs) (Since.refl h)
    (along_trivial (fun _ _ => trivial) _ es) he

/-- The moments at which `scan_live` runs with snapshot `S` and own transaction `own`: in a
statement, in a SELECT of a REPEATABLE READ block, and in any other SELECT, which has taken `S` in
state `T₁`, while its own session makes no other step. -/
inductive Scans (T₁ : Tracked Row) (es : List (Event Row)) (T₂ : Tracked Row) :
    Snapshot → Option Xid → Prop
  | statement (s : SessionId) (f : Frame Row) (hpc : (T₂.sessions s).pc = .scanning f) :
      Scans T₁ es T₂ f.snapshot (some f.xid)
  | block (s : SessionId) (c : TxnCtx) (hpc : (T₂.sessions s).pc = .ready)
      (htxn : (T₂.sessions s).txn = .inTransaction c) (hrr : c.repeatableRead = true) :
      Scans T₁ es T₂ c.snapshot c.xid
  | select (s : SessionId) (hpc : (T₁.sessions s).pc = .ready)
      (hopen : ∀ c, (T₁.sessions s).txn ≠ .failed c) (hes : ∀ e ∈ es, e.session ≠ s) :
      Scans T₁ es T₂ T₁.sh.pa.snapshot (T₁.sessions s).txn.localXid

theorem event_setSess {s : SessionId} (hne : e.session ≠ s) (u : Sess Row)
    (hs : T.event e = some T') : (⟨T.sh, update T.sessions s u⟩ : Tracked Row).event e =
      some ⟨T'.sh, update T'.sessions s u⟩ ∧ T'.sessions s = T.sessions s := by
  have hview : ∀ s', s' ≠ s →
      (⟨T.sh, update T.sessions s u⟩ : Tracked Row).view s' = T.view s' := by
    intro s' hs'
    simp only [view, update_of_ne hs']
  have hset : ∀ s' v log, s' ≠ s →
      (⟨T.sh, update T.sessions s u⟩ : Tracked Row).set s' v log =
        ⟨(T.set s' v log).sh, update (T.set s' v log).sessions s u⟩ := by
    intro s' v log hs'
    simp only [Tracked.set]
    rw [update_comm hs']
  cases e with
  | call c =>
    have hc : c.1 ≠ s := hne
    obtain ⟨hadm, v, hv, rfl⟩ := step_cases hs
    simp only [event, Tracked.step]
    rw [if_pos hadm, hview c.1 hc, hv, map_some, hset _ _ _ hc, update_of_ne hc]
    exact ⟨rfl, update_of_ne hc.symm ..⟩
  | readError s' =>
    have hs' : s' ≠ s := hne
    simp only [event] at hs ⊢
    obtain ⟨v, hv, rfl⟩ := map_eq_some_iff.mp hs
    rw [hview s' hs', hv, map_some, hset _ _ _ hs']
    exact ⟨rfl, update_of_ne hs'.symm ..⟩

theorem exec_setSess {s : SessionId} (hne : ∀ e ∈ es, e.session ≠ s) (u : Sess Row)
    (h : exec event T es = some T') : exec event ⟨T.sh, update T.sessions s u⟩ es =
      some ⟨T'.sh, update T'.sessions s u⟩ ∧ T'.sessions s = T.sessions s := by
  induction es generalizing T with
  | nil =>
    cases h
    exact ⟨rfl, rfl⟩
  | cons e es ih =>
    obtain ⟨U, hU, hrest⟩ := exec_cons.mp h
    obtain ⟨hstep, hkeep⟩ := event_setSess (hne e (by simp)) u hU
    obtain ⟨hexec, hkeep'⟩ := ih (fun e' he' => hne e' (by simp [he'])) hrest
    exact ⟨exec_cons.mpr ⟨_, hstep, hexec⟩, hkeep'.trans hkeep⟩

theorem Scans.viewInv {S : Snapshot} {own : Option Xid} (h : Inv T₁)
    (he : exec event T₁ es = some T₂) (hscan : Scans T₁ es T₂ S own) : ViewInv T₂.sh S own ∧
      ∀ x, own = some x → x ∈ T₂.sh.pa.running ∧ ¬ T₂.sh.Committed x := by
  have hown : ∀ {T : Tracked Row} {s x}, Inv T → activeXid (T.sessions s) = some x →
      isFinishing (T.sessions s) = false → x ∈ T.sh.pa.running ∧ ¬ T.sh.Committed x := by
    intro T s x hT hact hfin
    refine ⟨(hT.sess s).running x hact, fun hcom => ?_⟩
    rw [Shared.Committed, (hT.sess s).undecided x hact hfin] at hcom
    cases hcom
  have hT₂ : Inv T₂ := (since_exec h he).inv
  cases hscan with
  | statement s f hpc =>
    refine ⟨(hT₂.sess s).pc.view (r := 0) (.inl hpc), fun x hx => ?_⟩
    cases hx
    exact hown hT₂ (activeXid_of_frame (r := 0) (.inl hpc)) (by simp [isFinishing, hpc])
  | block s c hpc htxn hrr =>
    refine ⟨(hT₂.sess s).block c (.inl htxn) hrr, fun x hx => ?_⟩
    exact hown hT₂ (activeXid_of_block (hT₂.sess s).pc (.inl htxn) hx) (by simp [isFinishing, hpc])
  | select s hpc hopen hes =>
    -- the reader is as good as a REPEATABLE READ block that has taken its snapshot in `T₁`
    obtain ⟨own, hloc⟩ : ∃ own, (T₁.sessions s).txn.localXid = own := ⟨_, rfl⟩
    rw [hloc]
    have hact : activeXid (T₁.sessions s) = own := by
      unfold activeXid
      rw [hpc]
      exact hloc
    have hrun : ∀ x, own = some x → x ∈ T₁.sh.pa.running ∧ ¬ T₁.sh.Committed x := fun x hx =>
      hown h (hact.trans hx) (by simp [isFinishing, hpc])
    let u : Sess Row :=
      ⟨.inTransaction ⟨own, T₁.sh.pa.snapshot, true, none, []⟩, none, .ready, none⟩
    have hu : SessInv T₁.sh u := by
      refine ⟨rfl, fun x hx => (hrun x hx).1, fun x hx _ => ?_, ?_, trivial⟩
      · exact (h.sess s).undecided x (hact.trans hx) (by simp [isFinishing, hpc])
      · rintro c (hc | hc) -
        · cases hc
          exact viewInv_snapshot h.shared fun x hx => (hrun x hx).1
        · cases hc
    have hblock : Inv (⟨T₁.sh, update T₁.sessions s u⟩ : Tracked Row) :=
      h.quiet s hu (fun x hx => hact.trans hx) (fun k hk => by cases hk)
    have hend := (since_exec hblock (exec_setSess hes u he).1).inv
    have hu₂ : (update T₂.sessions s u) s = u := update_self ..
    have hsess : SessInv T₂.sh u := hu₂ ▸ hend.sess s
    refine ⟨hsess.block _ (.inl rfl) rfl, fun x hx => ?_⟩
    refine ⟨hsess.running x hx, fun hcom => ?_⟩
    rw [Shared.Committed, hsess.undecided x hx rfl] at hcom
    cases hcom

/-- The changes of row `k` that a read is to replay: those of the transactions recorded as
committed and deregistered in `T₁`, in commit order, then those of `own` in `T₂`. -/
def replayed (T₁ T₂ : Tracked Row) (own : Option Xid) (k : RowKey) : List (Entry Row) :=
  (T₁.sh.log.hist.filter (fun e => T₁.sh.pa.Finished e.xid) ++
    T₂.sh.log.pend.filter fun e => own = some e.xid).filter fun e => e.key = k

theorem seenLog_eq_replayed {own : Option Xid} (h : Since T₁ T₂)
    (hown : ∀ x, own = some x → x ∈ T₂.sh.pa.running ∧ ¬ T₂.sh.Committed x) (k : RowKey) :
    seenLog T₂.sh T₁.sh.pa.snapshot own k = replayed T₁ T₂ own k := by
  obtain ⟨ext, hext, hnot⟩ := h.hist
  have hsh := h.inv.shared
  -- committed changes are seen when their transaction had ended in `T₁`
  have hhist : ∀ e ∈ T₂.sh.log.hist,
      committedVisible e.xid T₁.sh.pa.snapshot own T₂.sh.kv.clogGet =
        decide (T₁.sh.pa.Finished e.xid) := by
    intro e he
    have hcom : T₂.sh.Committed e.xid := hsh.hist_committed e he
    rw [Bool.eq_iff_iff, decide_eq_true_eq, committedVisible_iff]
    constructor
    · rintro (heq | hsee)
      · exact absurd hcom (hown e.xid heq).2
      · exact hsee.1
    · exact fun hfin => .inr ⟨hfin, hcom⟩
  have hkept : T₂.sh.log.hist.filter (fun e => T₁.sh.pa.Finished e.xid) =
      T₁.sh.log.hist.filter fun e => T₁.sh.pa.Finished e.xid := by
    rw [hext, filter_append, append_right_eq_self, filter_eq_nil_iff]
    intro e he hfin
    exact hnot e he (of_decide_eq_true hfin)
  -- open changes are seen when they are the reader's own
  have hpend : ∀ e ∈ T₂.sh.log.pend,
      committedVisible e.xid T₁.sh.pa.snapshot own T₂.sh.kv.clogGet = decide (own = some e.xid) := by
    intro e he
    rw [Bool.eq_iff_iff, decide_eq_true_eq, committedVisible_iff]
    exact ⟨fun hvis => hvis.resolve_right fun hc => (hsh.pend_open e he).2 hc.2, .inl⟩
  unfold seenLog replayed History.rowLog
  rw [filter_comm, filter_append, filter_congr hhist, filter_congr hpend, hkept]

end Later

/-- A read sees exactly a committed prefix plus its own writes: the rows of a scan are in rowid
order, each rowid once, and row `r` is there with image `row` exactly if replaying the changes
committed before the snapshot, and then the reader's own, leaves it so. -/
theorem scanLive_replays {es₁ es₂ : List (Event Row)} {T₁ T₂ : Tracked Row}
    (h₁ : Runs.exec Tracked.event Tracked.initial es₁ = some T₁)
    (h₂ : Runs.exec event T₁ es₂ = some T₂) {own : Option Xid}
    (hscan : Scans T₁ es₂ T₂ T₁.sh.pa.snapshot own) (glob : GlobalView) (gsnap : Snapshot)
    (t : TableId) :
    ((scanLive T₂.sh.kv glob gsnap T₁.sh.pa.snapshot own t).map Prod.fst).Pairwise (· < ·) ∧
      ∀ r row, (∃ y, (r, y, row) ∈ scanLive T₂.sh.kv glob gsnap T₁.sh.pa.snapshot own t) ↔
        Chronicle.final post none (replayed T₁ T₂ own (t, r)) = some row := by
  have hT₁ := inv_events h₁
  have hsince := since_exec hT₁ h₂
  obtain ⟨hV, hown⟩ := hscan.viewInv hT₁ h₂
  have hsh := hsince.inv.shared
  refine ⟨(rowids_sorted _ t).sublist (scanLive_rowids_sublist _ glob gsnap _ own t), ?_⟩
  intro r row
  rw [← seenLog_eq_replayed hsince hown (t, r),
    ← findVisibleOne_seenLog hsh hV (fun x hx => (hown x hx).1), map_eq_some_iff]
  simp only [mem_scanLive, globalStatus_eq hsh]
  constructor
  · rintro ⟨y, hy⟩
    exact ⟨(y, row), hy, rfl⟩
  · rintro ⟨v, hv, rfl⟩
    exact ⟨v.1, hv⟩

section Runs

def openBlock : List (Event ℕ) :=
  (autocommit 0 insertTen [] ++ [(1, Act.begin true)]).map .call

def updateRow : List (Event ℕ) := (autocommit 2 addOne [.next, .acquire 0, .recheck]).map .call

def Pc.isReady : Pc ℕ → Bool
  | .ready => true
  | _ => false

theorem Pc.eq_ready {pc : Pc ℕ} (h : isReady pc = true) : pc = .ready := by
  cases pc with
  | ready => rfl
  | _ => cases h

end Runs

/-- The block still reads the row as it was. -/
theorem scanLive_replays_block :
    ∃ T₁ T₂ : Tracked ℕ, Runs.exec Tracked.event Tracked.initial openBlock = some T₁ ∧
      Runs.exec event T₁ updateRow = some T₂ ∧
      ∃ y, (1, y, 10) ∈
        scanLive T₂.sh.kv .initial noGlobalSnapshot T₁.sh.pa.snapshot none 1 := by
  have h : (exec event Tracked.initial openBlock).any (fun T₁ =>
      (exec event T₁ updateRow).any fun T₂ =>
        decide ((T₂.sessions 1).txn = .inTransaction ⟨none, T₁.sh.pa.snapshot, true,
          some noGlobalSnapshot, []⟩) &&
        decide (final post none (replayed T₁ T₂ none (1, 1)) = some 10) &&
        Pc.isReady (T₂.sessions 1).pc) = true := by decide
  obtain ⟨T₁, hT₁, hx⟩ := (Option.any_eq_true _ _).mp h
  obtain ⟨T₂, hT₂, hx⟩ := (Option.any_eq_true _ _).mp hx
  rw [and_eq_true, and_eq_true, decide_eq_true_eq, decide_eq_true_eq] at hx
  obtain ⟨⟨htxn, hfinal⟩, hpc⟩ := hx
  have hscan : Scans T₁ updateRow T₂ T₁.sh.pa.snapshot none := .block 1 _ (Pc.eq_ready hpc) htxn rfl
  exact ⟨T₁, T₂, hT₁, hT₂,
    ((scanLive_replays hT₁ hT₂ hscan .initial noGlobalSnapshot 1).2 1 10).mpr hfinal⟩

end Crabgresql.Single
