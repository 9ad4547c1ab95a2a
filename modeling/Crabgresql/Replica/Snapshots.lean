import Crabgresql.Lib.Cells
import Crabgresql.Lib.Table
import Crabgresql.Replica.Machine

/-!
# Snapshots, restarts and replay

A replica keeps its contents in a finite table, in memory or on disk, beside
`last_applied` and `last_membership`. A snapshot lists the whole table; installing
one removes every key that is there, writes the listed pairs and takes over the
metadata of the snapshot. The disk of the durable store holds data and metadata
of the last batch, and a restart reads both back. Every way to reach an index,
by applying, restarting and installing, ends in the state of the in-memory
machine at that index, as long as no call of the durable store puts a merged key
after deleting it.
-/

namespace Crabgresql.Replica

open List Option Cells StateMachineStore Entry WriteOp

variable {M : Type}

/-! ## One operation and the key it touches -/

def cellCounter : Option Value → Option ℕ
  | some b => u64Be b
  | none => some 0

def cell : WriteOp → Option Value → Option (Option Value)
  | .put key value, old =>
    if isCounterKey key then
      (u64Be value).bind fun incoming => (cellCounter old).map fun existing =>
        some (u64Bytes (max existing incoming))
    else if isClogKey key then
      if old.any isTerminal then some old else some (some value)
    else some (some value)
  | .delete _, _ => some none

theorem applyOp_eq_cell (kv : Contents) (op : WriteOp) :
    applyOp kv op = Cells.apply key cell kv op := by
  cases op with
  | delete => rfl
  | put key value =>
    by_cases hcounter : isCounterKey key = true
    · simp only [applyOp, Cells.apply, cell, WriteOp.key, hcounter, if_true, map_bind,
        Option.map_map, Function.comp_def]
      rfl
    · by_cases hclog : isClogKey key = true
      · by_cases hterm : (kv key).any isTerminal = true
        · have hcell : cell (.put key value) (kv key) = some (kv key) := by
            simp [cell, hcounter, hclog, hterm]
          rw [Cells.apply, WriteOp.key, hcell, map_some, Function.update_eq_self]
          simp [applyOp, hcounter, hclog, hterm]
        · have hcell : cell (.put key value) (kv key) = some (some value) := by
            simp [cell, hcounter, hclog, hterm]
          rw [Cells.apply, WriteOp.key, hcell]
          simp [applyOp, hcounter, hclog, hterm]
      · simp only [applyOp, Cells.apply, cell, WriteOp.key, hcounter, hclog,
          Bool.false_eq_true, if_false, map_some]

theorem foldlM_applyOp_eq_run (kv : Contents) (ops : List WriteOp) :
    ops.foldlM applyOp kv = Cells.run key cell kv ops := by
  have hop : applyOp = Cells.apply key cell := funext fun f => funext (applyOp_eq_cell f)
  rw [hop]
  rfl

/-! ## The two stores -/

/-- The serialized form of a snapshot. -/
structure SnapshotPayload (M : Type) where
  lastApplied : Option LogId
  lastMembership : StoredMembership M
  kv : List (Key × Value)

/-- A snapshot with the metadata that travels beside it. -/
structure StoredSnapshot (M : Type) where
  lastLogId : Option LogId
  lastMembership : StoredMembership M
  data : SnapshotPayload M

/-- The in-memory state machine. -/
structure MemoryStore (M : Type) where
  kv : Table Key Value
  lastApplied : Option LogId
  lastMembership : StoredMembership M

/-- What survives a crash: the `data` keyspace and the two metadata records. -/
structure Disk (M : Type) where
  data : Table Key Value
  smApplied : Option (Option LogId)
  smMembership : Option (StoredMembership M)

/-- The durable state machine, with its cached metadata. -/
structure DurableStore (M : Type) where
  disk : Disk M
  lastApplied : Option LogId
  lastMembership : StoredMembership M

def scanAll (kv : Table Key Value) : List (Key × Value) := Table.pairs kv

def buildSnapshot (kv : Table Key Value) (lastApplied : Option LogId)
    (lastMembership : StoredMembership M) : StoredSnapshot M :=
  ⟨lastApplied, lastMembership, ⟨lastApplied, lastMembership, scanAll kv⟩⟩

/-- The writes of an installation: clear what is there, then write the payload. -/
def installBatch (kv : Table Key Value) (s : StoredSnapshot M) : List (Key × Option Value) :=
  Table.replacing (scanAll kv) s.data.kv

namespace MemoryStore

def machine (s : MemoryStore M) : Machine M :=
  ⟨Table.contents s.kv, s.lastApplied, s.lastMembership⟩

def applyOp (kv : Table Key Value) (op : WriteOp) : Option (Table Key Value) :=
  (cell op (kv.lookup op.key)).map (Table.write kv op.key)

def applyEntry (s : MemoryStore M) (e : Entry M) : Option (MemoryStore M) :=
  match e.payload with
  | .blank => some { s with lastApplied := some e.logId }
  | .normal ops =>
    (ops.foldlM applyOp s.kv).map fun kv => { s with lastApplied := some e.logId, kv := kv }
  | .membership m =>
    some { s with lastApplied := some e.logId, lastMembership := ⟨some e.logId, m⟩ }

def apply (s : MemoryStore M) (entries : List (Entry M)) : Option (MemoryStore M) :=
  entries.foldlM applyEntry s

def installSnapshot (s : MemoryStore M) (snap : StoredSnapshot M) : MemoryStore M :=
  ⟨Table.writeAll s.kv (installBatch s.kv snap), snap.lastLogId, snap.lastMembership⟩

theorem contents_applyOp (kv : Table Key Value) (op : WriteOp) :
    (applyOp kv op).map Table.contents = Replica.applyOp (Table.contents kv) op := by
  rw [applyOp_eq_cell, applyOp, Cells.apply, Option.map_map]
  exact congrArg (fun f => Option.map f _) (funext fun o => Table.contents_write kv op.key o)

theorem contents_foldlM (kv : Table Key Value) (ops : List WriteOp) :
    (ops.foldlM applyOp kv).map Table.contents =
      ops.foldlM Replica.applyOp (Table.contents kv) := by
  induction ops generalizing kv with
  | nil => rfl
  | cons op ops ih =>
    rw [foldlM_cons, foldlM_cons, ← contents_applyOp]
    cases applyOp kv op with
    | none => rfl
    | some kv' => exact ih kv'

theorem machine_applyEntry (s : MemoryStore M) (e : Entry M) :
    (s.applyEntry e).map machine = StateMachineStore.applyEntry s.machine e := by
  obtain ⟨logId, payload⟩ := e
  cases payload with
  | blank | membership => rfl
  | normal =>
    simp only [applyEntry, StateMachineStore.applyEntry, machine, ← contents_foldlM,
      Option.map_map]
    rfl

theorem machine_apply (s : MemoryStore M) (entries : List (Entry M)) :
    (s.apply entries).map machine = StateMachineStore.apply s.machine entries := by
  induction entries generalizing s with
  | nil => rfl
  | cons e entries ih =>
    rw [apply, StateMachineStore.apply, foldlM_cons, foldlM_cons,
      ← machine_applyEntry]
    cases s.applyEntry e with
    | none => rfl
    | some s' => exact ih s'

end MemoryStore

namespace DurableStore

def machine (s : DurableStore M) : Machine M :=
  ⟨Table.contents s.disk.data, s.lastApplied, s.lastMembership⟩

def commit (s : DurableStore M) (batch : List (Key × Option Value)) (lastId : Option LogId)
    (membership : StoredMembership M) : DurableStore M :=
  ⟨⟨Table.writeAll s.disk.data batch, some lastId, some membership⟩, lastId, membership⟩

def apply (s : DurableStore M) (entries : List (Entry M)) : Option (DurableStore M) :=
  (entries.foldlM (stageEntry (Table.contents s.disk.data)) (Pending.start s.machine)).map
    fun p => s.commit p.batch p.lastId p.newMembership

def installSnapshot (s : DurableStore M) (snap : StoredSnapshot M) : DurableStore M :=
  s.commit (installBatch s.disk.data snap) snap.lastLogId snap.lastMembership

/-- Open the store on a disk; absent records mean a state machine that never applied. -/
def openDisk [Inhabited M] (disk : Disk M) : DurableStore M :=
  ⟨disk, disk.smApplied.getD none, disk.smMembership.getD ⟨none, default⟩⟩

theorem machine_commit (s : DurableStore M) (batch : List (Key × Option Value))
    (lastId : Option LogId) (membership : StoredMembership M) :
    (s.commit batch lastId membership).machine =
      ⟨commitBatch (Table.contents s.disk.data) batch, lastId, membership⟩ := by
  rw [machine, commit, Table.contents_writeAll]
  rfl

theorem machine_apply (s : DurableStore M) (entries : List (Entry M)) :
    (s.apply entries).map machine = DurableStateMachineStore.apply s.machine entries := by
  rw [apply, DurableStateMachineStore.apply, Option.map_map]
  exact congrArg (fun f => Option.map f _)
    (funext fun p => machine_commit s p.batch p.lastId p.newMembership)

/-- A restart finds the state that the last batch left. -/
def Cached [Inhabited M] (s : DurableStore M) : Prop := openDisk s.disk = s

theorem cached_commit [Inhabited M] (s : DurableStore M) (batch : List (Key × Option Value))
    (lastId : Option LogId) (membership : StoredMembership M) :
    (s.commit batch lastId membership).Cached := rfl

end DurableStore

/-! ## Replicas of either kind -/

inductive Store (M : Type)
  | memory (s : MemoryStore M)
  | durable (s : DurableStore M)

namespace Store

def machine : Store M → Machine M
  | .memory s => s.machine
  | .durable s => s.machine

def apply (s : Store M) (entries : List (Entry M)) : Option (Store M) :=
  match s with
  | .memory s => (s.apply entries).map .memory
  | .durable s => (s.apply entries).map .durable

def build : Store M → StoredSnapshot M
  | .memory s => buildSnapshot s.kv s.lastApplied s.lastMembership
  | .durable s => buildSnapshot s.disk.data s.lastApplied s.lastMembership

def install (s : Store M) (snap : StoredSnapshot M) : Store M :=
  match s with
  | .memory s => .memory (s.installSnapshot snap)
  | .durable s => .durable (s.installSnapshot snap)

/-- A restart of the durable store; the in-memory one has no disk to restart from. -/
def crash [Inhabited M] : Store M → Option (Store M)
  | .memory _ => none
  | .durable s => some (.durable (.openDisk s.disk))

/-- No call of the durable store puts a merged key after deleting it. -/
def Unrevived (s : Store M) (call : List (Entry M)) : Prop :=
  match s with
  | .memory _ => True
  | .durable _ => NoRevival call

instance (s : Store M) (call : List (Entry M)) : Decidable (s.Unrevived call) := by
  unfold Store.Unrevived
  split <;> infer_instance

theorem machine_apply {s : Store M} {call : List (Entry M)} (h : s.Unrevived call) :
    (s.apply call).map machine = StateMachineStore.apply s.machine call := by
  cases s with
  | memory s =>
    rw [apply, Option.map_map]
    exact s.machine_apply call
  | durable s =>
    rw [apply, Option.map_map]
    exact (s.machine_apply call).trans (durable_apply_eq h)

theorem machine_install_build (s t : Store M) : (s.install t.build).machine = t.machine := by
  have hcontents (old new : Table Key Value) (a : Option LogId) (m : StoredMembership M) :
      Table.contents (Table.writeAll old (installBatch old (buildSnapshot new a m))) =
        Table.contents new :=
    Table.contents_replacing old new
  cases s with
  | memory | durable =>
    cases t <;> exact congrArg (fun kv => Machine.mk kv _ _) (hcontents _ _ _ _)

end Store

/-! ## Reaching an index of the log -/

/-- A log: the index grows along it. -/
structure Log (M : Type) where
  entries : List (Entry M)
  ordered : entries.Pairwise fun a b => a.logId.index < b.logId.index

def Log.after (log : Log M) (lastApplied : Option LogId) : List (Entry M) :=
  log.entries.filter fun e => lastApplied.all fun id => decide (id.index < e.logId.index)

def Machine.empty [Inhabited M] : Machine M := ⟨fun _ => none, none, ⟨none, default⟩⟩

def Log.state [Inhabited M] (log : Log M) (i : ℕ) : Option (Machine M) :=
  apply Machine.empty (log.entries.take i)

def Store.emptyMemory [Inhabited M] : Store M := .memory ⟨∅, none, ⟨none, default⟩⟩

def Store.emptyDurable [Inhabited M] : Store M := .durable (.openDisk ⟨∅, none, none⟩)

def Store.next (s : Store M) (log : Log M) (n : ℕ) : List (Entry M) :=
  (log.after s.machine.lastApplied).take n

/-- The stores that stand at index `i` of the log, when every call meets `ok`: an empty one, one
that applied the next entries, one that restarted, and any store that installed a snapshot of such
a store. -/
inductive Reached [Inhabited M] (ok : Store M → List (Entry M) → Prop) (log : Log M) :
    Store M → ℕ → Prop
  | memory : Reached ok log .emptyMemory 0
  | durable : Reached ok log .emptyDurable 0
  | apply {s s' : Store M} {i n : ℕ} (h : Reached ok log s i) (hn : i + n ≤ log.entries.length)
      (hok : ok s (s.next log n)) (hs : s.apply (s.next log n) = some s') :
      Reached ok log s' (i + n)
  | crash {s s' : Store M} {i : ℕ} (h : Reached ok log s i) (hs : s.crash = some s') :
      Reached ok log s' i
  | install {t : Store M} {i : ℕ} (s : Store M) (h : Reached ok log t i) :
      Reached ok log (s.install t.build) i

theorem apply_append (s : Machine M) (as bs : List (Entry M)) :
    apply s (as ++ bs) =
      (apply s as).bind fun s' => apply s' bs := by
  rw [StateMachineStore.apply, foldlM_append]
  rfl

variable {s s' : Machine M}

theorem applyEntry_lastApplied {e : Entry M}
    (h : applyEntry s e = some s') : s'.lastApplied = some e.logId := by
  obtain ⟨logId, payload⟩ := e
  cases payload with
  | blank | membership =>
    cases h
    rfl
  | normal =>
    obtain ⟨kv, -, rfl⟩ := map_eq_some_iff.mp h
    rfl

theorem apply_lastApplied {entries : List (Entry M)}
    (h : apply s entries = some s') :
    s'.lastApplied = (entries.getLast?.map logId).or s.lastApplied := by
  induction entries using List.reverseRecOn with
  | nil =>
    cases h
    rfl
  | append_singleton =>
    rw [apply_append, bind_eq_some_iff] at h
    obtain ⟨s₁, -, hlast⟩ := h
    simp only [StateMachineStore.apply, foldlM_cons, foldlM_nil, bind_pure] at hlast
    rw [applyEntry_lastApplied hlast, getLast?_append]
    rfl

theorem filter_after_getLast {as bs : List (Entry M)}
    (h : (as ++ bs).Pairwise fun a b => a.logId.index < b.logId.index) :
    (as ++ bs).filter (fun e => (as.getLast?.map logId).all
      fun id => decide (id.index < e.logId.index)) = bs := by
  obtain ⟨hfront, -, hacross⟩ := pairwise_append.mp h
  rw [filter_append]
  cases hlast : as.getLast? with
  | none =>
    rw [List.getLast?_eq_none_iff.mp hlast]
    simp
  | some last =>
    have hdone : as.filter (fun e => ((some last).map logId).all
        fun id => decide (id.index < e.logId.index)) = [] := by
      refine filter_eq_nil_iff.mpr fun e he => ?_
      obtain ⟨pre, hpre⟩ := List.getLast?_eq_some_iff.mp hlast
      rw [hpre] at he hfront
      rcases mem_append.mp he with hbefore | hself
      · have hlt := (pairwise_append.mp hfront).2.2 e hbefore last (mem_singleton_self _)
        simp only [map_some, all_some, decide_eq_true_eq]
        omega
      · rw [mem_singleton.mp hself]
        simp
    have htodo : bs.filter (fun e => ((some last).map logId).all
        fun id => decide (id.index < e.logId.index)) = bs := by
      refine filter_eq_self.mpr fun e he => ?_
      simpa using hacross last (mem_of_getLast? hlast) e he
    rw [hdone, htodo, nil_append]

theorem Log.after_getLast (log : Log M) (i : ℕ) :
    log.after ((log.entries.take i).getLast?.map logId) = log.entries.drop i := by
  have hordered := log.ordered
  rw [← take_append_drop i log.entries] at hordered
  have hfilter := filter_after_getLast hordered
  rwa [take_append_drop] at hfilter

section Runs

variable [Inhabited M] {log : Log M} {s : Store M} {i : ℕ}

theorem Log.after_state {m : Machine M} (h : log.state i = some m) :
    log.after m.lastApplied = log.entries.drop i := by
  rw [apply_lastApplied h, Machine.empty, or_none, log.after_getLast]

theorem Log.state_add {m : Machine M} (h : log.state i = some m) (n : ℕ) :
    apply m ((log.after m.lastApplied).take n) = log.state (i + n) := by
  rw [Log.after_state h, Log.state, take_add, apply_append]
  rw [Log.state] at h
  rw [h]
  rfl

theorem apply_next (h : log.state i = some s.machine) {n : ℕ} (hok : s.Unrevived (s.next log n)) :
    (s.apply (s.next log n)).map Store.machine = log.state (i + n) := by
  rw [Store.machine_apply hok]
  exact Log.state_add h n

/-- Every store that stands at an index is in the log's state there, and a durable one finds it
again on its disk. -/
theorem state_of_reached (h : Reached Store.Unrevived log s i) :
    log.state i = some s.machine ∧ ∀ d, s = .durable d → d.Cached := by
  induction h with
  | memory => exact ⟨rfl, nofun⟩
  | durable =>
    refine ⟨rfl, ?_⟩
    rintro d hd
    cases hd
    rfl
  | @apply s s' i n _ _ hok hs ih =>
    constructor
    · rw [← apply_next ih.1 hok, hs]
      rfl
    · rintro d rfl
      cases s with
      | memory =>
        obtain ⟨_, _, hd⟩ := map_eq_some_iff.mp hs
        cases hd
      | durable =>
        obtain ⟨_, hd, hdd⟩ := map_eq_some_iff.mp hs
        cases hdd
        obtain ⟨p, -, rfl⟩ := map_eq_some_iff.mp hd
        exact DurableStore.cached_commit ..
  | @crash s s' i _ hs ih =>
    cases s with
    | memory => cases hs
    | durable d =>
      cases hs
      rw [ih.2 d rfl]
      exact ih
  | @install t i s _ ih =>
    constructor
    · rw [Store.machine_install_build]
      exact ih.1
    · rintro d hd
      cases s with
      | memory => cases hd
      | durable =>
        cases hd
        exact DurableStore.cached_commit ..

end Runs

/-! ## Applying again what was applied -/

section Again

variable {k : Key} {ops : List WriteOp} {x y b : Option Value}

variable {value : Value}

theorem cell_plain (hcounter : isCounterKey k = false)
    (hclog : isClogKey k = false) (x : Option Value) :
    cell (.put k value) x = some (some value) := by
  simp [cell, hcounter, hclog]

theorem cell_clog (hclog : isClogKey k = true) (x : Option Value) :
    cell (.put k value) x = if x.any isTerminal then some x else some (some value) := by
  simp [cell, hclog, isCounterKey_of_isClogKey hclog]

theorem cell_counter (hcounter : isCounterKey k = true) {y : Option Value} :
    cell (.put k value) x = some y ↔ ∃ n m, u64Be value = some n ∧ cellCounter x = some m ∧
      y = some (u64Bytes (max m n)) := by
  simp only [cell, hcounter, if_true, bind_eq_some_iff, map_eq_some_iff]
  constructor
  · rintro ⟨n, hn, m, hm, rfl⟩
    exact ⟨n, m, hn, hm, rfl⟩
  · rintro ⟨n, m, hn, hm, rfl⟩
    exact ⟨n, hn, m, hm, rfl⟩

theorem cellCounter_lt {x : Option Value} {n : ℕ} (h : cellCounter x = some n) : n < 256 ^ 8 := by
  cases x with
  | none =>
    cases h
    decide
  | some => exact u64Be_lt h

def Readable (k : Key) (x : Option Value) : Prop :=
  isCounterKey k = true → ∃ n, cellCounter x = some n

theorem readable_cell {op : WriteOp} (hop : op.key = k) (h : cell op x = some y) :
    Readable k y := by
  intro hcounter
  subst hop
  cases op with
  | delete =>
    cases h
    exact ⟨0, rfl⟩
  | put =>
    obtain ⟨n, m, hn, hm, rfl⟩ := (cell_counter hcounter).mp h
    exact ⟨max m n, u64Be_u64Bytes (max_lt (cellCounter_lt hm) (u64Be_lt hn))⟩

theorem cell_of_readable {op : WriteOp} (hop : op.key = k) (h : cell op x = some b)
    (hy : Readable k y) : ∃ z, cell op y = some z := by
  subst hop
  cases op with
  | delete => exact ⟨none, rfl⟩
  | put key value =>
    by_cases hcounter : isCounterKey key = true
    · obtain ⟨n, _, hn, -, -⟩ := (cell_counter hcounter).mp h
      obtain ⟨m, hm⟩ := hy hcounter
      exact ⟨_, (cell_counter hcounter).mpr ⟨n, m, hn, hm, rfl⟩⟩
    · by_cases hclog : isClogKey key = true
      · rw [cell_clog hclog]
        split_ifs
        · exact ⟨y, rfl⟩
        · exact ⟨some value, rfl⟩
      · exact ⟨some value,
          cell_plain (Bool.eq_false_iff.mpr hcounter) (Bool.eq_false_iff.mpr hclog) y⟩

theorem counter_le_of_runCell {n : ℕ} (hcounter : isCounterKey k = true)
    (hkey : ∀ op ∈ ops, op.key = k) (hkeeps : delete k ∉ ops) (hn : n < 256 ^ 8)
    (h : runCell cell (some (u64Bytes n)) ops = some b) :
    ∃ m, n ≤ m ∧ m < 256 ^ 8 ∧ b = some (u64Bytes m) := by
  induction ops generalizing n with
  | nil =>
    cases h
    exact ⟨n, le_rfl, hn, rfl⟩
  | cons op ops ih =>
    obtain ⟨c, hc, hrest⟩ := runCell_cons.mp h
    have hop := hkey op mem_cons_self
    cases op with
    | delete =>
      cases hop
      exact absurd mem_cons_self hkeeps
    | put =>
      cases hop
      obtain ⟨v, m, hv, hm, rfl⟩ := (cell_counter hcounter).mp hc
      have hmn : m = n := some.inj (hm.symm.trans (u64Be_u64Bytes hn))
      subst hmn
      obtain ⟨top, hle, hlt, hb⟩ := ih (fun op hop => hkey op (mem_cons_of_mem _ hop))
        (fun hmem => hkeeps (mem_cons_of_mem _ hmem)) (max_lt hn (u64Be_lt hv)) hrest
      exact ⟨top, le_trans (le_max_left _ _) hle, hlt, hb⟩

theorem terminal_of_runCell (hclog : isClogKey k = true) (hkey : ∀ op ∈ ops, op.key = k)
    (hkeeps : delete k ∉ ops) (hx : x.any isTerminal = true)
    (h : runCell cell x ops = some b) : b = x := by
  induction ops with
  | nil =>
    cases h
    rfl
  | cons op ops ih =>
    obtain ⟨c, hc, hrest⟩ := runCell_cons.mp h
    have hop := hkey op mem_cons_self
    cases op with
    | delete =>
      cases hop
      exact absurd mem_cons_self hkeeps
    | put key =>
      change key = k at hop
      subst hop
      rw [cell_clog hclog, if_pos hx] at hc
      cases hc
      exact ih (fun op hop => hkey op (mem_cons_of_mem _ hop))
        (fun hmem => hkeeps (mem_cons_of_mem _ hmem)) hrest

/-- A put, run again on the end of a run that has no delete after it, leaves the end or does what
it did in the run. -/
theorem put_again {x' : Option Value} (hkey : ∀ op ∈ ops, op.key = k)
    (hkeeps : delete k ∉ ops) (hput : cell (.put k value) x = some x')
    (h : runCell cell x' ops = some b) :
    cell (.put k value) b = some b ∨ cell (.put k value) b = some x' := by
  by_cases hcounter : isCounterKey k = true
  · obtain ⟨n, m, hn, hm, rfl⟩ := (cell_counter hcounter).mp hput
    obtain ⟨top, hle, hlt, rfl⟩ := counter_le_of_runCell hcounter hkey hkeeps
      (max_lt (cellCounter_lt hm) (u64Be_lt hn)) h
    have hmax : max top n = top := max_eq_left (le_trans (le_max_right _ _) hle)
    refine .inl ((cell_counter hcounter).mpr ⟨n, top, hn, u64Be_u64Bytes hlt, ?_⟩)
    rw [hmax]
  · by_cases hclog : isClogKey k = true
    · rw [cell_clog hclog] at hput ⊢
      by_cases hx : x.any isTerminal = true
      · -- decided before this put: the end is that decision
        rw [if_pos hx] at hput
        cases hput
        rw [terminal_of_runCell hclog hkey hkeeps hx h, if_pos hx]
        exact .inl rfl
      · rw [if_neg hx] at hput
        cases hput
        split_ifs
        · exact .inl rfl
        · exact .inr rfl
    · have hplain := @cell_plain k value (Bool.eq_false_iff.mpr hcounter)
        (Bool.eq_false_iff.mpr hclog)
      rw [hplain] at hput
      cases hput
      exact .inr (hplain b)

/-- A second run of one key's operations beside the first. It ends with it if it stands at the end
of the first, if it stands where the first does, or if a delete is still to come. -/
theorem runCell_again (hkey : ∀ op ∈ ops, op.key = k) (h : runCell cell x ops = some b)
    (hy : Readable k y) (hstands : y = b ∨ y = x ∨ delete k ∈ ops) :
    runCell cell y ops = some b := by
  induction ops generalizing x y with
  | nil =>
    cases h
    rcases hstands with rfl | rfl | hmem
    · rfl
    · rfl
    · cases hmem
  | cons op ops ih =>
    obtain ⟨x', hx', hrest⟩ := runCell_cons.mp h
    have hop := hkey op mem_cons_self
    have hkey' : ∀ op ∈ ops, op.key = k := fun op hop => hkey op (mem_cons_of_mem _ hop)
    obtain ⟨y', hy'⟩ := cell_of_readable hop hx' hy
    refine runCell_cons.mpr ⟨y', hy', ih hkey' hrest (readable_cell hop hy') ?_⟩
    by_cases hlater : delete k ∈ ops
    · exact .inr (.inr hlater)
    cases op with
    | delete key =>
      -- both runs are left with nothing under the key
      exact .inr (.inl (some.inj (hy'.symm.trans hx')))
    | put =>
      cases hop
      rcases hstands with rfl | rfl | hmem
      · rcases put_again hkey' hlater hx' hrest with hend | hsame
        · exact .inl (some.inj (hy'.symm.trans hend))
        · exact .inr (.inl (some.inj (hy'.symm.trans hsame)))
      · exact .inr (.inl (some.inj (hy'.symm.trans hx')))
      · rcases mem_cons.mp hmem with hself | hmem
        · cases hself
        · exact absurd hmem hlater

theorem readable_runCell (hkey : ∀ op ∈ ops, op.key = k) (hx : Readable k x)
    (h : runCell cell x ops = some b) : Readable k b := by
  induction ops generalizing x with
  | nil =>
    cases h
    exact hx
  | cons op ops ih =>
    obtain ⟨c, hc, hrest⟩ := runCell_cons.mp h
    exact ih (fun op hop => hkey op (mem_cons_of_mem _ hop))
      (readable_cell (hkey op mem_cons_self) hc) hrest

theorem foldlM_applyOp_again {kv kv' : Contents} {ops : List WriteOp}
    (h : ops.foldlM applyOp kv = some kv') (p : Key → Bool) :
    (ops.filter fun op => p op.key).foldlM applyOp kv' = some kv' := by
  rw [foldlM_applyOp_eq_run] at h ⊢
  refine run_again (fun k x b hx => ?_) h p
  have hkey : ∀ op ∈ on key k ops, op.key = k := fun op hop =>
    of_decide_eq_true (mem_filter.mp hop).2
  cases hon : on key k ops with
  | nil => rfl
  | cons op =>
    rw [hon] at hx hkey
    obtain ⟨c, hc, hrest⟩ := runCell_cons.mp hx
    have hread : Readable k b := readable_runCell
      (fun op hop => hkey op (mem_cons_of_mem _ hop))
      (readable_cell (hkey op mem_cons_self) hc) hrest
    exact runCell_again hkey hx hread (.inl rfl)

end Again

def Entry.keep (p : Key → Bool) (e : Entry M) : Entry M :=
  match e.payload with
  | .normal ops => ⟨e.logId, .normal (ops.filter fun op => p op.key)⟩
  | .blank | .membership _ => e

theorem Entry.ops_keep (p : Key → Bool) (e : Entry M) :
    (e.keep p).ops = e.ops.filter fun op => p op.key := by
  obtain ⟨logId, payload⟩ := e
  cases payload <;> rfl

theorem flatMap_ops_keep (p : Key → Bool) (entries : List (Entry M)) :
    (entries.map (keep p)).flatMap ops =
      (entries.flatMap ops).filter fun op => p op.key := by
  rw [flatMap_map, filter_flatMap]
  exact congrArg (fun f => List.flatMap f entries) (funext (ops_keep p))

theorem applyEntry_kv (s : Machine M) (e : Entry M) :
    (applyEntry s e).map Machine.kv = e.ops.foldlM applyOp s.kv := by
  obtain ⟨logId, payload⟩ := e
  cases payload with
  | blank | membership => rfl
  | normal =>
    rw [applyEntry, Option.map_map]
    exact map_id' ..

theorem apply_kv (s : Machine M) (entries : List (Entry M)) :
    (apply s entries).map Machine.kv =
      (entries.flatMap ops).foldlM applyOp s.kv := by
  induction entries generalizing s with
  | nil => rfl
  | cons e entries ih =>
    rw [StateMachineStore.apply, foldlM_cons, flatMap_cons, foldlM_append,
      ← applyEntry_kv]
    cases applyEntry s e with
    | none => rfl
    | some s' => exact ih s'

/-- The entries of a part of the log, applied again to the state after it, in whole or the
operations on some keys only, leave the contents as they are. -/
theorem apply_kv_again {entries : List (Entry M)}
    (h : apply s entries = some s') (p : Key → Bool) :
    (apply s' (entries.map (keep p))).map Machine.kv = some s'.kv := by
  have hops : (entries.flatMap ops).foldlM applyOp s.kv = some s'.kv := by
    rw [← apply_kv, h]
    rfl
  rw [apply_kv, flatMap_ops_keep]
  exact foldlM_applyOp_again hops p

theorem Store.unrevived_apply {s s' : Store M} {c call : List (Entry M)}
    (hs : s.apply c = some s') (h : s.Unrevived call) : s'.Unrevived call := by
  cases s <;> obtain ⟨_, _, rfl⟩ := map_eq_some_iff.mp hs <;> exact h

theorem Store.machine_calls {s : Store M} {calls : List (List (Entry M))}
    (h : ∀ call ∈ calls, s.Unrevived call) : (calls.foldlM Store.apply s).map Store.machine =
      StateMachineStore.apply s.machine calls.flatten := by
  induction calls generalizing s with
  | nil => rfl
  | cons call calls ih =>
    have hone := Store.machine_apply (h call mem_cons_self)
    rw [foldlM_cons, flatten_cons, apply_append, ← hone]
    cases hs : s.apply call with
    | none => rfl
    | some =>
      exact ih fun c hc => Store.unrevived_apply hs (h c (mem_cons_of_mem _ hc))

/-- Every way to reach an index of the log, by applying in any cuts, restarting and installing
snapshots over any contents, ends in the state of the in-memory machine there; so does every
further call; and what was applied, applied again in any cuts, leaves the contents. -/
theorem replay_preserves_state [Inhabited M] {log : Log M} {s : Store M} {i : ℕ}
    (h : Reached Store.Unrevived log s i) : log.state i = some s.machine ∧
      (∀ n, s.Unrevived (s.next log n) →
        (s.apply (s.next log n)).map Store.machine = log.state (i + n)) ∧
      ∀ (p : Key → Bool) (k : ℕ) (calls : List (List (Entry M))),
        calls.flatten = ((log.entries.take i).drop k).map (keep p) →
        (∀ call ∈ calls, s.Unrevived call) →
        (calls.foldlM Store.apply s).map (fun t => t.machine.kv) = some s.machine.kv := by
  have hstate := (state_of_reached h).1
  refine ⟨hstate, fun n hn => apply_next hstate hn, fun p k calls hcalls hok => ?_⟩
  obtain ⟨s₀, -, hrest⟩ : ∃ s₀, apply Machine.empty ((log.entries.take i).take k)
      = some s₀ ∧ apply s₀ ((log.entries.take i).drop k) = some s.machine := by
    rw [Log.state, ← take_append_drop k (log.entries.take i), apply_append,
      bind_eq_some_iff] at hstate
    exact hstate
  have hagain := apply_kv_again hrest p
  rw [← hcalls, ← Store.machine_calls hok, Option.map_map] at hagain
  exact hagain

def dropLog : Log Unit := ⟨[secondInsert, dropTable, firstInsert], by decide⟩

def Store.restart [Inhabited M] (ok : Store M → List (Entry M) → Prop)
    [∀ s call, Decidable (ok s call)] (log : Log M) (s : Store M) (n : ℕ) : Option (Store M) :=
  if ok s (s.next log n) then (s.apply (s.next log n)).bind Store.crash else none

theorem reached_restart [Inhabited M] {ok : Store M → List (Entry M) → Prop}
    [∀ s call, Decidable (ok s call)] {log : Log M} {s t : Store M} {i : ℕ} {sizes : List ℕ}
    (h : Reached ok log s i) (hlen : i + sizes.sum ≤ log.entries.length)
    (ht : sizes.foldlM (Store.restart ok log) s = some t) : Reached ok log t (i + sizes.sum) := by
  induction sizes generalizing s i with
  | nil =>
    cases ht
    exact h
  | cons n sizes ih =>
    rw [foldlM_cons, bind_eq_bind, bind_eq_some_iff] at ht
    obtain ⟨s', hs, hrest⟩ := ht
    obtain ⟨hok, hs⟩ := ite_none_right_eq_some.mp hs
    obtain ⟨s₁, happly, hcrash⟩ := bind_eq_some_iff.mp hs
    rw [sum_cons] at hlen ⊢
    have hnext : Reached ok log s' (i + n) := .crash (.apply h (by omega) hok happly) hcrash
    rw [← Nat.add_assoc]
    exact ih hnext (by omega) hrest

/-- The drop and the late batch in one call after a restart: the store keeps the sequence that the
drop had removed. -/
theorem replay_revives_sequence :
    ∃ s, Reached (fun _ _ => True) dropLog s 3 ∧ sequenceOf s.machine = some (u64Bytes 6) ∧
      (dropLog.state 3).map sequenceOf = some (some (u64Bytes 5)) := by
  obtain ⟨s, hs, hseq⟩ : ∃ s ∈ [1, 2].foldlM (Store.restart (fun _ _ => True) dropLog) .emptyDurable,
      sequenceOf s.machine = some (u64Bytes 6) := by decide +kernel
  exact ⟨s, reached_restart .durable (by decide) hs, hseq, by decide +kernel⟩

def staleStore : Store Unit := .memory ⟨AList.singleton (seqKey 9) (u64Bytes 1), none, ⟨none, ()⟩⟩

theorem replay_preserves_state_drop :
    ∃ s : Store Unit, Reached Store.Unrevived dropLog (staleStore.install s.build) 3 ∧
      dropLog.state 3 = some (staleStore.install s.build).machine := by
  have hrun : ([2, 1].foldlM (Store.restart Store.Unrevived dropLog) .emptyDurable).isSome =
      true := by
    decide +kernel
  obtain ⟨s, hs⟩ := isSome_iff_exists.mp hrun
  have hreached : Reached Store.Unrevived dropLog (staleStore.install s.build) 3 :=
    .install staleStore (reached_restart .durable (by decide) hs)
  exact ⟨s, hreached, (replay_preserves_state hreached).1⟩

end Crabgresql.Replica
