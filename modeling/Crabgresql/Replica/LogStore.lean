import Crabgresql.Lib.Runs
import Crabgresql.Lib.ByteOrder
import Crabgresql.Lib.OrderedMap
import Crabgresql.Replica.Machine

/-!
# The Raft log, in memory and on disk

The in-memory log is an ordered map from indexes to entries with the purge point,
the vote and the committed id beside it. The durable log keeps the same in one
byte keyspace, entries under `log/` and the big-endian index, and caches the last
log id and the purge point. Run on the same operations the two answer every read
alike, and the cache is always what opening the keyspace computes.
-/

namespace Crabgresql.Replica

open List Option OrderedMap Nat

open Std (ExtTreeMap)

variable {M V : Type}
variable {key : Key}
variable {i : ℕ}

def LogId.le (a b : LogId) : Bool :=
  decide (a.term < b.term ∨ a.term = b.term ∧ a.index ≤ b.index)

inductive Bound
  | included (i : ℕ)
  | excluded (i : ℕ)
  | unbounded

structure IndexRange where
  start : Bound
  stop : Bound

def IndexRange.contains (r : IndexRange) (i : ℕ) : Bool :=
  (match r.start with
    | .included a => decide (a ≤ i)
    | .excluded a => decide (a < i)
    | .unbounded => true) &&
  match r.stop with
  | .included b => decide (i ≤ b)
  | .excluded b => decide (i < b)
  | .unbounded => true

/-- The bounds an ordered map takes without a panic. -/
def IndexRange.ordered (r : IndexRange) : Bool :=
  match r.start, r.stop with
  | .unbounded, _ | _, .unbounded => true
  | .excluded a, .excluded b => decide (a < b)
  | .included a, .included b | .included a, .excluded b | .excluded a, .included b => decide (a ≤ b)

structure LogState where
  lastPurgedLogId : Option LogId
  lastLogId : Option LogId

inductive LogOp (M V : Type)
  | append (entries : List (Entry M))
  | truncate (id : LogId)
  | purge (id : LogId)
  | saveVote (v : V)
  | saveCommitted (c : Option LogId)

/-! ## In memory -/

structure LogStore (M V : Type) where
  lastPurgedLogId : Option LogId
  log : ExtTreeMap ℕ (Entry M)
  committed : Option LogId
  vote : Option V

namespace LogStore

def empty : LogStore M V := ⟨none, ∅, none, none⟩

/-- `none` is the panic of the map on bounds in the wrong order. -/
def tryGetLogEntries (s : LogStore M V) (r : IndexRange) : Option (List (Entry M)) :=
  if r.ordered then some ((s.log.toList.filter fun p => r.contains p.1).map Prod.snd) else none

def getLogState (s : LogStore M V) : LogState :=
  ⟨s.lastPurgedLogId, (s.log.toList.getLast?.map fun p => p.2.logId).or s.lastPurgedLogId⟩

def append (s : LogStore M V) (entries : List (Entry M)) : LogStore M V :=
  { s with log := entries.foldl (fun log e => log.insert e.logId.index e) s.log }

def truncate (s : LogStore M V) (id : LogId) : LogStore M V :=
  let keys := (s.log.toList.filter fun p => decide (id.index ≤ p.1)).map Prod.fst
  { s with log := eraseAll s.log keys }

def purgeTo (s : LogStore M V) (id : LogId) : LogStore M V :=
  let keys := (s.log.toList.filter fun p => decide (p.1 ≤ id.index)).map Prod.fst
  { s with lastPurgedLogId := some id, log := eraseAll s.log keys }

def purge (s : LogStore M V) (id : LogId) : Option (LogStore M V) :=
  if s.lastPurgedLogId.all (LogId.le · id) then some (s.purgeTo id) else none

def step (s : LogStore M V) : LogOp M V → Option (LogStore M V)
  | .append entries => some (s.append entries)
  | .truncate id => some (s.truncate id)
  | .purge id => s.purge id
  | .saveVote v => some { s with vote := some v }
  | .saveCommitted c => some { s with committed := c }

end LogStore

/-! ## On disk -/

def logPrefix : Key := ascii "log/"

def voteKey : Key := ascii "vote"

def committedKey : Key := ascii "committed"

def purgedKey : Key := ascii "last_purged"

def logKey (index : ℕ) : Key := logPrefix ++ BigEndian.bytes 8 index

def logIndex (key : Key) : Option ℕ :=
  if logPrefix.isPrefixOf key ∧ key.length = logPrefix.length + 8 then
    some (BigEndian.value (key.drop logPrefix.length))
  else none

/-- A serialized record; reading one as another type is a deserialization error. -/
inductive RaftRecord (M V : Type)
  | entry (e : Entry M)
  | vote (v : V)
  | committed (c : Option LogId)
  | purged (id : LogId)

abbrev RaftKeyspace (M V : Type) := ExtTreeMap Key (RaftRecord M V)

def RaftRecord.asEntry : RaftRecord M V → Option (Entry M)
  | .entry e => some e
  | .vote _ | .committed _ | .purged _ => none

def RaftRecord.asVote : RaftRecord M V → Option V
  | .vote v => some v
  | .entry _ | .committed _ | .purged _ => none

def RaftRecord.asCommitted : RaftRecord M V → Option (Option LogId)
  | .committed c => some c
  | .entry _ | .vote _ | .purged _ => none

def RaftRecord.asPurged : RaftRecord M V → Option LogId
  | .purged id => some id
  | .entry _ | .vote _ | .committed _ => none

/-- The outer `none` is a storage error, the inner one an absent key. -/
def readJson {T : Type} (read : RaftRecord M V → Option T) (ks : RaftKeyspace M V) (key : Key) :
    Option (Option T) :=
  match ks[key]? with
  | some b => (read b).map some
  | none => some none

def prefixScan (ks : RaftKeyspace M V) (pre : Key) : List (Key × RaftRecord M V) :=
  ks.toList.filter fun p => pre.isPrefixOf p.1

def highestLogId (ks : RaftKeyspace M V) : Option (Option LogId) :=
  match (prefixScan ks logPrefix).getLast? with
  | some p => p.2.asEntry.map fun e => some e.logId
  | none => some none

structure DurableLogStore (M V : Type) where
  ks : RaftKeyspace M V
  lastLogId : Option LogId
  lastPurged : Option LogId

namespace DurableLogStore

def openLog (ks : RaftKeyspace M V) : Option (DurableLogStore M V) :=
  (readJson RaftRecord.asPurged ks purgedKey).bind fun lastPurged =>
    (highestLogId ks).map fun highest => ⟨ks, highest.or lastPurged, lastPurged⟩

def empty : DurableLogStore M V := ⟨∅, none, none⟩

/-- The entries of the scan whose index is in range; `none` is a deserialization error. -/
def tryGetLogEntries (s : DurableLogStore M V) (r : IndexRange) : Option (List (Entry M)) :=
  ((prefixScan s.ks logPrefix).filter fun p => (logIndex p.1).any r.contains).mapM
    fun p => p.2.asEntry

def getLogState (s : DurableLogStore M V) : LogState := ⟨s.lastPurged, s.lastLogId⟩

def readVote (s : DurableLogStore M V) : Option (Option V) :=
  readJson RaftRecord.asVote s.ks voteKey

def readCommitted (s : DurableLogStore M V) : Option (Option LogId) :=
  (readJson RaftRecord.asCommitted s.ks committedKey).map Option.join

def maxLogId (entries : List (Entry M)) : Option LogId :=
  entries.foldl (fun m e => if m.all fun m => decide (m.index < e.logId.index) then
    some e.logId else m) none

def raiseTo (last : Option LogId) (id : LogId) : Option LogId :=
  if last.all fun l => decide (l.index < id.index) then some id else last

def append (s : DurableLogStore M V) (entries : List (Entry M)) : DurableLogStore M V :=
  { s with
    ks := entries.foldl (fun ks e => ks.insert (logKey e.logId.index) (.entry e)) s.ks
    lastLogId := match maxLogId entries with
      | some id => raiseTo s.lastLogId id
      | none => s.lastLogId }

def keysWhere (ks : RaftKeyspace M V) (p : ℕ → Bool) : List Key :=
  ((prefixScan ks logPrefix).filter fun e => (logIndex e.1).any p).map Prod.fst

def truncate (s : DurableLogStore M V) (id : LogId) : Option (DurableLogStore M V) :=
  let ks := eraseAll s.ks (keysWhere s.ks fun i => decide (id.index ≤ i))
  (highestLogId ks).map fun highest =>
    { s with ks := ks, lastLogId := highest.or s.lastPurged }

def purge (s : DurableLogStore M V) (id : LogId) : Option (DurableLogStore M V) :=
  if s.lastPurged.all (LogId.le · id) then
    let ks := eraseAll s.ks (keysWhere s.ks fun i => decide (i ≤ id.index))
    some ⟨ks.insert purgedKey (.purged id), raiseTo s.lastLogId id, some id⟩
  else none

def step (s : DurableLogStore M V) : LogOp M V → Option (DurableLogStore M V)
  | .append entries => some (s.append entries)
  | .truncate id => s.truncate id
  | .purge id => s.purge id
  | .saveVote v => some { s with ks := s.ks.insert voteKey (.vote v) }
  | .saveCommitted c => some { s with ks := s.ks.insert committedKey (.committed c) }

end DurableLogStore

/-- What the storage contract asks of an operation. Entries are appended in index order above the
purge point, and one that conflicts with a stored entry is truncated first; a purge moves the purge
point up, and names the last log id if it goes up to its index. -/
def Allowed (s : LogStore M V) : LogOp M V → Prop
  | .append entries =>
    entries.Pairwise (fun a b => a.logId.index < b.logId.index) ∧
      ∀ e ∈ entries, e.logId.index < 256 ^ 8 ∧
        (∀ id ∈ s.lastPurgedLogId, id.index < e.logId.index) ∧
        ∀ old ∈ s.log[e.logId.index]?, old.logId = e.logId
  | .purge id =>
    s.lastPurgedLogId.all (LogId.le · id) = true ∧
      (∀ old ∈ s.lastPurgedLogId, old.index ≤ id.index) ∧
      ∀ last ∈ s.getLogState.lastLogId, last.index = id.index → last = id
  | .truncate _ | .saveVote _ | .saveCommitted _ => True

instance (s : LogStore M V) (op : LogOp M V) : Decidable (Allowed s op) := by
  unfold Allowed
  split <;> infer_instance

/-! ## Keys of the log -/

theorem logIndex_logKey (hi : i < 256 ^ 8) : logIndex (logKey i) = some i := by
  have hcond : logPrefix.isPrefixOf (logKey i) ∧ (logKey i).length = logPrefix.length + 8 :=
    ⟨ isPrefixOf_iff_prefix.mpr (prefix_append ..), by simp [logKey]⟩
  rw [logIndex, if_pos hcond, logKey, drop_left, BigEndian.value_bytes_of_lt hi]

theorem compare_logKey {j : ℕ} (hi : i < 256 ^ 8) (hj : j < 256 ^ 8) :
    compare (logKey i) (logKey j) = compare i j := by
  rw [logKey, logKey, ByteOrder.compare_append_left, ByteOrder.compare_bytes hi hj]

theorem logKey_inj {j : ℕ} (hi : i < 256 ^ 8) (hj : j < 256 ^ 8) (h : logKey i = logKey j) :
    i = j :=
  ByteOrder.bytes_inj hi hj (append_cancel_left h)

theorem logPrefix_isPrefix_logKey (i : ℕ) : logPrefix <+: logKey i := prefix_append ..

theorem getElem?_eraseKeys (ks : RaftKeyspace M V) (p : ℕ → Bool) (key : Key) :
    (eraseAll ks (DurableLogStore.keysWhere ks p))[key]? =
      if logPrefix <+: key ∧ (logIndex key).any p = true then none else ks[key]? := by
  rw [DurableLogStore.keysWhere, prefixScan, List.filter_filter,
    getElem?_eraseFilter ks (fun key => (logIndex key).any p && logPrefix.isPrefixOf key)]
  simp only [Bool.and_eq_true, isPrefixOf_iff_prefix, and_comm]

/-- The keyspace holds the entries of the log under their indexes, and no other key of the log. -/
structure OnDisk (log : ExtTreeMap ℕ (Entry M)) (ks : RaftKeyspace M V) : Prop where
  stored : ∀ i < 256 ^ 8, ks[logKey i]? = log[i]?.map .entry
  bounded : ∀ i e, log[i]? = some e → i < 256 ^ 8
  only : ∀ key v, ks[key]? = some v → logPrefix <+: key → ∃ i < 256 ^ 8, key = logKey i

namespace OnDisk

variable {log : ExtTreeMap ℕ (Entry M)} {ks : RaftKeyspace M V}

theorem empty : OnDisk (∅ : ExtTreeMap ℕ (Entry M)) (∅ : RaftKeyspace M V) where
  stored i _ := by rw [ExtTreeMap.getElem?_empty, ExtTreeMap.getElem?_empty]; rfl
  bounded i e h := by rw [ExtTreeMap.getElem?_empty] at h; cases h
  only key v h := by rw [ExtTreeMap.getElem?_empty] at h; cases h

theorem insert (h : OnDisk log ks) (e : Entry M) (hi : i < 256 ^ 8) :
    OnDisk (log.insert i e) (ks.insert (logKey i) (.entry e)) where
  stored j hj := by
    rw [getElem?_insert_eq, getElem?_insert_eq]
    by_cases hji : j = i
    · rw [if_pos hji, if_pos (congrArg logKey hji)]
      rfl
    · rw [if_neg hji, if_neg fun heq => hji (logKey_inj hj hi heq)]
      exact h.stored j hj
  bounded j e' hj := by
    rw [getElem?_insert_eq] at hj
    split_ifs at hj with hji
    · rwa [hji]
    · exact h.bounded j e' hj
  only key v hkey hpre := by
    rw [getElem?_insert_eq] at hkey
    split_ifs at hkey with heq
    · exact ⟨i, hi, heq⟩
    · exact h.only key v hkey hpre

theorem insert_other (h : OnDisk log ks) (hkey : ¬ logPrefix <+: key) (v : RaftRecord M V) :
    OnDisk log (ks.insert key v) where
  stored i hi := by
    rw [getElem?_insert_eq, if_neg, h.stored i hi]
    rintro rfl
    exact hkey (logPrefix_isPrefix_logKey i)
  bounded := h.bounded
  only key' v' h' hpre := by
    rw [getElem?_insert_eq] at h'
    split_ifs at h' with heq
    · exact absurd (heq ▸ hpre) hkey
    · exact h.only key' v' h' hpre

theorem scan (h : OnDisk log ks) :
    prefixScan ks logPrefix = log.toList.map fun p => (logKey p.1, .entry p.2) := by
  have hsorted : log.toList.Pairwise fun a b => compare a.1 b.1 = .lt :=
    ExtTreeMap.ordered_keys_toList
  have hget {p : ℕ × Entry M} (hp : p ∈ log.toList) : log[p.1]? = some p.2 :=
    ExtTreeMap.mem_toList_iff_getElem?_eq_some.mp hp
  refine ByteOrder.eq_of_sorted (r := fun a b => compare a b = .lt)
    (fun a ha => ?_) (fun a b c => Std.TransCmp.lt_trans)
    (ExtTreeMap.ordered_keys_toList.filter _) ?_ fun p => ?_
  · have hself : compare a a = .eq := Std.ReflCmp.compare_self
    rw [hself] at ha
    cases ha
  · refine pairwise_map.mpr (hsorted.imp_of_mem fun {a b} ha hb hab => ?_)
    rwa [compare_logKey (h.bounded _ _ (hget ha)) (h.bounded _ _ (hget hb))]
  · obtain ⟨key, v⟩ := p
    rw [prefixScan, mem_filter, isPrefixOf_iff_prefix,
      ExtTreeMap.mem_toList_iff_getElem?_eq_some, List.mem_map]
    constructor
    · rintro ⟨hkey, hpre⟩
      obtain ⟨i, hi, rfl⟩ := h.only key v hkey hpre
      rw [h.stored i hi, map_eq_some_iff] at hkey
      obtain ⟨e, he, rfl⟩ := hkey
      exact ⟨(i, e), ExtTreeMap.mem_toList_iff_getElem?_eq_some.mpr he, rfl⟩
    · rintro ⟨⟨i, e⟩, hmem, heq⟩
      cases heq
      refine ⟨?_, logPrefix_isPrefix_logKey i⟩
      rw [h.stored i (h.bounded i e (hget hmem)), hget hmem]
      rfl

theorem highest (h : OnDisk log ks) :
    highestLogId ks = some (log.toList.getLast?.map fun p => p.2.logId) := by
  rw [highestLogId, h.scan, getLast?_map]
  cases log.toList.getLast? <;> rfl

theorem scan_filter (h : OnDisk log ks) (p : ℕ → Bool) :
    ((prefixScan ks logPrefix).filter fun e => (logIndex e.1).any p) =
      (log.toList.filter fun e => p e.1).map fun e => (logKey e.1, .entry e.2) := by
  rw [h.scan, List.filter_map]
  refine congrArg (List.map _) (filter_congr fun e he => ?_)
  have hi := h.bounded e.1 e.2 (ExtTreeMap.mem_toList_iff_getElem?_eq_some.mp he)
  rw [Function.comp, logIndex_logKey hi, any_some]

theorem eraseWhere (h : OnDisk log ks) (p : ℕ → Bool) :
    OnDisk (eraseAll log ((log.toList.filter fun e => p e.1).map Prod.fst))
      (eraseAll ks (DurableLogStore.keysWhere ks p)) where
  stored i hi := by
    rw [getElem?_eraseKeys, getElem?_eraseFilter, logIndex_logKey hi, any_some, h.stored i hi]
    simp only [logPrefix_isPrefix_logKey, true_and]
    split_ifs <;> rfl
  bounded i e hi := by
    rw [getElem?_eraseFilter, ite_none_left_eq_some] at hi
    exact h.bounded i e hi.2
  only key v hkey hpre := by
    rw [getElem?_eraseKeys, ite_none_left_eq_some] at hkey
    exact h.only key v hkey.2 hpre

theorem appendAll (h : OnDisk log ks) {entries : List (Entry M)}
    (hentries : ∀ e ∈ entries, e.logId.index < 256 ^ 8) :
    OnDisk (entries.foldl (fun log e => log.insert e.logId.index e) log)
      (entries.foldl (fun ks e => ks.insert (logKey e.logId.index) (.entry e)) ks) := by
  induction entries generalizing log ks with
  | nil => exact h
  | cons e entries ih =>
    exact ih (h.insert e (hentries e mem_cons_self))
      fun e' he' => hentries e' (mem_cons_of_mem _ he')

end OnDisk

/-! ## The two logs side by side -/

/-- The entries are stored under their own index, above the purge point. -/
structure LogStore.Sound (s : LogStore M V) : Prop where
  indexed : ∀ (i : ℕ) (e : Entry M), s.log[i]? = some e → e.logId.index = i
  above : ∀ (i : ℕ) (e : Entry M), s.log[i]? = some e → ∀ id ∈ s.lastPurgedLogId, id.index < i

structure Mirrors (s : LogStore M V) (d : DurableLogStore M V) : Prop where
  sound : s.Sound
  log : OnDisk s.log d.ks
  vote : d.ks[voteKey]? = s.vote.map .vote
  committed : (d.ks[committedKey]? = none ∧ s.committed = none) ∨
    d.ks[committedKey]? = some (.committed s.committed)
  purgedRecord : d.ks[purgedKey]? = s.lastPurgedLogId.map .purged
  purged : d.lastPurged = s.lastPurgedLogId
  last : d.lastLogId = s.getLogState.lastLogId

variable {s : LogStore M V}

theorem LogStore.lastLogId_of_max {e : Entry M} (he : s.log[i]? = some e)
    (hmax : ∀ j e', s.log[j]? = some e' → j ≤ i) : s.getLogState.lastLogId = some e.logId := by
  have hlast : s.log.toList.getLast? = some (i, e) :=
    getLast?_eq_some_iff.mpr ⟨he, fun j e' hj => Nat.isLE_compare.mpr (hmax j e' hj)⟩
  rw [getLogState, hlast]
  rfl

theorem LogStore.lastLogId_of_empty (h : ∀ i : ℕ, s.log[i]? = none) :
    s.getLogState.lastLogId = s.lastPurgedLogId := by
  rw [getLogState, getLast?_eq_none_iff.mpr h]
  rfl

theorem LogStore.lastLogId_cases (s : LogStore M V) :
    ((∀ i : ℕ, s.log[i]? = none) ∧ s.getLogState.lastLogId = s.lastPurgedLogId) ∨
      ∃ (i : ℕ) (e : Entry M), s.log[i]? = some e ∧ (∀ j e', s.log[j]? = some e' → j ≤ i) ∧
        s.getLogState.lastLogId = some e.logId := by
  cases hlast : s.log.toList.getLast? with
  | none =>
    have hempty := OrderedMap.getLast?_eq_none_iff.mp hlast
    exact .inl ⟨hempty, lastLogId_of_empty hempty⟩
  | some p =>
    obtain ⟨he, hmax⟩ := OrderedMap.getLast?_eq_some_iff.mp (show _ = some (p.1, p.2) from hlast)
    have hle : ∀ j e', s.log[j]? = some e' → j ≤ p.1 := fun j e' hj =>
      Nat.isLE_compare.mp (hmax j e' hj)
    exact .inr ⟨p.1, p.2, he, hle, lastLogId_of_max he hle⟩

theorem LogStore.Sound.eraseWhere (h : s.Sound) (p : ℕ → Bool) : LogStore.Sound { s with
      log := eraseAll s.log ((s.log.toList.filter fun e => p e.1).map Prod.fst) } where
  indexed i e hi := by
    rw [getElem?_eraseFilter, ite_none_left_eq_some] at hi
    exact h.indexed i e hi.2
  above i e hi := by
    rw [getElem?_eraseFilter, ite_none_left_eq_some] at hi
    exact h.above i e hi.2

theorem eraseAll_other {ks : RaftKeyspace M V} {p : ℕ → Bool} (hkey : ¬ logPrefix <+: key) :
    (eraseAll ks (DurableLogStore.keysWhere ks p))[key]? = ks[key]? := by
  rw [getElem?_eraseKeys, if_neg fun h => hkey h.1]

theorem not_logPrefix_voteKey : ¬ logPrefix <+: voteKey := by decide

theorem not_logPrefix_committedKey : ¬ logPrefix <+: committedKey := by decide

theorem not_logPrefix_purgedKey : ¬ logPrefix <+: purgedKey := by decide

namespace Mirrors

variable {s : LogStore M V} {d : DurableLogStore M V}

theorem initial : Mirrors (LogStore.empty : LogStore M V) (DurableLogStore.empty) where
  sound :=
    { indexed := fun i e h => by
        rw [LogStore.empty, ExtTreeMap.getElem?_empty] at h
        cases h
      above := fun i e h => by
        rw [LogStore.empty, ExtTreeMap.getElem?_empty] at h
        cases h }
  log := OnDisk.empty
  vote := ExtTreeMap.getElem?_empty
  committed := .inl ⟨ExtTreeMap.getElem?_empty, rfl⟩
  purgedRecord := ExtTreeMap.getElem?_empty
  purged := rfl
  last := by
    rw [LogStore.lastLogId_of_empty fun i => ExtTreeMap.getElem?_empty]
    rfl

/-! ### Appending -/

variable {entries : List (Entry M)} {log : ExtTreeMap ℕ (Entry M)} {e : Entry M}

theorem getElem?_appendAll
    (h : (entries.foldl (fun log e => log.insert e.logId.index e) log)[i]? = some e) :
    (e ∈ entries ∧ e.logId.index = i) ∨
      log[i]? = some e ∧ ∀ e' ∈ entries, e'.logId.index ≠ i := by
  induction entries generalizing log with
  | nil => exact .inr ⟨h, nofun⟩
  | cons a entries ih =>
    rcases ih h with ⟨hmem, hidx⟩ | ⟨hlog, hnone⟩
    · exact .inl ⟨mem_cons_of_mem _ hmem, hidx⟩
    · rw [getElem?_insert_eq] at hlog
      split_ifs at hlog with hi
      · cases hlog
        exact .inl ⟨mem_cons_self, hi.symm⟩
      · refine .inr ⟨hlog, fun e' he' => ?_⟩
        rcases mem_cons.mp he' with rfl | hlater
        · exact fun heq => hi heq.symm
        · exact hnone e' hlater

theorem getElem?_appendAll_other (hne : ∀ e ∈ entries, e.logId.index ≠ i) :
    (entries.foldl (fun log e => log.insert e.logId.index e) log)[i]? = log[i]? := by
  induction entries generalizing log with
  | nil => rfl
  | cons a entries ih =>
    rw [foldl_cons, ih fun e he => hne e (mem_cons_of_mem _ he),
      getElem?_insert_eq, if_neg fun heq => hne a mem_cons_self heq.symm]

theorem getElem?_appendAll_of_mem
    (hsorted : entries.Pairwise fun a b => a.logId.index < b.logId.index) (he : e ∈ entries) :
    (entries.foldl (fun log e => log.insert e.logId.index e) log)[e.logId.index]? = some e := by
  induction entries generalizing log with
  | nil => cases he
  | cons a entries ih =>
    obtain ⟨hhead, htail⟩ := pairwise_cons.mp hsorted
    rw [foldl_cons]
    rcases mem_cons.mp he with rfl | hlater
    · rw [getElem?_appendAll_other fun e' he' => ne_of_gt (hhead e' he'),
        getElem?_insert_eq, if_pos rfl]
    · exact ih htail hlater

theorem maxLogId_concat (entries : List (Entry M)) (e : Entry M) :
    DurableLogStore.maxLogId (entries ++ [e]) =
      if (DurableLogStore.maxLogId entries).all fun m => decide (m.index < e.logId.index) then
        some e.logId else DurableLogStore.maxLogId entries := by
  rw [DurableLogStore.maxLogId, foldl_append]
  rfl

theorem mem_of_maxLogId {id : LogId} (h : DurableLogStore.maxLogId entries = some id) :
    ∃ e ∈ entries, e.logId = id := by
  induction entries using List.reverseRecOn with
  | nil => cases h
  | append_singleton front e ih =>
    rw [maxLogId_concat] at h
    split_ifs at h
    · exact ⟨e, mem_append_right _ (mem_singleton_self _), some_inj.mp h⟩
    · obtain ⟨e', he', hid⟩ := ih h
      exact ⟨e', mem_append_left _ he', hid⟩

theorem maxLogId_append
    (hsorted : (entries ++ [e]).Pairwise fun a b => a.logId.index < b.logId.index) :
    DurableLogStore.maxLogId (entries ++ [e]) = some e.logId := by
  rw [maxLogId_concat, if_pos]
  cases hmax : DurableLogStore.maxLogId entries with
  | none => rfl
  | some =>
    obtain ⟨e', he', rfl⟩ := mem_of_maxLogId hmax
    exact decide_eq_true ((pairwise_append.mp hsorted).2.2 e' he' e (mem_singleton_self _))

theorem sound_append (h : s.Sound) (hok : Allowed s (.append entries)) :
    (s.append entries).Sound where
  indexed i e hi := by
    rcases getElem?_appendAll hi with ⟨-, hidx⟩ | ⟨hold, -⟩
    · exact hidx
    · exact h.indexed i e hold
  above i e hi := by
    rcases getElem?_appendAll hi with ⟨hmem, rfl⟩ | ⟨hold, -⟩
    · exact (hok.2 e hmem).2.1
    · exact h.above i e hold

theorem insert_others {ks : RaftKeyspace M V} (hkey : ¬ logPrefix <+: key) :
    (entries.foldl (fun ks e => ks.insert (logKey e.logId.index) (.entry e)) ks)[key]? =
      ks[key]? := by
  induction entries generalizing ks with
  | nil => rfl
  | cons e entries ih =>
    rw [foldl_cons, ih, getElem?_insert_eq, if_neg]
    rintro rfl
    exact hkey (logPrefix_isPrefix_logKey _)

theorem append_keeps_id {old : Entry M}
    (hok : Allowed s (.append entries)) (hold : s.log[i]? = some old) :
    ∃ e', (s.append entries).log[i]? = some e' ∧ e'.logId = old.logId := by
  by_cases hin : ∃ e' ∈ entries, e'.logId.index = i
  · obtain ⟨e', he', rfl⟩ := hin
    exact ⟨e', getElem?_appendAll_of_mem hok.1 he', ((hok.2 e' he').2.2 old hold).symm⟩
  · have hne : ∀ e' ∈ entries, e'.logId.index ≠ i := fun e' he' heq => hin ⟨e', he', heq⟩
    exact ⟨old, (getElem?_appendAll_other hne).trans hold, rfl⟩

theorem last_append (h : s.Sound) (hok : Allowed s (.append (entries ++ [e]))) :
    DurableLogStore.raiseTo s.getLogState.lastLogId e.logId =
      (s.append (entries ++ [e])).getLogState.lastLogId := by
  have hmem : e ∈ entries ++ [e] := mem_append_right _ (mem_singleton_self _)
  have hbatch : ∀ e' ∈ entries ++ [e], e'.logId.index ≤ e.logId.index := by
    intro e' he'
    rcases mem_append.mp he' with hbefore | hself
    · exact le_of_lt
        ((pairwise_append.mp hok.1).2.2 e' hbefore e (mem_singleton_self _))
    · rw [mem_singleton.mp hself]
  have hstored : (s.append (entries ++ [e])).log[e.logId.index]? = some e :=
    getElem?_appendAll_of_mem hok.1 hmem
  -- the new entry is the greatest when no stored one is above it
  have hnew (hle : ∀ i e', s.log[i]? = some e' → i ≤ e.logId.index) :
      (s.append (entries ++ [e])).getLogState.lastLogId = some e.logId := by
    refine LogStore.lastLogId_of_max hstored fun j e' hj => ?_
    rcases getElem?_appendAll hj with ⟨hin, rfl⟩ | ⟨hold, -⟩
    · exact hbatch e' hin
    · exact hle j e' hold
  rcases s.lastLogId_cases with ⟨hempty, hlast⟩ | ⟨i, old, hold, hmax, hlast⟩
  · rw [hnew fun i e' hi => (by rw [hempty i] at hi; cases hi), hlast, DurableLogStore.raiseTo,
      if_pos]
    cases hpurged : s.lastPurgedLogId with
    | none => rfl
    | some id => exact decide_eq_true ((hok.2 e hmem).2.1 id hpurged)
  · have hidx := h.indexed i old hold
    rw [hlast, DurableLogStore.raiseTo, all_some]
    by_cases hlt : old.logId.index < e.logId.index
    · rw [if_pos (decide_eq_true hlt),
        hnew fun j e' hj => le_trans (hmax j e' hj) (le_of_lt (hidx ▸ hlt))]
    · rw [if_neg fun hd => hlt (of_decide_eq_true hd)]
      obtain ⟨e', he', hid⟩ := append_keeps_id hok hold
      rw [← hid]
      refine (LogStore.lastLogId_of_max he' fun j e'' hj => ?_).symm
      rcases getElem?_appendAll hj with ⟨hin, rfl⟩ | ⟨hold', -⟩
      · exact Nat.le_trans (hbatch e'' hin) (Nat.le_of_not_lt (hidx ▸ hlt))
      · exact hmax j e'' hold'

theorem append (h : Mirrors s d) (hok : Allowed s (.append entries)) :
    Mirrors (s.append entries) (d.append entries) where
  sound := sound_append h.sound hok
  log := h.log.appendAll fun e he => (hok.2 e he).1
  vote := (insert_others not_logPrefix_voteKey).trans h.vote
  committed := by
    rw [DurableLogStore.append, insert_others not_logPrefix_committedKey]
    exact h.committed
  purgedRecord := (insert_others not_logPrefix_purgedKey).trans h.purgedRecord
  purged := h.purged
  last := by
    rcases eq_nil_or_concat entries with rfl | ⟨front, e, rfl⟩
    · exact h.last
    · rw [concat_eq_append] at hok ⊢
      rw [DurableLogStore.append, maxLogId_append hok.1]
      change DurableLogStore.raiseTo d.lastLogId e.logId = _
      rw [h.last]
      exact last_append h.sound hok

/-! ### Removing entries -/

theorem truncate (h : Mirrors s d) (id : LogId) :
    ∃ d', d.truncate id = some d' ∧ Mirrors (s.truncate id) d' := by
  have hlog := h.log.eraseWhere fun i => decide (id.index ≤ i)
  refine ⟨_, by rw [DurableLogStore.truncate, hlog.highest]; rfl, ?_⟩
  exact
    { sound := h.sound.eraseWhere fun i => decide (id.index ≤ i)
      log := hlog
      vote := (eraseAll_other not_logPrefix_voteKey).trans h.vote
      committed := by
        rw [eraseAll_other not_logPrefix_committedKey]
        exact h.committed
      purgedRecord := (eraseAll_other not_logPrefix_purgedKey).trans h.purgedRecord
      purged := h.purged
      last := by
        rw [h.purged]
        rfl }

theorem getElem?_purgeTo (s : LogStore M V) (id : LogId) (i : ℕ) :
    (s.purgeTo id).log[i]? = if i ≤ id.index then none else s.log[i]? := by
  refine (getElem?_eraseFilter s.log (fun i => decide (i ≤ id.index)) i).trans ?_
  simp only [decide_eq_true_eq]

theorem sound_purgeTo (h : s.Sound) (id : LogId) : (s.purgeTo id).Sound where
  indexed := (h.eraseWhere fun i => decide (i ≤ id.index)).indexed
  above i e hi id' hid := by
    rw [getElem?_purgeTo, ite_none_left_eq_some] at hi
    cases hid
    omega

theorem last_purge (h : s.Sound) {id : LogId} (hok : Allowed s (.purge id)) :
    DurableLogStore.raiseTo s.getLogState.lastLogId id = (s.purgeTo id).getLogState.lastLogId := by
  obtain ⟨-, hpurged, hsame⟩ := hok
  -- with every entry gone the purge point is the last id
  have hgone (hle : ∀ (i : ℕ) (e : Entry M), s.log[i]? = some e → i ≤ id.index) :
      (s.purgeTo id).getLogState.lastLogId = some id := by
    refine LogStore.lastLogId_of_empty fun i => ?_
    rw [getElem?_purgeTo]
    split_ifs with hi
    · rfl
    · exact eq_none_iff_forall_ne_some.mpr fun e he => hi (hle i e he)
  rcases s.lastLogId_cases with ⟨hempty, hlast⟩ | ⟨i, e, he, hmax, hlast⟩
  · rw [hgone fun i e hi => (by rw [hempty i] at hi; cases hi), hlast, DurableLogStore.raiseTo]
    cases hold : s.lastPurgedLogId with
    | none => rfl
    | some old =>
      have hle := hpurged old hold
      by_cases hlt : old.index < id.index
      · exact if_pos (decide_eq_true hlt)
      · have hindex : old.index = id.index := Nat.le_antisymm hle (Nat.le_of_not_lt hlt)
        rw [hsame old (hlast.trans hold) hindex, ite_self]
  · have hidx := h.indexed i e he
    rw [hlast, DurableLogStore.raiseTo, all_some]
    rcases lt_trichotomy e.logId.index id.index with hlt | heq | hgt
    · rw [if_pos (decide_eq_true hlt),
        hgone fun j e' hj => le_trans (hmax j e' hj) (le_of_lt (hidx ▸ hlt))]
    · rw [hsame e.logId hlast heq, ite_self,
        hgone fun j e' hj => le_trans (hmax j e' hj) (le_of_eq (hidx ▸ heq))]
    · have hkept : (s.purgeTo id).log[i]? = some e := by
        rw [getElem?_purgeTo, if_neg (by omega), he]
      rw [if_neg fun hd => lt_asymm hgt (of_decide_eq_true hd)]
      refine (LogStore.lastLogId_of_max hkept fun j e' hj => ?_).symm
      rw [getElem?_purgeTo] at hj
      split_ifs at hj
      exact hmax j e' hj

theorem purge (h : Mirrors s d) {id : LogId} (hok : Allowed s (.purge id)) :
    ∃ d', s.purge id = some (s.purgeTo id) ∧ d.purge id = some d' ∧
      Mirrors (s.purgeTo id) d' := by
  have hlog := h.log.eraseWhere fun i => decide (i ≤ id.index)
  have hcond : d.lastPurged.all (LogId.le · id) = true := by
    rw [h.purged]
    exact hok.1
  refine ⟨_, if_pos hok.1, if_pos hcond, ?_⟩
  exact
    { sound := sound_purgeTo h.sound id
      log := hlog.insert_other not_logPrefix_purgedKey _
      vote := by
        rw [getElem?_insert_eq, if_neg (by decide),
          eraseAll_other not_logPrefix_voteKey]
        exact h.vote
      committed := by
        rw [getElem?_insert_eq, if_neg (by decide),
          eraseAll_other not_logPrefix_committedKey]
        exact h.committed
      purgedRecord := by
        rw [getElem?_insert_eq, if_pos rfl]
        rfl
      purged := rfl
      last := by
        rw [h.last]
        exact last_purge h.sound hok }

theorem saveVote (h : Mirrors s d) (v : V) :
    Mirrors { s with vote := some v } { d with ks := d.ks.insert voteKey (.vote v) } where
  sound := ⟨h.sound.indexed, h.sound.above⟩
  log := h.log.insert_other not_logPrefix_voteKey _
  vote := by
    rw [getElem?_insert_eq, if_pos rfl]
    rfl
  committed := by
    rw [getElem?_insert_eq, if_neg (by decide)]
    exact h.committed
  purgedRecord := by
    rw [getElem?_insert_eq, if_neg (by decide)]
    exact h.purgedRecord
  purged := h.purged
  last := h.last

theorem saveCommitted (h : Mirrors s d) (c : Option LogId) : Mirrors { s with committed := c }
      { d with ks := d.ks.insert committedKey (.committed c) } where
  sound := ⟨h.sound.indexed, h.sound.above⟩
  log := h.log.insert_other not_logPrefix_committedKey _
  vote := by
    rw [getElem?_insert_eq, if_neg (by decide)]
    exact h.vote
  committed := by
    rw [getElem?_insert_eq, if_pos rfl]
    exact .inr rfl
  purgedRecord := by
    rw [getElem?_insert_eq, if_neg (by decide)]
    exact h.purgedRecord
  purged := h.purged
  last := h.last

theorem step (h : Mirrors s d) {op : LogOp M V} (hok : Allowed s op) :
    ∃ s' d', s.step op = some s' ∧ d.step op = some d' ∧ Mirrors s' d' := by
  cases op with
  | append => exact ⟨_, _, rfl, rfl, h.append hok⟩
  | truncate id =>
    obtain ⟨d', hd, h'⟩ := h.truncate id
    exact ⟨_, d', rfl, hd, h'⟩
  | purge =>
    obtain ⟨d', hs, hd, h'⟩ := h.purge hok
    exact ⟨_, d', hs, hd, h'⟩
  | saveVote v => exact ⟨_, _, rfl, rfl, h.saveVote v⟩
  | saveCommitted c => exact ⟨_, _, rfl, rfl, h.saveCommitted c⟩

/-! ### Reading -/

theorem getLogState_eq (h : Mirrors s d) : d.getLogState = s.getLogState := by
  rw [DurableLogStore.getLogState, h.purged, h.last]
  rfl

theorem tryGetLogEntries_eq (h : Mirrors s d) {r : IndexRange} {found : List (Entry M)}
    (hr : s.tryGetLogEntries r = some found) : d.tryGetLogEntries r = some found := by
  obtain ⟨-, hfound⟩ := ite_none_right_eq_some.mp hr
  cases hfound
  rw [DurableLogStore.tryGetLogEntries, h.log.scan_filter]
  induction s.log.toList.filter fun p => r.contains p.1 with
  | nil => rfl
  | cons p ps ih =>
    rw [map_cons, mapM_cons, ih]
    rfl

theorem readVote_eq (h : Mirrors s d) : d.readVote = some s.vote := by
  rw [DurableLogStore.readVote, readJson, h.vote]
  cases s.vote <;> rfl

theorem readCommitted_eq (h : Mirrors s d) : d.readCommitted = some s.committed := by
  rw [DurableLogStore.readCommitted, readJson]
  rcases h.committed with ⟨hdisk, hmem⟩ | hdisk
  · rw [hdisk, hmem]
    rfl
  · rw [hdisk]
    cases s.committed <;> rfl

theorem openLog_eq (h : Mirrors s d) : DurableLogStore.openLog d.ks = some d := by
  have hpurged : readJson RaftRecord.asPurged d.ks purgedKey = some s.lastPurgedLogId := by
    rw [readJson, h.purgedRecord]
    cases s.lastPurgedLogId <;> rfl
  rw [DurableLogStore.openLog, hpurged, h.log.highest, bind_some, map_some]
  have hlast : d.lastLogId =
      (s.log.toList.getLast?.map fun p => p.2.logId).or s.lastPurgedLogId := h.last
  rw [← hlast, ← h.purged]

end Mirrors

/-- The durable log refines the in-memory one: after every sequence of allowed operations, which
both take, it answers every read alike, and opening its keyspace finds the cached state. -/
theorem durable_log_refines {ops : List (LogOp M V)}
    (h : Runs.Along LogStore.step Allowed LogStore.empty ops) :
    ∃ (s : LogStore M V) (d : DurableLogStore M V),
      Runs.exec LogStore.step LogStore.empty ops = some s ∧
      Runs.exec DurableLogStore.step DurableLogStore.empty ops = some d ∧
      d.getLogState = s.getLogState ∧
      (∀ r found, s.tryGetLogEntries r = some found → d.tryGetLogEntries r = some found) ∧
      d.readVote = some s.vote ∧ d.readCommitted = some s.committed ∧
      DurableLogStore.openLog d.ks = some d := by
  have hstep : ∀ (s : LogStore M V) (d : DurableLogStore M V) op, Mirrors s d → Allowed s op →
      ∃ s' d', s.step op = some s' ∧ d.step op = some d' ∧ Mirrors s' d' :=
    fun _ _ _ hm hok => hm.step hok
  obtain ⟨s, d, hs, hd, hm⟩ := Runs.exec_simulation hstep Mirrors.initial h
  exact ⟨s, d, hs, hd, hm.getLogState_eq, fun r found => hm.tryGetLogEntries_eq, hm.readVote_eq,
    hm.readCommitted_eq, hm.openLog_eq⟩

def purgedPastEnd : List (LogOp Unit ℕ) :=
  [.saveVote 1, .append [⟨⟨1, 0⟩, .blank⟩, ⟨⟨1, 1⟩, .blank⟩, ⟨⟨1, 2⟩, .blank⟩], .truncate ⟨1, 1⟩,
    .append [⟨⟨2, 1⟩, .blank⟩], .saveCommitted (some ⟨1, 0⟩), .purge ⟨1, 0⟩, .purge ⟨3, 7⟩]

theorem durable_log_refines_purged : ∃ (s : LogStore Unit ℕ) (d : DurableLogStore Unit ℕ),
      Runs.exec LogStore.step LogStore.empty purgedPastEnd = some s ∧
      Runs.exec DurableLogStore.step DurableLogStore.empty purgedPastEnd = some d ∧
      d.getLogState = s.getLogState ∧ DurableLogStore.openLog d.ks = some d := by
  have hallowed : Runs.Along LogStore.step Allowed LogStore.empty purgedPastEnd := by
    decide +kernel
  obtain ⟨s, d, hs, hd, hstate, -, -, -, hopen⟩ := durable_log_refines hallowed
  exact ⟨s, d, hs, hd, hstate, hopen⟩

end Crabgresql.Replica
