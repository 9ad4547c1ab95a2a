import Crabgresql.Replica.Keys

/-!
# The replicated state machine, in memory and on disk

Both state machines apply committed log entries. The in-memory one routes every
operation through `applyOp` against the live store. The durable one collects a
whole `apply` call into one batch that it cannot read back, and keeps two side
maps for the keys whose put depends on the current value: the running maximum of
each counter and whether each commit-log entry is already decided. A delete goes
to the batch only. The two agree as long as no call puts a counter or commit-log
key after deleting it.
-/

namespace Crabgresql.Replica

open Function List Option

inductive WriteOp
  | put (key : Key) (value : Value)
  | delete (key : Key)
  deriving DecidableEq

def WriteOp.key : WriteOp → Key
  | .put key _ | .delete key => key

structure LogId where
  term : ℕ
  index : ℕ
  deriving DecidableEq

inductive Payload (M : Type)
  | blank
  | normal (ops : List WriteOp)
  | membership (m : M)

structure Entry (M : Type) where
  logId : LogId
  payload : Payload M

structure StoredMembership (M : Type) where
  logId : Option LogId
  membership : M

/-- The stored key-values together with `last_applied` and `last_membership`. -/
structure Machine (M : Type) where
  kv : Contents
  lastApplied : Option LogId
  lastMembership : StoredMembership M

variable {M : Type}
variable {key : Key}
variable {done : List WriteOp} {op : WriteOp}

def Entry.ops (e : Entry M) : List WriteOp :=
  match e.payload with
  | .normal ops => ops
  | .blank | .membership _ => []

/-- The counter stored under `key`; `none` is the panic on a malformed value. -/
def storedCounter (kv : Contents) (key : Key) : Option ℕ :=
  match kv key with
  | some b => u64Be b
  | none => some 0

def applyOp (kv : Contents) : WriteOp → Option Contents
  | .put key value =>
    if isCounterKey key then
      (u64Be value).bind fun incoming => (storedCounter kv key).map fun existing =>
        update kv key (some (u64Bytes (max existing incoming)))
    else if isClogKey key then
      if (kv key).any isTerminal then some kv else some (update kv key (some value))
    else some (update kv key (some value))
  | .delete key => some (update kv key none)

def StateMachineStore.applyEntry (s : Machine M) (e : Entry M) : Option (Machine M) :=
  match e.payload with
  | .blank => some { s with lastApplied := some e.logId }
  | .normal ops =>
    (ops.foldlM applyOp s.kv).map fun kv => { s with lastApplied := some e.logId, kv := kv }
  | .membership m =>
    some { s with lastApplied := some e.logId, lastMembership := ⟨some e.logId, m⟩ }

def StateMachineStore.apply (s : Machine M) (entries : List (Entry M)) : Option (Machine M) :=
  entries.foldlM StateMachineStore.applyEntry s

/-- The locals of one durable `apply` call. -/
structure Pending (M : Type) where
  batch : List (Key × Option Value)
  counters : Key → Option ℕ
  decided : Key → Option Bool
  newMembership : StoredMembership M
  lastId : Option LogId

def Pending.start (s : Machine M) : Pending M :=
  ⟨[], fun _ => none, fun _ => none, s.lastMembership, s.lastApplied⟩

def commitBatch (data : Contents) (batch : List (Key × Option Value)) : Contents :=
  batch.foldl (fun kv w => update kv w.1 w.2) data

def Pending.write (p : Pending M) (key : Key) (value : Option Value) : Pending M :=
  { p with batch := p.batch ++ [(key, value)] }

/-- The counter under `key` across this call and the durable value. -/
def Pending.counter (data : Contents) (p : Pending M) (key : Key) : Option ℕ :=
  match p.counters key with
  | some c => some c
  | none => storedCounter data key

/-- Whether `key` is decided across this call and the durable value. -/
def Pending.alreadyTerminal (data : Contents) (p : Pending M) (key : Key) : Bool :=
  match p.decided key with
  | some t => t
  | none => (data key).any isTerminal

def Pending.count (p : Pending M) (key : Key) (merged : ℕ) : Pending M :=
  { p.write key (some (u64Bytes merged)) with
    counters := update p.counters key (some merged) }

def Pending.decide (p : Pending M) (key : Key) (terminal : Bool) : Pending M :=
  { p with decided := update p.decided key (some terminal) }

def stageOp (data : Contents) (p : Pending M) : WriteOp → Option (Pending M)
  | .put key value =>
    if isCounterKey key then
      (u64Be value).bind fun incoming => (p.counter data key).map fun cur =>
        p.count key (max cur incoming)
    else if isClogKey key then
      if p.alreadyTerminal data key then some (p.decide key true)
      else some ((p.write key (some value)).decide key (isTerminal value))
    else some (p.write key (some value))
  -- the side maps keep what they knew about a deleted key
  | .delete key => some (p.write key none)

def stageEntry (data : Contents) (p : Pending M) (e : Entry M) : Option (Pending M) :=
  match e.payload with
  | .blank => some { p with lastId := some e.logId }
  | .normal ops => ops.foldlM (stageOp data) { p with lastId := some e.logId }
  | .membership m => some { p with lastId := some e.logId, newMembership := ⟨some e.logId, m⟩ }

/-- What the store holds once the batch collected so far is committed. -/
def Pending.machine (data : Contents) (p : Pending M) : Machine M :=
  ⟨commitBatch data p.batch, p.lastId, p.newMembership⟩

def DurableStateMachineStore.apply (s : Machine M) (entries : List (Entry M)) :
    Option (Machine M) :=
  (entries.foldlM (stageEntry s.kv) (Pending.start s)).map (Pending.machine s.kv)

/-- The side maps describe the pending contents at `k`. -/
structure Shadow (data : Contents) (p : Pending M) (k : Key) : Prop where
  counted : isCounterKey k = true → ∀ c, p.counters k = some c →
    c < 256 ^ 8 ∧ (p.machine data).kv k = some (u64Bytes c)
  uncounted : isCounterKey k = true → p.counters k = none → (p.machine data).kv k = data k
  decided : isClogKey k = true → ∀ t, p.decided k = some t →
    ((p.machine data).kv k).any isTerminal = t
  undecided : isClogKey k = true → p.decided k = none → (p.machine data).kv k = data k

theorem machine_write (data : Contents) (p : Pending M) (key : Key) (value : Option Value) :
    (p.write key value).machine data =
      { p.machine data with kv := update (p.machine data).kv key value } := by
  simp [Pending.write, Pending.machine, commitBatch]

theorem machine_count (data : Contents) (p : Pending M) (key : Key) (n : ℕ) :
    (p.count key n).machine data =
      { p.machine data with
        kv := update (p.machine data).kv key (some (u64Bytes n)) } :=
  machine_write data p key _

theorem machine_decide (data : Contents) (p : Pending M) (key : Key) (t : Bool) :
    (p.decide key t).machine data = p.machine data := rfl

theorem shadow_start (s : Machine M) (k : Key) : Shadow s.kv (Pending.start s) k where
  counted := nofun
  uncounted _ _ := rfl
  decided := nofun
  undecided _ _ := rfl

namespace Shadow

variable {data : Contents} {p : Pending M} {k : Key}

theorem counter_eq (h : Shadow data p k) (hk : isCounterKey k = true) :
    p.counter data k = storedCounter (p.machine data).kv k := by
  unfold Pending.counter
  cases hc : p.counters k with
  | none => simp only [storedCounter, h.uncounted hk hc]
  | some c =>
    obtain ⟨hlt, hkv⟩ := h.counted hk c hc
    simp only [storedCounter, hkv, u64Be_u64Bytes hlt]

theorem alreadyTerminal_eq (h : Shadow data p k) (hk : isClogKey k = true) :
    p.alreadyTerminal data k = ((p.machine data).kv k).any isTerminal := by
  unfold Pending.alreadyTerminal
  cases hd : p.decided k with
  | none => simp only [h.undecided hk hd]
  | some t => exact (h.decided hk t hd).symm

end Shadow

theorem storedCounter_lt {kv : Contents} {n : ℕ} (h : storedCounter kv key = some n) : n < 256 ^ 8 := by
  unfold storedCounter at h
  split at h
  · exact u64Be_lt h
  · cases h
    decide

variable {data : Contents} {p p' : Pending M}

/-- Staging an operation and committing is applying it to the pending contents, where the
side maps describe the key it puts. -/
theorem stageOp_applyOp (h : ∀ k v, op = .put k v → Shadow data p k) :
    (stageOp data p op).map (Pending.machine data) =
      (applyOp (p.machine data).kv op).map fun kv => { p.machine data with kv := kv } := by
  cases op with
  | delete => simp [stageOp, applyOp, machine_write]
  | put key value =>
    have hs := h key value rfl
    by_cases hcounter : isCounterKey key = true
    · simp only [stageOp, applyOp, hcounter, if_true, hs.counter_eq hcounter, Option.map_bind,
        Option.map_map, comp_def, machine_count]
    · by_cases hclog : isClogKey key = true
      · simp only [stageOp, applyOp, hcounter, hclog, if_true, if_false, Bool.false_eq_true,
          hs.alreadyTerminal_eq hclog]
        split_ifs <;> simp [machine_write, machine_decide]
      · simp [stageOp, applyOp, hcounter, hclog, machine_write]

/-- What a staged operation can leave behind. -/
inductive Staged (data : Contents) (p : Pending M) : WriteOp → Pending M → Prop
  | counter (key : Key) (value : Value) (incoming cur : ℕ) (hkey : isCounterKey key = true)
      (hin : u64Be value = some incoming) (hcur : p.counter data key = some cur) :
      Staged data p (.put key value) (p.count key (max cur incoming))
  | kept (key : Key) (value : Value) (hkey : isClogKey key = true)
      (hterm : p.alreadyTerminal data key = true) :
      Staged data p (.put key value) (p.decide key true)
  | decision (key : Key) (value : Value) (hkey : isClogKey key = true)
      (hterm : p.alreadyTerminal data key = false) :
      Staged data p (.put key value) ((p.write key (some value)).decide key (isTerminal value))
  | plain (key : Key) (value : Value) (hcounter : isCounterKey key = false)
      (hclog : isClogKey key = false) : Staged data p (.put key value) (p.write key (some value))
  | delete (key : Key) : Staged data p (.delete key) (p.write key none)

theorem staged_of_stageOp (h : stageOp data p op = some p') : Staged data p op p' := by
  cases op with
  | delete key =>
    cases h
    exact .delete key
  | put key value =>
    by_cases hcounter : isCounterKey key = true
    · simp only [stageOp, hcounter, if_true, bind_eq_some_iff, map_eq_some_iff] at h
      obtain ⟨incoming, hin, cur, hcur, rfl⟩ := h
      exact .counter key value incoming cur hcounter hin hcur
    · by_cases hclog : isClogKey key = true
      · simp only [stageOp, hcounter, hclog, if_true, Bool.false_eq_true, if_false] at h
        split_ifs at h with hterm
        · cases h
          exact .kept key value hclog hterm
        · cases h
          exact .decision key value hclog (Bool.eq_false_iff.mpr hterm)
      · simp only [stageOp, hcounter, hclog, Bool.false_eq_true, if_false] at h
        cases h
        exact .plain key value (Bool.eq_false_iff.mpr hcounter) (Bool.eq_false_iff.mpr hclog)

theorem Staged.frame {k : Key} (h : Staged data p op p') (hk : k ≠ op.key) :
    (p'.machine data).kv k = (p.machine data).kv k ∧ p'.counters k = p.counters k ∧
      p'.decided k = p.decided k := by
  cases h with
  | counter =>
    refine ⟨?_, update_of_ne hk _ _, rfl⟩
    rw [machine_count]
    exact update_of_ne hk _ _
  | kept => exact ⟨rfl, rfl, update_of_ne hk _ _⟩
  | decision =>
    refine ⟨?_, rfl, update_of_ne hk _ _⟩
    rw [machine_decide, machine_write]
    exact update_of_ne hk _ _
  | plain | delete =>
    refine ⟨?_, rfl, rfl⟩
    rw [machine_write]
    exact update_of_ne hk _ _

theorem Shadow.put {value : Value} (h : Shadow data p key)
    (hstep : Staged data p (.put key value) p') : Shadow data p' key := by
  have hdisjoint : isClogKey key = true → ¬ isCounterKey key = true := by
    intro hclog
    rw [isCounterKey_of_isClogKey hclog]
    exact Bool.false_ne_true
  cases hstep with
  | counter _ _ incoming cur hkey hin hcur =>
    refine ⟨?_, ?_, fun hclog => absurd hkey (hdisjoint hclog),
      fun hclog => absurd hkey (hdisjoint hclog)⟩
    · intro _ c hc
      have hmerged : max cur incoming = c := by simpa [Pending.count] using hc
      rw [h.counter_eq hkey] at hcur
      rw [← hmerged]
      exact ⟨max_lt (storedCounter_lt hcur) (u64Be_lt hin), by simp [machine_count]⟩
    · intro _ hc
      simp [Pending.count] at hc
  | kept _ _ hkey hterm =>
    refine ⟨fun hc => absurd hc (hdisjoint hkey), fun hc => absurd hc (hdisjoint hkey), ?_, ?_⟩
    · intro _ t ht
      have hflag : true = t := by simpa [Pending.decide] using ht
      rw [← hflag, machine_decide]
      exact (h.alreadyTerminal_eq hkey).symm.trans hterm
    · intro _ hd
      simp [Pending.decide] at hd
  | decision _ _ hkey =>
    refine ⟨fun hc => absurd hc (hdisjoint hkey), fun hc => absurd hc (hdisjoint hkey), ?_, ?_⟩
    · intro _ t ht
      have hflag : isTerminal value = t := by simpa [Pending.decide] using ht
      simp [machine_decide, machine_write, hflag]
    · intro _ hd
      simp [Pending.decide] at hd
  | plain _ _ hcounter hclog => constructor <;> intro hc <;> simp [hcounter, hclog] at hc

theorem Shadow.staged {k : Key} (h : Shadow data p k)
    (hstep : Staged data p op p') (hk : op ≠ .delete k) : Shadow data p' k := by
  by_cases hkey : k = op.key
  · cases op with
    | delete => exact absurd (congrArg WriteOp.delete hkey.symm) hk
    | put =>
      subst hkey
      exact h.put hstep
  · obtain ⟨hkv, hcounters, hdecided⟩ := hstep.frame hkey
    exact ⟨by rw [hkv, hcounters]; exact h.counted, by rw [hkv, hcounters]; exact h.uncounted,
      by rw [hkv, hdecided]; exact h.decided, by rw [hkv, hdecided]; exact h.undecided⟩

def revives : WriteOp → WriteOp → Bool
  | .delete key, .put key' _ => key == key' && (isCounterKey key || isClogKey key)
  | _, _ => false

def NoRevival (entries : List (Entry M)) : Prop :=
  (entries.flatMap Entry.ops).Pairwise fun a b => revives a b = false

instance (entries : List (Entry M)) : Decidable (NoRevival entries) :=
  inferInstanceAs (Decidable (List.Pairwise _ _))

/-- The side maps describe every merged key that was not deleted by `done`. -/
def Shadowed (data : Contents) (p : Pending M) (done : List WriteOp) : Prop :=
  ∀ k, WriteOp.delete k ∉ done → Shadow data p k

theorem shadow_of_unrevived {value : Value}
    (h : Shadowed data p done) (hdone : ∀ op ∈ done, revives op (.put key value) = false) :
    Shadow data p key := by
  by_cases hmem : WriteOp.delete key ∈ done
  · have hplain := hdone _ hmem
    simp only [revives, beq_self_eq_true, Bool.true_and, Bool.or_eq_false_iff] at hplain
    constructor <;> intro hc <;> simp [hplain] at hc
  · exact h key hmem

theorem Shadowed.foldlM {ops : List WriteOp}
    (h : Shadowed data p done) (hops : ops.foldlM (stageOp data) p = some p') :
    Shadowed data p' (done ++ ops) := by
  induction ops generalizing done p with
  | nil =>
    cases hops
    rwa [append_nil]
  | cons op ops ih =>
    rw [foldlM_cons, bind_eq_bind, bind_eq_some_iff] at hops
    obtain ⟨p₁, hstep, hrest⟩ := hops
    rw [append_cons]
    refine ih ?_ hrest
    intro k hk
    rw [mem_append, mem_singleton, not_or] at hk
    exact (h k hk.1).staged (staged_of_stageOp hstep) (Ne.symm hk.2)

theorem foldlM_stageOp {ops : List WriteOp}
    (h : Shadowed data p done) (hops : (done ++ ops).Pairwise fun a b => revives a b = false) :
    (ops.foldlM (stageOp data) p).map (Pending.machine data) =
      (ops.foldlM applyOp (p.machine data).kv).map fun kv => { p.machine data with kv := kv } := by
  induction ops generalizing done p with
  | nil => rfl
  | cons op ops ih =>
    have hput : ∀ k v, op = .put k v → Shadow data p k := by
      rintro k v rfl
      have hdone := (pairwise_append.mp hops).2.2
      exact shadow_of_unrevived h fun d hd => hdone d hd _ (mem_cons_self ..)
    have hone := stageOp_applyOp hput
    rw [foldlM_cons, foldlM_cons]
    cases hstep : stageOp data p op with
    | none =>
      rw [hstep] at hone
      have hnone : applyOp (p.machine data).kv op = none := by
        simpa using hone.symm
      rw [hnone]
      rfl
    | some p₁ =>
      rw [hstep] at hone
      obtain ⟨kv₁, hkv, hmachine⟩ := map_eq_some_iff.mp hone.symm
      have hdone : Shadowed data p₁ (done ++ [op]) := by
        refine h.foldlM ?_
        rw [foldlM_cons, hstep]
        rfl
      have hrest := ih hdone (by rwa [append_cons] at hops)
      rw [← hmachine] at hrest
      rw [hkv]
      exact hrest

theorem Shadowed.relabel (h : Shadowed data p done) (id : Option LogId) (m : StoredMembership M) :
    Shadowed data { p with lastId := id, newMembership := m } done :=
  fun k hk => ⟨(h k hk).counted, (h k hk).uncounted, (h k hk).decided, (h k hk).undecided⟩

theorem Shadowed.stageEntry {e : Entry M}
    (h : Shadowed data p done) (he : stageEntry data p e = some p') :
    Shadowed data p' (done ++ e.ops) := by
  obtain ⟨logId, payload⟩ := e
  cases payload with
  | normal => exact (h.relabel (some logId) p.newMembership).foldlM he
  | blank | membership =>
    cases he
    rw [Entry.ops, append_nil]
    exact h.relabel _ _

theorem stageEntry_applyEntry {e : Entry M}
    (h : Shadowed data p done) (hops : (done ++ e.ops).Pairwise fun a b => revives a b = false) :
    (stageEntry data p e).map (Pending.machine data) =
      StateMachineStore.applyEntry (p.machine data) e := by
  obtain ⟨logId, payload⟩ := e
  cases payload with
  | normal => exact foldlM_stageOp (h.relabel (some logId) p.newMembership) hops
  | blank | membership => rfl

theorem foldlM_stageEntry {entries : List (Entry M)} (h : Shadowed data p done)
    (hops : (done ++ entries.flatMap Entry.ops).Pairwise fun a b => revives a b = false) :
    (entries.foldlM (stageEntry data) p).map (Pending.machine data) =
      StateMachineStore.apply (p.machine data) entries := by
  induction entries generalizing done p with
  | nil => rfl
  | cons e entries ih =>
    rw [flatMap_cons, ← append_assoc] at hops
    have hone := stageEntry_applyEntry h (pairwise_append.mp hops).1
    rw [StateMachineStore.apply, foldlM_cons, foldlM_cons, ← hone]
    cases hstep : stageEntry data p e with
    | none => rfl
    | some => exact ih (h.stageEntry hstep) hops

theorem durable_apply_eq {s : Machine M} {entries : List (Entry M)} (h : NoRevival entries) :
    DurableStateMachineStore.apply s entries = StateMachineStore.apply s entries :=
  have hstart : Shadowed s.kv (Pending.start s) [] := fun k _ => shadow_start s k
  foldlM_stageEntry hstart h

/-- However the entries are cut into calls, the durable state machine ends where the
in-memory one does. -/
theorem durable_apply_cuts (s : Machine M) (calls : List (List (Entry M)))
    (h : ∀ call ∈ calls, NoRevival call) :
    calls.foldlM DurableStateMachineStore.apply s = StateMachineStore.apply s calls.flatten := by
  induction calls generalizing s with
  | nil => rfl
  | cons call calls ih =>
    rw [foldlM_cons, flatten_cons, StateMachineStore.apply, foldlM_append,
      durable_apply_eq (h call (mem_cons_self ..))]
    have hrest := fun s' => ih s' fun c hc => h c (mem_cons_of_mem _ hc)
    exact congrArg _ (funext hrest)

/-- The operations of DROP TABLE, over the row keys its prefix scan found. -/
def dropTableOps (name : String) (t : Mvcc.TableId) (rowKeys : List Key) : List WriteOp :=
  .delete (catalogKey name) :: .delete (seqKey t) :: rowKeys.map .delete

def emptyMachine : Machine Unit := ⟨fun _ => none, none, ⟨none, ()⟩⟩

/-- Two inserts took rowids 4 and 5 of table 7. The second commits first, the table is
dropped, and then the batch of the first arrives with the lower sequence value. -/
def secondInsert : Entry Unit := ⟨⟨1, 0⟩, .normal [.put (seqKey 7) (u64Bytes 6)]⟩

def dropTable : Entry Unit := ⟨⟨1, 1⟩, .normal (dropTableOps "t" 7 [])⟩

def firstInsert : Entry Unit := ⟨⟨1, 2⟩, .normal [.put (seqKey 7) (u64Bytes 5)]⟩

def sequenceOf (s : Machine Unit) : Option Value := s.kv (seqKey 7)

theorem durable_apply_diverges :
    (StateMachineStore.apply emptyMachine [secondInsert, dropTable, firstInsert]).map sequenceOf =
        some (some (u64Bytes 5)) ∧
      ([[secondInsert], [dropTable], [firstInsert]].foldlM DurableStateMachineStore.apply
        emptyMachine).map sequenceOf = some (some (u64Bytes 5)) ∧
      ([[secondInsert], [dropTable, firstInsert]].foldlM DurableStateMachineStore.apply
        emptyMachine).map sequenceOf = some (some (u64Bytes 6)) := by
  decide

theorem durable_apply_cuts_drop :
    [[secondInsert, dropTable], [firstInsert]].foldlM DurableStateMachineStore.apply
        emptyMachine =
      StateMachineStore.apply emptyMachine [secondInsert, dropTable, firstInsert] :=
  durable_apply_cuts emptyMachine [[secondInsert, dropTable], [firstInsert]] (by decide)

end Crabgresql.Replica
