import Crabgresql.Lib.Runs
import Crabgresql.Lib.WriteOnce
import Crabgresql.Replica.Machine

/-!
# Decisions on the replicas of range 0

The replicas of one group apply the same committed log, each in its own cuts,
restart from their durable state, and replace their state by a snapshot that
another replica built. `build_snapshot` reads the applied index and then scans
the store, two separate steps. A decision call appends its record and reads the
outcome back from its own replica once that has applied it.
-/

namespace Crabgresql.Replica

open Mvcc List Option Runs Nat Entry DurableStateMachineStore

abbrev ReplicaId := ℕ

structure Snapshot (M : Type) where
  lastLogId : Option LogId
  lastMembership : StoredMembership M
  kv : Contents

structure ReplicaState (M : Type) where
  machine : Machine M
  /-- The metadata of a snapshot whose scan is still to come. -/
  building : Option (Option LogId × StoredMembership M)

/-- A `commit_global_decision` call whose record stands at `index` of the log. -/
structure DecisionCall where
  replica : ReplicaId
  g : Xid
  index : ℕ
  deriving DecidableEq

structure Group (M : Type) where
  log : List (Entry M)
  replicas : ReplicaId → ReplicaState M
  snapshots : List (Snapshot M)
  calls : List DecisionCall
  answers : List (DecisionCall × Except String XidStatus)

inductive GroupAct (M : Type)
  /-- An entry of any other proposer commits. -/
  | append (term : ℕ) (payload : Payload M)
  | commitGlobalDecision (r : ReplicaId) (term : ℕ) (g : Xid) (commit : Bool) (nextGlobal : ℕ)
  | readBack (c : DecisionCall)
  /-- The next `n` committed entries arrive in one call. -/
  | apply (r : ReplicaId) (n : ℕ)
  | crash (r : ReplicaId)
  | readMeta (r : ReplicaId)
  | scan (r : ReplicaId)
  | installSnapshot (r : ReplicaId) (i : ℕ)

variable {M : Type}
variable {k : Key} {v : Value} {data : Contents} {n : ℕ} {r : ReplicaId}

/-- How many entries of the log an applied index covers. -/
def position : Option LogId → ℕ
  | none => 0
  | some id => id.index + 1

def Group.applied (G : Group M) (r : ReplicaId) : ℕ :=
  position (G.replicas r).machine.lastApplied

def Group.status (G : Group M) (r : ReplicaId) (g : Xid) : Except String XidStatus :=
  clogGet (G.replicas r).machine.kv g

def Group.initial (m : M) : Group M :=
  ⟨[], fun _ => ⟨⟨fun _ => none, none, ⟨none, m⟩⟩, none⟩, [], [], []⟩

def Group.setReplica (G : Group M) (r : ReplicaId) (R : ReplicaState M) : Group M :=
  { G with replicas := Function.update G.replicas r R }

def Group.append (G : Group M) (term : ℕ) (payload : Payload M) : Group M :=
  { G with log := G.log ++ [⟨⟨term, G.log.length⟩, payload⟩] }

def putOp (x : Xid) (st : XidStatus) : WriteOp := .put (clogKey x) (encode st)

def decisionOps (g : Xid) (commit : Bool) (nextGlobal : ℕ) : List WriteOp :=
  [putOp g (if commit then .committed else .aborted),
    .put metaNextGlobalXidKey (u64Bytes nextGlobal)]

def Group.step (G : Group M) : GroupAct M → Option (Group M)
  | .append term payload => some (G.append term payload)
  | .commitGlobalDecision r term g commit nextGlobal =>
    let H := G.append term (.normal (decisionOps g commit nextGlobal))
    some { H with calls := ⟨r, g, G.log.length⟩ :: G.calls }
  | .readBack c =>
    -- the commit returns once the leader's own replica has applied the record
    if c ∈ G.calls ∧ c.index < G.applied c.replica then
      some { G with
        calls := G.calls.erase c
        answers := (c, G.status c.replica c.g) :: G.answers }
    else none
  | .apply r n =>
    let R := G.replicas r
    (apply R.machine ((G.log.drop (G.applied r)).take n)).map fun s =>
      G.setReplica r { R with machine := s }
  | .crash r =>
    -- data and metadata are one batch, so a restart finds them together
    some { G.setReplica r { G.replicas r with building := none } with
      calls := G.calls.filter (·.replica != r) }
  | .readMeta r =>
    let R := G.replicas r
    some (G.setReplica r
      { R with building := some (R.machine.lastApplied, R.machine.lastMembership) })
  | .scan r =>
    let R := G.replicas r
    R.building.map fun b =>
      { G.setReplica r { R with building := none } with
        snapshots := G.snapshots ++ [⟨b.1, b.2, R.machine.kv⟩] }
  | .installSnapshot r i =>
    G.snapshots[i]?.bind fun s =>
      if G.applied r < position s.lastLogId then
        some (G.setReplica r
          { G.replicas r with machine := ⟨s.kv, s.lastLogId, s.lastMembership⟩ })
      else none

/-- The operation leaves the commit log's keys in place. -/
def KeepsClog (op : WriteOp) : Prop := ∀ k, op = .delete k → isClogKey k = false

instance (op : WriteOp) : Decidable (KeepsClog op) :=
  match op with
  | .put _ _ => isTrue nofun
  | .delete key =>
    if h : isClogKey key = false then isTrue fun _ hk => by cases hk; exact h
    else isFalse fun hk => h (hk key rfl)

/-- No entry deletes a commit-log key, and a snapshot's scan reads the contents of the applied
index it was labelled with. -/
def Sound (G : Group M) : GroupAct M → Prop
  | .append term payload => ∀ op ∈ ops ⟨⟨term, G.log.length⟩, payload⟩, KeepsClog op
  | .scan r => ∀ b ∈ (G.replicas r).building, b.1 = (G.replicas r).machine.lastApplied
  | _ => True

instance (G : Group M) (a : GroupAct M) : Decidable (Sound G a) := by
  unfold Sound
  split <;> infer_instance

/-! ## What one call does to a commit-log key -/

def WriteOp.putsOn (k : Key) : WriteOp → Option Value
  | .put key value => if key = k then some value else none
  | .delete _ => none

def putsOn (k : Key) (entries : List (Entry M)) : List Value :=
  (entries.flatMap ops).filterMap (WriteOp.putsOn k)

/-- The first terminal value the log puts under `k`. -/
def decision (entries : List (Entry M)) (k : Key) : Option Value :=
  (putsOn k entries).find? isTerminal

theorem putsOn_append (k : Key) (as bs : List (Entry M)) :
    putsOn k (as ++ bs) = putsOn k as ++ putsOn k bs := by
  simp [putsOn]

theorem decision_append (as bs : List (Entry M)) (k : Key) :
    decision (as ++ bs) k = (decision as k).or (decision bs k) := by
  rw [decision, putsOn_append, find?_append]
  rfl

variable {log entries : List (Entry M)} {p p' : Pending M} {G H : Group M}

theorem terminal_of_decision (h : decision log k = some v) : isTerminal v = true :=
  find?_some h

theorem decision_mono {as bs : List (Entry M)} (hpre : as <+: bs) (h : decision as k = some v) :
    decision bs k = some v := by
  obtain ⟨cs, rfl⟩ := hpre
  rw [decision_append, h, some_or]

theorem kv_stageOp {op : WriteOp} (hclog : isClogKey k = true)
    (hkeeps : KeepsClog op) (hs : Shadow data p k) (h : stageOp data p op = some p') :
    (p'.machine data).kv k =
      WriteOnce.writes isTerminal ((p.machine data).kv k) (op.putsOn k).toList := by
  have hcounter := isCounterKey_of_isClogKey hclog
  by_cases hkey : op.key = k
  · cases op with
    | delete key =>
      have hgone : isClogKey k = false := by
        rw [← hkey]
        exact hkeeps key rfl
      rw [hclog] at hgone
      cases hgone
    | put key =>
      have hkey' : key = k := hkey
      subst hkey'
      simp only [stageOp, hcounter, hclog, if_true, Bool.false_eq_true, if_false,
        hs.alreadyTerminal_eq hclog] at h
      simp only [WriteOp.putsOn, if_true, toList_some, WriteOnce.writes, foldl_cons,
        foldl_nil, WriteOnce.write]
      split_ifs at h ⊢ with hterm
      · cases h
        rfl
      · cases h
        simp [machine_decide, machine_write]
  · have hputs : op.putsOn k = none := by
      cases op with
      | delete => rfl
      | put => exact if_neg hkey
    rw [hputs]
    exact ((staged_of_stageOp h).frame (Ne.symm hkey)).1

theorem ne_delete_of_keepsClog {op : WriteOp} (hclog : isClogKey k = true) (h : KeepsClog op) :
    op ≠ .delete k := by
  intro hop
  rw [h k hop] at hclog
  cases hclog

theorem kv_foldlM_stageOp {ops : List WriteOp} (hclog : isClogKey k = true)
    (hkeeps : ∀ op ∈ ops, KeepsClog op) (hs : Shadow data p k)
    (h : ops.foldlM (stageOp data) p = some p') : Shadow data p' k ∧ (p'.machine data).kv k =
      WriteOnce.writes isTerminal ((p.machine data).kv k) (ops.filterMap (·.putsOn k)) := by
  induction ops generalizing p with
  | nil =>
    cases h
    exact ⟨hs, rfl⟩
  | cons op ops ih =>
    rw [foldlM_cons, bind_eq_bind, bind_eq_some_iff] at h
    obtain ⟨p₁, hstep, hrest⟩ := h
    have hop := hkeeps op (mem_cons_self ..)
    have hs₁ := hs.staged (staged_of_stageOp hstep) (ne_delete_of_keepsClog hclog hop)
    obtain ⟨hs', hkv⟩ := ih (fun o ho => hkeeps o (mem_cons_of_mem _ ho)) hs₁ hrest
    refine ⟨hs', ?_⟩
    rw [hkv, kv_stageOp hclog hop hs hstep, WriteOnce.writes_append]
    congr 1
    cases hput : op.putsOn k <;> simp [hput]

theorem stageEntry_eq_foldlM {e : Entry M} (h : stageEntry data p e = some p') :
    ∃ q, e.ops.foldlM (stageOp data) q = some p' ∧ q.lastId = some e.logId ∧
      q.batch = p.batch ∧ q.counters = p.counters ∧ q.decided = p.decided := by
  obtain ⟨logId, payload⟩ := e
  cases payload with
  | normal => exact ⟨_, h, rfl, rfl, rfl, rfl⟩
  | blank | membership =>
    cases h
    exact ⟨_, rfl, rfl, rfl, rfl, rfl⟩

theorem lastId_foldlM_stageOp {ops : List WriteOp}
    (h : ops.foldlM (stageOp data) p = some p') : p'.lastId = p.lastId := by
  induction ops generalizing p with
  | nil =>
    cases h
    rfl
  | cons op ops ih =>
    rw [foldlM_cons, bind_eq_bind, bind_eq_some_iff] at h
    obtain ⟨p₁, hstep, hrest⟩ := h
    rw [ih hrest]
    cases staged_of_stageOp hstep <;> rfl

def lastLogId (id : Option LogId) (entries : List (Entry M)) : Option LogId :=
  entries.foldl (fun _ e => some e.logId) id

theorem foldlM_stageEntry_spec (h : entries.foldlM (stageEntry data) p = some p') :
    p'.lastId = lastLogId p.lastId entries ∧
      ∀ k, isClogKey k = true → (∀ op ∈ entries.flatMap ops, KeepsClog op) →
        Shadow data p k → (p'.machine data).kv k =
          WriteOnce.writes isTerminal ((p.machine data).kv k) (putsOn k entries) := by
  induction entries generalizing p with
  | nil =>
    cases h
    exact ⟨rfl, fun k _ _ _ => rfl⟩
  | cons e entries ih =>
    rw [foldlM_cons, bind_eq_bind, bind_eq_some_iff] at h
    obtain ⟨p₁, hentry, hrest⟩ := h
    obtain ⟨q, hops, hid, hbatch, hcounters, hdecided⟩ := stageEntry_eq_foldlM hentry
    obtain ⟨hlast, hkv⟩ := ih hrest
    constructor
    · rw [hlast, lastId_foldlM_stageOp hops, hid]
      rfl
    · intro k hclog hkeeps hs
      simp only [flatMap_cons, mem_append] at hkeeps
      have hcontents : (q.machine data).kv = (p.machine data).kv := by
        simp only [Pending.machine, hbatch]
      have hq : Shadow data q k := by
        refine ⟨?_, ?_, ?_, ?_⟩ <;> rw [hcontents]
        · rw [hcounters]
          exact hs.counted
        · rw [hcounters]
          exact hs.uncounted
        · rw [hdecided]
          exact hs.decided
        · rw [hdecided]
          exact hs.undecided
      obtain ⟨hs₁, hkv₁⟩ := kv_foldlM_stageOp hclog (fun op hop => hkeeps op (.inl hop)) hq hops
      rw [hkv k hclog (fun op hop => hkeeps op (.inr hop)) hs₁, hkv₁, hcontents,
        WriteOnce.writes_append, putsOn, putsOn, flatMap_cons, filterMap_append]

theorem durable_apply_spec {s s' : Machine M}
    (h : apply s entries = some s') :
    s'.lastApplied = lastLogId s.lastApplied entries ∧
      ∀ k, isClogKey k = true → (∀ op ∈ entries.flatMap ops, KeepsClog op) →
        s'.kv k = WriteOnce.writes isTerminal (s.kv k) (putsOn k entries) := by
  obtain ⟨p, hp, rfl⟩ := map_eq_some_iff.mp h
  obtain ⟨hlast, hkv⟩ := foldlM_stageEntry_spec hp
  exact ⟨hlast, fun k hclog hkeeps => hkv k hclog hkeeps (shadow_start s k)⟩

theorem position_lastLogId {id : Option LogId}
    (h : ∀ i e, entries[i]? = some e → e.logId.index = position id + i) :
    position (lastLogId id entries) = position id + entries.length := by
  induction entries generalizing id with
  | nil => rfl
  | cons e entries ih =>
    have hhead : position (some e.logId) = position id + 1 := by
      have hzero := h 0 e rfl
      simp only [position, add_zero] at hzero ⊢
      omega
    have htail := @ih (some e.logId) (by
      intro i f hf
      have hsucc := h (i + 1) f hf
      omega)
    rw [lastLogId, foldl_cons, length_cons]
    rw [lastLogId] at htail
    omega

/-! ## Every replica holds the log's decisions -/

/-- The store holds exactly the decisions of the first `n` entries. -/
structure Agrees (log : List (Entry M)) (kv : Contents) (n : ℕ) : Prop where
  bound : n ≤ log.length
  settled : ∀ k v, isClogKey k = true → isTerminal v = true →
    (kv k = some v ↔ decision (log.take n) k = some v)

theorem Agrees.append {kv : Contents} (h : Agrees log kv n)
    (es : List (Entry M)) : Agrees (log ++ es) kv n where
  bound := by
    rw [length_append]
    exact le_add_right_of_le h.bound
  settled := by
    rw [take_append_of_le_length h.bound]
    exact h.settled

theorem Agrees.apply {kv kv' : Contents} (h : Agrees log kv n)
    (hlog : log.take (n + entries.length) = log.take n ++ entries)
    (hlen : n + entries.length ≤ log.length) (hkv : ∀ k, isClogKey k = true → kv' k =
      WriteOnce.writes isTerminal (kv k) (putsOn k entries)) :
    Agrees log kv' (n + entries.length) := by
  refine ⟨hlen, ?_⟩
  intro k v hclog hv
  have hold := fun w hw => h.settled k w hclog hw
  rw [hkv k hclog, hlog, decision_append]
  cases hterm : (kv k).any isTerminal with
  | true =>
    obtain ⟨w, hw, hwterm⟩ := (Option.any_eq_true _ _).mp hterm
    rw [WriteOnce.writes_of_terminal hterm, (hold w hwterm).mp hw, hw, some_or]
  | false =>
    have hnone : decision (log.take n) k = none := by
      cases hd : decision (log.take n) k with
      | none => rfl
      | some w =>
        have hw := terminal_of_decision hd
        rw [(hold w hw).mpr hd, any_some, hw] at hterm
        cases hterm
    rw [WriteOnce.writes_eq_some_iff hterm hv, hnone, none_or]
    rfl

structure GroupInv (G : Group M) : Prop where
  indexed : ∀ (i : ℕ) (e : Entry M), G.log[i]? = some e → e.logId.index = i
  keeps : ∀ op ∈ G.log.flatMap ops, KeepsClog op
  replicas : ∀ r, Agrees G.log (G.replicas r).machine.kv (G.applied r)
  snapshots : ∀ s ∈ G.snapshots, Agrees G.log s.kv (position s.lastLogId)
  calls : ∀ c ∈ G.calls, ∃ v, decision (G.log.take (c.index + 1)) (clogKey c.g) = some v
  answers : ∀ a ∈ G.answers, ∃ v,
    decision (G.log.take (a.1.index + 1)) (clogKey a.1.g) = some v ∧ a.2 = decode v

/-- The log and every replica's applied index only grow. -/
structure Grows (G H : Group M) : Prop where
  log : G.log <+: H.log
  applied : ∀ r, G.applied r ≤ H.applied r

theorem Grows.refl (G : Group M) : Grows G G := ⟨prefix_rfl, fun _ => le_refl _⟩

theorem Grows.trans {K : Group M} (h : Grows G H) (h' : Grows H K) : Grows G K :=
  ⟨h.log.trans h'.log, fun r => (h.applied r).trans (h'.applied r)⟩

theorem Grows.setReplica {R : ReplicaState M}
    (h : G.applied r ≤ position R.machine.lastApplied) : Grows G (G.setReplica r R) := by
  refine ⟨prefix_rfl, ?_⟩
  intro r'
  by_cases hr : r' = r
  · subst hr
    simpa [Group.applied, Group.setReplica] using h
  · simp [Group.applied, Group.setReplica, hr]

theorem GroupInv.initial (m : M) : GroupInv (Group.initial m) where
  indexed := nofun
  keeps := nofun
  replicas _ := ⟨Nat.le_refl _, fun _ _ _ _ => ⟨nofun, nofun⟩⟩
  snapshots := nofun
  calls := nofun
  answers := nofun

theorem decision_take_append {es : List (Entry M)} (h : decision (log.take n) k = some v) :
    decision ((log ++ es).take n) k = some v :=
  decision_mono ((prefix_append log es).take n) h

theorem GroupInv.append (h : GroupInv G) (term : ℕ) (payload : Payload M)
    (hkeeps : ∀ op ∈ ops ⟨⟨term, G.log.length⟩, payload⟩, KeepsClog op) :
    GroupInv (G.append term payload) where
  indexed := by
    intro i e he
    rw [Group.append, getElem?_append] at he
    split_ifs at he with hi
    · exact h.indexed i e he
    · rw [getElem?_singleton, ite_none_right_eq_some] at he
      obtain ⟨hzero, he⟩ := he
      cases he
      show G.log.length = i
      omega
  keeps := by
    intro op hop
    rw [Group.append, flatMap_append, mem_append] at hop
    rcases hop with hop | hop
    · exact h.keeps op hop
    · rw [flatMap_singleton] at hop
      exact hkeeps op hop
  replicas r := (h.replicas r).append _
  snapshots s hs := (h.snapshots s hs).append _
  calls c hc := by
    obtain ⟨v, hv⟩ := h.calls c hc
    exact ⟨v, decision_take_append hv⟩
  answers a ha := by
    obtain ⟨v, hv, hstatus⟩ := h.answers a ha
    exact ⟨v, decision_take_append hv, hstatus⟩

theorem GroupInv.setReplica (h : GroupInv G) {R : ReplicaState M}
    (hR : Agrees G.log R.machine.kv (position R.machine.lastApplied)) :
    GroupInv (G.setReplica r R) where
  indexed := h.indexed
  keeps := h.keeps
  replicas r' := by
    by_cases hr : r' = r
    · subst hr
      simpa [Group.applied, Group.setReplica] using hR
    · simpa [Group.applied, Group.setReplica, hr] using h.replicas r'
  snapshots := h.snapshots
  calls := h.calls
  answers := h.answers

theorem GroupInv.idle (h : GroupInv G) (r : ReplicaId) :
    GroupInv (G.setReplica r { G.replicas r with building := none }) ∧
      Grows G (G.setReplica r { G.replicas r with building := none }) :=
  ⟨h.setReplica (h.replicas r), Grows.setReplica (le_refl _)⟩

theorem decision_recorded (log : List (Entry M)) (id : LogId) (g : Xid) (commit : Bool) (n : ℕ) :
    ∃ v, decision (log ++ [⟨id, .normal (decisionOps g commit n)⟩]) (clogKey g) = some v := by
  rw [decision_append]
  cases decision log (clogKey g) with
  | some v => exact ⟨v, rfl⟩
  | none =>
    refine ⟨encode (if commit then .committed else .aborted), ?_⟩
    cases commit <;>
      simp [decision, putsOn, ops, decisionOps, putOp, WriteOp.putsOn, encode, isTerminal]

theorem keepsClog_decisionOps (g : Xid) (commit : Bool) (n : ℕ) :
    ∀ op ∈ decisionOps g commit n, KeepsClog op := by
  intro op hop k hk
  subst hk
  simp [decisionOps, putOp] at hop

theorem GroupInv.holds (h : GroupInv G) {g : Xid} (hn : n ≤ G.applied r)
    (hv : decision (G.log.take n) (clogKey g) = some v) : G.status r g = decode v := by
  have hmono := decision_mono ( take_prefix_take_left hn) hv
  have hkv := ((h.replicas r).settled _ v (isClogKey_clogKey g) (terminal_of_decision hv)).mpr hmono
  rw [Group.status, clogGet, hkv, getD_some]

theorem GroupInv.apply (h : GroupInv G) {s : Machine M}
    (hs : apply (G.replicas r).machine
      ((G.log.drop (G.applied r)).take n) = some s) :
    Agrees G.log s.kv (position s.lastApplied) ∧ G.applied r ≤ position s.lastApplied := by
  generalize hentries : (G.log.drop (G.applied r)).take n = entries at hs
  have hpre : entries <+: G.log.drop (G.applied r) := hentries ▸ take_prefix _ _
  have hmem : ∀ e ∈ entries, e ∈ G.log :=
    fun e he => mem_of_mem_drop (hpre.subset he)
  have hlen := hpre.length_le
  rw [length_drop] at hlen
  have hbound := (h.replicas r).bound
  obtain ⟨hlast, hkv⟩ := durable_apply_spec hs
  have hposition : position s.lastApplied = G.applied r + entries.length := by
    rw [hlast]
    refine position_lastLogId ?_
    intro i e he
    refine h.indexed _ e ?_
    obtain ⟨rest, hrest⟩ := hpre
    have hi : i < entries.length := (List.getElem?_eq_some_iff.mp he).1
    have hget : (G.log.drop (G.applied r))[i]? = some e := by
      rw [← hrest, getElem?_append_left hi, he]
    rwa [getElem?_drop] at hget
  rw [hposition]
  refine ⟨(h.replicas r).apply ?_ (by omega) ?_, le_add_right _ _⟩
  · rw [take_add, ← prefix_iff_eq_take.mp hpre]
  · intro k hclog
    refine hkv k hclog ?_
    intro op hop
    obtain ⟨e, he, hope⟩ := mem_flatMap.mp hop
    exact h.keeps op (mem_flatMap.mpr ⟨e, hmem e he, hope⟩)

theorem groupInv_step {a : GroupAct M} (h : GroupInv G) (hok : Sound G a)
    (hstep : G.step a = some H) : GroupInv H ∧ Grows G H := by
  cases a with
  | append term payload =>
    cases hstep
    exact ⟨h.append term payload hok, ⟨prefix_append _ _, fun _ => le_refl _⟩⟩
  | commitGlobalDecision r term g commit nextGlobal =>
    cases hstep
    have hH := h.append term (.normal (decisionOps g commit nextGlobal))
      (keepsClog_decisionOps g commit nextGlobal)
    refine ⟨⟨hH.indexed, hH.keeps, hH.replicas, hH.snapshots, ?_, hH.answers⟩,
      ⟨prefix_append _ _, fun _ => le_refl _⟩⟩
    intro c hc
    rcases mem_cons.mp hc with rfl | hc
    · obtain ⟨v, hv⟩ := decision_recorded G.log ⟨term, G.log.length⟩ g commit nextGlobal
      refine ⟨v, ?_⟩
      rw [Group.append, take_of_length_le (by simp)]
      exact hv
    · exact hH.calls c hc
  | readBack c =>
    simp only [Group.step, ite_none_right_eq_some] at hstep
    obtain ⟨⟨hcall, hindex⟩, hH⟩ := hstep
    cases hH
    refine ⟨⟨h.indexed, h.keeps, h.replicas, h.snapshots, ?_, ?_⟩,
      ⟨prefix_rfl, fun _ => le_refl _⟩⟩
    · exact fun d hd => h.calls d (mem_of_mem_erase hd)
    · intro a ha
      rcases mem_cons.mp ha with rfl | ha
      · obtain ⟨v, hv⟩ := h.calls c hcall
        exact ⟨v, hv, h.holds hindex hv⟩
      · exact h.answers a ha
  | apply =>
    obtain ⟨s, hs, rfl⟩ := map_eq_some_iff.mp hstep
    obtain ⟨hagrees, hgrows⟩ := h.apply hs
    exact ⟨h.setReplica hagrees, Grows.setReplica hgrows⟩
  | crash r =>
    cases hstep
    have hH := h.idle r
    refine ⟨⟨hH.1.indexed, hH.1.keeps, hH.1.replicas, hH.1.snapshots, ?_, hH.1.answers⟩,
      ⟨hH.2.log, hH.2.applied⟩⟩
    exact fun c hc => h.calls c (mem_of_mem_filter hc)
  | readMeta r =>
    cases hstep
    exact ⟨h.setReplica (h.replicas r), Grows.setReplica (le_refl _)⟩
  | scan r =>
    obtain ⟨b, hb, rfl⟩ := map_eq_some_iff.mp hstep
    have hH := h.idle r
    refine ⟨⟨hH.1.indexed, hH.1.keeps, hH.1.replicas, ?_, hH.1.calls, hH.1.answers⟩,
      ⟨hH.2.log, hH.2.applied⟩⟩
    intro s hs
    rcases mem_append.mp hs with hs | hs
    · exact h.snapshots s hs
    · rw [mem_singleton.mp hs, hok b hb]
      exact h.replicas r
  | installSnapshot =>
    obtain ⟨s, hs, hguard⟩ := bind_eq_some_iff.mp hstep
    rw [ite_none_right_eq_some] at hguard
    obtain ⟨hlonger, hH⟩ := hguard
    cases hH
    exact ⟨h.setReplica (h.snapshots s (mem_of_getElem? hs)),
      Grows.setReplica (le_of_lt hlonger)⟩

theorem groupInv_exec {m : M} {as bs : List (GroupAct M)}
    (hG : exec Group.step (Group.initial m) as = some G) (hH : exec Group.step G bs = some H)
    (hok : Along Group.step Sound (Group.initial m) (as ++ bs)) :
    GroupInv G ∧ GroupInv H ∧ Grows G H := by
  obtain ⟨hokG, hokH⟩ := along_append hok hG
  have hinv : GroupInv G :=
    exec_invariant (fun _ _ _ h ha hs => (groupInv_step h ha hs).1) (GroupInv.initial m)
      hokG hG
  have hrun : GroupInv H ∧ Grows G H :=
    exec_invariant (I := fun K => GroupInv K ∧ Grows G K)
      (fun _ _ _ h ha hs => ⟨(groupInv_step h.1 ha hs).1, h.2.trans (groupInv_step h.1 ha hs).2⟩)
      ⟨hinv, Grows.refl G⟩ hokH hH
  exact ⟨hinv, hrun⟩

/-! ## Reading a status from its bytes -/

theorem decode_of_isTerminal (h : isTerminal v = true) :
    ∃ st : XidStatus, st.isTerminal = true ∧ decode v = .ok st := by
  cases v with
  | nil => cases h
  | cons =>
    simp only [isTerminal, head?_cons, Bool.or_eq_true, beq_iff_eq, Option.some.injEq] at h
    rcases h with rfl | rfl
    · exact ⟨.committed, rfl, rfl⟩
    · exact ⟨.aborted, rfl, rfl⟩

theorem isTerminal_of_decode {st : XidStatus} (hst : st.isTerminal = true) (h : decode v = .ok st) :
    isTerminal v = true := by
  unfold decode at h
  split at h
  · cases h
    cases hst
  · cases h
    cases hst
  · rfl
  · rfl
  · split_ifs at h
    cases h
    cases hst
  · cases h

theorem GroupInv.decision_of_status (h : GroupInv G) {g : Xid} {st : XidStatus}
    (hst : st.isTerminal = true) (hstatus : G.status r g = .ok st) :
    ∃ v, decision (G.log.take (G.applied r)) (clogKey g) = some v ∧ decode v = .ok st := by
  rw [Group.status, clogGet] at hstatus
  cases hkv : (G.replicas r).machine.kv (clogKey g) with
  | none =>
    rw [hkv] at hstatus
    cases hstatus
    cases hst
  | some v =>
    rw [hkv, getD_some] at hstatus
    have hterm := isTerminal_of_decode hst hstatus
    exact ⟨v, ((h.replicas r).settled _ v (isClogKey_clogKey g) hterm).mp hkv, hstatus⟩

def firstGlobal : Xid := globalXidBase

/-- Replica 0 reads its metadata before it applies a decision and scans its store after, so
replica 1 holds the decision under an earlier index; a later index of replica 2, which has
not applied the decision, then replaces it. -/
def tornSnapshot : List (GroupAct Unit) :=
  [.append 1 .blank, .append 1 .blank, .commitGlobalDecision 0 1 firstGlobal true 0,
    .apply 0 1, .readMeta 0, .apply 0 2, .scan 0, .installSnapshot 1 0]

def laterSnapshot : List (GroupAct Unit) :=
  [.apply 2 2, .readMeta 2, .scan 2, .installSnapshot 1 1]

def decidedLog : List (GroupAct Unit) := [.commitGlobalDecision 0 1 firstGlobal true 0, .apply 0 1]

def deletedLog : List (GroupAct Unit) :=
  [.append 1 (.normal [.delete (clogKey firstGlobal)]),
    .commitGlobalDecision 0 1 firstGlobal false 0, .apply 0 1, .apply 0 1]

def statuses (before after : List (GroupAct Unit)) (r : ReplicaId) (g : Xid) :
    Option (Except String XidStatus × Except String XidStatus) :=
  (exec Group.step (Group.initial ()) before).bind fun G =>
    (exec Group.step G after).map fun H => (G.status r g, H.status r g)

/-- A commit and an abort race for one xid; replica 1 takes a snapshot, replica 2 the log. -/
def raced : List (GroupAct Unit) :=
  [.commitGlobalDecision 0 1 firstGlobal false 0, .commitGlobalDecision 1 1 firstGlobal true 0,
    .apply 0 2, .readMeta 0, .scan 0, .installSnapshot 1 0, .readBack ⟨1, firstGlobal, 1⟩]

def settledLater : List (GroupAct Unit) := [.crash 0, .apply 2 1, .apply 2 1]

end Crabgresql.Replica
