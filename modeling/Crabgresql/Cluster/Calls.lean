import Crabgresql.Cluster.System
import Crabgresql.Cluster.Apply

/-!
# Inversion of the steps of a range

A call of a session is a commit that is appended to the log, a refused commit
that stays in flight, or a move over the node's own prefix that leaves the log
alone. Of the other steps, most only tend the sweep, the gate, the locks or the
applied prefix of one node.
-/

namespace Crabgresql.Cluster

open Mvcc Kv Procarray Lockmgr Exec Session Engine Recovery List Function Range

variable {Row : Type}
variable {act : RangeAct Row} {node : Node Row} {i epoch : ℕ}

namespace Range

variable {R R' : Range Row} {n : NodeId} {s : SessionId} {a : Act Row} {glob : GlobalView}

@[simp] theorem nodes_setNode (R : Range Row) (n m : NodeId) (node : Node Row) :
    (R.setNode n node).nodes m = if m = n then node else R.nodes m := by
  simp [setNode, update_apply]

theorem field_setNode {β : Type*} (f : Node Row → β) (h : f node = f (R.nodes n)) (m : NodeId) :
    f ((R.setNode n node).nodes m) = f (R.nodes m) := by
  rw [nodes_setNode]
  split_ifs with hm
  · rw [h, hm]
  · rfl

@[simp] theorem tip_setNode (R : Range Row) (n : NodeId) (node : Node Row) :
    (R.setNode n node).tip = R.tip := rfl

theorem tip_append (R : Range Row) (e : LogEntry Row) :
    (R.append e).tip = applyBatch R.tip e.proposal.ops := by
  simp [tip, append]

theorem tip_eq_storeAt (R : Range Row) (i : ℕ) :
    R.tip = applyBatch (R.storeAt i) ((R.log.drop i).flatMap fun e => e.proposal.ops) := by
  unfold tip storeAt
  rw [← applyBatch_append, ← flatMap_append, take_append_drop]

theorem storeAt_length (R : Range Row) : R.storeAt R.log.length = R.tip := by
  simp [storeAt, tip]

theorem storeAt_append_le (R : Range Row) (e : LogEntry Row) (h : i ≤ R.log.length) :
    (R.append e).storeAt i = R.storeAt i := by
  simp [storeAt, append, take_append_of_le_length h]

theorem storeAt_append_gt (R : Range Row) (e : LogEntry Row) (h : R.log.length < i) :
    (R.append e).storeAt i = (R.append e).tip := by
  have hlen : (R.log ++ [e]).length ≤ i := by
    simp only [length_append, length_singleton]
    omega
  simp only [storeAt, append, tip, take_of_length_le hlen]

theorem storeAt_le (R : Range Row) {j : ℕ} (h : j ≤ i) :
    ∃ ops, R.storeAt i = applyBatch (R.storeAt j) ops := by
  obtain ⟨k, rfl⟩ := Nat.exists_eq_add_of_le h
  refine ⟨((R.log.drop j).take k).flatMap fun e => e.proposal.ops, ?_⟩
  unfold storeAt
  rw [← applyBatch_append, ← flatMap_append, take_add]

def entryOf (R : Range Row) (n : NodeId) (s : SessionId) (b : Batch Row) (after : After) :
    LogEntry Row := ⟨.batch b, stagedBy ((R.nodes n).intent s) after⟩

def returnedNode (R : Range Row) (n : NodeId) (s : SessionId) (b : Batch Row) (after : After)
    (ok : Bool) : Node Row :=
  { R.nodes n with
    sessions := update (R.nodes n).sessions s
      (((R.nodes n).sessions s).returned b after ok) }

def movedNode (R : Range Row) (n : NodeId) (s : SessionId) (a : Act Row) (v : View Row) :
    Node Row :=
  { (R.nodes n).set s v with
    intent := update (R.nodes n).intent s (intentAfter ((R.nodes n).intent s) a) }

def sess (R : Range Row) (n : NodeId) (s : SessionId) : Sess Row := (R.nodes n).sessions s

theorem sess_moved (R : Range Row) (n : NodeId) (s : SessionId) (a : Act Row) (v : View Row)
    (m : NodeId) (s' : SessionId) : (R.setNode n (R.movedNode n s a v)).sess m s' =
      if m = n ∧ s' = s then v.self else R.sess m s' := by
  unfold sess
  rw [nodes_setNode]
  by_cases hm : m = n
  · subst hm
    simp [movedNode, Node.set, update_apply]
  · simp [hm]

theorem sess_returned (R : Range Row) (n : NodeId) (s : SessionId) (b : Batch Row) (after : After)
    (ok : Bool) (applied : ℕ) (m : NodeId) (s' : SessionId) :
    (R.setNode n { R.returnedNode n s b after ok with applied := applied }).sess m s' =
      if m = n ∧ s' = s then (R.sess n s).returned b after ok else R.sess m s' := by
  unfold sess
  rw [nodes_setNode]
  by_cases hm : m = n
  · subst hm
    simp [returnedNode, update_apply]
  · simp [hm]

theorem sess_setNode_same (h : node.sessions = (R.nodes n).sessions) (m : NodeId) (s : SessionId) :
    (R.setNode n node).sess m s = R.sess m s := by
  unfold sess
  rw [nodes_setNode]
  split_ifs with hm
  · subst hm
    rw [h]
  · rfl

inductive Called (R : Range Row) (n : NodeId) (s : SessionId) (glob : GlobalView) :
    Act Row → Range Row → Prop
  | appended (b : Batch Row) (epoch : ℕ) (after : After)
      (hpc : ((R.nodes n).sessions s).pc = .committing b epoch after)
      (hcan : R.canAppend epoch = true) :
      Called R n s glob (.apply true)
        ((R.append (R.entryOf n s b after)).setNode n
          { R.returnedNode n s b after true with applied := R.log.length + 1 })
  | refused (b : Batch Row) (epoch : ℕ) (after : After)
      (hpc : ((R.nodes n).sessions s).pc = .committing b epoch after) :
      Called R n s glob (.apply false)
        { R.setNode n (R.returnedNode n s b after false) with
          inflight := R.keep epoch (R.entryOf n s b after) }
  | moved (a : Act Row) (v : View Row) (ha : ∀ ok, a ≠ .apply ok) (hadm : R.admits n a = true)
      (hmove : Move (R.env n glob) ((R.nodes n).view s (R.storeAt (R.nodes n).applied)) a v) :
      Called R n s glob a (R.setNode n (R.movedNode n s a v))

theorem mem_keep {e : LogEntry Row} {p : ℕ × LogEntry Row} (h : p ∈ R.keep epoch e) :
    p ∈ R.inflight ∨ p = (epoch, e) ∧ R.canAppend epoch = true := by
  unfold keep at h
  split_ifs at h with hcan
  · rcases mem_append.mp h with h | h
    · exact .inl h
    · exact .inr ⟨mem_singleton.mp h, hcan⟩
  · exact .inl h

theorem canAppend_iff :
    R.canAppend epoch = true ↔ epoch ≠ 0 ∧ (R.seeded = true → epoch = R.term) := by
  unfold canAppend
  cases R.seeded <;> simp

theorem step_apply {env : Env} {v v' : View Row} {ok : Bool} {b : Batch Row} {after : After}
    (hmode : env.cfg.mode = .replicated) (hpc : v.self.pc = .committing b epoch after)
    (h : Session.step env v (.apply ok) = some v') :
    v'.pa = v.pa ∧ v'.lm = v.lm ∧ v'.seq = v.seq ∧ v'.self = v.self.returned b after ok := by
  cases step_move hmode h with
  | apply ok b' epoch' after' hpc' =>
    rw [hpc] at hpc'
    cases hpc'
    exact ⟨rfl, rfl, rfl, rfl⟩
  | still _ txn err hpc' | fail _ f e lm seq hpc' | abort _ ha x hpc' =>
    rw [hpc] at hpc'
    cases hpc'
  | walk _ f todo hpc' =>
    rw [hpc] at hpc'
    rcases hpc' with h | h | ⟨r, h⟩ <;> cases h

theorem set_of_eq {v : View Row} {u : Sess Row} (hpa : v.pa = node.pa) (hlm : v.lm = node.lm)
    (hseq : v.seq = node.seq) (hself : v.self = u) :
    node.set s v = { node with sessions := update node.sessions s u } := by
  unfold Node.set
  rw [hpa, hlm, hseq, hself]

theorem call_cases (h : R.call n s a glob = some R') : Called R n s glob a R' := by
  unfold call at h
  split_ifs at h with hadm
  split at h
  · rename_i ok
    cases ok with
    | true =>
      simp only [callApply, if_true] at h
      split at h
      · rename_i b epoch after hpc
        split_ifs at h with hcan
        rw [Option.map_eq_some_iff] at h
        obtain ⟨v, hv, rfl⟩ := h
        obtain ⟨hpa, hlm, hseq, hself⟩ := step_apply rfl hpc hv
        rw [set_of_eq hpa hlm hseq hself]
        exact .appended b epoch after hpc hcan
      · cases h
    | false =>
      simp only [callApply, Bool.false_eq_true, if_false] at h
      split at h
      · rename_i b epoch after hpc
        rw [Option.map_eq_some_iff] at h
        obtain ⟨v, hv, rfl⟩ := h
        obtain ⟨hpa, hlm, hseq, hself⟩ := step_apply rfl hpc hv
        rw [set_of_eq hpa hlm hseq hself]
        exact .refused b epoch after hpc
      · cases h
  · rename_i hne
    unfold callOther at h
    rw [Option.map_eq_some_iff] at h
    obtain ⟨v, hv, rfl⟩ := h
    exact .moved a v (fun ok hok => hne ok hok) hadm (step_move rfl hv)

section Crash

variable (R n)

theorem leader_crash {m : NodeId} (h : (R.crash n).leader = some m) :
    R.leader = some m ∧ m ≠ n := by
  unfold crash at h
  split_ifs at h with hn
  exact ⟨h, fun hmn => hn (hmn ▸ h)⟩

theorem seeded_crash (h : (R.crash n).seeded = true) : R.seeded = true := by
  unfold crash at h
  split_ifs at h
  exact h

theorem nodes_crash (m : NodeId) : (R.crash n).nodes m =
      if m = n then .boot (R.storeAt (R.nodes n).applied) (R.nodes n).applied else R.nodes m := by
  unfold crash
  split_ifs <;> simp_all

theorem sess_crash (m : NodeId) (s : SessionId) :
    (R.crash n).sess m s = if m = n then .new else R.sess m s := by
  unfold sess
  rw [nodes_crash]
  split_ifs <;> rfl

@[simp] theorem log_crash : (R.crash n).log = R.log := by
  unfold crash
  split_ifs <;> rfl

@[simp] theorem term_crash : (R.crash n).term = R.term := by
  unfold crash
  split_ifs <;> rfl

@[simp] theorem inflight_crash : (R.crash n).inflight = R.inflight := by
  unfold crash
  split_ifs <;> rfl

@[simp] theorem tip_crash : (R.crash n).tip = R.tip := by
  unfold tip
  rw [log_crash]

end Crash

def settledNode (R : Range Row) (n : NodeId) : Node Row :=
  { R.nodes n with
    applied := R.log.length
    pa := (R.nodes n).pa.reseedFromApplied R.tip
    seq := (R.nodes n).seq.reseedFromApplied
    sweep := .seeded R.term }

/-- The steps that tend one node's sweep, gate, locks or applied prefix. -/
inductive Tends (R : Range Row) (glob : GlobalView) (n : NodeId) : RangeAct Row → Node Row → Prop
  | catchUp (hlt : (R.nodes n).applied < R.log.length) :
      Tends R glob n (.catchUp n) { R.nodes n with applied := (R.nodes n).applied + 1 }
  | relock (lag : Lag) (term : ℕ) (hsweep : (R.nodes n).sweep = .seeded term) :
      Tends R glob n (.relock n lag)
        { R.nodes n with
          lm := (reacquireInDoubtLocks (R.storeAt (R.nodes n).applied) (lag.view glob)
            (R.nodes n).lm).1
          sweep := .relocked term (reacquireInDoubtLocks (R.storeAt (R.nodes n).applied)
            (lag.view glob) (R.nodes n).lm).2 }
  | scan (lag : Lag) (term : ℕ) (inDoubt : List (Xid × Xid))
      (hsweep : (R.nodes n).sweep = .relocked term inDoubt) :
      Tends R glob n (.scan n lag)
        { R.nodes n with
          sweep := .racing term inDoubt (clogScanLo (R.storeAt (R.nodes n).applied))
            (inDoubtGlobalsFrom (R.storeAt (R.nodes n).applied) (lag.view glob)
              (clogScanLo (R.storeAt (R.nodes n).applied))).1 [] }
  | raced (ok : Bool) (term : ℕ) (inDoubt : List (Xid × Xid)) (lo : ℕ) (g : Xid)
      (gs resolved : List Xid) (hsweep : (R.nodes n).sweep = .racing term inDoubt lo (g :: gs) resolved) :
      Tends R glob n (.raced n ok)
        { R.nodes n with
          sweep := .racing term inDoubt lo gs (if ok then g :: resolved else resolved) }
  | unlock (term : ℕ) (inDoubt : List (Xid × Xid)) (lo : ℕ) (resolved : List Xid)
      (hsweep : (R.nodes n).sweep = .racing term inDoubt lo [] resolved) :
      Tends R glob n (.unlock n)
        { R.nodes n with
          lm := ((inDoubt.filter fun p => decide (p.2 ∈ resolved)).map Prod.fst).foldl
            LockMgr.releaseAll (R.nodes n).lm
          sweep := .unlocked term lo }
  | rescan (lag : Lag) (term lo : ℕ) (sweep : Sweep)
      (hsweep : (R.nodes n).sweep = .unlocked term lo)
      (hnext : sweep = .idle ∨
        (inDoubtGlobalsFrom (R.storeAt (R.nodes n).applied) (lag.view glob) lo).1 = [] ∧
          (sweep = .settled term ∨ sweep = .advancing term
            (inDoubtGlobalsFrom (R.storeAt (R.nodes n).applied) (lag.view glob) lo).2)) :
      Tends R glob n (.rescan n lag) { R.nodes n with sweep := sweep }
  | serve (term : ℕ) (hsweep : (R.nodes n).sweep = .settled term) :
      Tends R glob n (.serve n) { R.nodes n with served := term, sweep := .idle }
  | giveUp : Tends R glob n (.giveUp n) { R.nodes n with sweep := .idle }

inductive Stepped (R : Range Row) (glob : GlobalView) : RangeAct Row → Range Row → Prop
  | called (n : NodeId) (s : SessionId) (a : Act Row) (lag : Lag) {R' : Range Row}
      (h : Called R n s (lag.view glob) a R') : Stepped R glob (.call n s a lag) R'
  | late (i epoch : ℕ) (e : LogEntry Row) (hget : R.inflight[i]? = some (epoch, e))
      (hcan : R.canAppend epoch = true) :
      Stepped R glob (.late i) { R.append e with inflight := R.inflight.eraseIdx i }
  | elect (n : NodeId) : Stepped R glob (.elect n) (R.elect n)
  | crash (n : NodeId) : Stepped R glob (.crash n) (R.crash n)
  | settle (n : NodeId) (hlead : R.leader = some n) (hserved : (R.nodes n).served ≠ R.term)
      (hsweep : (R.nodes n).sweep = .idle) :
      Stepped R glob (.settle n)
        { R.setNode n (R.settledNode n) with
          seeded := true
          inflight := R.inflight.filter fun p => decide (p.1 = R.term) }
  | advanced (n : NodeId) (term newLo : ℕ) (hsweep : (R.nodes n).sweep = .advancing term newLo)
      (hlead : R.leader = some n) :
      Stepped R glob (.advance n true)
        ((R.append ⟨.scanLo newLo, none⟩).setNode n
          { R.nodes n with applied := R.log.length + 1, sweep := .settled term })
  | refused (n : NodeId) (term newLo : ℕ) (hsweep : (R.nodes n).sweep = .advancing term newLo) :
      Stepped R glob (.advance n false)
        { R.setNode n { R.nodes n with sweep := .settled term } with
          inflight := R.keep (R.epochOf n) ⟨.scanLo newLo, none⟩ }
  | tended (act : RangeAct Row) (n : NodeId) (node : Node Row) (hpa : node.pa = (R.nodes n).pa)
      (hsess : node.sessions = (R.nodes n).sessions) (hintent : node.intent = (R.nodes n).intent)
      (htends : Tends R glob n act node) :
      Stepped R glob act (R.setNode n node)

theorem step_cases (h : R.step glob act = some R') : Stepped R glob act R' := by
  cases act with
  | call n s a lag => exact .called n s a lag (call_cases h)
  | late i =>
    simp only [step, late] at h
    split at h
    · rename_i epoch e hget
      split_ifs at h with hcan
      cases h
      exact .late i epoch e hget hcan
    · cases h
  | catchUp n =>
    simp only [step, catchUp] at h
    split_ifs at h with hlt
    cases h
    exact .tended _ n _ rfl rfl rfl (.catchUp hlt)
  | elect n =>
    cases h
    exact .elect n
  | crash n =>
    cases h
    exact .crash n
  | settle n =>
    simp only [step, settle] at h
    split_ifs at h with hcond
    cases h
    exact .settle n hcond.1 hcond.2.1 hcond.2.2
  | relock n lag =>
    simp only [step, relock] at h
    split at h
    · rename_i term hsweep
      cases h
      exact .tended _ n _ rfl rfl rfl (.relock lag term hsweep)
    · cases h
  | scan n lag =>
    simp only [step, scan] at h
    split at h
    · rename_i term inDoubt hsweep
      cases h
      exact .tended _ n _ rfl rfl rfl (.scan lag term inDoubt hsweep)
    · cases h
  | raced n ok =>
    simp only [step, raced] at h
    split at h
    · rename_i term inDoubt lo g gs resolved hsweep
      cases h
      exact .tended _ n _ rfl rfl rfl (.raced ok term inDoubt lo g gs resolved hsweep)
    · cases h
  | unlock n =>
    simp only [step, unlock] at h
    split at h
    · rename_i term inDoubt lo resolved hsweep
      cases h
      exact .tended _ n _ rfl rfl rfl (.unlock term inDoubt lo resolved hsweep)
    · cases h
  | rescan n lag =>
    simp only [step, rescan] at h
    split at h
    · rename_i term lo hsweep
      cases h
      refine .tended _ n _ rfl rfl rfl (.rescan lag term lo _ hsweep ?_)
      split_ifs with hgs hlo
      · exact .inl rfl
      · exact .inr ⟨not_not.mp hgs, .inl rfl⟩
      · exact .inr ⟨not_not.mp hgs, .inr rfl⟩
    · cases h
  | advance n ok =>
    cases ok with
    | true =>
      simp only [step, advance, if_true] at h
      split at h
      · rename_i term newLo hsweep
        split_ifs at h with hlead
        cases h
        exact .advanced n term newLo hsweep hlead
      · cases h
    | false =>
      simp only [step, advance, Bool.false_eq_true, if_false] at h
      split at h
      · rename_i term newLo hsweep
        cases h
        exact .refused n term newLo hsweep
      · cases h
  | serve n =>
    simp only [step, serve] at h
    split at h
    · rename_i term hsweep
      cases h
      exact .tended _ n _ rfl rfl rfl (.serve term hsweep)
    · cases h
  | giveUp n =>
    cases h
    exact .tended _ n _ rfl rfl rfl .giveUp

/-- What a step of the range makes of node `m`. -/
inductive Turned (R R' : Range Row) (glob : GlobalView) (act : RangeAct Row) (m : NodeId) :
    Node Row → Prop
  | same (hact : ∀ s a lag, act ≠ .call m s a lag) : Turned R R' glob act m (R.nodes m)
  | returned (s : SessionId) (b : Batch Row) (epoch : ℕ) (after : After) (ok : Bool) (lag : Lag)
      (applied : ℕ) (hact : act = .call m s (.apply ok) lag)
      (hpc : (R.sess m s).pc = .committing b epoch after)
      (happlied : applied = (R.nodes m).applied ∨ ok = true ∧ applied = R'.log.length) :
      Turned R R' glob act m { R.returnedNode m s b after ok with applied := applied }
  | moved (s : SessionId) (a : Act Row) (v : View Row) (lag : Lag) (hact : act = .call m s a lag)
      (ha : ∀ ok, a ≠ .apply ok) (hadm : R.admits m a = true)
      (hmove : Move (R.env m (lag.view glob))
        ((R.nodes m).view s (R.storeAt (R.nodes m).applied)) a v) :
      Turned R R' glob act m (R.movedNode m s a v)
  | boot (hact : act = .crash m) :
      Turned R R' glob act m (.boot (R.storeAt (R.nodes m).applied) (R.nodes m).applied)
  | settle (hact : act = .settle m) (hlead : R.leader = some m)
      (hclosed : (R.nodes m).served ≠ R.term) (hidle : (R.nodes m).sweep = .idle)
      (hlog : R'.log = R.log) : Turned R R' glob act m (R.settledNode m)
  | advance (term lo applied : ℕ) (ok : Bool) (hact : act = .advance m ok)
      (hold : (R.nodes m).sweep = .advancing term lo)
      (happlied : applied = (R.nodes m).applied ∨ applied = R'.log.length) :
      Turned R R' glob act m { R.nodes m with applied := applied, sweep := .settled term }
  | tends (node : Node Row) (hpa : node.pa = (R.nodes m).pa)
      (hsess : node.sessions = (R.nodes m).sessions) (hintent : node.intent = (R.nodes m).intent)
      (h : Tends R glob m act node) : Turned R R' glob act m node

theorem turned_step (h : R.step glob act = some R') (m : NodeId) :
    Turned R R' glob act m (R'.nodes m) := by
  have hset : ∀ {R₀ : Range Row} {n : NodeId} {node : Node Row}, R₀.nodes = R.nodes →
      (∀ k s a lag, act = .call k s a lag → k = n) →
      Turned R R' glob act n node → Turned R R' glob act m ((R₀.setNode n node).nodes m) := by
    intro R₀ n node hR₀ hact hnode
    rw [nodes_setNode, hR₀]
    split_ifs with hm
    · exact hm ▸ hnode
    · exact .same fun s a lag heq => hm (hact m s a lag heq)
  cases step_cases h with
  | called n s a lag hcall =>
    have hcaller : ∀ k s' a' lag', RangeAct.call n s a lag = .call k s' a' lag' → k = n := by
      intro k s' a' lag' heq
      cases heq
      rfl
    cases hcall with
    | appended b epoch after hpc =>
      refine hset rfl hcaller (.returned s b epoch after true lag _ rfl hpc (.inr ⟨rfl, ?_⟩))
      simp [append, setNode]
    | refused b epoch after hpc =>
      exact hset (n := n) rfl hcaller (.returned s b epoch after false lag _ rfl hpc (.inl rfl))
    | moved a v ha hadm hmove => exact hset rfl hcaller (.moved s a v lag rfl ha hadm hmove)
  | late | elect => exact .same nofun
  | crash =>
    rw [nodes_crash]
    split_ifs with hm
    · subst hm
      exact .boot rfl
    · exact .same nofun
  | settle n hlead hserved hidle => exact hset rfl nofun (.settle rfl hlead hserved hidle rfl)
  | advanced n term newLo hsweep =>
    refine hset rfl nofun (.advance term newLo _ true rfl hsweep (.inr ?_))
    simp [append, setNode]
  | refused n term newLo hsweep =>
    exact hset (n := n) rfl nofun (.advance term newLo _ false rfl hsweep (.inl rfl))
  | tended act n node hpa hsess hintent ht =>
    refine hset rfl ?_ (.tends node hpa hsess hintent ht)
    rintro k s a lag rfl
    cases ht

/-- What a step of the range may make of session `s` of node `n`. -/
inductive Became (R : Range Row) (glob : GlobalView) (act : RangeAct Row) (n : NodeId)
    (s : SessionId) : Sess Row → Prop
  | same (hact : ∀ a lag, act ≠ .call n s a lag) : Became R glob act n s (R.sess n s)
  | new (hact : act = .crash n) : Became R glob act n s .new
  | returned (b : Batch Row) (epoch : ℕ) (after : After) (ok : Bool) (lag : Lag)
      (hact : act = .call n s (.apply ok) lag)
      (hpc : (R.sess n s).pc = .committing b epoch after) :
      Became R glob act n s ((R.sess n s).returned b after ok)
  | moved (a : Act Row) (v : View Row) (lag : Lag) (hact : act = .call n s a lag)
      (ha : ∀ ok, a ≠ .apply ok) (hadm : R.admits n a = true)
      (hmove : Move (R.env n (lag.view glob))
        ((R.nodes n).view s (R.storeAt (R.nodes n).applied)) a v) :
      Became R glob act n s v.self

theorem became_step (h : R.step glob act = some R') (m : NodeId) (s' : SessionId) :
    Became R glob act m s' (R'.sess m s') := by
  have hturn := turned_step h m
  unfold sess
  generalize R'.nodes m = node at hturn
  cases hturn with
  | same hact => exact .same (hact s')
  | settle hact | advance _ _ _ _ hact =>
    subst hact
    exact .same nofun
  | boot hact => exact .new hact
  | tends node hpa hsess hintent ht =>
    rw [hsess]
    refine .same ?_
    rintro a lag rfl
    cases ht
  | returned s b epoch after ok lag applied hact hpc =>
    simp only [returnedNode, update_apply]
    split_ifs with hs
    · subst hs
      exact .returned b epoch after ok lag hact hpc
    · exact .same fun a lag' heq => hs (by cases hact.symm.trans heq; rfl)
  | moved s a v lag hact ha hadm hmove =>
    simp only [movedNode, Node.set, update_apply]
    split_ifs with hs
    · subst hs
      exact .moved a v lag hact ha hadm hmove
    · exact .same fun a lag' heq => hs (by cases hact.symm.trans heq; rfl)

theorem returned_step {ok : Bool} {lag : Lag} {b : Batch Row} {after : After}
    (h : R.step glob (.call n s (.apply ok) lag) = some R')
    (hpc : (R.sess n s).pc = .committing b epoch after) :
    R'.sess n s = (R.sess n s).returned b after ok := by
  have hbecame := became_step h n s
  generalize R'.sess n s = u at hbecame
  cases hbecame with
  | same hact => exact absurd rfl (hact _ _)
  | new hact => cases hact
  | returned b' epoch' after' ok' lag' hact hpc' =>
    cases hact
    cases hpc.symm.trans hpc'
    rfl
  | moved a v lag' hact ha =>
    cases hact
    exact absurd rfl (ha ok)

/-- Where an entry that a step adds to the log comes from. -/
inductive Appended (R : Range Row) : RangeAct Row → LogEntry Row → Prop
  | session (n : NodeId) (s : SessionId) (b : Batch Row) (epoch : ℕ) (after : After) (lag : Lag)
      (hpc : (R.sess n s).pc = .committing b epoch after) (hcan : R.canAppend epoch = true) :
      Appended R (.call n s (.apply true) lag) (R.entryOf n s b after)
  | flight (i epoch : ℕ) (e : LogEntry Row) (hget : R.inflight[i]? = some (epoch, e))
      (hcan : R.canAppend epoch = true) : Appended R (.late i) e
  | watermark (n : NodeId) (term lo : ℕ) (hsweep : (R.nodes n).sweep = .advancing term lo)
      (hlead : R.leader = some n) : Appended R (.advance n true) ⟨.scanLo lo, none⟩

theorem Appended.appending {e : LogEntry Row} (h : Appended R act e) :
    R.appending act = some e.proposal := by
  cases h with
  | session n s b epoch after lag hpc =>
    unfold sess at hpc
    simp [appending, hpc, entryOf]
  | flight i epoch e hget => simp [appending, hget]
  | watermark n term lo hsweep => simp [appending, hsweep]

theorem log_step (h : R.step glob act = some R') :
    R'.log = R.log ∨ ∃ e, Appended R act e ∧ R'.log = R.log ++ [e] := by
  cases step_cases h with
  | called n s a lag hcall =>
    cases hcall with
    | appended b epoch after hpc hcan => exact .inr ⟨_, .session n s b epoch after lag hpc hcan, rfl⟩
    | refused | moved => exact .inl rfl
  | late i epoch e hget hcan => exact .inr ⟨e, .flight i epoch e hget hcan, rfl⟩
  | crash n => exact .inl (R.log_crash n)
  | advanced n term newLo hsweep hlead => exact .inr ⟨_, .watermark n term newLo hsweep hlead, rfl⟩
  | _ => exact .inl rfl

theorem appended_step {lag : Lag} {b : Batch Row} {after : After}
    (h : R.step glob (.call n s (.apply true) lag) = some R')
    (hpc : (R.sess n s).pc = .committing b epoch after) :
    R'.log = R.log ++ [R.entryOf n s b after] := by
  cases step_cases h with
  | called _ _ _ _ hcall =>
    cases hcall with
    | appended b' epoch' after' hpc' =>
      cases hpc.symm.trans hpc'
      rfl
    | moved a v ha => exact absurd rfl (ha true)
  | tended _ _ _ _ _ _ ht => cases ht

theorem inflight_step (h : R.step glob act = some R') {p : ℕ × LogEntry Row}
    (hp : p ∈ R'.inflight) :
    p ∈ R.inflight ∨ (∃ n s b after lag, act = .call n s (.apply false) lag ∧
      (R.sess n s).pc = .committing b p.1 after ∧ R.canAppend p.1 = true ∧
      p.2 = R.entryOf n s b after) ∨
    ∃ n term lo, (R.nodes n).sweep = .advancing term lo ∧ act = .advance n false ∧
      R.canAppend (R.epochOf n) = true ∧ p = (R.epochOf n, ⟨.scanLo lo, none⟩) := by
  cases step_cases h with
  | called n s a lag hcall =>
    cases hcall with
    | appended | moved => exact .inl hp
    | refused b epoch after hpc =>
      rcases mem_keep hp with hp | ⟨rfl, hcan⟩
      · exact .inl hp
      · exact .inr (.inl ⟨n, s, b, after, lag, rfl, hpc, hcan, rfl⟩)
  | late => exact .inl (mem_of_mem_eraseIdx hp)
  | crash =>
    rw [inflight_crash] at hp
    exact .inl hp
  | settle => exact .inl (mem_of_mem_filter hp)
  | refused n term newLo hsweep =>
    rcases mem_keep hp with hp | ⟨rfl, hcan⟩
    · exact .inl hp
    · exact .inr (.inr ⟨n, term, newLo, hsweep, rfl, hcan, rfl⟩)
  | _ => exact .inl hp

/-- What a step makes of the leadership. -/
inductive Leads (R R' : Range Row) : RangeAct Row → Prop
  | kept {act : RangeAct Row} (hlead : R'.leader = R.leader) (hterm : R'.term = R.term)
      (hseed : R'.seeded = R.seeded) : Leads R R' act
  | settle (n : NodeId) (h : R.leader = some n) (hlead : R'.leader = R.leader)
      (hterm : R'.term = R.term) (hseed : R'.seeded = true)
      (hflight : ∀ p ∈ R'.inflight, p.1 = R.term) (hnode : R'.nodes n = R.settledNode n) :
      Leads R R' (.settle n)
  | elect (n : NodeId) (h : R' = R.elect n) : Leads R R' (.elect n)
  | crash (n : NodeId) (h : R' = R.crash n) : Leads R R' (.crash n)

theorem leads_step (h : R.step glob act = some R') : Leads R R' act := by
  cases step_cases h with
  | called n s a lag hcall => cases hcall <;> exact .kept rfl rfl rfl
  | elect n => exact .elect n rfl
  | crash n => exact .crash n rfl
  | settle n hlead =>
    exact .settle n hlead rfl rfl rfl (fun p hp => of_decide_eq_true (mem_filter.mp hp).2)
      ((R.nodes_setNode n n (R.settledNode n)).trans (if_pos rfl))
  | _ => exact .kept rfl rfl rfl

/-- A leader has led before in its term, unless it has just been elected. -/
theorem leader_before (h : R.step glob act = some R') {m : NodeId} (hm : R'.leader = some m) :
    (R.leader = some m ∧ R'.term = R.term ∧ (R.seeded = true → R'.seeded = true)) ∨
      act = .elect m ∧ R' = R.elect m := by
  cases leads_step h with
  | kept hlead hterm hseed => exact .inl ⟨hlead ▸ hm, hterm, hseed.trans⟩
  | settle n _ hlead hterm hseed => exact .inl ⟨hlead ▸ hm, hterm, fun _ => hseed⟩
  | elect n heq =>
    subst heq
    cases hm
    exact .inr ⟨rfl, rfl⟩
  | crash n heq =>
    subst heq
    obtain ⟨hlead, hne⟩ := R.leader_crash n hm
    refine .inl ⟨hlead, R.term_crash n, fun hseed => ?_⟩
    simpa [crash, hlead, hne, setNode] using hseed

theorem term_le_step (h : R.step glob act = some R') : R.term ≤ R'.term := by
  cases leads_step h with
  | kept _ hterm | settle _ _ _ hterm => exact hterm.ge
  | elect n heq =>
    subst heq
    exact Nat.le_succ _
  | crash n heq =>
    subst heq
    exact (R.term_crash n).ge

theorem log_length_step (h : R.step glob act = some R') : R.log.length ≤ R'.log.length := by
  rcases log_step h with hlog | ⟨e, -, hlog⟩ <;> simp [hlog]

theorem applied_step (h : R.step glob act = some R') {j : ℕ} (hlog : j ≤ R.log.length) {m : NodeId}
    (hj : j ≤ (R.nodes m).applied) : j ≤ (R'.nodes m).applied := by
  have hlen := log_length_step h
  have hturn := turned_step h m
  generalize R'.nodes m = node at hturn
  cases hturn with
  | same | moved | boot => exact hj
  | returned _ _ _ _ _ _ applied _ _ happlied | advance _ _ applied _ _ _ happlied =>
    change j ≤ applied
    omega
  | settle => exact hlog
  | tends node hpa hsess hintent htends =>
    cases htends with
    | catchUp => exact Nat.le_succ_of_le hj
    | _ => exact hj

theorem tip_step (h : R.step glob act = some R') : ∃ ops, R'.tip = applyBatch R.tip ops := by
  rcases log_step h with hlog | ⟨e, -, hlog⟩
  · exact ⟨[], by simp [tip, hlog]⟩
  · exact ⟨e.proposal.ops, by simp [tip, hlog]⟩

end Range

end Crabgresql.Cluster
