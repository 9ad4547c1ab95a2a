import Crabgresql.Cluster.Atomicity

/-!
# Staging a statement over the network

The coordinator sends a statement of a global transaction to the leader of a
participant range and sends it again, once, when no answer comes. The service on
the node runs it in a session that it holds for the global transaction. A copy
is dropped only when no session is held and the commit log shows a marker of the
global transaction at or above the watermark; every other copy is run.
-/

namespace Crabgresql.Cluster

open Mvcc Kv Procarray Lockmgr Exec Session Engine Recovery List Option Function

variable {Row : Type}

structure Statement (Row : Type) where
  g : Xid
  work : Work Row

/-- How far the service has come with one copy of a statement. -/
inductive Phase
  /-- Past the gate; a session was held for the global transaction, or not. -/
  | arrived (held : Bool)
  | admitted
  /-- The session is known, its mutex is not taken yet. -/
  | waiting (s : SessionId)
  | opening (s : SessionId)
  | joining (s : SessionId)
  | joined (s : SessionId)
  | executing (s : SessionId)
  | closing (s : SessionId)
  deriving DecidableEq, Repr

structure Rpc where
  node : NodeId
  stmt : ℕ
  phase : Phase
  deriving DecidableEq, Repr

/-- One participant range, its service on every node, and the network. -/
structure Service (Row : Type) where
  glob : GlobalView
  range : Range Row
  issued : List (Statement Row)
  /-- How often the client has sent a statement. -/
  sent : ℕ → ℕ
  /-- The copies under way. -/
  network : List ℕ
  rpcs : ℕ → Option Rpc
  held : NodeId → Xid → Option SessionId
  /-- Sessions that the service of a node has connected. -/
  mine : NodeId → SessionId → Bool
  /-- Sessions whose mutex is taken. -/
  busy : NodeId → SessionId → Bool
  /-- Sessions no longer held and not yet reset. -/
  released : List (NodeId × SessionId)
  /-- Statements of which a copy passed the check. -/
  admitted : List ℕ
  /-- The statement behind each proposal of a held session. -/
  effects : List ℕ

inductive StageAct (Row : Type)
  | issue (st : Statement Row)
  | resend (i : ℕ)
  | lose (k : ℕ)
  | deliver (k : ℕ) (n : NodeId) (slot : ℕ)
  | check (slot : ℕ)
  | handle (slot : ℕ) (s : SessionId)
  | lock (slot : ℕ)
  | act (slot : ℕ) (a : Act Row) (lag : Lag)
  | start (slot : ℕ) (lag : Lag)
  | leave (slot : ℕ)
  | release (n : NodeId) (g : Xid)
  | reset (n : NodeId) (s : SessionId) (lag : Lag)
  | crash (n : NodeId)
  | range (act : RangeAct Row)
  | decide (g : Xid) (commit : Bool)

/-- The calls that the service makes on its session, in their order, but for the statement's own
start. -/
def Phase.next (g : Xid) : Phase → Act Row → Option Phase
  | .opening s, .begin false => some (.joining s)
  | .joining s, .join g' => if g' = g then some (.joined s) else none
  | .joined s, .apply _ | .joined s, .finish => some (.joined s)
  | .executing s, .takeSnapshot | .executing s, .scan | .executing s, .next
  | .executing s, .acquire _ | .executing s, .recheck => some (.executing s)
  | .executing s, .propose => some (.closing s)
  | .closing s, .apply _ | .closing s, .finish => some (.closing s)
  | _, _ => none

def Phase.session : Phase → Option SessionId
  | .arrived _ | .admitted | .waiting _ => none
  | .opening s | .joining s | .joined s | .executing s | .closing s => some s

def ready (u : Sess Row) : Bool :=
  match u.pc with
  | .ready => true
  | _ => false

def fresh (u : Sess Row) : Bool :=
  match u.txn, u.globalXid, u.pc with
  | .idle, none, .ready => true
  | _, _, _ => false

namespace Service

def initial : Service Row :=
  ⟨.initial, .initial, [], fun _ => 0, [], fun _ => none, fun _ _ => none, fun _ _ => false,
    fun _ _ => false, [], [], []⟩

def setRpc (S : Service Row) (slot : ℕ) (rpc : Option Rpc) : Service Row :=
  { S with rpcs := update S.rpcs slot rpc }

def set2 {α : Type} (f : NodeId → ℕ → α) (n : NodeId) (k : ℕ) (a : α) : NodeId → ℕ → α :=
  update f n (update (f n) k a)

def issue (S : Service Row) (st : Statement Row) : Service Row :=
  { S with
    issued := S.issued ++ [st]
    sent := update S.sent S.issued.length 1
    network := S.network ++ [S.issued.length] }

/-- `call` makes two attempts. -/
def resend (S : Service Row) (i : ℕ) : Option (Service Row) :=
  if S.sent i = 1 then
    some { S with sent := update S.sent i 2, network := S.network ++ [i] }
  else none

def deliver (S : Service Row) (k : ℕ) (n : NodeId) (slot : ℕ) : Option (Service Row) :=
  match S.network[k]? with
  | some i =>
    match S.issued[i]? with
    | some st =>
      if S.rpcs slot = none then
        let S' := { S with network := S.network.eraseIdx k }
        if S.range.serving n then
          some (S'.setRpc slot (some ⟨n, i, .arrived (S.held n st.g).isSome⟩))
        else some S'
      else none
    | none => none
  | none => none

/-- A retry is recognised by a marker, and only when no session was held. -/
def check (S : Service Row) (slot : ℕ) : Option (Service Row) :=
  match S.rpcs slot with
  | some ⟨n, i, .arrived held⟩ =>
    match S.issued[i]? with
    | some st =>
      if held = false ∧ stagedLocalFor (S.range.storeAt (S.range.nodes n).applied) st.g ≠ none then
        some (S.setRpc slot none)
      else
        some { S.setRpc slot (some ⟨n, i, .admitted⟩) with admitted := S.admitted ++ [i] }
    | none => none
  | _ => none

def handle (S : Service Row) (slot : ℕ) (s : SessionId) : Option (Service Row) :=
  match S.rpcs slot with
  | some ⟨n, i, .admitted⟩ =>
    match S.issued[i]? with
    | some st =>
      match S.held n st.g with
      | some s' => some (S.setRpc slot (some ⟨n, i, .waiting s'⟩))
      | none =>
        if S.mine n s = false ∧ fresh (S.range.sess n s) = true then
          some { S.setRpc slot (some ⟨n, i, .waiting s⟩) with
            held := set2 S.held n st.g (some s)
            mine := set2 S.mine n s true }
        else none
    | none => none
  | _ => none

def lock (S : Service Row) (slot : ℕ) : Option (Service Row) :=
  match S.rpcs slot with
  | some ⟨n, i, .waiting s⟩ =>
    if S.busy n s then none
    else some { S.setRpc slot (some ⟨n, i, .opening s⟩) with busy := set2 S.busy n s true }
  | _ => none

def proposes : Act Row → Bool
  | .propose => true
  | _ => false

/-- A call of the service on the session whose mutex it holds. -/
def act (S : Service Row) (slot : ℕ) (a : Act Row) (lag : Lag) : Option (Service Row) :=
  match S.rpcs slot with
  | some ⟨n, i, phase⟩ =>
    match S.issued[i]?, phase.session with
    | some st, some s =>
      match phase.next st.g a with
      | some phase' =>
        (S.range.step S.glob (.call n s a lag)).map fun R =>
          { S.setRpc slot (some ⟨n, i, phase'⟩) with
            range := R
            effects := if proposes a then S.effects ++ [i] else S.effects }
      | none => none
    | _, _ => none
  | none => none

/-- The statement runs once the session has joined without an error. -/
def start (S : Service Row) (slot : ℕ) (lag : Lag) : Option (Service Row) :=
  match S.rpcs slot with
  | some ⟨n, i, .joined s⟩ =>
    match S.issued[i]? with
    | some st =>
      if (S.range.sess n s).err = none then
        (S.range.step S.glob (.call n s (.start st.work) lag)).map fun R =>
          { S.setRpc slot (some ⟨n, i, .executing s⟩) with range := R }
      else none
    | none => none
  | _ => none

/-- The service answers, whether or not the answer arrives. -/
def leave (S : Service Row) (slot : ℕ) : Option (Service Row) :=
  match S.rpcs slot with
  | some ⟨n, _, phase⟩ =>
    match phase.session with
    | some s =>
      if ready (S.range.sess n s) then
        some { S.setRpc slot none with busy := set2 S.busy n s false }
      else none
    | none => some (S.setRpc slot none)
  | none => none

/-- A release, or the resolution of a silent coordinator: the session is no longer held. -/
def release (S : Service Row) (n : NodeId) (g : Xid) : Option (Service Row) :=
  match S.held n g with
  | some s => some { S with held := set2 S.held n g none, released := S.released ++ [(n, s)] }
  | none => none

def reset (S : Service Row) (n : NodeId) (s : SessionId) (lag : Lag) : Option (Service Row) :=
  if (n, s) ∈ S.released ∧ S.busy n s = false then
    (S.range.step S.glob (.call n s .drop lag)).map fun R => { S with range := R }
  else none

def crash (S : Service Row) (n : NodeId) : Option (Service Row) :=
  (S.range.step S.glob (.crash n)).map fun R =>
    { S with
      range := R
      rpcs := fun slot => (S.rpcs slot).filter fun rpc => rpc.node ≠ n
      held := update S.held n fun _ => none
      mine := update S.mine n fun _ => false
      busy := update S.busy n fun _ => false
      released := S.released.filter fun p => p.1 ≠ n }

/-- Everything that happens on the range outside the service. -/
def outside (S : Service Row) : RangeAct Row → Bool
  | .call n s _ _ => !S.mine n s
  | .crash _ => false
  | _ => true

def step (S : Service Row) : StageAct Row → Option (Service Row)
  | .issue st => some (S.issue st)
  | .resend i => S.resend i
  | .lose k => some { S with network := S.network.eraseIdx k }
  | .deliver k n slot => S.deliver k n slot
  | .check slot => S.check slot
  | .handle slot s => S.handle slot s
  | .lock slot => S.lock slot
  | .act slot a lag => S.act slot a lag
  | .start slot lag => S.start slot lag
  | .leave slot => S.leave slot
  | .release n g => S.release n g
  | .reset n s lag => S.reset n s lag
  | .crash n => S.crash n
  | .range a =>
    if S.outside a then (S.range.step S.glob a).map fun R => { S with range := R } else none
  | .decide g commit => some { S with glob := recordDecision S.glob g commit }

end Service

/-- A further copy of a statement comes to the check only when no session was held on its arrival
and a marker of its global transaction is found. -/
def Detected (S : Service Row) : StageAct Row → Prop
  | .check slot => ∀ rpc ∈ S.rpcs slot, rpc.stmt ∈ S.admitted →
      rpc.phase = .arrived false ∧ ∀ st ∈ S.issued[rpc.stmt]?,
        stagedLocalFor (S.range.storeAt (S.range.nodes rpc.node).applied) st.g ≠ none
  | _ => True

instance (S : Service Row) (act : StageAct Row) : Decidable (Detected S act) := by
  unfold Detected
  split <;> infer_instance

/-- The service may still propose for this copy. -/
def Phase.live : Phase → Bool
  | .arrived _ | .closing _ => false
  | .admitted | .waiting _ | .opening _ | .joining _ | .joined _ | .executing _ => true

structure StageInv (S : Service Row) : Prop where
  nodup : S.effects.Nodup
  done : ∀ i ∈ S.effects, i ∈ S.admitted
  due : ∀ slot rpc, S.rpcs slot = some rpc → rpc.phase.live = true →
    rpc.stmt ∈ S.admitted ∧ rpc.stmt ∉ S.effects
  sole : ∀ slot slot' rpc rpc', S.rpcs slot = some rpc → S.rpcs slot' = some rpc' →
    rpc.phase.live = true → rpc'.phase.live = true → rpc.stmt = rpc'.stmt → slot = slot'

section Steps

variable {S S' : Service Row} {slot : ℕ}

theorem Service.rpcs_setRpc {rpc : Option Rpc} {slot' : ℕ} {r : Rpc}
    (h : (S.setRpc slot rpc).rpcs slot' = some r) :
    (slot' = slot ∧ rpc = some r) ∨ (slot' ≠ slot ∧ S.rpcs slot' = some r) := by
  by_cases hs : slot' = slot
  · subst hs
    exact .inl ⟨rfl, by simpa [Service.setRpc] using h⟩
  · exact .inr ⟨hs, by simpa [Service.setRpc, hs] using h⟩

/-- No copy has become live, and nothing has been proposed. -/
structure Idle (S S' : Service Row) : Prop where
  effects : S'.effects = S.effects
  admitted : S'.admitted = S.admitted
  rpcs : ∀ slot r, S'.rpcs slot = some r → r.phase.live = true →
    ∃ r₀, S.rpcs slot = some r₀ ∧ r₀.phase.live = true ∧ r₀.stmt = r.stmt

theorem StageInv.idle (h : StageInv S) (hi : Idle S S') : StageInv S' where
  nodup := hi.effects ▸ h.nodup
  done i hm := hi.admitted ▸ h.done i (hi.effects ▸ hm)
  due slot r hr hlive := by
    obtain ⟨r₀, hr₀, hlive₀, hstmt⟩ := hi.rpcs slot r hr hlive
    rw [hi.effects, hi.admitted, ← hstmt]
    exact h.due slot r₀ hr₀ hlive₀
  sole slot slot' r r' hr hr' hlive hlive' hstmt := by
    obtain ⟨r₀, hr₀, hlive₀, hstmt₀⟩ := hi.rpcs slot r hr hlive
    obtain ⟨r₁, hr₁, hlive₁, hstmt₁⟩ := hi.rpcs slot' r' hr' hlive'
    exact h.sole slot slot' r₀ r₁ hr₀ hr₁ hlive₀ hlive₁ ((hstmt₀.trans hstmt).trans hstmt₁.symm)

theorem idle_same (he : S'.effects = S.effects) (ha : S'.admitted = S.admitted)
    (hr : S'.rpcs = S.rpcs) : Idle S S' :=
  ⟨he, ha, fun _ r h hlive => ⟨r, hr ▸ h, hlive, rfl⟩⟩

theorem idle_setRpc {rpc : Option Rpc} (he : S'.effects = S.effects)
    (ha : S'.admitted = S.admitted) (hr : S'.rpcs = (S.setRpc slot rpc).rpcs)
    (hrpc : ∀ r, rpc = some r → r.phase.live = true →
      ∃ r₀, S.rpcs slot = some r₀ ∧ r₀.phase.live = true ∧ r₀.stmt = r.stmt) : Idle S S' := by
  refine ⟨he, ha, fun slot' r h hlive => ?_⟩
  rw [hr] at h
  rcases Service.rpcs_setRpc h with ⟨rfl, hnew⟩ | ⟨-, hold⟩
  · exact hrpc r hnew hlive
  · exact ⟨r, hold, hlive, rfl⟩

theorem stageInv_deliver {k : ℕ} {n : NodeId} (h : StageInv S)
    (hs : S.deliver k n slot = some S') : StageInv S' := by
  unfold Service.deliver at hs
  split at hs
  · split at hs
    · split_ifs at hs
      · cases hs
        exact h.idle (idle_setRpc rfl rfl rfl fun r hr hlive => by cases hr; cases hlive)
      · cases hs
        exact h.idle (idle_same rfl rfl rfl)
    · cases hs
  · cases hs

theorem stageInv_check (h : StageInv S) (hok : Detected S (.check slot))
    (hs : S.check slot = some S') : StageInv S' := by
  unfold Service.check at hs
  split at hs
  · rename_i n i held hrpc
    split at hs
    · rename_i st hst
      split_ifs at hs with hfound
      · cases hs
        exact h.idle (idle_setRpc rfl rfl rfl fun r hr => by cases hr)
      · cases hs
        have hnew : i ∉ S.admitted := by
          intro hmem
          obtain ⟨hphase, hmarker⟩ := hok _ hrpc hmem
          cases hphase
          exact hfound ⟨rfl, hmarker st hst⟩
        refine ⟨h.nodup, fun j hj => mem_append_left _ (h.done j hj), ?_, ?_⟩
        · intro slot' r hr hlive
          rcases Service.rpcs_setRpc hr with ⟨-, hr⟩ | ⟨-, hr⟩
          · cases hr
            exact ⟨by simp, fun hmem => hnew (h.done i hmem)⟩
          · obtain ⟨hmem, hnot⟩ := h.due slot' r hr hlive
            exact ⟨mem_append_left _ hmem, hnot⟩
        · intro slot₁ slot₂ r r' hr hr' hlive hlive' hstmt
          rcases Service.rpcs_setRpc hr with ⟨rfl, hthis⟩ | ⟨-, hold⟩ <;>
            rcases Service.rpcs_setRpc hr' with ⟨rfl, hthis'⟩ | ⟨-, hold'⟩
          · rfl
          · cases hthis
            have hsame : r'.stmt = i := hstmt.symm
            exact absurd (hsame ▸ (h.due slot₂ r' hold' hlive').1) hnew
          · cases hthis'
            have hsame : r.stmt = i := hstmt
            exact absurd (hsame ▸ (h.due slot₁ r hold hlive).1) hnew
          · exact h.sole slot₁ slot₂ r r' hold hold' hlive hlive' hstmt
    · cases hs
  · cases hs

theorem stageInv_handle {s : SessionId} (h : StageInv S) (hs : S.handle slot s = some S') :
    StageInv S' := by
  unfold Service.handle at hs
  split at hs
  · rename_i n i hrpc
    split at hs
    · split at hs
      · cases hs
        exact h.idle (idle_setRpc rfl rfl rfl fun r hr _ => by cases hr; exact ⟨_, hrpc, rfl, rfl⟩)
      · split_ifs at hs
        cases hs
        exact h.idle (idle_setRpc rfl rfl rfl fun r hr _ => by cases hr; exact ⟨_, hrpc, rfl, rfl⟩)
    · cases hs
  · cases hs

theorem stageInv_lock (h : StageInv S) (hs : S.lock slot = some S') : StageInv S' := by
  unfold Service.lock at hs
  split at hs
  · rename_i n i s hrpc
    split_ifs at hs
    cases hs
    exact h.idle (idle_setRpc rfl rfl rfl fun r hr _ => by cases hr; exact ⟨_, hrpc, rfl, rfl⟩)
  · cases hs

theorem Phase.next_live {g : Xid} {phase phase' : Phase} {a : Act Row}
    (h : phase.next g a = some phase') :
    (Service.proposes a = true ∧ phase.live = true ∧ phase'.live = false) ∨
      (Service.proposes a = false ∧ (phase'.live = true → phase.live = true)) := by
  unfold Phase.next at h
  split at h
  all_goals try split_ifs at h
  all_goals cases h
  all_goals simp [Service.proposes, Phase.live]

theorem stageInv_act {a : Act Row} {lag : Lag} (h : StageInv S)
    (hs : S.act slot a lag = some S') : StageInv S' := by
  unfold Service.act at hs
  split at hs
  · rename_i n i phase hrpc
    split at hs
    · rename_i st s hst hsess
      split at hs
      · rename_i phase' hnext
        obtain ⟨R, hR, rfl⟩ := map_eq_some_iff.mp hs
        rcases Phase.next_live hnext with ⟨hprop, hlive, hdead⟩ | ⟨hprop, hlive⟩
        · obtain ⟨hmem, hnot⟩ := h.due slot _ hrpc hlive
          refine ⟨?_, ?_, ?_, ?_⟩
          · simpa only [hprop, if_true] using
              List.Nodup.append h.nodup (nodup_singleton i) (by simpa using hnot)
          · intro j hj
            simp only [hprop, if_true, mem_append, mem_singleton] at hj
            rcases hj with hj | rfl
            · exact h.done j hj
            · exact hmem
          · intro slot' r hr hl
            rcases Service.rpcs_setRpc hr with ⟨-, hr⟩ | ⟨hne, hr⟩
            · cases hr
              rw [hdead] at hl
              cases hl
            · obtain ⟨hmem', hnot'⟩ := h.due slot' r hr hl
              refine ⟨hmem', ?_⟩
              simp only [hprop, if_true, mem_append, mem_singleton, not_or]
              exact ⟨hnot', fun heq => hne (h.sole slot' slot r _ hr hrpc hl hlive heq)⟩
          · intro slot₁ slot₂ r r' hr hr' hl hl'
            rcases Service.rpcs_setRpc hr with ⟨-, hr⟩ | ⟨-, hr⟩
            · cases hr
              rw [hdead] at hl
              cases hl
            · rcases Service.rpcs_setRpc hr' with ⟨-, hr'⟩ | ⟨-, hr'⟩
              · cases hr'
                rw [hdead] at hl'
                cases hl'
              · exact h.sole slot₁ slot₂ r r' hr hr' hl hl'
        · refine h.idle (idle_setRpc (by simp [hprop]) rfl rfl fun r hr hl => ?_)
          cases hr
          exact ⟨_, hrpc, hlive hl, rfl⟩
      · cases hs
    · cases hs
  · cases hs

theorem stageInv_start {lag : Lag} (h : StageInv S) (hs : S.start slot lag = some S') :
    StageInv S' := by
  unfold Service.start at hs
  split at hs
  · rename_i n i s hrpc
    split at hs
    · split_ifs at hs
      obtain ⟨R, hR, rfl⟩ := map_eq_some_iff.mp hs
      exact h.idle (idle_setRpc rfl rfl rfl fun r hr _ => by cases hr; exact ⟨_, hrpc, rfl, rfl⟩)
    · cases hs
  · cases hs

theorem stageInv_leave (h : StageInv S) (hs : S.leave slot = some S') : StageInv S' := by
  unfold Service.leave at hs
  split at hs
  · split at hs
    · split_ifs at hs
      cases hs
      exact h.idle (idle_setRpc rfl rfl rfl fun r hr => by cases hr)
    · cases hs
      exact h.idle (idle_setRpc rfl rfl rfl fun r hr => by cases hr)
  · cases hs

theorem stageInv_crash {n : NodeId} (h : StageInv S) (hs : S.crash n = some S') : StageInv S' := by
  obtain ⟨R, hR, rfl⟩ := map_eq_some_iff.mp hs
  refine h.idle ⟨rfl, rfl, fun slot r hr hlive => ?_⟩
  obtain ⟨hr, -⟩ := filter_eq_some_iff.mp hr
  exact ⟨r, hr, hlive, rfl⟩

theorem stageInv_step {act : StageAct Row} (h : StageInv S) (hok : Detected S act)
    (hs : S.step act = some S') : StageInv S' := by
  cases act with
  | resend =>
    simp only [Service.step, Service.resend] at hs
    split_ifs at hs
    cases hs
    exact h.idle (idle_same rfl rfl rfl)
  | deliver => exact stageInv_deliver h hs
  | check => exact stageInv_check h hok hs
  | handle => exact stageInv_handle h hs
  | lock => exact stageInv_lock h hs
  | act => exact stageInv_act h hs
  | start => exact stageInv_start h hs
  | leave => exact stageInv_leave h hs
  | release n g =>
    simp only [Service.step, Service.release] at hs
    split at hs <;> cases hs
    exact h.idle (idle_same rfl rfl rfl)
  | reset =>
    simp only [Service.step, Service.reset] at hs
    split_ifs at hs
    obtain ⟨R, hR, rfl⟩ := map_eq_some_iff.mp hs
    exact h.idle (idle_same rfl rfl rfl)
  | crash => exact stageInv_crash h hs
  | range =>
    simp only [Service.step] at hs
    split_ifs at hs
    obtain ⟨R, hR, rfl⟩ := map_eq_some_iff.mp hs
    exact h.idle (idle_same rfl rfl rfl)
  | _ =>
    cases hs
    exact h.idle (idle_same rfl rfl rfl)

theorem stageInv_initial : StageInv (Service.initial : Service Row) where
  nodup := nodup_nil
  done _ hi := nomatch hi
  due _ _ hr := nomatch hr
  sole _ _ _ _ hr := nomatch hr

end Steps

/-- However often a statement is delivered, its session proposes its rows at most once. -/
theorem staged_at_most_once {acts : List (StageAct Row)} {S : Service Row}
    (h : Runs.exec Service.step .initial acts = some S)
    (hok : Runs.Along Service.step Detected (.initial : Service Row) acts) (i : ℕ) :
    S.effects.count i ≤ 1 := by
  have hI : StageInv S :=
    Runs.exec_invariant (fun _ _ _ hI hd hs => stageInv_step hI hd hs) stageInv_initial hok h
  exact nodup_iff_count_le_one.mp hI.nodup i

section Runs

def acts (slot : ℕ) (as : List (Act ℕ)) : List (StageAct ℕ) := as.map fun a => .act slot a noLag

/-- One copy of a statement that adds one to every row, from its arrival on node 0 to the answer.
With a session that has already written, joining proposes the marker again. -/
def runCopy (slot : ℕ) (again : Bool) : List (StageAct ℕ) :=
  [.deliver 0 0 slot, .check slot, .handle slot 5, .lock slot] ++
    acts slot [.begin false, .join globalXidBase] ++
    (if again then acts slot [.apply true, .finish] else []) ++ [.start slot noLag] ++
    acts slot [.takeSnapshot, .scan, .next, .acquire 0, .recheck, .propose, .apply true,
      .finish] ++
    [.leave slot]

def stagedOnce : List (StageAct ℕ) :=
  ((openGate 0 false ++ stage 0 insertOne [] ++ calls 0 0 [.release]).map .range) ++
    [.issue ⟨globalXidBase, addOne⟩] ++ runCopy 0 false

/-- The answer is lost, the client sends the statement again, and the global transaction
commits. -/
def stagedTwice : List (StageAct ℕ) :=
  stagedOnce ++ [.resend 0] ++ runCopy 1 true ++
    [.decide globalXidBase true, .release 0 globalXidBase, .reset 0 5 noLag]

/-- Node 0 crashes, the global transaction is aborted, node 1 takes over and does not get its
watermark through; the second copy reaches it. -/
def stagedRetry : List (StageAct ℕ) :=
  stagedOnce ++ [.crash 0, .decide globalXidBase false] ++
    [.range (.elect 1), .range (.settle 1), .range (.relock 1 noLag), .range (.scan 1 noLag),
      .range (.unlock 1), .range (.rescan 1 noLag), .range (.advance 1 false),
      .range (.serve 1)] ++
    [.resend 0, .deliver 0 1 1, .check 1]

def visible (S : Service ℕ) : List ℕ :=
  (scanLive S.range.tip S.glob settledGlobal (S.range.nodes 0).pa.snapshot none 1).map
    fun e => e.2.2

end Runs

/-- The held session runs both copies: the committed row has grown by two. -/
theorem staged_runs_twice : ∃ S : Service ℕ, Runs.exec Service.step .initial stagedTwice = some S ∧
      S.issued.length = 1 ∧ S.effects = [0, 0] ∧ visible S = [3] :=
  Runs.exists_some (by decide +kernel)

/-- A retry on the next leader is recognised by its marker. -/
theorem staged_at_most_once_on_retry :
    ∃ S : Service ℕ, Runs.exec Service.step .initial stagedRetry = some S ∧
      S.sent 0 = 2 ∧ S.network = [] ∧ S.effects.count 0 ≤ 1 := by
  obtain ⟨S, hS, hsent, hnetwork⟩ : ∃ S ∈ Runs.exec Service.step (.initial : Service ℕ) stagedRetry,
      S.sent 0 = 2 ∧ S.network = [] := by decide +kernel
  have hok : Runs.Along Service.step Detected (.initial : Service ℕ) stagedRetry := by
    decide +kernel
  exact ⟨S, hS, hsent, hnetwork, staged_at_most_once hS hok 0⟩

end Crabgresql.Cluster
