import Crabgresql.Cluster.Terms

/-!
# Transactions and leadership terms

The snapshot, the xid and the locks of a transaction are in the memory of one
node; its batches and its commit record are in the log. The records below keep,
for every entry of the log, who proposed it, in which term, and when the
transaction it belongs to began. A COMMIT checks neither the term nor the gate:
once the lead has gone to another node and has come back, it appends the record
of a transaction that began in the earlier term.
-/

namespace Crabgresql.Cluster

open Mvcc Kv Procarray Lockmgr Exec Session Engine Recovery List Option Range Runs Cluster

variable {Row : Type}
variable {o : Origin}
variable {barrier epoch : ℕ} {b : Batch Row} {after : After} {e : LogEntry Row} {R : Range Row}

/-- The term, and the length of the log, when a transaction took its snapshot or its xid. -/
structure Birth where
  term : ℕ
  length : ℕ
  deriving DecidableEq, Repr

/-- Who proposed an entry, in which term, and the birth of its transaction. -/
structure Origin where
  node : NodeId
  epoch : ℕ
  birth : Option Birth
  deriving DecidableEq, Repr

/-- The session has an xid, or the snapshot of a REPEATABLE READ block. -/
def bound (u : Sess Row) : Bool := (activeXid u).isSome || u.txn.holdsSnapshot

structure Annals (Row : Type) where
  led : Led Row
  /-- The node elected in each term. -/
  leads : ℕ → Option NodeId
  /-- The length of the log when a node marked a term served. -/
  opened : NodeId → ℕ → Option ℕ
  /-- The open transaction of each session. -/
  born : NodeId → SessionId → Option Birth
  /-- The log, with the origin of every entry. -/
  entries : List (LogEntry Row × Origin)
  /-- The proposals in flight, with theirs. -/
  flying : List ((ℕ × LogEntry Row) × Origin)

namespace Annals

def initial : Annals Row := ⟨.initial, fun _ => none, fun _ _ => none, fun _ _ => none, [], []⟩

variable (A : Annals Row)

def nextLeads : LeaderAct Row → ℕ → Option NodeId
  | .on _ (.elect n) => Function.update A.leads (A.led.range.term + 1) (some n)
  | _ => A.leads

def nextOpened : LeaderAct Row → NodeId → ℕ → Option ℕ
  | .on _ (.serve n) =>
    match (A.led.range.nodes n).sweep with
    | .settled t => fun m t' =>
      if m = n ∧ t' = t then (A.opened n t).or (some A.entries.length) else A.opened m t'
    | _ => A.opened
  | _ => A.opened

def nextBorn (L : Led Row) : LeaderAct Row → NodeId → SessionId → Option Birth
  | .on _ (.call n s _ _) => fun m s' =>
    if m = n ∧ s' = s then
      if bound (L.range.sess n s) then
        (A.born n s).or (some ⟨A.led.range.term, A.entries.length⟩)
      else none
    else A.born m s'
  | .on _ (.crash n) => fun m s => if m = n then none else A.born m s
  | _ => A.born

def nextEntries : LeaderAct Row → List (LogEntry Row × Origin)
  | .on _ (.call n s (.apply true) _) =>
    match (A.led.range.sess n s).pc with
    | .committing b epoch after =>
      A.entries ++ [(A.led.range.entryOf n s b after, ⟨n, epoch, A.born n s⟩)]
    | _ => A.entries
  | .on _ (.late i) => A.entries ++ A.flying[i]?.toList.map fun f => (f.1.2, f.2)
  | .on _ (.advance n true) =>
    match (A.led.range.nodes n).sweep with
    | .advancing _ newLo =>
      A.entries ++ [(⟨.scanLo newLo, none⟩, ⟨n, A.led.range.term, none⟩)]
    | _ => A.entries
  | _ => A.entries

/-- A refused proposal stays in flight while its term can still append it. -/
def keepFlying (epoch : ℕ) (e : LogEntry Row) (o : Origin) : List ((ℕ × LogEntry Row) × Origin) :=
  if A.led.range.canAppend epoch then A.flying ++ [((epoch, e), o)] else A.flying

def nextFlying : LeaderAct Row → List ((ℕ × LogEntry Row) × Origin)
  | .on _ (.call n s (.apply false) _) =>
    match (A.led.range.sess n s).pc with
    | .committing b epoch after =>
      A.keepFlying epoch (A.led.range.entryOf n s b after) ⟨n, epoch, A.born n s⟩
    | _ => A.flying
  | .on _ (.late i) => A.flying.eraseIdx i
  | .on _ (.settle _) => A.flying.filter fun f => decide (f.1.1 = A.led.range.term)
  | .on _ (.advance n false) =>
    match (A.led.range.nodes n).sweep with
    | .advancing _ newLo =>
      A.keepFlying (A.led.range.epochOf n) ⟨.scanLo newLo, none⟩
        ⟨n, A.led.range.epochOf n, none⟩
    | _ => A.flying
  | _ => A.flying

def next (act : LeaderAct Row) (L : Led Row) : Annals Row :=
  ⟨L, A.nextLeads act, A.nextOpened act, A.nextBorn L act, A.nextEntries act, A.nextFlying act⟩

def step (act : LeaderAct Row) : Option (Annals Row) := (A.led.step act).map (A.next act)

end Annals

/-- A node is elected with no transaction left open, and a statement that takes an xid starts
behind the open gate. The code asks for the gate in all of them but SELECT FOR UPDATE or SHARE. -/
def Fresh (A : Annals Row) : LeaderAct Row → Prop
  | .on _ (.elect n) => ∀ s, bound (A.led.range.sess n s) = false
  | .on _ (.call n _ (.start _) _) => A.led.range.serving n = true
  | _ => True

section Sessions

variable {env : Env} {v v' : View Row} {a : Act Row}

theorem Move.holdsSnapshot (hm : Move env v a v') (h : v'.self.txn.holdsSnapshot = true) :
    v.self.txn.holdsSnapshot = true ∨
    (∃ w, a = .start w) ∨ a = .begin true ∧ v.self.txn = .idle := by
  cases hm with
  | still a txn err hpc hx hw hplain hsnap => exact (hsnap h).imp_right .inr
  | alloc w | resume w => exact .inr (.inl ⟨w, rfl⟩)
  | read w x auto f txn hpc hx hw hauto htodo hchanges hops htxn =>
    rcases htxn with ⟨-, rfl⟩ | ⟨-, c, S, hc, rfl⟩
    · exact .inl h
    · rw [hc]
      exact .inl h
  | fail =>
    cases htxn : v.self.txn with
    | idle | inTransaction | failed => rw [htxn] at h; cases h
  | stage f c rows marker hpc hw hauto htxn =>
    rw [htxn]
    exact .inl h
  | apply ok b epoch after =>
    refine .inl ?_
    cases after with
    | keep =>
      cases ok with
      | true => exact h
      | false =>
        cases htxn : v.self.txn <;> simp only [Sess.returned, htxn] at h <;> cases h
    | enlist | close => cases ok <;> exact h
  | commit | abort | leave | drop => cases h
  | _ => exact .inl h

theorem Move.bound_of (hm : Move env v a v') (hc : Coherent v.self) (h : bound v'.self = true) :
    bound v.self = true ∨ (∃ w, a = .start w) ∨ a = .begin true ∧ v.self.txn = .idle := by
  unfold bound at h ⊢
  rw [Bool.or_eq_true] at h ⊢
  rcases h with h | h
  · rcases Move.activeXid_cases hm hc with ⟨hsame | hnone, -⟩ | ⟨-, -, -, hw⟩
    · exact .inl (.inl (hsame ▸ h))
    · rw [hnone] at h
      cases h
    · exact .inr (.inl hw)
  · rcases Move.holdsSnapshot hm h with h | h
    · exact .inl (.inr h)
    · exact .inr h

end Sessions

namespace Annals

/-- A transaction of node `n` with this birth: as long as its term can append, everything appended
since is its node's own. -/
structure Suits (A : Annals Row) (n : NodeId) (b : Birth) : Prop where
  length : b.length ≤ A.entries.length
  term : b.term ≤ A.led.barrier
  leads : A.leads b.term = some n
  alone : A.led.barrier ≤ b.term → ∀ j f, b.length ≤ j → A.entries[j]? = some f →
    f.2.node = n ∧ f.2.epoch = b.term

def Opened (A : Annals Row) (n : NodeId) (t : ℕ) : Prop :=
  ∃ l, A.opened n t = some l ∧ l ≤ A.entries.length

/-- What is known of a proposal before it is appended. -/
structure Traced (A : Annals Row) (e : LogEntry Row) (o : Origin) : Prop where
  leads : A.leads o.epoch = some o.node
  batch : ∀ b, e.proposal = .batch b → ∃ birth, o.birth = some birth
  birth : ∀ birth, o.birth = some birth →
    o.epoch = birth.term ∧ A.Suits o.node birth ∧ A.Opened o.node birth.term

/-- What is known of an entry once it is in the log. -/
structure Placed (A : Annals Row) (i : ℕ) (f : LogEntry Row × Origin) : Prop where
  batch : ∀ b, f.1.proposal = .batch b → ∃ birth, f.2.birth = some birth
  epoch : ∀ birth, f.2.birth = some birth → f.2.epoch = birth.term
  length : ∀ birth, f.2.birth = some birth → birth.length ≤ i
  opened : ∀ birth, f.2.birth = some birth →
    ∃ l, A.opened f.2.node birth.term = some l ∧ l ≤ i
  alone : ∀ birth, f.2.birth = some birth → ∀ j f', birth.length ≤ j → j ≤ i →
    A.entries[j]? = some f' → f'.2.node = f.2.node ∧ f'.2.epoch = birth.term

structure SessBorn (A : Annals Row) (n : NodeId) (s : SessionId) : Prop where
  coherent : Coherent (A.led.range.sess n s)
  bound : bound (A.led.range.sess n s) = true → ∃ b, A.born n s = some b
  born : ∀ b, A.born n s = some b → Cluster.bound (A.led.range.sess n s) = true ∧ A.Suits n b ∧
    (A.led.range.leader = some n → b.term = A.led.range.term)
  active : ∀ b, A.born n s = some b → (activeXid (A.led.range.sess n s)).isSome = true →
    A.Opened n b.term
  proposed : ∀ bt epoch after b, (A.led.range.sess n s).pc = .committing bt epoch after →
    epoch ≠ 0 → A.born n s = some b → epoch = b.term

structure Inv (A : Annals Row) : Prop where
  gate : GateInv A.led
  log : A.entries.map Prod.fst = A.led.range.log
  flight : A.flying.map Prod.fst = A.led.range.inflight
  leads : ∀ n, A.led.range.leader = some n → A.leads A.led.range.term = some n
  future : ∀ t, A.led.range.term < t → A.leads t = none
  started : ∀ n, A.led.range.leader = some n → A.led.range.term ≠ 0
  past : ∀ n t l, A.opened n t = some l → l ≤ A.entries.length
  opened : ∀ n, (A.led.range.nodes n).served = 0 ∨ A.Opened n (A.led.range.nodes n).served
  sess : ∀ n s, A.SessBorn n s
  flying : ∀ f ∈ A.flying, f.2.epoch = f.1.1 ∧ (f.1.1 ≠ 0 → A.Traced f.1.2 f.2)
  entries : ∀ i f, A.entries[i]? = some f → A.Placed i f

theorem inv_initial : Inv (initial : Annals Row) where
  gate := gateInv_initial
  log := rfl
  flight := rfl
  leads n h := by cases h
  future t _ := rfl
  started n h := by cases h
  past n t l h := by cases h
  opened n := .inl rfl
  sess n s :=
    { coherent := trivial
      bound := fun h => by cases h
      born := fun b h => by cases h
      active := fun b h => by cases h
      proposed := fun bt epoch after b h => by cases h }
  flying f h := by cases h
  entries i f h := by
    simp [initial] at h

/-- What no step takes back. -/
structure Grows (A A' : Annals Row) : Prop where
  barrier : A.led.barrier ≤ A'.led.barrier
  leads : ∀ t n, A.leads t = some n → A'.leads t = some n
  opened : ∀ n t l, A.opened n t = some l → A'.opened n t = some l
  entries : A'.entries = A.entries ∨ ∃ f, A'.entries = A.entries ++ [f] ∧
    A.led.barrier ≤ f.2.epoch ∧ f.2.epoch ≤ A'.led.barrier ∧ A.leads f.2.epoch = some f.2.node

section Growth

variable {A A' : Annals Row} {n : NodeId} {s : SessionId} {j : ℕ} {f : LogEntry Row × Origin}

theorem Grows.length (hg : Grows A A') : A.entries.length ≤ A'.entries.length := by
  rcases hg.entries with h | ⟨f, h, -⟩ <;> simp [h]

/-- An entry is an old one, or the one just appended. -/
theorem Grows.getElem? (hg : Grows A A') (hf : A'.entries[j]? = some f) :
    A.entries[j]? = some f ∨ j = A.entries.length ∧ A.led.barrier ≤ f.2.epoch ∧
      f.2.epoch ≤ A'.led.barrier ∧ A.leads f.2.epoch = some f.2.node := by
  rcases hg.entries with heq | ⟨f', heq, hnew⟩
  · exact .inl (heq ▸ hf)
  · rw [heq, getElem?_append] at hf
    split_ifs at hf with hlt
    · exact .inl hf
    · have hj : j - A.entries.length < [f'].length := (List.getElem?_eq_some_iff.mp hf).1
      obtain rfl : j = A.entries.length := by
        rw [length_singleton] at hj
        omega
      simp only [Nat.sub_self, getElem?_cons_zero, some.injEq] at hf
      exact .inr ⟨rfl, hf ▸ hnew⟩

theorem Opened.grows {t : ℕ} (h : A.Opened n t) (hg : Grows A A') : A'.Opened n t := by
  obtain ⟨l, hl, hle⟩ := h
  exact ⟨l, hg.opened n t l hl, hle.trans hg.length⟩

theorem Suits.grows {b : Birth} (h : A.Suits n b) (hg : Grows A A') : A'.Suits n b where
  length := h.length.trans hg.length
  term := h.term.trans hg.barrier
  leads := hg.leads _ _ h.leads
  alone hb j f hj hf := by
    rcases hg.getElem? hf with hold | ⟨-, hlo, hhi, hlead⟩
    · exact h.alone (hg.barrier.trans hb) j f hj hold
    · have hterm : f.2.epoch = b.term := le_antisymm (hhi.trans hb) (h.term.trans hlo)
      rw [hterm, h.leads] at hlead
      exact ⟨(some.inj hlead).symm, hterm⟩

theorem Traced.grows (h : A.Traced e o) (hg : Grows A A') : A'.Traced e o where
  leads := hg.leads _ _ h.leads
  batch := h.batch
  birth b hb := by
    obtain ⟨hepoch, hsuits, hopen⟩ := h.birth b hb
    exact ⟨hepoch, hsuits.grows hg, hopen.grows hg⟩

theorem Inv.placed (h : Inv A) (hg : Grows A A')
    (hnew : ∀ f, A'.entries[A.entries.length]? = some f → A.Traced f.1 f.2) (i : ℕ)
    (f : LogEntry Row × Origin) (hf : A'.entries[i]? = some f) : A'.Placed i f := by
  rcases hg.getElem? hf with hold | ⟨rfl, hlo, -⟩
  · have hp := h.entries i f hold
    have hi := (List.getElem?_eq_some_iff.mp hold).1
    refine ⟨hp.batch, hp.epoch, hp.length, fun b hb => ?_, fun b hb j f' hj hji hf' => ?_⟩
    · obtain ⟨l, hl, hle⟩ := hp.opened b hb
      exact ⟨l, hg.opened _ _ l hl, hle⟩
    · rcases hg.getElem? hf' with hold' | ⟨rfl, -⟩
      · exact hp.alone b hb j f' hj hji hold'
      · omega
  · have ht := hnew f hf
    refine ⟨ht.batch, fun b hb => (ht.birth b hb).1, fun b hb => (ht.birth b hb).2.1.length,
      fun b hb => ?_, fun b hb j f' hj _ hf' => ?_⟩
    · obtain ⟨-, -, l, hl, hle⟩ := ht.birth b hb
      exact ⟨l, hg.opened _ _ l hl, hle⟩
    · obtain ⟨hepoch, hsuits, -⟩ := ht.birth b hb
      rcases hg.getElem? hf' with hold' | ⟨rfl, -⟩
      · exact hsuits.alone (hepoch ▸ hlo) j f' hj hold'
      · rw [hf] at hf'
        cases hf'
        exact ⟨rfl, hepoch⟩

theorem SessBorn.unbound (hc : Coherent (A.led.range.sess n s))
    (hb : Cluster.bound (A.led.range.sess n s) = false) (hborn : A.born n s = none) :
    A.SessBorn n s := by
  constructor <;> simp [hc, hb, hborn]

theorem SessBorn.of_birth {birth : Birth} (hc : Coherent (A.led.range.sess n s))
    (hb : Cluster.bound (A.led.range.sess n s) = true) (hborn : A.born n s = some birth)
    (hsuits : A.Suits n birth) (hterm : A.led.range.leader = some n → birth.term = A.led.range.term)
    (hopen : (activeXid (A.led.range.sess n s)).isSome = true → A.Opened n birth.term)
    (hprop : ∀ bt epoch after, (A.led.range.sess n s).pc = .committing bt epoch after →
      epoch ≠ 0 → epoch = birth.term) : A.SessBorn n s := by
  have hinj : ∀ b, A.born n s = some b → birth = b := fun b hb' =>
    some.inj (hborn.symm.trans hb')
  refine ⟨hc, fun _ => ⟨birth, hborn⟩, fun b hb' => ?_, fun b hb' => ?_,
    fun bt epoch after b hpc h0 hb' => ?_⟩ <;> cases hinj b hb'
  · exact ⟨hb, hsuits, hterm⟩
  · exact hopen
  · exact hprop bt epoch after hpc h0

theorem SessBorn.same (h : A.SessBorn n s) (hg : Grows A A')
    (hsess : A'.led.range.sess n s = A.led.range.sess n s) (hborn : A'.born n s = A.born n s)
    (hlead : A'.led.range.leader = some n → Cluster.bound (A.led.range.sess n s) = true →
      A.led.range.leader = some n ∧ A'.led.range.term = A.led.range.term) : A'.SessBorn n s := by
  cases hbirth : A.born n s with
  | none =>
    refine .unbound (hsess ▸ h.coherent) ?_ (hborn.trans hbirth)
    by_contra hb
    obtain ⟨b, hb'⟩ := h.bound (hsess ▸ Bool.of_not_eq_false hb)
    rw [hbirth] at hb'
    cases hb'
  | some birth =>
    obtain ⟨hb, hsuits, hterm⟩ := h.born birth hbirth
    refine .of_birth (hsess ▸ h.coherent) (hsess ▸ hb) (hborn.trans hbirth) (hsuits.grows hg)
      (fun hl => ?_) (fun hx => ?_) fun bt epoch after hpc h0 => ?_
    · obtain ⟨hold, heq⟩ := hlead hl hb
      exact (hterm hold).trans heq.symm
    · exact (h.active birth hbirth (hsess ▸ hx)).grows hg
    · exact h.proposed bt epoch after birth (hsess ▸ hpc) h0 hbirth

end Growth

section Steps

variable {A A' : Annals Row} {n : NodeId} {s : SessionId} {glob : GlobalView} {a : RangeAct Row}

theorem bound_of_active {u : Sess Row} (h : (activeXid u).isSome = true) : bound u = true := by
  simp [bound, h]

theorem active_committing {u : Sess Row} (hpc : u.pc = .committing b epoch after) :
    (activeXid u).isSome = true := by
  simp [activeXid, hpc]

theorem Inv.traced (h : Inv A) (hpc : (A.led.range.sess n s).pc = .committing b epoch after)
    (h0 : epoch ≠ 0) (e : LogEntry Row) : A.Traced e ⟨n, epoch, A.born n s⟩ := by
  have hS := h.sess n s
  have hactive := active_committing hpc
  obtain ⟨birth, hbirth⟩ := hS.bound (bound_of_active hactive)
  obtain ⟨-, hsuits, -⟩ := hS.born birth hbirth
  obtain rfl := hS.proposed b epoch after birth hpc h0 hbirth
  refine ⟨hsuits.leads, fun _ _ => ⟨birth, hbirth⟩, fun b' hb' => ?_⟩
  change A.born n s = some b' at hb'
  rw [hbirth] at hb'
  cases hb'
  exact ⟨rfl, hsuits, hS.active birth hbirth hactive⟩

theorem traced_scanLo (lo : ℕ) (hl : A.leads A.led.range.term = some n) :
    A.Traced ⟨.scanLo lo, none⟩ ⟨n, A.led.range.term, none⟩ :=
  ⟨hl, nofun, nofun⟩

theorem entries_step (h : Inv A) (hs : A.led.range.step glob a = some R) :
    A.nextEntries (.on glob a) = A.entries ∧ R.log = A.led.range.log ∨
    ∃ e o, A.nextEntries (.on glob a) = A.entries ++ [(e, o)] ∧
      R.log = A.led.range.log ++ [e] ∧ A.Traced e o ∧
      A.led.range.appendEpoch a = some o.epoch := by
  cases step_cases hs with
  | called n s a lag hcall =>
    cases hcall with
    | appended b epoch after hpc hcan =>
      have hpc' : (A.led.range.sess n s).pc = .committing b epoch after := hpc
      exact .inr ⟨_, ⟨n, epoch, A.born n s⟩, by simp only [nextEntries, hpc'], rfl,
        h.traced hpc' (canAppend_iff.mp hcan).1 _, by simp only [appendEpoch, hpc']⟩
    | refused => exact .inl ⟨rfl, rfl⟩
    | moved a v ha =>
      refine .inl ⟨?_, rfl⟩
      cases a with
      | apply ok => exact absurd rfl (ha ok)
      | _ => rfl
  | late i epoch e hget hcan =>
    rw [← h.flight, getElem?_map, map_eq_some_iff] at hget
    obtain ⟨⟨p, o⟩, hflying, rfl⟩ := hget
    obtain ⟨hoe, htraced⟩ := h.flying _ (mem_of_getElem? hflying)
    refine .inr ⟨e, o, by simp [nextEntries, hflying], rfl, htraced (canAppend_iff.mp hcan).1, ?_⟩
    simp only [appendEpoch, ← h.flight, getElem?_map, hflying, map_some]
    exact congrArg some hoe.symm
  | crash n => exact .inl ⟨rfl, log_crash _ n⟩
  | advanced n term newLo hsweep hl =>
    exact .inr ⟨_, ⟨n, A.led.range.term, none⟩, by simp only [nextEntries, hsweep], rfl,
      traced_scanLo newLo (h.leads n hl), rfl⟩
  | elect | settle | refused => exact .inl ⟨rfl, rfl⟩
  | tended act n node hpa hsess hintent htends =>
    refine .inl ⟨?_, rfl⟩
    cases htends <;> rfl

theorem map_keepFlying (h : A.flying.map Prod.fst = A.led.range.inflight) (epoch : ℕ)
    (e : LogEntry Row) (o : Origin) :
    (A.keepFlying epoch e o).map Prod.fst = A.led.range.keep epoch e := by
  unfold keepFlying keep
  split_ifs
  · rw [map_append, h]
    rfl
  · exact h

theorem mem_keepFlying {f : (ℕ × LogEntry Row) × Origin} (hf : f ∈ A.keepFlying epoch e o) :
    f ∈ A.flying ∨ f = ((epoch, e), o) := by
  unfold keepFlying at hf
  split_ifs at hf
  · exact (mem_append.mp hf).imp_right mem_singleton.mp
  · exact .inl hf

theorem flying_step (h : Inv A) (hs : A.led.range.step glob a = some R) :
    (A.nextFlying (.on glob a)).map Prod.fst = R.inflight ∧
    ∀ f ∈ A.nextFlying (.on glob a), f ∈ A.flying ∨
      f.2.epoch = f.1.1 ∧ (f.1.1 ≠ 0 → A.Traced f.1.2 f.2) := by
  -- a refused proposal is the only one that is added
  have hkept : ∀ {flying : List ((ℕ × LogEntry Row) × Origin)} {epoch e o}, o.epoch = epoch →
      (epoch ≠ 0 → A.Traced e o) → flying = A.keepFlying epoch e o →
      flying.map Prod.fst = A.led.range.keep epoch e ∧ ∀ f ∈ flying, f ∈ A.flying ∨
        f.2.epoch = f.1.1 ∧ (f.1.1 ≠ 0 → A.Traced f.1.2 f.2) := by
    rintro _ epoch e o ho ht rfl
    refine ⟨map_keepFlying h.flight epoch e o, fun f hf => ?_⟩
    rcases mem_keepFlying hf with hf | rfl
    · exact .inl hf
    · exact .inr ⟨ho, ht⟩
  cases step_cases hs with
  | called n s a lag hcall =>
    cases hcall with
    | refused b epoch after hpc =>
      have hpc' : (A.led.range.sess n s).pc = .committing b epoch after := hpc
      exact hkept rfl (fun h0 => h.traced hpc' h0 _) (by simp only [nextFlying, hpc'])
    | appended => exact ⟨h.flight, fun f hf => .inl hf⟩
    | moved a v ha =>
      cases a with
      | apply ok => exact absurd rfl (ha ok)
      | _ => exact ⟨h.flight, fun f hf => .inl hf⟩
  | late i =>
    refine ⟨?_, fun f hf => .inl (mem_of_mem_eraseIdx hf)⟩
    change (A.flying.eraseIdx i).map Prod.fst = A.led.range.inflight.eraseIdx i
    rw [← h.flight, eraseIdx_map]
  | crash n => exact ⟨h.flight.trans (inflight_crash _ n).symm, fun f hf => .inl hf⟩
  | settle =>
    refine ⟨?_, fun f hf => .inl (mem_of_mem_filter hf)⟩
    change (A.flying.filter _).map Prod.fst = A.led.range.inflight.filter _
    rw [← h.flight, List.filter_map]
    rfl
  | refused n term newLo hsweep =>
    have hnext : A.nextFlying (.on glob (.advance n false)) = A.keepFlying (A.led.range.epochOf n)
        ⟨.scanLo newLo, none⟩ ⟨n, A.led.range.epochOf n, none⟩ := by
      simp only [nextFlying, hsweep]
    refine hkept rfl (fun h0 => ?_) hnext
    have hl : A.led.range.leader = some n := by
      by_contra hno
      exact h0 (if_neg hno)
    rw [epochOf, if_pos hl]
    exact traced_scanLo newLo (h.leads n hl)
  | elect | advanced => exact ⟨h.flight, fun f hf => .inl hf⟩
  | tended act n node hpa hsess hintent htends =>
    cases htends <;> exact ⟨h.flight, fun f hf => .inl hf⟩

theorem leads_grow (h : Inv A) (act : LeaderAct Row) {t : ℕ} (ht : A.leads t = some n) :
    A.nextLeads act t = some n := by
  unfold nextLeads
  split
  · refine (Function.update_of_ne ?_ _ _).trans ht
    rintro rfl
    simp [h.future] at ht
  · exact ht

theorem opened_grow (act : LeaderAct Row) (m : NodeId) (t : ℕ) :
    A.nextOpened act m t = A.opened m t ∨
      A.opened m t = none ∧ A.nextOpened act m t = some A.entries.length := by
  cases act with
  | reseed => exact .inl rfl
  | on glob a =>
    cases a with
    | serve n =>
      cases hsweep : (A.led.range.nodes n).sweep with
      | settled t' =>
        simp only [nextOpened, hsweep]
        split_ifs with hmt
        · obtain ⟨rfl, rfl⟩ := hmt
          cases A.opened m t <;> simp
        · exact .inl rfl
      | _ => exact .inl (by simp only [nextOpened, hsweep])
    | _ => exact .inl rfl

theorem served_step (h : Inv A) (hs : A.led.range.step glob a = some R) (m : NodeId) :
    (R.nodes m).served = (A.led.range.nodes m).served ∨ (R.nodes m).served = 0 ∨
      ∃ l, A.nextOpened (.on glob a) m (R.nodes m).served = some l ∧ l ≤ A.entries.length := by
  have hturn := turned_step hs m
  generalize R.nodes m = node at hturn
  cases hturn with
  | boot => exact .inr (.inl rfl)
  | tends node _ _ _ ht =>
    cases ht with
    | serve term hsweep =>
      refine .inr (.inr ?_)
      cases hold : A.opened m term with
      | none => exact ⟨_, by simp [nextOpened, hsweep, hold], le_rfl⟩
      | some l => exact ⟨l, by simp [nextOpened, hsweep, hold], h.past m term l hold⟩
    | _ => exact .inl rfl
  | _ => exact .inl rfl

theorem Inv.opened_of_serving (h : Inv A) (hs : A.led.range.serving n = true) :
    A.led.range.leader = some n ∧ A.Opened n A.led.range.term := by
  unfold serving at hs
  rw [Bool.and_eq_true, decide_eq_true_eq, decide_eq_true_eq] at hs
  refine ⟨hs.1, ?_⟩
  rcases h.opened n with h0 | hopen
  · exact absurd (hs.2.symm.trans h0) (h.started n hs.1)
  · exact hs.2 ▸ hopen

theorem SessBorn.returned (h : A.SessBorn n s) (hg : Grows A A') (ok : Bool)
    (hpc : (A.led.range.sess n s).pc = .committing b epoch after)
    (hsess : A'.led.range.sess n s = (A.led.range.sess n s).returned b after ok)
    (hborn : A'.born n s = if Cluster.bound (A'.led.range.sess n s) then
      (A.born n s).or (some ⟨A.led.range.term, A.entries.length⟩) else none)
    (hlead : A'.led.range.leader = some n →
      A.led.range.leader = some n ∧ A'.led.range.term = A.led.range.term) : A'.SessBorn n s := by
  have hactive := active_committing hpc
  have hc : Coherent (A'.led.range.sess n s) := hsess ▸ coherent_returned h.coherent hpc ok
  cases hb : Cluster.bound (A'.led.range.sess n s) with
  | false => exact .unbound hc hb (by simpa [hb] using hborn)
  | true =>
    obtain ⟨birth, hbirth⟩ := h.bound (bound_of_active hactive)
    obtain ⟨-, hsuits, hterm⟩ := h.born birth hbirth
    refine .of_birth hc hb (by simpa [hb, hbirth] using hborn) (hsuits.grows hg) (fun hl => ?_)
      (fun _ => (h.active birth hbirth hactive).grows hg) fun bt epoch' after' hpc' => ?_
    · exact (hterm (hlead hl).1).trans (hlead hl).2.symm
    · rw [hsess] at hpc'
      cases after <;> cases ok <;> simp only [Sess.returned] at hpc' <;> try split_ifs at hpc'
      all_goals cases hpc'

theorem Inv.sess_moved (h : Inv A) (hg : Grows A A') {a : Act Row} {v : View Row}
    (ha : ∀ ok, a ≠ .apply ok) (hadm : A.led.range.admits n a = true)
    (hstart : ∀ w, a = .start w → A.led.range.serving n = true)
    (hbegin : a = .begin true → (A.led.range.sess n s).txn = .idle →
      A.led.range.leader = some n ∧ A'.led.barrier = A.led.range.term)
    (hmove : Move (A.led.range.env n glob)
      ((A.led.range.nodes n).view s (A.led.range.storeAt (A.led.range.nodes n).applied)) a v)
    (hsess : A'.led.range.sess n s = v.self)
    (hborn : A'.born n s = if bound (A'.led.range.sess n s) then
      (A.born n s).or (some ⟨A.led.range.term, A.entries.length⟩) else none)
    (hentries : A'.entries = A.entries) (hlead : A'.led.range.leader = some n →
      A.led.range.leader = some n ∧ A'.led.range.term = A.led.range.term) : A'.SessBorn n s := by
  have hS := h.sess n s
  have hc : Coherent (A'.led.range.sess n s) := hsess ▸ (Move.handles hmove hS.coherent).1
  cases hb : bound (A'.led.range.sess n s) with
  | false => exact .unbound hc hb (by simpa [hb] using hborn)
  | true =>
    rw [hb, if_pos rfl] at hborn
    -- the birth of the transaction, old or new, and what it is good for
    obtain ⟨birth, hbirth, hsuits, hbterm, hopen⟩ : ∃ birth, A'.born n s = some birth ∧
        A'.Suits n birth ∧ (A.led.range.leader = some n → birth.term = A.led.range.term) ∧
        ((activeXid (A.led.range.sess n s)).isSome = true → A.Opened n birth.term) := by
      cases hold : A.born n s with
      | some birth =>
        rw [hold, some_or] at hborn
        obtain ⟨-, hsuits, hbterm⟩ := hS.born birth hold
        exact ⟨birth, hborn, hsuits.grows hg, hbterm, hS.active birth hold⟩
      | none =>
        rw [hold, none_or] at hborn
        have hfree : bound (A.led.range.sess n s) ≠ true := by
          intro hbound
          obtain ⟨b, hb'⟩ := hS.bound hbound
          rw [hold] at hb'
          cases hb'
        obtain ⟨hl, hbar⟩ : A.led.range.leader = some n ∧ A.led.range.term ≤ A'.led.barrier := by
          rw [hsess] at hb
          rcases Move.bound_of hmove hS.coherent hb with hbound | ⟨w, rfl⟩ | ⟨rfl, hidle⟩
          · exact absurd hbound hfree
          · refine ⟨(h.opened_of_serving (hstart w rfl)).1, ?_⟩
            have hseed : A.led.range.seeded = true := by
              simp only [admits, Bool.and_eq_true] at hadm
              exact hadm.1.2
            exact (h.gate.seeded hseed).ge.trans hg.barrier
          · obtain ⟨hl, hbar⟩ := hbegin rfl hidle
            exact ⟨hl, hbar.ge⟩
        refine ⟨_, hborn, ⟨?_, hbar, hg.leads _ _ (h.leads n hl), ?_⟩, fun _ => rfl, fun hx => ?_⟩
        · exact hentries ▸ le_rfl
        · intro _ j f hj hf
          rw [hentries, getElem?_eq_none hj] at hf
          cases hf
        · exact absurd (bound_of_active hx) hfree
    refine .of_birth hc hb hbirth hsuits (fun hl => ?_) (fun hx => ?_)
      fun bt epoch after hpc h0 => ?_
    · exact (hbterm (hlead hl).1).trans (hlead hl).2.symm
    · rw [hsess] at hx
      rcases Move.activeXid_cases hmove hS.coherent with ⟨hsame | hnone, -⟩ | ⟨-, -, -, w, rfl⟩
      · exact (hopen (hsame ▸ hx)).grows hg
      · rw [hnone] at hx
        cases hx
      · obtain ⟨hl, hserved⟩ := h.opened_of_serving (hstart w rfl)
        rw [hbterm hl]
        exact hserved.grows hg
    · rw [hsess] at hpc
      have hepoch : epoch = A.led.range.epochOf n := Move.epoch_of hmove ha hpc
      have hl : A.led.range.leader = some n := by
        by_contra hno
        exact h0 (hepoch.trans (if_neg hno))
      rw [hepoch, epochOf, if_pos hl, hbterm hl]

theorem Inv.sess_step (h : Inv A) (hok : Fresh A (.on glob a))
    (hs : A.led.range.step glob a = some R)
    (hlead : ∀ m ∈ A.led.range.awaitsBarrier a, A.led.range.leader = some m)
    (hbarrier : (A.led.range.awaitsBarrier a).isSome = true → barrier = A.led.range.term)
    (hg : Grows A (A.next (.on glob a) ⟨R, barrier⟩)) (n : NodeId) (s : SessionId) :
    (A.next (.on glob a) ⟨R, barrier⟩).SessBorn n s := by
  have hbefore : R.leader = some n → bound (A.led.range.sess n s) = true →
      A.led.range.leader = some n ∧ R.term = A.led.range.term := by
    intro hl hb
    rcases leader_before hs hl with ⟨hl, hterm, -⟩ | ⟨rfl, -⟩
    · exact ⟨hl, hterm⟩
    · exact absurd (hb.symm.trans (hok s)) nofun
  have hcalled : ∀ {a' lag}, a = .call n s a' lag → R.leader = some n →
      A.led.range.leader = some n ∧ R.term = A.led.range.term := by
    rintro a' lag rfl hl
    rcases leader_before hs hl with ⟨hl, hterm, -⟩ | ⟨hact, -⟩
    · exact ⟨hl, hterm⟩
    · cases hact
  by_cases hcrash : a = .crash n
  · subst hcrash
    cases step_cases hs with
    | crash =>
      have hnew : (A.led.range.crash n).sess n s = .new := by
        unfold Range.sess
        rw [nodes_crash, if_pos rfl]
        rfl
      refine .unbound ?_ ?_ (if_pos rfl)
      · exact hnew ▸ trivial
      · exact congrArg bound hnew
    | tended _ n node hpa hsess hintent htends => cases htends
  · have hbecame := became_step hs n s
    generalize hu : R.sess n s = u at hbecame
    cases hbecame with
    | same hact =>
      refine (h.sess n s).same hg hu ?_ hbefore
      cases a with
      | call m s' a' lag => exact if_neg fun ⟨hm, hs'⟩ => hact a' lag (by rw [hm, hs'])
      | crash m => exact if_neg fun hm => hcrash (by rw [hm])
      | _ => rfl
    | new hact => exact absurd hact hcrash
    | returned b epoch after ok lag hact hpc =>
      subst hact
      exact (h.sess n s).returned hg ok hpc hu (if_pos ⟨rfl, rfl⟩) (hcalled rfl)
    | moved a' v lag hact ha hadm hmove =>
      subst hact
      refine h.sess_moved hg ha hadm ?_ ?_ hmove hu (if_pos ⟨rfl, rfl⟩) ?_ (hcalled rfl)
      · rintro w rfl
        exact hok
      · rintro rfl hidle
        have hawait : A.led.range.awaitsBarrier (.call n s (.begin true) lag) = some n := by
          simp only [awaitsBarrier, hidle, if_true]
        exact ⟨hlead n hawait, hbarrier (by rw [hawait]; rfl)⟩
      · cases a' with
        | apply ok => exact absurd rfl (ha ok)
        | _ => rfl

/-- What holds after a step that is known field by field. -/
theorem Inv.grows (h : Inv A) (hgate : GateInv A'.led) (hg : Grows A A')
    (hnew : ∀ f, A'.entries[A.entries.length]? = some f → A.Traced f.1 f.2)
    (hlog : A'.entries.map Prod.fst = A'.led.range.log)
    (hflight : A'.flying.map Prod.fst = A'.led.range.inflight)
    (hleads : ∀ n, A'.led.range.leader = some n →
      A'.leads A'.led.range.term = some n ∧ A'.led.range.term ≠ 0)
    (hfuture : ∀ t, A'.led.range.term < t → A'.leads t = none)
    (hpast : ∀ n t l, A'.opened n t = some l → A.opened n t = some l ∨ l ≤ A.entries.length)
    (hopened : ∀ n, (A'.led.range.nodes n).served = (A.led.range.nodes n).served ∨
      (A'.led.range.nodes n).served = 0 ∨ ∃ l,
        A'.opened n (A'.led.range.nodes n).served = some l ∧ l ≤ A.entries.length)
    (hsess : ∀ n s, A'.SessBorn n s) (hflying : ∀ f ∈ A'.flying, f ∈ A.flying ∨
      f.2.epoch = f.1.1 ∧ (f.1.1 ≠ 0 → A.Traced f.1.2 f.2)) : Inv A' where
  gate := hgate
  log := hlog
  flight := hflight
  leads n hn := (hleads n hn).1
  future := hfuture
  started n hn := (hleads n hn).2
  past n t l hl := by
    rcases hpast n t l hl with hold | hle
    · exact (h.past n t l hold).trans hg.length
    · exact hle.trans hg.length
  opened n := by
    rcases hopened n with hsame | h0 | ⟨l, hl, hle⟩
    · rw [hsame]
      exact (h.opened n).imp_right fun ho => ho.grows hg
    · exact .inl h0
    · exact .inr ⟨l, hl, hle.trans hg.length⟩
  sess := hsess
  flying f hf := by
    rcases hflying f hf with hf | ⟨hepoch, ht⟩
    · exact ⟨(h.flying f hf).1, fun h0 => ((h.flying f hf).2 h0).grows hg⟩
    · exact ⟨hepoch, fun h0 => (ht h0).grows hg⟩
  entries := h.placed hg hnew

theorem inv_step {act : LeaderAct Row} (h : Inv A) (hok : Fresh A act)
    (hstep : A.step act = some A') : Inv A' := by
  obtain ⟨L, hL, rfl⟩ := map_eq_some_iff.mp hstep
  have hgate := gateInv_step h.gate hL
  cases Led.step_cases hL with
  | reseed k =>
    have hg : Grows A (A.next (.reseed k) ⟨A.led.range.reseed k, A.led.barrier⟩) :=
      ⟨le_rfl, fun _ _ => id, fun _ _ _ => id, .inl rfl⟩
    refine h.grows hgate hg (fun f hf => ?_) h.log h.flight
      (fun m hm => ⟨h.leads m hm, h.started m hm⟩) h.future (fun _ _ _ => .inl)
      (fun m => .inl ?_) (fun m s => ?_) fun _ => .inl
    · simp [next, nextEntries] at hf
    · exact field_setNode (R := A.led.range) Node.served (by rfl) m
    · refine (h.sess m s).same hg ?_ rfl fun hl _ => ⟨hl, rfl⟩
      exact sess_setNode_same (R := A.led.range) (by rfl) m s
  | on glob a R barrier hs happend hlead hbarrier =>
    obtain ⟨hflight, hflying⟩ := flying_step h hs
    have hopened := fun m t => opened_grow (A := A) (.on glob a) m t
    have hentries := entries_step h hs
    have hg : Grows A (A.next (.on glob a) ⟨R, barrier⟩) := by
      refine ⟨(h.gate.barrier_step hbarrier).1, fun t m => leads_grow h (.on glob a),
        fun m t l hl => ?_, hentries.imp And.left ?_⟩
      · rcases hopened m t with hsame | ⟨hnone, -⟩
        · exact hsame.trans hl
        · simp [hl] at hnone
      · rintro ⟨e, o, heq, -, ht, hepoch⟩
        refine ⟨(e, o), heq, happend _ hepoch, ?_, ht.leads⟩
        have hle : (A.led.range.appendEpoch a).getD 0 ≤ A.led.range.term :=
          h.gate.epochs.appendEpoch_le
        change o.epoch ≤ barrier
        rw [hepoch] at hle hbarrier
        rw [hbarrier]
        split_ifs
        · exact hle
        · exact le_max_right _ _
    refine h.grows hgate hg ?_ ?_ hflight (fun m hm => ?_) (fun t ht => ?_)
      (fun m t l hl => ?_) (served_step h hs) (h.sess_step hok hs hlead (fun hw => ?_) hg) hflying
    · intro f hf
      change (A.nextEntries (.on glob a))[A.entries.length]? = some f at hf
      rcases hentries with ⟨heq, -⟩ | ⟨e, o, heq, -, ht, -⟩
      · simp [heq] at hf
      · simp only [heq, getElem?_concat_length, some.injEq] at hf
        exact hf ▸ ht
    · change (A.nextEntries (.on glob a)).map Prod.fst = R.log
      rcases hentries with ⟨heq, hlog⟩ | ⟨e, o, heq, hlog, -⟩ <;> simp [heq, hlog, h.log]
    · rcases leader_before hs hm with ⟨hl, hterm, -⟩ | ⟨rfl, rfl⟩
      · change A.nextLeads (.on glob a) R.term = some m ∧ R.term ≠ 0
        rw [hterm]
        exact ⟨leads_grow h _ (h.leads m hl), h.started m hl⟩
      · exact ⟨Function.update_self _ _ _, Nat.succ_ne_zero _⟩
    · have hle := term_le_step hs
      have hold := h.future t (hle.trans_lt ht)
      cases a with
      | elect n =>
        cases step_cases hs with
        | elect => exact (Function.update_of_ne ht.ne' _ _).trans hold
        | tended _ _ _ _ _ _ htends => cases htends
      | _ => exact hold
    · rcases hopened m t with hsame | ⟨-, hnew⟩
      · exact .inl (hsame.symm.trans hl)
      · cases hnew.symm.trans hl
        exact .inr le_rfl
    · rw [hbarrier, if_pos hw]

theorem inv_exec {acts : List (LeaderAct Row)} (hok : Runs.Along step Fresh initial acts)
    (h : exec step initial acts = some A) : Inv A :=
  exec_invariant (fun _ _ _ hI hact hs => inv_step hI hact hs) inv_initial hok h

end Steps

end Annals

/-- Every batch in the log was proposed in the term in which its transaction began, behind the gate
that its node had opened for that term; and everything in the log since the transaction began was
proposed by the same node in the same term. -/
theorem transaction_in_one_term (acts : List (LeaderAct Row)) (A : Annals Row)
    (hok : Runs.Along Annals.step Fresh Annals.initial acts)
    (h : exec Annals.step Annals.initial acts = some A) :
    ∀ (i : ℕ) (e : LogEntry Row) (b : Batch Row), A.led.range.log[i]? = some e →
      e.proposal = .batch b →
      ∃ (o : Origin) (birth : Birth), A.entries[i]? = some (e, o) ∧ o.birth = some birth ∧
        o.epoch = birth.term ∧ birth.length ≤ i ∧
        (∃ l, A.opened o.node birth.term = some l ∧ l ≤ i) ∧
        ∀ j e' o', birth.length ≤ j → j ≤ i → A.entries[j]? = some (e', o') →
          o'.node = o.node ∧ o'.epoch = birth.term := by
  intro i e b hi hb
  have hinv := Annals.inv_exec hok h
  rw [← hinv.log, getElem?_map, map_eq_some_iff] at hi
  obtain ⟨⟨e, o⟩, hget, rfl⟩ := hi
  have hplaced := hinv.entries i _ hget
  obtain ⟨birth, hbirth⟩ := hplaced.batch b hb
  refine ⟨o, birth, hget, hbirth, hplaced.epoch birth hbirth, hplaced.length birth hbirth,
    hplaced.opened birth hbirth, ?_⟩
  intro j e' o' hj hji hget'
  exact hplaced.alone birth hbirth j (e', o') hj hji hget'

section Runs

def incrementAll : Work ℕ := .update 1 (fun _ => .ok true) fun v => .ok (v + 1)

def increment (n : NodeId) (s : SessionId) : List (RangeAct ℕ) :=
  calls n s [.start incrementAll, .takeSnapshot, .scan, .next, .acquire 0, .recheck, .propose,
    .apply true]

def insertRow (n : NodeId) (s : SessionId) : List (RangeAct ℕ) :=
  calls n s [.start insertOne, .takeSnapshot, .scan, .propose, .apply true, .finish, .release]

/-- On node 0 a block updates the row; node 1 takes over and updates it too; node 0 is elected
again, and the block commits. -/
def leadComesBack : List (LeaderAct ℕ) :=
  onLeader (openGate 0 false ++ insertRow 0 0 ++ calls 0 1 [.begin false] ++ increment 0 1 ++
    openGate 1 true ++ increment 1 0 ++ calls 1 0 [.finish, .release] ++
    [.elect 0] ++ calls 0 1 [.commit, .apply true, .finish])

def blockInTerm : List (LeaderAct ℕ) :=
  onLeader ((openGate 0 false).tail ++ insertRow 0 0 ++ calls 0 1 [.begin true] ++ increment 0 1 ++
    calls 0 1 [.commit, .apply true, .finish])

def freshCheck (A : Annals ℕ) : LeaderAct ℕ → Bool
  | .on _ (.elect _) => false
  | .on _ (.call n _ (.start _) _) => A.led.range.serving n
  | _ => true

theorem fresh_of_check {A : Annals ℕ} {act : LeaderAct ℕ} (h : freshCheck A act = true) :
    Fresh A act := by
  cases act with
  | reseed => trivial
  | on glob a =>
    cases a with
    | elect => cases h
    | call n s a =>
      cases a with
      | start => exact h
      | _ => trivial
    | _ => trivial

end Runs

/-- The transaction of node 0 that began in term 1 is committed in term 3, after the commit of node
1. Two versions of the row are live, and one of the two increments is lost. -/
theorem transaction_spans_terms :
    ∃ A : Annals ℕ, exec Annals.step Annals.initial leadComesBack = some A ∧
      A.entries.map Prod.snd =
        [⟨0, 1, some ⟨1, 0⟩⟩, ⟨0, 1, some ⟨1, 1⟩⟩, ⟨1, 2, none⟩, ⟨1, 2, some ⟨2, 3⟩⟩,
          ⟨0, 3, some ⟨1, 1⟩⟩] ∧
      A.led.range.tip.clogGet 2 = .committed ∧ A.led.range.tip.clogGet 3 = .committed ∧
      A.led.range.tip.version (1, 1) 2 = some ⟨2, invalidXid, 2⟩ ∧
      A.led.range.tip.version (1, 1) 3 = some ⟨3, invalidXid, 2⟩ :=
  exists_some (by decide +kernel)

/-- The commit record of the block is the third entry. -/
theorem transaction_in_one_term_block :
    ∃ A : Annals ℕ, exec Annals.step Annals.initial (onLeader [.elect 0] ++ blockInTerm) =
        some A ∧ A.led.range.tip.clogGet 2 = .committed ∧
      ∀ e b, A.led.range.log[2]? = some e → e.proposal = .batch b →
        ∃ (o : Origin) (birth : Birth), A.entries[2]? = some (e, o) ∧ o.birth = some birth ∧
          o.epoch = birth.term ∧ birth.length ≤ 2 ∧
          (∃ l, A.opened o.node birth.term = some l ∧ l ≤ 2) ∧
          ∀ j e' o', birth.length ≤ j → j ≤ 2 → A.entries[j]? = some (e', o') →
            o'.node = o.node ∧ o'.epoch = birth.term := by
  obtain ⟨A, hA, hcommitted⟩ :
      ∃ A ∈ exec Annals.step Annals.initial (onLeader [.elect 0] ++ blockInTerm),
        A.led.range.tip.clogGet 2 = .committed := by decide +kernel
  have hok : Runs.Along Annals.step Fresh (Annals.initial : Annals ℕ)
      (onLeader [.elect 0] ++ blockInTerm) := by
    refine ⟨fun s => rfl, fun A hA => ?_⟩
    cases hA
    exact along_of_check freshCheck (fun _ _ => fresh_of_check) (by decide +kernel)
  exact ⟨A, hA, hcommitted, transaction_in_one_term _ A hok hA 2⟩

end Crabgresql.Cluster
