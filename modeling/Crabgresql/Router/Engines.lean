import Crabgresql.Router.Calls

/-!
# The engines behind a router

Every step of a router moves the engine of a range by steps of its sessions, by
decisions and by failed queries; only a batch of another leader comes from
outside. What such moves keep is kept by every run of the router. An engine whose
batches all come from its own sessions gives every transaction an xid of its own,
and the xid of an open block has nothing on record until the block ends.
-/

namespace Crabgresql.Router

open Mvcc Kv Procarray Exec Session Engine MultiRange Cluster Function Option Gateway

variable {Row : Type} {G H : Gateway Row} {E E' : RangeEngine Row}
variable {env : Env} {v v' : View Row} {b : Batch Row}
variable {r : RangeId} {a : Act Row} {s : Statement Row} {u : Sess Row} {x : Xid}

def failOwn (E : RangeEngine Row) : RangeEngine Row :=
  let u := E.engine.sessions own
  { E with
    engine :=
      { E.engine with
        sessions := update E.engine.sessions own
          { u with txn := u.txn.fail, err := some (u.err.getD .evaluation) } } }

def EngineStep (E E' : RangeEngine Row) : Prop := (∃ act, E.step act = some E') ∨ E' = failOwn E

/-- One engine moves, in any number of steps. -/
def Advances (E E' : RangeEngine Row) : Prop := Relation.ReflTransGen EngineStep E E'

theorem Advances.invariant {P : RangeEngine Row → Prop}
    (hstep : ∀ E act E', P E → E.step act = some E' → P E') (hfail : ∀ E, P E → P (failOwn E))
    (h : Advances E E') (hP : P E) : P E' := by
  induction h with
  | refl => exact hP
  | tail _ hlast ih =>
    rcases hlast with ⟨act, hact⟩ | rfl
    · exact hstep _ act _ ih hact
    · exact hfail _ ih

def Advance (f f' : RangeId → RangeEngine Row) : Prop := ∀ r, Advances (f r) (f' r)

theorem Advance.refl (f : RangeId → RangeEngine Row) : Advance f f := fun _ => .refl

theorem Advance.trans {f f' f'' : RangeId → RangeEngine Row} (h : Advance f f')
    (h' : Advance f' f'') : Advance f f'' := fun r => (h r).trans (h' r)

theorem advance_setRange {E : RangeEngine Row} (h : EngineStep (G.ranges r) E) :
    Advance G.ranges (G.setRange r E).ranges := by
  intro r'
  by_cases hr : r' = r
  · subst hr
    simp only [setRange, update_self]
    exact .single h
  · simp only [setRange, update_of_ne hr]
    exact .refl

theorem advance_call (h : G.call r a = some H) : Advance G.ranges H.ranges := by
  obtain ⟨E, hE, rfl⟩ := map_eq_some_iff.mp h
  exact advance_setRange (.inl ⟨_, hE⟩)

theorem advance_failQuery (G : Gateway Row) (r : RangeId) :
    Advance G.ranges (G.failQuery r).ranges :=
  advance_setRange (.inr rfl)

theorem advance_runSession (h : G.runSession r s = some H) : Advance G.ranges H.ranges := by
  obtain ⟨K, hK, rfl⟩ := map_eq_some_iff.mp h
  have hcall := advance_call hK
  cases s.fails with
  | false => exact hcall
  | true => exact hcall.trans (advance_failQuery K r)

theorem advance_runOn (h : G.runOn r s = some H) : Advance G.ranges H.ranges := by
  unfold runOn at h
  split_ifs at h
  · exact advance_runSession h
  · cases h
    exact .refl _

theorem advance_ensureBegan (h : G.ensureBegan r = some H) : Advance G.ranges H.ranges := by
  unfold ensureBegan at h
  split at h
  · exact advance_call h
  · cases h
    exact .refl _

theorem advance_stageOn {g : Xid} (h : G.stageOn r g s = some H) : Advance G.ranges H.ranges := by
  unfold stageOn at h
  split_ifs at h
  · obtain ⟨K, hK, hH⟩ := bind_eq_some_iff.mp h
    obtain ⟨L, hL, rfl⟩ := map_eq_some_iff.mp hH
    exact (advance_ensureBegan hK).trans (advance_call hL :)
  · cases h
    exact .refl _
  · cases h
    exact .refl _

theorem advance_releaseAll {ranges : List RangeId} (h : G.releaseAll ranges = some H) :
    Advance G.ranges H.ranges := by
  induction ranges generalizing G with
  | nil =>
    cases h
    exact .refl _
  | cons r rs ih =>
    obtain ⟨K, hK, hH⟩ := bind_eq_some_iff.mp h
    refine Advance.trans ?_ (ih hH)
    split_ifs at hK
    · exact advance_call hK
    · cases hK
      exact .refl _

/-- The batch of another leader that a step brings to range `r`. -/
def GatewayAct.replicates (r : RangeId) : GatewayAct Row → Bool
  | .replicate r' _ => decide (r' = r)
  | _ => false

theorem advances_step {act : GatewayAct Row} (hstep : G.step act = some H)
    (hact : GatewayAct.replicates r act = false) : Advances (G.ranges r) (H.ranges r) := by
  cases took_of_step hstep with
  | opened _ _ h | nested _ _ h | closed _ _ _ h | ran _ _ _ _ _ h => exact (advance_runOn h r :)
  | pinned _ _ _ _ hK h => exact ((advance_ensureBegan hK).trans (advance_runOn h) r :)
  | escalated =>
    unfold escalate
    split_ifs <;> exact .refl
  | staged _ _ _ _ h | joined _ _ h | begun _ h => exact (advance_stageOn h r :)
  | worked _ _ h | enlists _ h => exact advance_call h r
  | resumed _ _ h => exact advance_runSession h r
  | released _ h => exact (advance_releaseAll h r :)
  | other _ h => exact advance_setRange (.inl ⟨_, h⟩) r
  | replicate =>
    simp only [setRange, update_of_ne (Ne.symm (of_decide_eq_false hact))]
    exact .refl
  | _ => exact .refl

/-- A batch that goes on with a block outside a global transaction records no outcome. -/
def Unmarked (u : Sess Row) : Prop :=
  ∀ b epoch after, u.pc = .committing b epoch after → u.globalXid = none →
    u.txn.localXid ≠ none → b.outcome = none

theorem unmarked_of_pc (h : ∀ b epoch after, u.pc ≠ .committing b epoch after) :
    Unmarked u := fun b epoch after hpc => absurd hpc (h b epoch after)

theorem unmarked_of_localXid (h : u.txn.localXid = none) : Unmarked u :=
  fun _ _ _ _ _ hx => absurd h hx

theorem unmarked_move (hm : Move env v a v') (hc : Coherent v.self) (h : Unmarked v.self) :
    Unmarked v'.self := by
  cases hm with
  | wait => exact h
  | fail _ f e lm seq hpc =>
    obtain ⟨-, hloc⟩ := frame_coherent hc hpc
    cases hauto : f.autocommit with
    | true =>
      refine unmarked_of_localXid ?_
      rw [hauto] at hloc
      simpa using hloc
    | false =>
      refine unmarked_of_pc fun b epoch after hpc' => ?_
      simp [failPc, hauto] at hpc'
  | done =>
    refine unmarked_of_pc fun b epoch after hpc' => ?_
    simp only at hpc'
    split_ifs at hpc'
  | submit f hpc hw hauto =>
    obtain ⟨-, hloc⟩ := frame_coherent hc (f := f) (by rw [hpc]; rfl)
    rw [hauto] at hloc
    exact unmarked_of_localXid hloc
  | stage f c rows marker =>
    intro b epoch after hpc' hnone _
    cases hpc'
    rw [show marker = none from hnone]
    rfl
  | commit | abort => exact unmarked_of_localXid rfl
  | apply ok b epoch after =>
    refine unmarked_of_pc fun b' epoch' after' hpc' => ?_
    cases after <;> cases ok <;> simp only [Sess.returned] at hpc' <;> try split_ifs at hpc'
    all_goals cases hpc'
  | join g x eff => exact fun _ _ _ _ hnone => absurd hnone (some_ne_none eff)
  | _ => exact unmarked_of_pc fun b epoch after hpc' => by cases hpc'

theorem coherent_activeXid (h : Coherent u) (hx : u.txn.localXid = some x) :
    activeXid u = some x := by
  unfold Coherent at h
  unfold activeXid
  split at h <;> simp_all

theorem localXid_move (hm : Move env v a v') (hnone : v'.self.globalXid = none)
    (hx : v'.self.txn.localXid = some x) :
    v.self.globalXid = none ∧ v.self.txn.localXid = some x ∨ x = v.pa.nextXid := by
  cases hm with
  | still _ txn err hpc hloc => exact .inl ⟨hnone, hloc ▸ hx⟩
  | alloc w autocommit txn hpc hloc htxn =>
    cases autocommit with
    | true =>
      rw [show txn = .idle from htxn] at hx
      cases hx
    | false =>
      obtain ⟨c, -, rfl⟩ := htxn
      cases hx
      exact .inr rfl
  | read w y autocommit f txn hpc hfx hw hauto htodo hchanges hops htxn =>
    refine .inl ⟨hnone, ?_⟩
    rcases htxn with ⟨-, rfl⟩ | ⟨-, c, S, hc, rfl⟩
    · exact hx
    · rw [hc]
      exact hx
  | fail => exact .inl ⟨hnone, (localXid_fail _).symm.trans hx⟩
  | stage f c rows marker hpc hw hauto htxn hrows hmarker =>
    refine .inl ⟨?_, ?_⟩
    · cases hgx : v.self.globalXid with
      | none => rfl
      | some =>
        rw [hgx] at hmarker
        rw [show marker = none from hnone] at hmarker
        cases hmarker
    · rw [htxn]
      exact hx
  | apply ok b epoch after =>
    rw [localXid_returned] at hx
    refine .inl ⟨?_, hx⟩
    cases after <;> cases ok <;> exact hnone
  | commit | abort | leave | drop => cases hx
  | joinIdle | join => cases hnone
  | _ => exact .inl ⟨hnone, hx⟩

/-- An engine all of whose batches come from its own sessions. -/
structure Tidy (E : RangeEngine Row) : Prop where
  bounded : ∀ s, Bounded E.engine.pa.nextXid E.engine.pa.nextXid (E.engine.sessions s)
  xmin : ∀ k, ∀ t ∈ E.engine.kv.rowVersions k, t.xmin < E.engine.pa.nextXid
  unmarked : ∀ s, Unmarked (E.engine.sessions s)
  distinct : ∀ s s' x, activeXid (E.engine.sessions s) = some x →
    activeXid (E.engine.sessions s') = some x → s = s'
  fresh : ∀ x, E.engine.pa.nextXid ≤ x → E.engine.kv.clogGet x = .inProgress
  undecided : ∀ s x, (E.engine.sessions s).globalXid = none →
    (E.engine.sessions s).txn.localXid = some x → E.engine.kv.clogGet x = .inProgress

theorem tidy_initial : Tidy (RangeEngine.initial : RangeEngine Row) where
  bounded s := bounded_new
  xmin k t ht := by
    obtain ⟨x, hx⟩ := (mem_rowVersions _).mp ht
    rw [show (RangeEngine.initial : RangeEngine Row).engine.kv = .empty from rfl,
      version_empty] at hx
    cases hx
  unmarked s := unmarked_of_localXid rfl
  distinct s s' x hx := by cases hx
  fresh x _ := rfl
  undecided s x _ hx := by cases hx

theorem Tidy.applying (h : Tidy E) {s : SessionId} (hb : b ∈ applying E s a) :
    BatchOk E.engine.pa.nextXid E.engine.pa.nextXid b ∧
      activeXid (E.engine.sessions s) = some b.xid ∧
      ∃ epoch after, (E.engine.sessions s).pc = .committing b epoch after := by
  unfold MultiRange.applying at hb
  split at hb
  · split at hb
    · rename_i b' epoch after hpc
      cases hb
      refine ⟨((h.bounded s).batch b epoch after hpc).1, ?_, epoch, after, hpc⟩
      unfold activeXid
      rw [hpc]
    · cases hb
  · cases hb

theorem clogGet_applyBatch_of_ne {kv : Store Row} (hseq : SeqOnly b.seqOps) (hx : b.xid ≠ x) :
    (applyBatch kv b.ops).clogGet x = kv.clogGet x := by
  rw [clogGet_applyBatch_ops hseq]
  cases b.outcome with
  | none => rfl
  | some => simp only [if_neg hx]

theorem xmin_applyBatch {kv : Store Row} {n : ℕ} (hb : BatchOk n n b)
    (h : ∀ k, ∀ t ∈ kv.rowVersions k, t.xmin < n) :
    ∀ k, ∀ t ∈ (applyBatch kv b.ops).rowVersions k, t.xmin < n := by
  intro k t ht
  obtain ⟨y, hy⟩ := (mem_rowVersions _).mp ht
  rcases version_applyBatch kv b.ops k y with hsame | ⟨t', ht', hop⟩
  · rw [hsame] at hy
    exact h k t ((mem_rowVersions _).mpr ⟨y, hy⟩)
  · rw [hy] at ht'
    cases ht'
    obtain ⟨ch, hch, hop⟩ := version_mem_ops hb.seqOps hop
    rcases version_rowOps_cases hop with ⟨-, hx⟩ | ⟨cur, rfl, hkind⟩
    · rw [hx]
      exact hb.xid
    · refine hb.targets ch hch y ?_
      rcases hkind with ⟨next, rfl⟩ | rfl <;> rfl

theorem distinct_move (sessions : SessionId → Sess Row) {s : SessionId}
    (hself : v.self = sessions s) (hm : Move env v a v') (hc : Coherent (sessions s))
    (hbelow : ∀ s x, activeXid (sessions s) = some x → x < v.pa.nextXid)
    (h : ∀ s s' x, activeXid (sessions s) = some x → activeXid (sessions s') = some x → s = s') :
    ∀ s₁ s₂ x, activeXid (update sessions s v'.self s₁) = some x →
      activeXid (update sessions s v'.self s₂) = some x → s₁ = s₂ := by
  have hkey : ∀ s' x, s' ≠ s → activeXid v'.self = some x → activeXid (sessions s') ≠ some x := by
    intro s' x hne hx hx'
    rcases Move.activeXid_cases hm (hself ▸ hc) with ⟨hsame | hnone, -⟩ | ⟨-, hnew, -, -⟩
    · rw [hsame, hself] at hx
      exact hne (h s' s x hx' hx)
    · rw [hnone] at hx
      cases hx
    · rw [hnew] at hx
      cases hx
      exact absurd (hbelow s' _ hx') (lt_irrefl _)
  intro s₁ s₂ x h₁ h₂
  by_cases hs₁ : s₁ = s <;> by_cases hs₂ : s₂ = s
  · rw [hs₁, hs₂]
  · rw [hs₁, update_self] at h₁
    rw [update_of_ne hs₂] at h₂
    exact absurd h₂ (hkey s₂ x hs₂ h₁)
  · rw [update_of_ne hs₁] at h₁
    rw [hs₂, update_self] at h₂
    exact absurd h₁ (hkey s₁ x hs₁ h₂)
  · rw [update_of_ne hs₁] at h₁
    rw [update_of_ne hs₂] at h₂
    exact h s₁ s₂ x h₁ h₂

theorem tidy_call {s : SessionId} (h : Tidy E) (hstep : E.step (.call s a) = some E') :
    Tidy E' := by
  obtain ⟨-, v, hm, heng, hkv⟩ := call_cases hstep
  have hc : Coherent (E.engine.sessions s) := (h.bounded s).coherent
  have hnext : E.engine.pa.nextXid ≤ v.pa.nextXid := nextXid_le_move hm
  have hbound : Bounded v.pa.nextXid E.engine.pa.nextXid v.self :=
    Move.bounded hm h.xmin (h.bounded s)
  have hself := hbound.mono le_rfl hnext
  have hclog : ∀ x, (∀ b ∈ applying E s a, b.xid = x → b.outcome = none) →
      v.kv.clogGet x = E.engine.kv.clogGet x := by
    intro x hx
    rcases hkv with hkv | ⟨b, hb, hkv⟩
    · rw [hkv]
    · rw [hkv]
      by_cases hbx : b.xid = x
      · rw [clogGet_applyBatch_ops (h.applying hb).1.seqOps, hx b hb hbx]
      · exact clogGet_applyBatch_of_ne (h.applying hb).1.seqOps hbx
  refine ⟨?_, ?_, ?_, ?_, ?_, ?_⟩ <;> rw [heng]
  · exact (forall_update_iff _ fun _ u => Bounded v.pa.nextXid v.pa.nextXid u).mpr
      ⟨hself, fun s' _ => (h.bounded s').mono hnext hnext⟩
  · intro k t ht
    change t ∈ v.kv.rowVersions k at ht
    refine lt_of_lt_of_le ?_ hnext
    rcases hkv with hkv | ⟨b, hb, hkv⟩
    · rw [hkv] at ht
      exact h.xmin k t ht
    · rw [hkv] at ht
      exact xmin_applyBatch (h.applying hb).1 h.xmin k t ht
  · exact (forall_update_iff _ fun _ => Unmarked).mpr
      ⟨unmarked_move hm hc (h.unmarked s), fun s' _ => h.unmarked s'⟩
  · exact distinct_move E.engine.sessions rfl hm hc (fun s' => (h.bounded s').xid)
      h.distinct
  · intro x hx
    change v.kv.clogGet x = .inProgress
    have hold := le_trans hnext hx
    rw [hclog x fun b hb hbx => ?_]
    · exact h.fresh x hold
    · exact absurd (hbx ▸ (h.applying hb).1.xid) (not_lt.mpr hold)
  · refine (forall_update_iff _ fun _ (u : Sess Row) => ∀ x, u.globalXid = none →
      u.txn.localXid = some x → v.kv.clogGet x = .inProgress).mpr
        ⟨fun x hnone hx => ?_, fun s' hs x hnone hx => ?_⟩
    · rcases localXid_move hm hnone hx with ⟨hnone', hx'⟩ | rfl
      · rw [hclog x fun b hb _ => ?_]
        · exact h.undecided s x hnone' hx'
        · obtain ⟨-, -, epoch, after, hpc⟩ := h.applying hb
          refine h.unmarked s b epoch after hpc hnone' fun hno => ?_
          exact some_ne_none x (hx'.symm.trans hno)
      · rw [hclog _ fun b hb hbx => ?_]
        · exact h.fresh _ le_rfl
        · exact absurd (hbx ▸ (h.applying hb).1.xid) (lt_irrefl _)
    · rw [hclog x fun b hb hbx => ?_]
      · exact h.undecided s' x hnone hx
      · have hactive := coherent_activeXid (h.bounded s').coherent hx
        exact absurd (h.distinct s' s x hactive (hbx ▸ (h.applying hb).2.1)) hs

theorem tidy_step {act : EngineAct Row} (h : Tidy E) (hstep : E.step act = some E') : Tidy E' := by
  cases act with
  | call => exact tidy_call h hstep
  | decide | counter =>
    cases hstep
    exact ⟨h.bounded, h.xmin, h.unmarked, h.distinct, h.fresh, h.undecided⟩

/-- A session that another one replaces with the same xids and in the same place. -/
structure Alike (u u' : Sess Row) : Prop where
  pc : u'.pc = u.pc
  globalXid : u'.globalXid = u.globalXid
  localXid : u'.txn.localXid = u.txn.localXid

theorem Alike.activeXid {u' : Sess Row} (h : Alike u u') :
    Session.activeXid u' = Session.activeXid u := by
  unfold Session.activeXid
  rw [h.pc]
  split <;> first | exact h.localXid | rfl

theorem Alike.bounded {u' : Sess Row} {next lo : ℕ} (h : Alike u u') (hb : Bounded next lo u) :
    Bounded next lo u' where
  coherent := by
    have hc := hb.coherent
    unfold Coherent at hc ⊢
    rw [h.pc, h.localXid]
    exact hc
  xid x hx := hb.xid x (h.activeXid ▸ hx)
  frame f hf := hb.frame f (h.pc ▸ hf)
  batch b epoch after hpc := hb.batch b epoch after (h.pc ▸ hpc)

theorem alike_failOwn (E : RangeEngine Row) (s : SessionId) :
    Alike (E.engine.sessions s) ((failOwn E).engine.sessions s) := by
  unfold failOwn
  by_cases hs : s = own
  · subst hs
    simp only [update_self]
    exact ⟨rfl, rfl, localXid_fail _⟩
  · simp only [update_of_ne hs]
    exact ⟨rfl, rfl, rfl⟩

theorem tidy_failOwn (h : Tidy E) : Tidy (failOwn E) where
  bounded s := (alike_failOwn E s).bounded (h.bounded s)
  xmin := h.xmin
  unmarked s b epoch after hpc hnone hx := by
    have halike := alike_failOwn E s
    exact h.unmarked s b epoch after (halike.pc ▸ hpc) (halike.globalXid ▸ hnone)
      (halike.localXid ▸ hx)
  distinct s s' x hx hx' :=
    h.distinct s s' x ((alike_failOwn E s).activeXid ▸ hx) ((alike_failOwn E s').activeXid ▸ hx')
  fresh := h.fresh
  undecided s x hnone hx :=
    h.undecided s x ((alike_failOwn E s).globalXid ▸ hnone) ((alike_failOwn E s).localXid ▸ hx)

theorem Advances.tidy (h : Advances E E') (hE : Tidy E) : Tidy E' :=
  h.invariant (fun _ _ _ => tidy_step) (fun _ => tidy_failOwn) hE

theorem Advances.shaped (h : Advances E E') (hE : Shaped E) : Shaped E' :=
  h.invariant (fun _ _ _ => shaped_step)
    (fun E hE => ⟨hE.formed, fun s => (alike_failOwn E s).pc ▸ hE.seqOps s⟩) hE

theorem Advances.clogGet_terminal (h : Advances E E') {st : XidStatus} (hst : st.isTerminal = true)
    (hx : E.engine.kv.clogGet x = st) : E'.engine.kv.clogGet x = st := by
  refine h.invariant (P := fun E => E.engine.kv.clogGet x = st) ?_ (fun _ hx => hx) hx
  intro E act E' hx hstep
  cases act with
  | call =>
    obtain ⟨-, v, -, heng, hkv⟩ := call_cases hstep
    rw [heng]
    change v.kv.clogGet x = st
    rcases hkv with hkv | ⟨b, -, hkv⟩ <;> rw [hkv]
    · exact hx
    · rw [clogGet_applyBatch_terminal (by rw [hx]; exact hst), hx]
  | decide | counter =>
    cases hstep
    exact hx

end Crabgresql.Router
