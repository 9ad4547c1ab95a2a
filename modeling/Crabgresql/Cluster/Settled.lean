import Crabgresql.Cluster.Atomicity
import Crabgresql.Cluster.Watermark

/-!
# What is in doubt behind an open gate

Before a leader opens its gate its sweep has seen every marker decided. A marker
in doubt behind the open gate therefore belongs to a transaction that is open on
the leader itself, if a participant is released only after its decision and a
node is elected only with no transaction left open from before.
-/

namespace Crabgresql.Cluster

open Mvcc Kv Procarray Lockmgr Exec Session Engine Recovery Range

variable {Row : Type}
variable {x : Xid} {m : NodeId}

/-- A participant is released or dropped after its decision, and a new leader has no open
transaction of its own. -/
def Orderly (glob : GlobalView) (R : Range Row) : RangeAct Row → Prop
  | .call n s .drop _ => ∀ g ∈ (R.sess n s).globalXid, (glob.clog g).isTerminal = true
  | .elect n => ∀ s, activeXid (R.sess n s) = none
  | _ => True

/-- The conditions of a settled range. -/
structure SettledStep (glob : GlobalView) (R : Range Row) (act : RangeAct Row) : Prop where
  sole : SoleStep glob R act
  unpassed : Unpassed R act
  orderly : Orderly glob R act

/-- The sweep of the current term has seen every marker decided. -/
def Calm (R : Range Row) (n : NodeId) : Prop :=
  (∃ lo, (R.nodes n).sweep = .advancing R.term lo) ∨ (R.nodes n).sweep = .settled R.term ∨
    (R.nodes n).served = R.term

def OpenOn (R : Range Row) (n : NodeId) (x : Xid) : Prop := ∃ s, activeXid (R.sess n s) = some x

/-- A marker that a batch of the current term, refused but still in flight, carries for an
undecided global transaction. -/
def FliesFor (glob : GlobalView) (R : Range Row) (x : Xid) : Prop :=
  ∃ p ∈ R.inflight, p.1 = R.term ∧ ∃ b g, p.2.proposal = .batch b ∧ b.xid = x ∧
    b.outcome = some (.prepared g) ∧ (glob.clog g).isTerminal = false

structure SettledInv (glob : GlobalView) (R : Range Row) : Prop where
  marks : MarkInv R
  guarded : Guarded glob R
  served : ∀ n, (R.nodes n).served ≤ R.term
  idle : ∀ n, R.leader = some n → (R.nodes n).served = R.term → (R.nodes n).sweep = .idle
  ready : ∀ n, R.leader = some n → (R.nodes n).sweep.term = some R.term ∨
    (R.nodes n).served = R.term → R.seeded = true
  calm : ∀ n, R.leader = some n → Calm R n → ∀ x g, Undecided glob R.tip x g → OpenOn R n x
  flying : ∀ n, R.leader = some n → ∀ x, FliesFor glob R x → OpenOn R n x

section Steps

variable {R R' : Range Row} {n : NodeId} {s : SessionId} {a : Act Row} {glob : GlobalView}
  {act : RangeAct Row}

/-- The leader keeps open what is in doubt. -/
theorem MarkInv.open_step (h : MarkInv R) (horderly : Orderly glob R act)
    (hstep : R.step glob act = some R') (hlead : R'.leader = some m) {g : Xid}
    (hsaid : Says R x (.prepared g)) (hpend : (glob.clog g).isTerminal = false)
    (hopen : OpenOn R m x) : OpenOn R' m x := by
  obtain ⟨s', hx⟩ := hopen
  have hc : Coherent (R.sess m s') := (h.acks.xids.sess m s').coherent
  have hb := became_step hstep m s'
  refine ⟨s', ?_⟩
  generalize R'.sess m s' = u at hb
  cases hb with
  | same => exact hx
  | new hact =>
    subst hact
    cases hstep
    exact absurd rfl (R.leader_crash m hlead).2
  | returned b epoch after ok lag hact hpc =>
    rw [activeXid_returned hc hpc]
    simpa [activeXid, hpc] using hx
  | moved a v lag hact ha hadm hmove =>
    rcases Move.activeXid_cases hmove hc with ⟨hsame | hnone, -⟩ | ⟨hnone, -⟩
    · exact hsame.trans hx
    · obtain ⟨hglob, hloc⟩ := h.mine x g m s' hsaid hx
      rcases (Move.ends hmove hc hx hnone).2 with hlocal | rfl
      · exact absurd (hlocal.symm.trans hloc) (by simp)
      · subst hact
        rw [horderly g hglob] at hpend
        cases hpend
    · exact absurd (hnone.symm.trans hx) (by simp)

theorem SettledInv.seeded_of_calm (h : SettledInv glob R) (hlead : R.leader = some n)
    (hc : Calm R n) : R.seeded = true := by
  refine h.ready n hlead ?_
  rcases hc with ⟨lo, hc⟩ | hc | hc
  · rw [hc]
    exact .inl rfl
  · rw [hc]
    exact .inl rfl
  · exact .inr hc

theorem XidInv.proposer (h : XidInv R) {b : Batch Row} {epoch : ℕ} {after : After}
    (hpc : (R.sess n s).pc = .committing b epoch after) (hlead : R.leader = some m)
    (hcan : R.canAppend epoch = true) (hterm : epoch = R.term) : m = n :=
  (h.epoch n s b epoch after hpc).2 (canAppend_iff.mp hcan).1 hterm m hlead

/-- A sweep that comes to see every marker decided leaves none in doubt. -/
theorem SettledInv.calm_step (h : SettledInv glob R) (hok : Timely R act)
    (hstep : R.step glob act = some R') (hlead : R.leader = some m) (hlead' : R'.leader = some m)
    (hterm : R'.term = R.term) (hc : Calm R' m) :
    Calm R m ∨ R'.log = R.log ∧ ∀ x g, ¬ Undecided glob R.tip x g := by
  unfold Calm at hc
  rw [hterm] at hc
  have hturn := turned_step hstep m
  generalize R'.nodes m = node at hturn hc
  cases hturn with
  | same | returned | moved => exact .inl hc
  | boot hact =>
    subst hact
    cases hstep
    exact absurd rfl (R.leader_crash m hlead').2
  | settle hact _ hclosed => simp [settledNode, hclosed] at hc
  | advance term lo applied ok hact hold =>
    rcases hc with ⟨lo', hc⟩ | hc | hc
    · cases hc
    · cases hc
      exact .inl (.inl ⟨lo, hold⟩)
    · exact .inl (.inr (.inr hc))
  | tends node hpa hsess hintent htends =>
    cases htends with
    | catchUp => exact .inl hc
    | rescan lag term lo sweep hsweep hnext =>
      by_cases hs : (R.nodes m).served = R.term
      · exact .inl (.inr (.inr hs))
      · have hT : sweep.term = some R.term := by
          rcases hc with ⟨lo', hc⟩ | hc | hc
          · exact congrArg Sweep.term hc
          · exact congrArg Sweep.term hc
          · exact absurd hc hs
        rcases hnext with rfl | ⟨hnone, hnext⟩
        · cases hT
        · have hterm : (R.nodes m).sweep.term = some R.term := by
            rw [hsweep]
            rcases hnext with rfl | rfl <;> exact hT
          exact .inr ⟨(log_step hstep).resolve_right (fun ⟨e, ho, _⟩ => by cases ho),
            h.guarded.rescanned hlead hterm (by rw [hsweep]; rfl) (hok hlead hterm) hnone⟩
    | serve term hsweep =>
      rcases hc with ⟨lo, hc⟩ | hc | hc
      · cases hc
      · cases hc
      · exact .inl (.inr (.inl (hsweep.trans (congrArg Sweep.settled hc))))
    | _ =>
      rcases hc with ⟨lo, hc⟩ | hc | hc
      · cases hc
      · cases hc
      · exact .inl (.inr (.inr hc))

theorem settledInv_elect (h : SettledInv glob R) (hmarks : MarkInv (R.elect n))
    (hguard : Guarded glob (R.elect n)) : SettledInv glob (R.elect n) := by
  have hserved : ∀ m, (R.nodes m).served ≠ R.term + 1 := by
    intro m heq
    have hle := h.served m
    omega
  have hsweep : ∀ m, (R.nodes m).sweep.term ≠ some (R.term + 1) := by
    intro m heq
    have hle := h.guarded.terms m _ heq
    omega
  refine ⟨hmarks, hguard, fun m => Nat.le_succ_of_le (h.served m),
    fun m _ hs => absurd hs (hserved m), ?_, ?_, ?_⟩
  · rintro m - (hr | hr)
    · exact absurd hr (hsweep m)
    · exact absurd hr (hserved m)
  · rintro m - (⟨lo, hc⟩ | hc | hc)
    · exact absurd (congrArg Sweep.term hc) (hsweep m)
    · exact absurd (congrArg Sweep.term hc) (hsweep m)
    · exact absurd hc (hserved m)
  · rintro m - x ⟨p, hp, hterm, -⟩
    have hle := (h.marks.acks.xids.flight p hp).1
    change p.1 = R.term + 1 at hterm
    omega

theorem SettledInv.ready_step (h : SettledInv glob R) (hgate : Gates R R' m)
    (hlead : R.leader = some m) (hlead' : R'.leader = some m)
    (hseed : R.seeded = true → R'.seeded = true)
    (hr : (R'.nodes m).sweep.term = some R.term ∨ (R'.nodes m).served = R.term) :
    R'.seeded = true := by
  have hready := fun hr => hseed (h.ready m hlead hr)
  rcases hgate with ⟨hsweep, hserved⟩ | ⟨hsweep, hserved⟩ | ⟨⟨t, ht, ht'⟩ | ⟨-, -, hnow⟩, hserved⟩
  · rw [hsweep, hserved] at hr
    exact hready hr
  · rw [hsweep] at hr
    have hr := hr.resolve_left nofun
    rcases hserved with hs | ⟨-, hne⟩ | hs
    · exact hready (.inr (hs.symm.trans hr))
    · exact absurd hlead' hne
    · exact hready (.inl (hs.trans (congrArg some hr)))
  · rw [ht', ← ht, hserved] at hr
    exact hready hr
  · exact hnow

theorem settledInv_step (h : SettledInv glob R) (hok : SettledStep glob R act)
    (hstep : R.step glob act = some R') : SettledInv glob R' := by
  have hmarks : MarkInv R' := markInv_step h.marks hok.sole.1 hok.sole.2 hstep
  have hguard : Guarded glob R' := guarded_step h.guarded hok.unpassed hstep
  by_cases helect : ∃ n, R' = R.elect n
  · obtain ⟨n, rfl⟩ := helect
    exact settledInv_elect h hmarks hguard
  have hkept := fun m hm => (leader_before hstep (m := m) hm).resolve_right fun heq =>
    helect ⟨m, heq.2⟩
  have hopen := fun m hm x g => h.marks.open_step hok.orderly hstep (m := m) hm (x := x) (g := g)
  have hown : ∀ m n s b epoch after, R.leader = some m → R.canAppend epoch = true →
      epoch = R.term → (R.sess n s).pc = .committing b epoch after → OpenOn R m b.xid := by
    intro m n s b epoch after hl hcan hterm hpc
    rw [h.marks.acks.xids.proposer hpc hl hcan hterm]
    exact ⟨s, by simp [activeXid, hpc]⟩
  have hgate := gates_step hstep
  refine ⟨hmarks, hguard, fun m => ?_, fun m hm hs => ?_, fun m hm hr => ?_,
    fun m hm hc x g hu => ?_, fun m hm x hf => ?_⟩
  · exact ((hgate m).served_le (h.guarded.terms m) (h.served m)).trans (term_le_step hstep)
  · obtain ⟨hl, hterm, -⟩ := hkept m hm
    exact (hgate m).idle (h.idle m hl) (hs.trans hterm)
  · obtain ⟨hl, hterm, hseed⟩ := hkept m hm
    rw [hterm] at hr
    exact h.ready_step (hgate m) hl hm hseed hr
  · obtain ⟨hl, hterm, -⟩ := hkept m hm
    have hc := h.calm_step hok.unpassed.2 hstep hl hm hterm hc
    have hbefore : Undecided glob R.tip x g → Calm R m → OpenOn R' m x := fun hu hc =>
      hopen m hm x g ⟨by simp, .inl hu.marker⟩ hu.pending (h.calm m hl hc x g hu)
    rcases log_step hstep with hlog | ⟨e, ho, hlog⟩
    · rw [show R'.tip = R.tip by simp [tip, hlog]] at hu
      exact hbefore hu (hc.resolve_right fun hnone => hnone.2 x g hu)
    · have hc := hc.resolve_right fun hsame => by simp [hsame.1] at hlog
      rw [show R'.tip = (R.append e).tip by simp [tip, append, hlog]] at hu
      rcases undecided_append (h.guarded.origin ho) hu with hold | ⟨b, hb, rfl, hout⟩
      · exact hbefore hold hc
      have hseed := h.seeded_of_calm hl hc
      cases ho with
      | session n s b' epoch after lag hpc hcan =>
        cases hb
        exact hopen m hm _ g ⟨by simp, .inr (.inr ⟨n, s, b, epoch, after, hpc, rfl, hout⟩)⟩
          hu.pending (hown m n s b epoch after hl hcan ((canAppend_iff.mp hcan).2 hseed) hpc)
      | flight i epoch e hget hcan =>
        have hmem := List.mem_of_getElem? hget
        exact hopen m hm _ g ⟨by simp, .inr (.inl ⟨_, hmem, b, hb, rfl, hout⟩)⟩ hu.pending
          (h.flying m hl _ ⟨_, hmem, (canAppend_iff.mp hcan).2 hseed, b, g, hb, rfl, hout,
            hu.pending⟩)
      | watermark => cases hb
  · obtain ⟨hl, hterm, -⟩ := hkept m hm
    obtain ⟨p, hp, hp1, b, g, hb, rfl, hout, hpend⟩ := hf
    rw [hterm] at hp1
    rcases inflight_step hstep hp with hp | ⟨n, s, b', after, lag, hact, hpc, hcan, he⟩ |
      ⟨n, term, lo, -, -, -, rfl⟩
    · exact hopen m hm _ g ⟨by simp, .inr (.inl ⟨p, hp, b, hb, rfl, hout⟩)⟩ hpend
        (h.flying m hl _ ⟨p, hp, hp1, b, g, hb, rfl, hout, hpend⟩)
    · rw [he] at hb
      cases hb
      exact hopen m hm _ g ⟨by simp, .inr (.inr ⟨n, s, b, p.1, after, hpc, rfl, hout⟩)⟩ hpend
        (hown m n s b p.1 after hl hcan hp1 hpc)
    · cases hb

theorem settledInv_initial (glob : GlobalView) : SettledInv glob (Range.initial : Range Row) where
  marks := markInv_initial
  guarded := guarded_initial glob
  served _ := le_rfl
  idle _ _ _ := rfl
  ready _ hl := nomatch hl
  calm _ hl := nomatch hl
  flying _ hl := nomatch hl

theorem SettledInv.decide (h : SettledInv glob R) (g : Xid) (commit : Bool) :
    SettledInv (recordDecision glob g commit) R where
  marks := h.marks
  guarded := h.guarded.decide g commit
  served := h.served
  idle := h.idle
  ready := h.ready
  calm n hl hc x g' hu :=
    h.calm n hl hc x g' ⟨hu.marker, pending_recordDecision hu.pending, hu.isLocal⟩
  flying n hl x hf := by
    obtain ⟨p, hp, hterm, b, g', hb, hx, hout, hpend⟩ := hf
    exact h.flying n hl x ⟨p, hp, hterm, b, g', hb, hx, hout, pending_recordDecision hpend⟩

end Steps

end Crabgresql.Cluster
