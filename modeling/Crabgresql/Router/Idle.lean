import Crabgresql.Router.Autocommit

/-!
# Which sessions a router leaves open

The pin says which sessions of the router may be in a transaction and which may
be enlisted in a global one. Every step keeps to that, provided a block is closed
where it was opened: BEGIN always opens range 0, and only the pinned ranges are
closed. With the pin gone, every session is then idle, and an autocommit write
that is acknowledged has been committed.
-/

namespace Crabgresql.Router

open Mvcc Kv Exec Session Engine MultiRange Cluster Function List Option Runs

variable {Row : Type} {G H : Gateway Row}

/-- Only the sessions of `T` are in a transaction, only those of `E` in a global one. -/
structure Held (T E : RangeId → Prop) (G : Gateway Row) : Prop where
  idle : ∀ r, ¬ T r → (G.sess r).txn = .idle
  plain : ∀ r, ¬ E r → (G.sess r).globalXid = none

namespace Held

variable {T E T' E' : RangeId → Prop} {r : RangeId} {a : Act Row}

theorem mono (h : Held T E G) (hT : ∀ r, T r → T' r) (hE : ∀ r, E r → E' r) : Held T' E' G :=
  ⟨fun r hr => h.idle r fun ht => hr (hT r ht), fun r hr => h.plain r fun he => hr (hE r he)⟩

theorem congr (h : Held T E G) (hsess : H.sess = G.sess) : Held T E H :=
  ⟨hsess ▸ h.idle, hsess ▸ h.plain⟩

theorem update (h : Held T E G) {u : Sess Row} (hsess : H.sess = Function.update G.sess r u)
    (hT : ∀ r', r' ≠ r → T r' → T' r') (hE : ∀ r', r' ≠ r → E r' → E' r')
    (hidle : ¬ T' r → u.txn = .idle) (hplain : ¬ E' r → u.globalXid = none) : Held T' E' H := by
  constructor <;> rw [hsess]
  · exact (forall_update_iff _ fun r (u : Sess Row) => ¬ T' r → u.txn = .idle).mpr
      ⟨hidle, fun r' hr ht => h.idle r' (mt (hT r' hr) ht)⟩
  · exact (forall_update_iff _ fun r (u : Sess Row) => ¬ E' r → u.globalXid = none).mpr
      ⟨hplain, fun r' hr he => h.plain r' (mt (hE r' hr) he)⟩

/-- A session that is quiet already need not be closed. -/
theorem without (h : Held T E G) (hidle : (G.sess r).txn = .idle)
    (hplain : ¬ E' r → (G.sess r).globalXid = none) (hE : ∀ r', r' ≠ r → E r' → E' r') :
    Held (fun r' => T r' ∧ r' ≠ r) E' G :=
  h.update (update_eq_self r G.sess).symm (fun _ hr ht => ⟨ht, hr⟩) hE (fun _ => hidle) hplain

theorem call (h : Held T E G) (hc : G.call r a = some H) (ha : a.enlists = false)
    (hbegin : ∀ rr, a = .begin rr → T r) : Held T E H := by
  obtain ⟨v, hv, hsess, -, -⟩ := call_sess hc
  refine h.update hsess (fun _ _ => id) (fun _ _ => id) ?_ ?_
  · intro hr
    exact idle_step rfl (fun rr hrr => hr (hbegin rr hrr)) hv (h.idle r hr)
  · intro hr
    exact globalXid_step rfl ha hv (h.plain r hr)

theorem close (h : Held T E G) (hc : G.call r a = some H) (ha : a = .commit ∨ a = .rollback) :
    Held (fun r' => T r' ∧ r' ≠ r) E H := by
  obtain ⟨v, hv, hsess, -, -⟩ := call_sess hc
  have hplain : a.enlists = false := by rcases ha with rfl | rfl <;> rfl
  refine h.update hsess (fun r' hr' ht => ⟨ht, hr'⟩) (fun _ _ => id) ?_ ?_
  · exact fun _ => idle_of_close ha hv
  · intro hr
    exact globalXid_step rfl hplain hv (h.plain r hr)

theorem join (h : Held T E G) {g : Xid} (hc : G.call r (.join g) = some H) :
    Held T (fun r' => E r' ∨ r' = r) H := by
  obtain ⟨v, hv, hsess, -, -⟩ := call_sess hc
  refine h.update hsess (fun _ _ => id) (fun r' _ he => .inl he) ?_ ?_
  · intro hr
    refine idle_step rfl ?_ hv (h.idle r hr)
    intro rr hbegin
    cases hbegin
  · exact fun hr => absurd (.inr rfl) hr

theorem drop (h : Held T E G) (hc : G.call r .drop = some H) :
    Held (fun r' => T r' ∧ r' ≠ r) (fun r' => E r' ∧ r' ≠ r) H := by
  obtain ⟨v, hv, hsess, -, -⟩ := call_sess hc
  have hquiet : v.self.txn = .idle ∧ v.self.globalXid = none := by
    have hm : Move (G.ranges r).env ((G.ranges r).engine.view own) .drop v := move_drop hv
    cases hm with
    | leave | drop => exact ⟨rfl, rfl⟩
    | still _ txn err hpc hx hw hplain | walk _ f todo hpc hplain
    | fail _ f e lm seq hpc hlm hplain => cases hplain
    | abort _ ha => rcases ha with ha | ha <;> cases ha
  exact h.update hsess (fun r' hr' ht => ⟨ht, hr'⟩) (fun r' hr' he => ⟨he, hr'⟩)
    (fun _ => hquiet.1) (fun _ => hquiet.2)

theorem failQuery (h : Held T E G) (r : RangeId) : Held T E (G.failQuery r) := by
  have hsess : (G.failQuery r).sess = Function.update G.sess r
      { G.sess r with
        txn := (G.sess r).txn.fail, err := some ((G.sess r).err.getD .evaluation) } := by
    simp [Gateway.failQuery]
  refine h.update hsess (fun _ _ => id) (fun _ _ => id) ?_ (h.plain r)
  intro hr
  rw [h.idle r hr]
  rfl

end Held

/-- The ranges whose session may be in a transaction. -/
def Pin.reach : Pin → RangeId → Prop
  | .none, _ => False
  | .opened, r => r = 0
  | .range p, r => r = 0 ∨ r = p
  | .global ranges _, r => r = 0 ∨ r ∈ ranges

/-- The ranges whose session may be in a global transaction. -/
def Pin.enlisted : Pin → RangeId → Prop
  | .global ranges _, r => r ∈ ranges
  | .none, _ | .opened, _ | .range _, _ => False

/-- COMMIT has taken the pin of the participants it is about to release; an escalation enlists the
pinned range before it moves the pin. -/
def Gateway.reach (G : Gateway Row) (r : RangeId) : Prop :=
  match G.task with
  | .deciding ranges _ => r ∈ ranges
  | _ => G.pin.reach r

def Gateway.enlisted (G : Gateway Row) (r : RangeId) : Prop :=
  match G.task with
  | .deciding ranges _ => r ∈ ranges
  | .joinPinned p _ _ _ => r = p
  | _ => G.pin.enlisted r

def Gateway.Shape (G : Gateway Row) : Prop :=
  match G.task with
  | .beginGlobal none _ _ => G.pin = .opened
  | .beginGlobal (some p) _ _ | .joinPinned p _ _ _ => G.pin = .range p
  | .joinStage r _ => ∃ ranges g, G.pin = .global ranges g ∧ r ∈ ranges
  | .deciding _ _ => G.pin = .none
  | .ready | .session _ _ _ _ | .remote => True

def Quiet (u : Sess Row) : Prop := u.txn = .idle ∧ u.globalXid = none

instance (u : Sess Row) : Decidable (Quiet u) := inferInstanceAs (Decidable (_ ∧ _))

/-- Closing the block reaches every session that it opened. -/
def Gateway.Closes (G : Gateway Row) : Pin → Prop
  | .none => True
  | .opened => (G.sess 0).txn = .idle ∨ G.leads 0 = true
  | .range p => ((G.sess 0).txn = .idle ∨ p = 0) ∧ G.leads p = true
  | .global ranges _ => (G.sess 0).txn = .idle ∨ 0 ∈ ranges

instance (G : Gateway Row) (pin : Pin) : Decidable (G.Closes pin) := by
  unfold Gateway.Closes
  split <;> infer_instance

structure IdleInv (G : Gateway Row) : Prop where
  shape : G.Shape
  held : Held G.reach G.enlisted G
  auto : G.AutoInv

section Dispatch

variable {T E : RangeId → Prop} {r : RangeId} {s : Statement Row}

theorem Statement.enlists_act (s : Statement Row) : s.act.enlists = false := by
  cases s <;> rfl

theorem Held.runSession (h : Held T E G) (hrun : G.runSession r s = some H)
    (hbegin : ∀ rr, s = .begin rr → T r) :
    Held T E H ∧ H.pin = G.pin ∧ ∃ tag auto, H.task = .session r s tag auto := by
  obtain ⟨K, hK, rfl⟩ := map_eq_some_iff.mp hrun
  obtain ⟨v, -, -, hpin, -⟩ := call_sess hK
  have hheld : Held T E K := by
    refine h.call hK s.enlists_act ?_
    intro rr hact
    cases s with
    | begin rr' => exact hbegin rr' rfl
    | _ => cases hact
  cases hfails : s.fails with
  | false => exact ⟨hheld.congr rfl, hpin, _, _, rfl⟩
  | true => exact ⟨(hheld.failQuery r).congr rfl, hpin, _, _, rfl⟩

theorem Held.runOn (h : Held T E G) (hrun : G.runOn r s = some H)
    (hbegin : ∀ rr, s = .begin rr → T r) : Held T E H ∧ H.pin = G.pin ∧
    (H.task = .remote ∨ ∃ tag auto, H.task = .session r s tag auto) := by
  unfold Gateway.runOn at hrun
  split_ifs at hrun with hleads
  · obtain ⟨hheld, hpin, htask⟩ := h.runSession hrun hbegin
    exact ⟨hheld, hpin, .inr htask⟩
  · cases hrun
    exact ⟨h.congr rfl, rfl, .inl rfl⟩

theorem Held.closeOn (h : Held T E G) (hs : s = .commit ∨ s = .rollback)
    (hrun : G.runOn r s = some H) (hopen : G.leads r = true ∨ (G.sess r).txn = .idle) :
    Held (fun r' => T r' ∧ r' ≠ r) E H ∧ H.pin = G.pin ∧
      (H.task = .remote ∨ ∃ tag auto, H.task = .session r s tag auto) := by
  have hbegin : ∀ rr, s = .begin rr → T r := by
    rintro rr rfl
    rcases hs with hs | hs <;> cases hs
  obtain ⟨-, hpin, htask⟩ := h.runOn hrun hbegin
  refine ⟨?_, hpin, htask⟩
  unfold Gateway.runOn at hrun
  split_ifs at hrun with hleads
  · obtain ⟨K, hK, rfl⟩ := map_eq_some_iff.mp hrun
    have hact : s.act = .commit ∨ s.act = .rollback := by
      rcases hs with rfl | rfl
      · exact .inl rfl
      · exact .inr rfl
    have hfails : s.fails = false := by rcases hs with rfl | rfl <;> rfl
    rw [hfails]
    exact (h.close hK hact).congr rfl
  · cases hrun
    exact (h.without (hopen.resolve_left hleads) (h.plain r) fun _ _ => id).congr rfl

theorem Held.ensureBegan (h : Held T E G) (hT : T r) (hb : G.ensureBegan r = some H) :
    Held T E H ∧ H.pin = G.pin ∧ H.task = G.task := by
  unfold Gateway.ensureBegan at hb
  split at hb
  · obtain ⟨v, -, -, hpin, htask⟩ := call_sess hb
    exact ⟨h.call hb rfl fun _ _ => hT, hpin, htask⟩
  · cases hb
    exact ⟨h, rfl, rfl⟩

theorem IdleInv.answer {rep : Reply} (h : Held G.pin.reach G.pin.enlisted G) :
    IdleInv (G.answer rep) :=
  ⟨trivial, h.congr rfl, autoInv_of_task nofun⟩

theorem IdleInv.stageOn {ranges : List RangeId} {g g' : Xid}
    (h : Held G.pin.reach G.pin.enlisted G) (hpin : G.pin = .global ranges g') (hr : r ∈ ranges)
    (hstage : G.stageOn r g s = some H) : IdleInv H := by
  unfold Gateway.stageOn at hstage
  split_ifs at hstage with hleads hserving
  · obtain ⟨K, hK, hjoin⟩ := bind_eq_some_iff.mp hstage
    obtain ⟨L, hL, rfl⟩ := map_eq_some_iff.mp hjoin
    have hT : G.pin.reach r := by
      rw [hpin]
      exact .inr hr
    obtain ⟨hheld, hpinK, -⟩ := h.ensureBegan hT hK
    obtain ⟨v, -, -, hpinL, -⟩ := call_sess hL
    have hpin' : L.pin = .global ranges g' := hpinL.trans (hpinK.trans hpin)
    refine ⟨⟨ranges, g', hpin', hr⟩, ?_, autoInv_of_task nofun⟩
    refine ((hheld.join hL).mono ?_ ?_).congr rfl
    · intro r' hr'
      change L.pin.reach r'
      rwa [hpin', ← hpin]
    · intro r' hr'
      change L.pin.enlisted r'
      rw [hpin'] at *
      rw [hpin] at hr'
      rcases hr' with hr' | rfl
      · exact hr'
      · exact hr
  · cases hstage
    exact IdleInv.answer h
  · cases hstage
    exact ⟨trivial, h.congr rfl, autoInv_of_task nofun⟩

theorem IdleInv.ran (h : Held H.pin.reach H.pin.enlisted H)
    (htask : H.task = .remote ∨ ∃ tag auto, H.task = .session r s tag auto) (hauto : H.AutoInv) :
    IdleInv H := by
  rcases htask with htask | ⟨tag, auto, htask⟩ <;> refine ⟨?_, ?_, hauto⟩
  all_goals first
    | simp only [Gateway.Shape, htask]
    | refine h.mono ?_ ?_ <;> intro r' hr' <;> simpa only [Gateway.reach, Gateway.enlisted, htask]

theorem IdleInv.runOn (h : Held G.pin.reach G.pin.enlisted G)
    (hbegin : ∀ rr, s = .begin rr → G.pin.reach r) (hrun : G.runOn r s = some H) : IdleInv H := by
  obtain ⟨hheld, hpin, htask⟩ := h.runOn hrun hbegin
  refine IdleInv.ran (by rwa [hpin]) htask ?_
  by_cases hnone : G.pin = .none
  · have hidle : (G.sess r).txn = .idle := h.idle r (by rw [hnone]; exact id)
    unfold Gateway.runOn at hrun
    split_ifs at hrun with hleads
    · exact autoInv_runSession hidle hrun
    · cases hrun
      exact autoInv_of_task nofun
  · exact autoInv_of_pin (hpin ▸ hnone)

theorem IdleInv.closed (h : Held G.pin.reach G.pin.enlisted G) (hcloses : G.Closes G.pin)
    (hs : s = .commit ∨ s = .rollback) (hpin : ∀ ranges g, G.pin ≠ .global ranges g)
    (hrun : Gateway.runOn { G with pin := .none } G.pin.home s = some H) : IdleInv H := by
  obtain ⟨hheld, hopen⟩ : Held (fun r' => r' = G.pin.home) (fun _ => False) G ∧
      (G.leads G.pin.home = true ∨ (G.sess G.pin.home).txn = .idle) := by
    cases hp : G.pin <;> rw [hp] at h hcloses
    case none => exact ⟨h.mono (fun _ => False.elim) (fun _ => id), .inr (h.idle 0 id)⟩
    case opened => exact ⟨h, hcloses.symm⟩
    case range p =>
      refine ⟨⟨fun r' hr' => ?_, h.plain⟩, .inl hcloses.2⟩
      by_cases hzero : r' = 0
      · subst hzero
        exact hcloses.1.resolve_right (Ne.symm hr')
      · exact h.idle r' fun hreach => hreach.elim hzero hr'
    case global => exact absurd hp (hpin _ _)
  have hheld' : Held (fun r' => r' = G.pin.home) (fun _ => False) { G with pin := .none } :=
    hheld.congr rfl
  obtain ⟨hclose, hpinH, htask⟩ := hheld'.closeOn hs hrun hopen
  have hwrite : s.isWrite = false := by rcases hs with rfl | rfl <;> rfl
  refine IdleInv.ran ?_ htask (autoInv_of_not_write hwrite htask)
  rw [hpinH]
  exact hclose.mono (fun r' hr' => absurd hr'.1 hr'.2) (fun r' hr' => hr')

theorem IdleInv.escalate {p : Option RangeId} (h : Held G.pin.reach G.pin.enlisted G)
    (hpin : G.pin = p.elim .opened .range) : IdleInv (G.escalate p r s) := by
  unfold Gateway.escalate
  split_ifs
  · refine ⟨?_, h.congr rfl, autoInv_of_task nofun⟩
    cases p <;> exact hpin
  · exact IdleInv.answer h

theorem IdleInv.staged {ranges : List RangeId} {g : Xid} (h : Held G.pin.reach G.pin.enlisted G)
    (hpin : G.pin = .global ranges g) (hstage : Gateway.stageOn
      { G with pin := .global (if r ∈ ranges then ranges else r :: ranges) g } r g s = some H) :
    IdleInv H := by
  have hmem : ∀ r', r' ∈ ranges → r' ∈ if r ∈ ranges then ranges else r :: ranges := by
    intro r' hr'
    split_ifs
    · exact hr'
    · exact mem_cons_of_mem _ hr'
  rw [hpin] at h
  refine IdleInv.stageOn ?_ rfl (?_ : r ∈ if r ∈ ranges then ranges else r :: ranges) hstage
  · exact (h.mono (fun r' hr' => hr'.imp id (hmem r')) hmem).congr rfl
  · split_ifs with hr
    · exact hr
    · exact mem_cons_self ..

end Dispatch

/-- Tasks under which the pin alone says what is open. -/
def Task.plain : Task Row → Bool
  | .deciding _ _ | .joinPinned _ _ _ _ => false
  | .ready | .session _ _ _ _ | .remote | .beginGlobal _ _ _ | .joinStage _ _ => true

theorem Held.ofTask (h : Held G.reach G.enlisted G) (htask : G.task.plain = true) :
    Held G.pin.reach G.pin.enlisted G := by
  refine h.mono ?_ ?_ <;> intro r hr <;> simp only [Gateway.reach, Gateway.enlisted] at hr <;>
    cases ht : G.task <;> rw [ht] at hr htask <;> first | exact hr | cases htask

theorem Held.releaseAll {T E : RangeId → Prop} {ranges : List RangeId} (h : Held T E G)
    (hreached : ∀ r ∈ ranges, G.leads r = true ∨ Quiet (G.sess r))
    (hrel : G.releaseAll ranges = some H) :
    Held (fun r => T r ∧ r ∉ ranges) (fun r => E r ∧ r ∉ ranges) H ∧ H.pin = G.pin := by
  induction ranges generalizing G T E with
  | nil =>
    cases hrel
    exact ⟨h.mono (fun _ hr => ⟨hr, not_mem_nil⟩) (fun _ hr => ⟨hr, not_mem_nil⟩), rfl⟩
  | cons r ranges ih =>
    obtain ⟨K, hK, hrest⟩ := bind_eq_some_iff.mp hrel
    have hone : Held (fun r' => T r' ∧ r' ≠ r) (fun r' => E r' ∧ r' ≠ r) K ∧ K.pin = G.pin ∧
        K.leads = G.leads ∧ ∀ r', r' ≠ r → K.sess r' = G.sess r' := by
      split_ifs at hK with hleads
      · obtain ⟨v, hv, rfl⟩ := call_eq_some hK
        refine ⟨h.drop hK, rfl, rfl, ?_⟩
        intro r' hr'
        rw [sess_setRange, update_of_ne hr']
      · cases hK
        have hquiet := (hreached r (mem_cons_self ..)).resolve_left hleads
        exact ⟨h.without hquiet.1 (fun _ => hquiet.2) fun _ hr he => ⟨he, hr⟩, rfl, rfl,
          fun _ _ => rfl⟩
    obtain ⟨hheld, hpin, hlead, hsame⟩ := hone
    have hquiet : Quiet (K.sess r) :=
      ⟨hheld.idle r fun ht => ht.2 rfl, hheld.plain r fun he => he.2 rfl⟩
    obtain ⟨hheld', hpin'⟩ := ih hheld (by
      intro r' hr'
      by_cases hrr : r' = r
      · rw [hrr]
        exact .inr hquiet
      · rw [hlead, hsame r' hrr]
        exact hreached r' (mem_cons_of_mem _ hr')) hrest
    refine ⟨hheld'.mono ?_ ?_, hpin'.trans hpin⟩
    · rintro r' ⟨⟨ht, hne⟩, hmem⟩
      exact ⟨ht, fun hcons => (mem_cons.mp hcons).elim hne hmem⟩
    · rintro r' ⟨⟨he, hne⟩, hmem⟩
      exact ⟨he, fun hcons => (mem_cons.mp hcons).elim hne hmem⟩

/-- The escalation's marker was recorded. -/
def Gateway.Joined (G : Gateway Row) : Task Row → Prop
  | .joinPinned p _ _ _ => (G.sess p).err = none
  | _ => True

/-- Every open participant is led here when it is to be released. -/
def Gateway.Reached (G : Gateway Row) : Task Row → Prop
  | .deciding ranges _ => ∀ r ∈ ranges, G.leads r = true ∨ Quiet (G.sess r)
  | _ => True

/-- A block is closed on every session that it opened, the decision and the marker of an
escalation go through, and no xid is reused. -/
def Covered (G : Gateway Row) : GatewayAct Row → Prop
  | .dispatch .commit | .dispatch .rollback => G.Closes G.pin
  | .resume => G.Joined G.task
  | .decided res => res ≠ none ∧ G.Reached G.task
  | .work (.apply true) => G.Unrecorded G.task
  | _ => True

instance (G : Gateway Row) (t : Task Row) : Decidable (G.Joined t) := by
  induction t using Task.casesOn <;> unfold Gateway.Joined <;> infer_instance

instance (G : Gateway Row) (t : Task Row) : Decidable (G.Reached t) := by
  induction t using Task.casesOn <;> unfold Gateway.Reached <;> infer_instance

instance (G : Gateway Row) (act : GatewayAct Row) : Decidable (Covered G act) := by
  unfold Covered
  split <;> infer_instance

theorem idleInv_initial (canEscalate : Bool) :
    IdleInv (Gateway.initial canEscalate : Gateway Row) :=
  ⟨trivial, ⟨fun _ _ => rfl, fun _ _ => rfl⟩, autoInv_of_task nofun⟩

variable {r : RangeId} {s : Statement Row} {g : Xid}

theorem IdleInv.resumed (h : IdleInv G)
    (htask : G.task = .joinStage r s) (hrun : G.runSession r s = some H) : IdleInv H := by
  have hpin := h.held.ofTask (htask ▸ rfl)
  have hshape := h.shape
  simp only [Gateway.Shape, htask] at hshape
  obtain ⟨ranges, g, hglobal, hmem⟩ := hshape
  have hreach : G.pin.reach r := by
    rw [hglobal]
    exact .inr hmem
  obtain ⟨hH, hpinH, htaskH⟩ := hpin.runSession hrun fun _ _ => hreach
  refine IdleInv.ran (by rwa [hpinH]) (.inr htaskH) (autoInv_of_pin ?_)
  rw [hpinH, hglobal]
  nofun

theorem IdleInv.joined {p : RangeId} (h : IdleInv G) (htask : G.task = .joinPinned p r g s)
    (hstage : Gateway.stageOn { G with pin := .global [p, r] g } r g s = some H) : IdleInv H := by
  have hshape := h.shape
  simp only [Gateway.Shape, htask] at hshape
  refine IdleInv.stageOn ?_ rfl (mem_cons_of_mem p (mem_cons_self ..)) hstage
  refine (h.held.mono ?_ ?_).congr rfl
  · intro r' hr'
    simp only [Gateway.reach, htask, hshape] at hr'
    rcases hr' with rfl | rfl
    · exact .inl rfl
    · exact .inr (mem_cons_self ..)
  · intro r' hr'
    simp only [Gateway.enlisted, htask] at hr'
    exact hr' ▸ mem_cons_self ..

theorem IdleInv.enlists {p : RangeId} (h : IdleInv G)
    (htask : G.task = .beginGlobal (some p) r s) (hjoin : G.call p (.join g) = some H) :
    IdleInv { H with task := .joinPinned p r g s } := by
  have hpin := h.held.ofTask (htask ▸ rfl)
  have hshape := h.shape
  simp only [Gateway.Shape, htask] at hshape
  obtain ⟨v, -, -, hpinH, -⟩ := call_sess hjoin
  refine ⟨hpinH.trans hshape, ?_, autoInv_of_task nofun⟩
  refine ((hpin.join hjoin).mono ?_ ?_).congr rfl
  · intro r' hr'
    change H.pin.reach r'
    rwa [hpinH]
  · intro r' hr'
    rw [hshape] at hr'
    exact hr'.resolve_left id

theorem IdleInv.released {ranges : List RangeId} {rep : Reply} (h : IdleInv G)
    (htask : G.task = .deciding ranges g) (hreached : G.Reached G.task)
    (hrel : G.releaseAll ranges = some H) : IdleInv (H.answer rep) := by
  simp only [Gateway.Reached, htask] at hreached
  refine IdleInv.answer ((h.held.releaseAll hreached hrel).1.mono ?_ ?_) <;> intro r' hr' <;>
    simp only [Gateway.reach, Gateway.enlisted, htask] at hr' <;> exact absurd hr'.1 hr'.2

theorem idleInv_step {act : GatewayAct Row} (h : IdleInv G) (hok : Covered G act)
    (hstep : G.step act = some H) : IdleInv H := by
  obtain ⟨hshape, hheld, hauto⟩ := h
  cases took_of_step hstep with
  | refused ht | unbegun ht | remote ht => exact IdleInv.answer (hheld.ofTask (ht ▸ rfl))
  | @opened rr _ ht hpin hrun =>
    have h := hheld.ofTask (ht ▸ rfl)
    rw [hpin] at h
    exact IdleInv.runOn (G := { G with pin := .opened, block := ⟨rr, false⟩ })
      ((h.mono (fun _ => False.elim) (fun _ => id)).congr rfl) (fun _ _ => rfl) hrun
  | nested ht hpin hrun =>
    refine IdleInv.runOn (hheld.ofTask (ht ▸ rfl)) (fun _ _ => ?_) hrun
    cases hp : G.pin with
    | none => exact absurd hp hpin
    | opened => exact rfl
    | range | global => exact .inl rfl
  | closed ht hs hpin hrun =>
    refine IdleInv.closed (hheld.ofTask (ht ▸ rfl)) ?_ hs hpin hrun
    rcases hs with rfl | rfl <;> exact hok
  | decides ht hs hpin =>
    have h := hheld.ofTask (ht ▸ rfl)
    have hcloses : G.Closes G.pin := by rcases hs with rfl | rfl <;> exact hok
    rw [hpin] at h hcloses
    refine ⟨rfl, ⟨?_, h.plain⟩, autoInv_of_task nofun⟩
    intro r' hr'
    by_cases hzero : r' = 0
    · subst hzero
      exact hcloses.resolve_right hr'
    · exact h.idle r' fun hreach => hreach.elim hzero hr'
  | ran ht hs _ _ _ hrun =>
    refine IdleInv.runOn (hheld.ofTask (ht ▸ rfl)) ?_ hrun
    rintro rr rfl
    cases hs
  | @pinned s r K _ ht hs _ hpin hK hrun =>
    have h := hheld.ofTask (ht ▸ rfl)
    rw [hpin] at h
    have hG : Held (Pin.reach (.range r)) (Pin.enlisted (.range r)) { G with pin := .range r } :=
      (h.mono (fun _ => .inl) (fun _ => id)).congr rfl
    obtain ⟨hheldK, hpinK, -⟩ := hG.ensureBegan (.inr rfl) hK
    refine IdleInv.runOn (by rw [hpinK]; exact hheldK) ?_ hrun
    rintro rr rfl
    cases hs
  | escalated ht _ _ hpin => exact IdleInv.escalate (hheld.ofTask (ht ▸ rfl)) hpin
  | staged ht _ _ hpin hstage => exact IdleInv.staged (hheld.ofTask (ht ▸ rfl)) hpin hstage
  | @worked a r _ ha hr hcall =>
    obtain ⟨v, -, -, hpin, htask⟩ := call_sess hcall
    have hplain : a.enlists = false := by cases a <;> first | rfl | cases ha
    have hH := hheld.call hcall hplain (by
      rintro rr rfl
      cases ha)
    refine ⟨?_, ?_, hauto.work hr ha (fun happly => by subst happly; exact hok) hcall⟩
    · simpa only [Gateway.Shape, htask, hpin] using hshape
    · refine hH.mono ?_ ?_ <;> intro r' hr' <;>
        simpa only [Gateway.reach, Gateway.enlisted, htask, hpin] using hr'
  | returned hr _ hres =>
    refine IdleInv.answer (hheld.ofTask ?_)
    unfold Gateway.awaited at hr
    cases ht : G.task <;> rw [ht] at hr <;> first | rfl | cases hr
    -- The marker was recorded, so that the join does not return an error.
    simp only [Covered, Gateway.Joined, ht] at hok
    rcases hres with ⟨e, he, -⟩ | ⟨-, s, tag, auto, hsame, -⟩
    · rw [hok] at he
      cases he
    · rw [ht] at hsame
      cases hsame
  | resumed ht _ hrun => exact IdleInv.resumed ⟨hshape, hheld, hauto⟩ ht hrun
  | joined ht _ hstage => exact IdleInv.joined ⟨hshape, hheld, hauto⟩ ht hstage
  | begun ht hstage =>
    have h := hheld.ofTask (ht ▸ rfl)
    simp only [Gateway.Shape, ht] at hshape
    rw [hshape] at h
    refine IdleInv.stageOn ?_ rfl (mem_cons_self ..) hstage
    exact (h.mono (fun _ => .inl) (fun _ => False.elim)).congr rfl
  | enlists ht hjoin => exact IdleInv.enlists ⟨hshape, hheld, hauto⟩ ht hjoin
  | undecided => exact absurd rfl hok.1
  | released ht hrel => exact IdleInv.released ⟨hshape, hheld, hauto⟩ ht hok.2 hrel
  | @other r _ E ha hE =>
    have hsess : (G.setRange r E).sess = G.sess := by
      rw [sess_setRange, other_sess ha hE, update_eq_self]
    exact ⟨hshape, hheld.congr hsess, hauto.kv hsess (other_kv hE)⟩
  | @replicate r ops =>
    have hsess : ∀ kv, (G.setRange r { G.ranges r with
        engine := { (G.ranges r).engine with kv := kv } }).sess = G.sess := by
      intro kv
      rw [sess_setRange]
      exact update_eq_self ..
    exact ⟨hshape, hheld.congr (hsess _), hauto.kv (hsess _) (.inr ⟨ops, rfl⟩)⟩
  | lead => exact ⟨hshape, hheld.congr rfl, hauto⟩

theorem idleInv_exec {canEscalate : Bool} {acts : List (GatewayAct Row)}
    (h : exec Gateway.step (.initial canEscalate) acts = some G)
    (hok : Runs.Along Gateway.step Covered (.initial canEscalate) acts) : IdleInv G :=
  exec_invariant (I := IdleInv) (fun _ _ _ hI ha hs => idleInv_step hI ha hs)
    (idleInv_initial canEscalate) hok h

/-- Whenever the client is told that it is idle, every session of the router is, and a write that
was acknowledged without a pin is committed. -/
theorem router_idle {canEscalate : Bool} {acts : List (GatewayAct Row)}
    (h : exec Gateway.step (.initial canEscalate) acts = some G)
    (hok : Runs.Along Gateway.step Covered (.initial canEscalate) acts) (hpin : G.pin = .none) :
    (G.task = .ready → ∀ r, (G.sess r).txn = .idle ∧ (G.sess r).globalXid = none) ∧
      ∀ r s tag auto, G.task = .session r s tag auto → s.isWrite = true →
        ∀ H, G.step .resume = some H → H.reply = some (.command tag) →
          ∃ x, auto = some x ∧ (H.ranges r).engine.kv.clogGet x = .committed := by
  have hinv := idleInv_exec h hok
  constructor
  · intro htask r
    have hheld := hinv.held.ofTask (htask ▸ rfl)
    rw [hpin] at hheld
    exact ⟨hheld.idle r id, hheld.plain r id⟩
  · intro r s tag auto htask hs H hresume hreply
    obtain ⟨x, hx, -, hrun⟩ := hinv.auto r s tag auto htask hs hpin
    refine ⟨x, hx, ?_⟩
    simp only [Gateway.step, Gateway.resume, htask] at hresume
    split at hresume
    · cases hresume
      cases hreply
    · rename_i hpc herr
      cases hresume
      rw [hpc] at hrun
      exact hrun.resolve_right fun hne => hne herr
    · cases hresume

section Runs

def leadBoth : List (GatewayAct ℕ) := [.lead 0 true true, .lead 1 true true]

/-- A statement that needs no step of its session after the first. -/
def atOnce (s : Statement ℕ) : List (GatewayAct ℕ) := [.dispatch s, .resume]

def insertSteps (ends : List (Act ℕ)) : List (GatewayAct ℕ) :=
  [.work .takeSnapshot, .work .scan, .work .propose, .work (.apply true)] ++ ends.map .work ++
    [.resume]

def insertOn (r : RangeId) (ends : List (Act ℕ)) : List (GatewayAct ℕ) :=
  .dispatch (.exec (some r) insertOne) :: insertSteps ends

def commitPinned : List (GatewayAct ℕ) :=
  [.dispatch .commit, .work (.apply true), .work .finish, .work .release, .resume]

def blockOnOne : List (GatewayAct ℕ) :=
  leadBoth ++ atOnce (.begin false) ++ insertOn 1 [] ++ commitPinned ++ insertOn 0 []

/-- A block over ranges 0 and 1, then an INSERT on range 1 whose return is still to come. -/
def blockOnBoth : List (GatewayAct ℕ) :=
  leadBoth ++ atOnce (.begin false) ++ insertOn 0 [] ++
    [.dispatch (.exec (some 1) insertOne), .globalBegun (some globalXidBase), .work (.apply true),
      .work .finish, .resume, .resume] ++ insertSteps [.finish] ++
    [.dispatch .commit, .decided (some true)]

def pendingInsert : List (GatewayAct ℕ) :=
  [.dispatch (.exec (some 1) insertOne), .work .takeSnapshot, .work .scan, .work .propose,
    .work (.apply true), .work .finish, .work .release]

def Task.isWriteOn (r : RangeId) : Task Row → Bool
  | .session r' s tag _ => decide (r' = r ∧ tag = .other ∧ s.isWrite = true)
  | _ => false

theorem Task.session_of_isWriteOn {r : RangeId} {t : Task Row} (h : t.isWriteOn r = true) :
    ∃ s auto, t = .session r s .other auto ∧ s.isWrite = true := by
  cases t with
  | session r' s tag auto =>
    obtain ⟨rfl, rfl, hs⟩ := of_decide_eq_true h
    exact ⟨s, auto, rfl, hs⟩
  | _ => cases h

def Task.isReady : Task Row → Bool
  | .ready => true
  | _ => false

theorem Task.eq_ready {t : Task Row} (h : t.isReady = true) : t = .ready := by
  cases t with
  | ready => rfl
  | _ => cases h

end Runs

/-- The COMMIT of a block on range 1 leaves range 0 in the transaction that BEGIN opened there;
the next INSERT on range 0 is acknowledged and not committed. -/
theorem router_idle_open_session :
    ∃ G, exec Gateway.step (.initial true) blockOnOne = some G ∧ G.pin = .none ∧
      G.task = .ready ∧ G.reply = some (.command .other) ∧
      (G.sess 0).txn.localXid = some 1 ∧ (G.ranges 0).engine.kv.clogGet 1 = .inProgress := by
  obtain ⟨G, hG, hready, hpin, hx⟩ : ∃ G ∈ exec Gateway.step (.initial true) blockOnOne,
      G.task.isReady = true ∧ G.pin = .none ∧ G.reply = some (.command .other) ∧
        (G.sess 0).txn.localXid = some 1 ∧ (G.ranges 0).engine.kv.clogGet 1 = .inProgress := by
    decide +kernel
  exact ⟨G, hG, hpin, Task.eq_ready hready, hx⟩

theorem router_idle_both_ranges :
    (∃ G : Gateway ℕ, exec Gateway.step (.initial true) blockOnBoth = some G ∧
      ∀ r, (G.sess r).txn = .idle ∧ (G.sess r).globalXid = none) ∧
    ∃ G H : Gateway ℕ,
      exec Gateway.step (.initial true) (blockOnBoth ++ pendingInsert) = some G ∧
      G.step .resume = some H ∧ ∃ x, (H.ranges 1).engine.kv.clogGet x = .committed := by
  obtain ⟨G, hG, hready, hidle⟩ : ∃ G ∈ exec Gateway.step (.initial true) blockOnBoth,
      G.task.isReady = true ∧ G.pin = .none := by decide +kernel
  obtain ⟨K, hK, hwrite, hpin, H, hH, hreply⟩ :
      ∃ K ∈ exec Gateway.step (.initial true) (blockOnBoth ++ pendingInsert),
        K.task.isWriteOn 1 = true ∧ K.pin = .none ∧
        ∃ H ∈ K.step .resume, H.reply = some (.command .other) := by decide +kernel
  have hok : Runs.Along Gateway.step Covered (.initial true) (blockOnBoth ++ pendingInsert) := by
    decide +kernel
  obtain ⟨s, auto, htask, hs⟩ := Task.session_of_isWriteOn hwrite
  refine ⟨⟨G, hG, (router_idle hG (along_append hok hG).1 hidle).1 (Task.eq_ready hready)⟩,
    K, H, hK, hH, ?_⟩
  obtain ⟨x, -, hx⟩ := (router_idle hK hok hpin).2 1 s .other auto htask hs H hH hreply
  exact ⟨x, hx⟩

end Crabgresql.Router
