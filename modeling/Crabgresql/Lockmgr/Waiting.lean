import Crabgresql.Lib.Runs
import Crabgresql.Lib.Chains
import Crabgresql.Lib.OrderedMap
import Crabgresql.Lockmgr

/-!
# Blocked requests

The lock manager with the requests that wait in it. A request that conflicts registers a notifier of
its own under the holder it waits for; `release_all` hands every notifier registered under the xid
its permit, and a request whose notifier has the permit tries again whenever it is scheduled. A
client cancel drops a waiting request; its edge and its notifier stay behind.
-/

namespace Crabgresql.Lockmgr

open Mvcc Chains Function List Option Runs
open Std (ExtTreeMap)

/-- A notifier, with the xid it is registered under. -/
structure Notify where
  id : ℕ
  holder : Xid
  deriving DecidableEq

/-- An `acquire` that has not returned. -/
structure Request where
  key : RowKey
  mode : LockMode
  notify : Notify
  deriving DecidableEq

/-- What an `acquire` returned: whether the lock was granted. -/
structure Returned where
  xid : Xid
  key : RowKey
  mode : LockMode
  ok : Bool
  deriving DecidableEq

structure Waiting where
  lm : LockMgr
  waiters : Xid → List Notify
  permit : Notify → Bool
  /-- Notifiers made so far. -/
  made : ℕ
  requests : Xid → Option Request
  /-- The xids that have released. No step reads it. -/
  released : Xid → Bool
  /-- What the last step returned. -/
  last : Option Returned

namespace Waiting

def new : Waiting := ⟨.new, fun _ => [], fun _ => false, 0, fun _ => none, fun _ => false, none⟩

inductive Act
  | acquire (x : Xid) (key : RowKey) (mode : LockMode) (pick : Xid)
  /-- A woken request goes around its loop. -/
  | retry (x pick : Xid)
  | releaseAll (x : Xid)
  /-- The future of a waiting request is dropped. -/
  | abandon (x : Xid)
  deriving DecidableEq

def attempt (S : Waiting) (x : Xid) (key : RowKey) (mode : LockMode) (pick : Xid) :
    Option Waiting :=
  (S.lm.acquire key mode x pick).map fun
    | .granted lm =>
      { S with
        lm := lm
        requests := update S.requests x none
        last := some ⟨x, key, mode, true⟩ }
    | .deadlock lm =>
      { S with
        lm := lm
        requests := update S.requests x none
        last := some ⟨x, key, mode, false⟩ }
    | .waiting lm =>
      { S with
        lm := lm
        waiters := update S.waiters pick (S.waiters pick ++ [⟨S.made, pick⟩])
        made := S.made + 1
        requests := update S.requests x (some ⟨key, mode, ⟨S.made, pick⟩⟩)
        last := none }

def releaseAll (S : Waiting) (x : Xid) : Waiting :=
  { S with
    lm := S.lm.releaseAll x
    waiters := update S.waiters x []
    permit := fun n => S.permit n || n ∈ S.waiters x
    released := update S.released x true
    last := none }

/-- A transaction makes its calls one after the other. -/
def step (S : Waiting) : Act → Option Waiting
  | .acquire x key mode pick =>
    if (S.requests x).isSome then none else S.attempt x key mode pick
  | .retry x pick =>
    match S.requests x with
    | none => none
    | some r => if S.permit r.notify then S.attempt x r.key r.mode pick else none
  | .releaseAll x => if (S.requests x).isSome then none else some (S.releaseAll x)
  | .abandon x =>
    if (S.requests x).isSome then
      some { S with requests := update S.requests x none, last := none }
    else none

end Waiting

/-! ## The cycle check -/

namespace LockMgr

variable {y h : Xid} {lm lm' : LockMgr}
variable {seen : List Xid} {a : Act}

def graph (W : ExtTreeMap Xid Xid) : Xid → Option Xid := fun x => W[x]?

section

variable {W : ExtTreeMap Xid Xid} {target : Xid}

theorem leads_of_reaches {fuel : ℕ} {cur : Xid} (h : reaches W target fuel seen cur = true) : Leads (graph W) cur target := by
  induction fuel generalizing seen cur with
  | zero => cases h
  | succ fuel ih =>
    rw [reaches] at h
    split_ifs at h with heq hseen
    · exact heq ▸ .refl
    · cases hnext : W[cur]? with
      | none =>
        rw [hnext] at h
        cases h
      | some nxt =>
        rw [hnext] at h
        exact .head (b := nxt) hnext (ih h)

theorem length_le_size (hnodup : seen.Nodup) (hseen : ∀ x ∈ seen, x ∈ W) :
    seen.length ≤ W.size := by
  have hsub : seen ⊆ W.keys := fun x hx => ExtTreeMap.mem_keys.mpr (hseen x hx)
  rw [← ExtTreeMap.length_keys]
  exact (subperm_of_subset hnodup hsub).length_le

-- The nodes seen have an edge each and lead to `cur`: without cycles `cur` is not among them, and
-- there are fewer of them than the fuel allows for.
theorem not_leads_of_reaches (hacyclic : Acyclic (graph W)) {fuel : ℕ} {cur : Xid}
    (hnodup : seen.Nodup) (hmem : ∀ x ∈ seen, x ∈ W)
    (hleads : ∀ x ∈ seen, Relation.TransGen (Edge (graph W)) x cur)
    (hfuel : W.size + 2 ≤ seen.length + fuel) (h : reaches W target fuel seen cur = false) :
    ¬Leads (graph W) cur target := by
  induction fuel generalizing seen cur with
  | zero =>
    have hle := length_le_size hnodup hmem
    omega
  | succ fuel ih =>
    have hnew : cur ∉ seen := fun hc => hacyclic cur (hleads cur hc)
    rw [reaches] at h
    by_cases heq : cur = target
    · rw [if_pos heq] at h
      cases h
    rw [if_neg heq, if_neg hnew] at h
    intro hl
    cases hnext : W[cur]? with
    | none => exact heq (leads_none hnext hl).symm
    | some nxt =>
      rw [hnext] at h
      obtain hcur | hl := leads_some hnext hl
      · exact heq hcur.symm
      · refine ih (nodup_cons.mpr ⟨hnew, hnodup⟩) ?_ ?_ ?_ h hl
        · intro x hx
          obtain rfl | hx := mem_cons.mp hx
          · exact ExtTreeMap.mem_iff_isSome_getElem?.mpr (by rw [hnext]; rfl)
          · exact hmem x hx
        · intro x hx
          obtain rfl | hx := mem_cons.mp hx
          · exact .single hnext
          · exact (hleads x hx).tail hnext
        · rw [length_cons]
          omega

theorem leads_of_checkCycle {holder x : Xid} (h : checkCycle W holder x = true) :
    Leads (graph W) holder x :=
  leads_of_reaches h

theorem not_leads_of_checkCycle (hacyclic : Acyclic (graph W)) {holder x : Xid}
    (h : checkCycle W holder x = false) : ¬Leads (graph W) holder x :=
  not_leads_of_reaches hacyclic nodup_nil nofun nofun (by simp) h

end

theorem graph_insert (W : ExtTreeMap Xid Xid) (x h : Xid) :
    graph (W.insert x h) = update (graph W) x (some h) := by
  funext y
  rw [graph, OrderedMap.getElem?_insert_eq, update_apply]
  rfl

theorem graph_erase (W : ExtTreeMap Xid Xid) (x y : Xid) :
    graph (W.erase x) y = if y = x then none else graph W y :=
  OrderedMap.getElem?_erase_eq W x y

variable {x : Xid} {key : RowKey} {mode : LockMode}

theorem graph_of_erase {W : ExtTreeMap Xid Xid} (hy : graph (W.erase x) y = some h) :
    graph W y = some h := by
  rw [graph_erase] at hy
  split_ifs at hy
  exact hy

theorem finite_graph (W : ExtTreeMap Xid Xid) : {x | graph W x ≠ none}.Finite := by
  refine W.keys.toFinset.finite_toSet.subset fun x hx => ?_
  rw [Finset.mem_coe, List.mem_toFinset, ExtTreeMap.mem_keys,
    ExtTreeMap.mem_iff_isSome_getElem?]
  exact isSome_iff_ne_none.mpr hx

/-! ## Conflicts -/

/-- The lock that `h` holds on the row stands against the request of `x`. -/
def Conflicts (lm : LockMgr) (key : RowKey) (mode : LockMode) (x h : Xid) : Prop :=
  h ≠ x ∧ ∃ l, lm.locks key = some l ∧ h ∈ l.holders ∧ (mode = .exclusive ∨ l.mode = .exclusive)

def HoldsAtLeast (lm : LockMgr) (key : RowKey) (mode : LockMode) (x : Xid) : Prop :=
  ∃ l, lm.locks key = some l ∧ x ∈ l.holders ∧ (mode = .exclusive → l.mode = .exclusive)

theorem conflicts_of_tryAcquire {pick : Xid}
    {candidates : List Xid} (h : lm.tryAcquire key mode x = .conflict candidates)
    (hpick : pick ∈ candidates) : lm.Conflicts key mode x pick := by
  unfold tryAcquire at h
  split at h
  · cases h
  · rename_i l hl
    split_ifs at h with hx hup hlen hsh
    · cases h
      obtain ⟨hpick, hne⟩ := mem_filter.mp hpick
      exact ⟨of_decide_eq_true hne, l, hl, hpick, .inl hup.1⟩
    · cases h
      refine ⟨fun he => hx (he ▸ hpick), l, hl, hpick, ?_⟩
      cases hmode : mode with
      | exclusive => exact .inl rfl
      | shared =>
        cases hlm : l.mode with
        | exclusive => exact .inr rfl
        | shared => exact absurd ⟨hmode, hlm⟩ hsh

theorem tryAcquire_waitFor
    (h : lm.tryAcquire key mode x = .acquired lm') : lm'.waitFor = lm.waitFor := by
  unfold tryAcquire at h
  split at h
  · cases h
    rfl
  · split_ifs at h <;> cases h <;> rfl

theorem conflicts_tryAcquire {key' : RowKey} {mode' : LockMode}
    (hacq : lm.tryAcquire key mode x = .acquired lm') (hc : lm.Conflicts key' mode' y h) :
    lm'.Conflicts key' mode' y h := by
  obtain ⟨hne, l, hl, hh, hm⟩ := hc
  refine ⟨hne, ?_⟩
  by_cases hk : key' = key
  · subst hk
    simp only [tryAcquire, hl] at hacq
    split_ifs at hacq with hx hup hlen hsh
    · cases hacq
      exact ⟨{ l with mode := .exclusive }, by simp [setLock], hh, .inr rfl⟩
    · cases hacq
      exact ⟨l, hl, hh, hm⟩
    · cases hacq
      exact ⟨{ l with holders := x :: l.holders }, by simp [setLock],
        mem_cons_of_mem _ hh, hm⟩
  · exact ⟨l, by rw [(tryAcquire_acquired hacq).1 key' hk, hl], hh, hm⟩

theorem conflicts_releaseAll (hy : h ≠ y)
    (hc : lm.Conflicts key mode x h) : (lm.releaseAll y).Conflicts key mode x h := by
  obtain ⟨hne, l, hl, hh, hm⟩ := hc
  have hin : h ∈ l.holders.filter (· ≠ y) := by simp [hh, hy]
  refine ⟨hne, { l with holders := l.holders.filter (· ≠ y) }, ?_, hin, hm⟩
  simp only [releaseAll, hl]
  rw [if_neg (ne_nil_of_mem hin)]

theorem holdsAtLeast_tryAcquire
    (h : lm.tryAcquire key mode x = .acquired lm') : lm'.HoldsAtLeast key mode x := by
  obtain ⟨-, l, hl, hx, hm, -⟩ := tryAcquire_acquired h
  exact ⟨l, hl, hx, hm⟩

theorem tryAcquire_sole (hs : lm.Sole)
    (h : lm.tryAcquire key mode x = .acquired lm') : lm'.Sole := by
  have hacq : lm.acquire key mode x x =
      some (.granted { lm' with waitFor := lm'.waitFor.erase x }) := by
    rw [acquire, h]
  exact acquire_sole hs hacq

end LockMgr

namespace Waiting

open LockMgr

theorem ne_of_update_none {requests : Xid → Option Request} {x : Xid} {r : Request}
    (h : update requests x none y = some r) : y ≠ x ∧ requests y = some r := by
  by_cases hy : y = x
  · subst hy
    rw [update_self] at h
    cases h
  · rw [update_of_ne hy] at h
    exact ⟨hy, h⟩

/-- What one pass of the loop does. -/
inductive Attempted (S : Waiting) (x : Xid) (key : RowKey) (mode : LockMode) (pick : Xid) :
    Waiting → Prop
  | granted (lm : LockMgr) (h : S.lm.tryAcquire key mode x = .acquired lm) :
      Attempted S x key mode pick
        { S with
          lm := { lm with waitFor := S.lm.waitFor.erase x }
          requests := update S.requests x none
          last := some ⟨x, key, mode, true⟩ }
  | deadlock (h : S.lm.Conflicts key mode x pick)
      (hcycle : Leads (graph S.lm.waitFor) pick x) :
      Attempted S x key mode pick
        { S with
          lm := { S.lm with waitFor := S.lm.waitFor.erase x }
          requests := update S.requests x none
          last := some ⟨x, key, mode, false⟩ }
  | waiting (h : S.lm.Conflicts key mode x pick)
      (hcycle : checkCycle S.lm.waitFor pick x = false) :
      Attempted S x key mode pick
        { S with
          lm := { S.lm with waitFor := S.lm.waitFor.insert x pick }
          waiters := update S.waiters pick (S.waiters pick ++ [⟨S.made, pick⟩])
          made := S.made + 1
          requests := update S.requests x (some ⟨key, mode, ⟨S.made, pick⟩⟩)
          last := none }

theorem attempted_of_attempt {S S' : Waiting} {x pick : Xid} {key : RowKey} {mode : LockMode}
    (h : S.attempt x key mode pick = some S') : Attempted S x key mode pick S' := by
  rw [attempt, LockMgr.acquire] at h
  cases hacq : S.lm.tryAcquire key mode x with
  | acquired lm =>
    rw [hacq] at h
    cases h
    rw [tryAcquire_waitFor hacq]
    exact .granted lm hacq
  | conflict candidates =>
    rw [hacq] at h
    dsimp only at h
    by_cases hpick : pick ∈ candidates
    · have hconf := conflicts_of_tryAcquire hacq hpick
      rw [if_pos hpick] at h
      cases hcycle : checkCycle S.lm.waitFor pick x with
      | true =>
        rw [hcycle] at h
        cases h
        exact .deadlock hconf (leads_of_checkCycle hcycle)
      | false =>
        rw [hcycle] at h
        cases h
        exact .waiting hconf hcycle
    · rw [if_neg hpick] at h
      cases h

/-- What a step does. -/
inductive Move (S : Waiting) : Act → Waiting → Prop
  | acquire {x key mode pick S'} (hidle : S.requests x = none)
      (h : Attempted S x key mode pick S') : Move S (.acquire x key mode pick) S'
  | retry {x pick S'} (r : Request) (hr : S.requests x = some r)
      (hpermit : S.permit r.notify = true) (h : Attempted S x r.key r.mode pick S') :
      Move S (.retry x pick) S'
  | releaseAll {x} (hidle : S.requests x = none) : Move S (.releaseAll x) (S.releaseAll x)
  | abandon {x} (r : Request) (hr : S.requests x = some r) :
      Move S (.abandon x) { S with requests := update S.requests x none, last := none }

variable {x pick : Xid} {S S' : Waiting} {key : RowKey} {mode : LockMode}

theorem move_of_step (h : S.step a = some S') : Move S a S' := by
  cases a with
  | acquire x =>
    rw [step] at h
    cases hr : S.requests x with
    | some =>
      rw [hr] at h
      cases h
    | none =>
      rw [hr] at h
      exact .acquire hr (attempted_of_attempt h)
  | retry x =>
    rw [step] at h
    cases hr : S.requests x with
    | none =>
      rw [hr] at h
      cases h
    | some r =>
      rw [hr] at h
      dsimp only at h
      split_ifs at h with hpermit
      exact .retry r hr hpermit (attempted_of_attempt h)
  | releaseAll x =>
    rw [step] at h
    cases hr : S.requests x with
    | some =>
      rw [hr] at h
      cases h
    | none =>
      rw [hr] at h
      cases h
      exact .releaseAll hr
  | abandon x =>
    rw [step] at h
    cases hr : S.requests x with
    | none =>
      rw [hr] at h
      cases h
    | some r =>
      rw [hr] at h
      cases h
      exact .abandon r hr

/-! ## Invariants -/

/-- A waiting request has its edge; before it is woken its notifier is registered under a holder
whose lock stands against it. -/
structure Inv (S : Waiting) : Prop where
  sole : S.lm.Sole
  acyclic : Acyclic (graph S.lm.waitFor)
  edge : ∀ x r, S.requests x = some r → graph S.lm.waitFor x = some r.notify.holder
  registered : ∀ x r, S.requests x = some r → S.permit r.notify = false →
    r.notify ∈ S.waiters r.notify.holder ∧ S.lm.Conflicts r.key r.mode x r.notify.holder
  woken : ∀ n, S.permit n = true → n.id < S.made ∧ S.released n.holder = true
  waiters : ∀ h n, n ∈ S.waiters h → n.holder = h ∧ n.id < S.made
  granted : ∀ r, S.last = some r → r.ok = true → S.lm.HoldsAtLeast r.key r.mode r.xid

theorem inv_new : Inv new where
  sole := sole_new
  acyclic := by
    have hnone : graph (∅ : ExtTreeMap Xid Xid) = fun _ => none := by
      funext x
      exact ExtTreeMap.getElem?_empty
    change Acyclic (graph ∅)
    rw [hnone]
    exact acyclic_none
  edge := nofun
  registered := nofun
  woken := nofun
  waiters := nofun
  granted := nofun

theorem Inv.edge_erase (h : Inv S) {r : Request} (hy : y ≠ x) (hr : S.requests y = some r) :
    graph (S.lm.waitFor.erase x) y = some r.notify.holder := by
  rw [graph_erase, if_neg hy]
  exact h.edge y r hr

theorem inv_attempted (h : Inv S) (ha : Attempted S x key mode pick S') : Inv S' := by
  cases ha with
  | granted lm hacq =>
    have hsole : lm.Sole := tryAcquire_sole h.sole hacq
    refine ⟨hsole, h.acyclic.mono fun _ _ => graph_of_erase, ?_, ?_, h.woken, h.waiters, ?_⟩
    · intro y r hr
      obtain ⟨hy, hr⟩ := ne_of_update_none hr
      exact h.edge_erase hy hr
    · intro y r hr hpermit
      obtain ⟨-, hr⟩ := ne_of_update_none hr
      obtain ⟨hmem, hc⟩ := h.registered y r hr hpermit
      have hc' : lm.Conflicts r.key r.mode y r.notify.holder := conflicts_tryAcquire hacq hc
      exact ⟨hmem, hc'⟩
    · intro r hr _
      cases hr
      have hheld : lm.HoldsAtLeast key mode x := holdsAtLeast_tryAcquire hacq
      exact hheld
  | deadlock =>
    refine ⟨h.sole, h.acyclic.mono fun _ _ => graph_of_erase, ?_, ?_, h.woken, h.waiters, ?_⟩
    · intro y r hr
      obtain ⟨hy, hr⟩ := ne_of_update_none hr
      exact h.edge_erase hy hr
    · intro y r hr hpermit
      obtain ⟨-, hr⟩ := ne_of_update_none hr
      exact h.registered y r hr hpermit
    · intro r hr hok
      cases hr
      cases hok
  | waiting hconf hcycle =>
    have hleads := not_leads_of_checkCycle h.acyclic hcycle
    refine ⟨h.sole, ?_, ?_, ?_, ?_, ?_, nofun⟩
    · change Acyclic (graph (S.lm.waitFor.insert x pick))
      rw [graph_insert]
      exact h.acyclic.update hleads
    · intro y r hr
      change graph (S.lm.waitFor.insert x pick) y = _
      rw [graph_insert]
      by_cases hy : y = x
      · subst hy
        change update S.requests y _ y = _ at hr
        rw [update_self] at hr ⊢
        cases hr
        rfl
      · change update S.requests x _ y = _ at hr
        rw [update_of_ne hy] at hr ⊢
        exact h.edge y r hr
    · intro y r hr hpermit
      change update S.requests x _ y = _ at hr
      change r.notify ∈ update S.waiters pick _ r.notify.holder ∧ _
      by_cases hy : y = x
      · subst hy
        rw [update_self] at hr
        cases hr
        rw [update_self]
        exact ⟨by simp, hconf⟩
      · rw [update_of_ne hy] at hr
        obtain ⟨hmem, hc⟩ := h.registered y r hr hpermit
        refine ⟨?_, hc⟩
        by_cases hh : r.notify.holder = pick
        · rw [hh, update_self]
          exact mem_append_left _ (hh ▸ hmem)
        · rw [update_of_ne hh]
          exact hmem
    · intro n hn
      exact ⟨(h.woken n hn).1.trans (Nat.lt_succ_self _), (h.woken n hn).2⟩
    · intro y n hn
      change n ∈ update S.waiters pick _ y at hn
      change n.holder = y ∧ n.id < S.made + 1
      by_cases hy : y = pick
      · subst hy
        rw [update_self, mem_append, mem_singleton] at hn
        obtain hn | rfl := hn
        · exact ⟨(h.waiters y n hn).1, (h.waiters y n hn).2.trans (Nat.lt_succ_self _)⟩
        · exact ⟨rfl, Nat.lt_succ_self _⟩
      · rw [update_of_ne hy] at hn
        exact ⟨(h.waiters y n hn).1, (h.waiters y n hn).2.trans (Nat.lt_succ_self _)⟩

theorem inv_releaseAll (h : Inv S) (hidle : S.requests x = none) : Inv (S.releaseAll x) := by
  have hne : ∀ {y r}, S.requests y = some r → y ≠ x := by
    rintro y r hr rfl
    rw [hidle] at hr
    cases hr
  refine ⟨releaseAll_sole h.sole, h.acyclic.mono fun _ _ => graph_of_erase, ?_, ?_, ?_, ?_, nofun⟩
  · intro y r hr
    exact h.edge_erase (hne hr) hr
  · intro y r hr hpermit
    change (S.permit r.notify || decide (r.notify ∈ S.waiters x)) = false at hpermit
    rw [Bool.or_eq_false_iff, decide_eq_false_iff_not] at hpermit
    obtain ⟨hmem, hc⟩ := h.registered y r hr hpermit.1
    have hh : r.notify.holder ≠ x := fun he => hpermit.2 (he ▸ hmem)
    refine ⟨?_, conflicts_releaseAll hh hc⟩
    change r.notify ∈ update S.waiters x [] r.notify.holder
    rw [update_of_ne hh]
    exact hmem
  · intro n hn
    change (S.permit n || decide (n ∈ S.waiters x)) = true at hn
    change n.id < S.made ∧ update S.released x true n.holder = true
    rw [Bool.or_eq_true, decide_eq_true_eq] at hn
    obtain hn | hn := hn
    · refine ⟨(h.woken n hn).1, ?_⟩
      rw [update_apply]
      split_ifs
      · rfl
      · exact (h.woken n hn).2
    · obtain ⟨rfl, hid⟩ := h.waiters x n hn
      exact ⟨hid, update_self ..⟩
  · intro y n hn
    change n ∈ update S.waiters x [] y at hn
    by_cases hy : y = x
    · subst hy
      rw [update_self] at hn
      cases hn
    · rw [update_of_ne hy] at hn
      exact h.waiters y n hn

theorem inv_move (h : Inv S) (hmove : Move S a S') : Inv S' := by
  cases hmove with
  | acquire hidle ha | retry r hr hpermit ha => exact inv_attempted h ha
  | releaseAll hidle => exact inv_releaseAll h hidle
  | abandon r hr =>
    refine ⟨h.sole, h.acyclic, ?_, ?_, h.woken, h.waiters, nofun⟩
    · intro y r hr
      exact h.edge y r (ne_of_update_none hr).2
    · intro y r hr
      exact h.registered y r (ne_of_update_none hr).2

/-! ## Safety -/

structure Safe (S : Waiting) : Prop where
  /-- An exclusive lock has exactly one holder. -/
  sole : ∀ k l, S.lm.locks k = some l → l.mode = .exclusive → ∃ x, l.holders = [x]
  /-- A granted row is held in the requested mode at least. -/
  granted : ∀ r, S.last = some r → r.ok = true → S.lm.HoldsAtLeast r.key r.mode r.xid
  acyclic : Acyclic (graph S.lm.waitFor)
  /-- The chain from a blocked xid ends at one that is not blocked. -/
  ends : ∀ x, S.requests x ≠ none →
    ∃ y, Leads (graph S.lm.waitFor) x y ∧ graph S.lm.waitFor y = none ∧ S.requests y = none
  /-- No wake-up is lost. -/
  registered : ∀ x r, S.requests x = some r → S.permit r.notify = false →
    ∃ h, r.notify ∈ S.waiters h ∧ S.lm.Conflicts r.key r.mode x h
  /-- In a group of blocked xids one waits for an xid outside the group. -/
  group : ∀ G : Set Xid, G.Nonempty → (∀ x ∈ G, S.requests x ≠ none) →
    ∃ x ∈ G, ∃ h, graph S.lm.waitFor x = some h ∧ h ∉ G

theorem leaves_of_leads {next : Xid → Option Xid} {G : Set Xid} (hx : x ∈ G)
    (h : Leads next x y) (hy : y ∉ G) : ∃ z ∈ G, ∃ t, next z = some t ∧ t ∉ G := by
  induction h using Relation.ReflTransGen.head_induction_on with
  | refl => exact absurd hx hy
  | @head a c hac hcy ih =>
    by_cases hc : c ∈ G
    · exact ih hc
    · exact ⟨a, hx, c, hac, hc⟩

theorem safe_of_inv (h : Inv S) : Safe S := by
  have hends : ∀ x, S.requests x ≠ none →
      ∃ y, Leads (graph S.lm.waitFor) x y ∧ graph S.lm.waitFor y = none ∧ S.requests y = none := by
    intro x _
    obtain ⟨y, hxy, hy⟩ := h.acyclic.ends (finite_graph _) x
    refine ⟨y, hxy, hy, ?_⟩
    cases hr : S.requests y with
    | none => rfl
    | some r =>
      rw [h.edge y r hr] at hy
      cases hy
  refine ⟨h.sole, h.granted, h.acyclic, hends, ?_, ?_⟩
  · intro x r hr hpermit
    exact ⟨_, h.registered x r hr hpermit⟩
  · rintro G ⟨x, hx⟩ hblocked
    obtain ⟨y, hxy, -, hy⟩ := hends x (hblocked x hx)
    exact leaves_of_leads hx hxy fun hyG => hblocked y hyG hy

theorem inv_run {acts : List Act} (hrun : exec step new acts = some S) : Inv S :=
  exec_invariant (fun _ _ _ h _ hstep => inv_move h (move_of_step hstep)) inv_new
    (along_trivial (fun _ _ => trivial) new acts) hrun

/-- The lock manager is safe in every run of requests, releases and wake-ups, also when requests are
abandoned. -/
theorem lock_manager_safe (acts : List Act) (S : Waiting)
    (hrun : exec step new acts = some S) : Safe S :=
  safe_of_inv (inv_run hrun)

def upgrading : List Act :=
  [.acquire 1 (1, 1) .shared 0, .acquire 2 (1, 1) .shared 0, .acquire 1 (1, 1) .exclusive 2]

theorem lock_manager_safe_upgrading :
    ∃ S, exec step new upgrading = some S ∧ S.requests 1 ≠ none ∧ Safe S :=
  ⟨_, rfl, nofun, lock_manager_safe upgrading _ rfl⟩

/-! ## Deadlocks -/

/-- `a` waits in a live request for a lock that `b` holds, while `x` makes its request. -/
def WaitsFor (S : Waiting) (x : Xid) (key : RowKey) (mode : LockMode) (a b : Xid) : Prop :=
  a = x ∧ S.lm.Conflicts key mode x b ∨
    a ≠ x ∧ ∃ r, S.requests a = some r ∧ S.lm.Conflicts r.key r.mode a b

/-- A request is made by an xid that has not released, when every edge of another xid belongs to a
request that is waiting. -/
def Clear (S : Waiting) : Act → Prop
  | .acquire x _ _ _ | .retry x _ =>
    S.released x = false ∧ ∀ y, y ≠ x → graph S.lm.waitFor y ≠ none → S.requests y ≠ none
  | .releaseAll _ | .abandon _ => True

def Gone (S : Waiting) : Prop := ∀ x, S.released x = true → graph S.lm.waitFor x = none

theorem gone_attempted
    (h : Gone S) (hx : S.released x = false) (ha : Attempted S x key mode pick S') : Gone S' := by
  have herase : ∀ y, S.released y = true → graph (S.lm.waitFor.erase x) y = none := by
    intro y hy
    rw [graph_erase, h y hy, ite_self]
  cases ha with
  | granted | deadlock => exact herase
  | waiting =>
    intro y hy
    change S.released y = true at hy
    change graph (S.lm.waitFor.insert x pick) y = none
    have hne : y ≠ x := by
      rintro rfl
      rw [hx] at hy
      cases hy
    rw [graph_insert, update_of_ne hne]
    exact h y hy

theorem gone_move (h : Gone S) (hclear : Clear S a) (hmove : Move S a S') : Gone S' := by
  cases hmove with
  | acquire hidle ha | retry r hr hpermit ha => exact gone_attempted h hclear.1 ha
  | @releaseAll x hidle =>
    intro y hy
    change update S.released x true y = true at hy
    change graph (S.lm.waitFor.erase x) y = none
    rw [graph_erase]
    split_ifs with hyx
    · rfl
    · rw [update_of_ne hyx] at hy
      exact h y hy
  | abandon r hr => exact h

-- Induction along the chain from the chosen holder. A woken request cannot be on it: the xid it
-- waited for has released and has no edge, and is not the requester either.
theorem waits_of_leads (hinv : Inv S) (hgone : Gone S) (hx : S.released x = false)
    (hclear : ∀ y, y ≠ x → graph S.lm.waitFor y ≠ none → S.requests y ≠ none)
    (hleads : Leads (graph S.lm.waitFor) h x) :
    Relation.ReflTransGen (S.WaitsFor x key mode) h x := by
  induction hleads using Relation.ReflTransGen.head_induction_on with
  | refl => exact .refl
  | @head a c hac hcx ih =>
    by_cases ha : a = x
    · exact ha ▸ .refl
    have hedge : graph S.lm.waitFor a = some c := hac
    obtain ⟨r, hr⟩ := ne_none_iff_exists'.mp (hclear a ha (by rw [hedge]; nofun))
    have hholder : c = r.notify.holder := by
      rw [hinv.edge a r hr] at hedge
      cases hedge
      rfl
    subst hholder
    cases hpermit : S.permit r.notify with
    | false => exact .head (.inr ⟨ha, r, hr, (hinv.registered a r hr hpermit).2⟩) ih
    | true =>
      have hreleased := (hinv.woken _ hpermit).2
      have hend := leads_none (hgone _ hreleased) hcx
      rw [← hend, hx] at hreleased
      cases hreleased

theorem cycle_of_attempted
    {r : Returned} (hinv : Inv S) (hgone : Gone S) (hx : S.released x = false)
    (hclear : ∀ y, y ≠ x → graph S.lm.waitFor y ≠ none → S.requests y ≠ none)
    (ha : Attempted S x key mode pick S') (hlast : S'.last = some r) (hr : r.ok = false) :
    Relation.TransGen (S.WaitsFor r.xid r.key r.mode) r.xid r.xid := by
  cases ha with
  | granted =>
    cases hlast
    cases hr
  | deadlock hconf hcycle =>
    cases hlast
    exact .head' (.inl ⟨rfl, hconf⟩) (waits_of_leads hinv hgone hx hclear hcycle)
  | waiting => cases hlast

/-- A deadlock error means a cycle of live requests, in every run in which no request is made while
an edge of an abandoned one is left, and none by an xid that has released. -/
theorem deadlock_is_cycle (acts : List Act) (a : Act) (S S' : Waiting) (r : Returned)
    (hclear : Runs.Along step Clear new (acts ++ [a]))
    (hrun : exec step new acts = some S) (hstep : S.step a = some S')
    (hlast : S'.last = some r) (hr : r.ok = false) :
    Relation.TransGen (S.WaitsFor r.xid r.key r.mode) r.xid r.xid := by
  obtain ⟨hbefore, ha, -⟩ := along_append hclear hrun
  have hnew : Gone new := fun _ h => absurd h Bool.false_ne_true
  have hgone : Gone S :=
    exec_invariant (fun _ _ _ h hc hs => gone_move h hc (move_of_step hs)) hnew hbefore hrun
  have hinv := inv_run hrun
  cases move_of_step hstep with
  | acquire hidle hatt | retry r' hr' hpermit hatt =>
    exact cycle_of_attempted hinv hgone ha.1 ha.2 hatt hlast hr
  | releaseAll | abandon => cases hlast

def clearCheck (S : Waiting) : Act → Bool
  | .acquire x _ _ _ | .retry x _ =>
    !S.released x && S.lm.waitFor.keys.all fun y => y = x || (S.requests y).isSome
  | .releaseAll _ | .abandon _ => true

theorem clear_of_check (S : Waiting) (a : Act) (h : clearCheck S a = true) : Clear S a := by
  have hrequest : ∀ x, (!S.released x && S.lm.waitFor.keys.all fun y =>
      y = x || (S.requests y).isSome) = true → S.released x = false ∧
        ∀ y, y ≠ x → graph S.lm.waitFor y ≠ none → S.requests y ≠ none := by
    intro x hx
    rw [Bool.and_eq_true, Bool.not_eq_true', List.all_eq_true] at hx
    refine ⟨hx.1, fun y hy hgraph => ?_⟩
    have hmem : y ∈ S.lm.waitFor.keys := ExtTreeMap.mem_keys.mpr
      (ExtTreeMap.mem_iff_isSome_getElem?.mpr (isSome_iff_ne_none.mpr hgraph))
    have hcheck := hx.2 y hmem
    rw [Bool.or_eq_true, decide_eq_true_eq, isSome_iff_ne_none] at hcheck
    exact hcheck.resolve_left hy
  cases a with
  | acquire x | retry x => exact hrequest x h
  | releaseAll | abandon => trivial

theorem no_cycle_of_idle
    (h : ∀ y, S.requests y = none) : ¬Relation.TransGen (S.WaitsFor x key mode) x x := by
  intro hcycle
  obtain ⟨b, -, ⟨-, hne, -⟩ | ⟨-, r, hr, -⟩⟩ := Relation.TransGen.tail'_iff.mp hcycle
  · exact hne rfl
  · rw [h b] at hr
    cases hr

def crossing : List Act :=
  [.acquire 1 (1, 1) .exclusive 0, .acquire 2 (1, 2) .exclusive 0, .acquire 2 (1, 1) .exclusive 1]

/-- The first then asks for the row of the second. -/
theorem deadlock_is_cycle_crossing : ∃ S S', exec step new crossing = some S ∧
      S.step (.acquire 1 (1, 2) .exclusive 2) = some S' ∧
      S'.last = some ⟨1, (1, 2), .exclusive, false⟩ ∧
      Relation.TransGen (S.WaitsFor 1 (1, 2) .exclusive) 1 1 := by
  refine ⟨_, _, rfl, rfl, rfl, ?_⟩
  exact deadlock_is_cycle crossing (.acquire 1 (1, 2) .exclusive 2) _ _
    ⟨1, (1, 2), .exclusive, false⟩ (along_of_check clearCheck clear_of_check rfl) rfl rfl rfl
    rfl

/-- The second writer's request is abandoned before: its edge is still there, and the first is told
of a deadlock with a transaction that waits for nothing. -/
theorem abandoned_request_deadlocks :
    ∃ S S', exec step new (crossing ++ [.abandon 2]) = some S ∧
      S.step (.acquire 1 (1, 2) .exclusive 2) = some S' ∧
      S'.last = some ⟨1, (1, 2), .exclusive, false⟩ ∧
      (∀ y, S.requests y = none) ∧
      ¬Relation.TransGen (S.WaitsFor 1 (1, 2) .exclusive) 1 1 := by
  have hidle : ∀ y, update (update (update (update
      (fun _ => none : Xid → Option Request) 1 none) 2 none) 2
        (some ⟨(1, 1), .exclusive, ⟨0, 1⟩⟩)) 2 none y = none := by
    intro y
    simp only [update_apply]
    split_ifs <;> rfl
  exact ⟨_, _, rfl, rfl, rfl, hidle, no_cycle_of_idle hidle⟩

end Waiting

end Crabgresql.Lockmgr
