import Crabgresql.Forward.Pairing

/-!
# A forwarded statement takes effect at most once

The pool tries again when an attempt ends without a response or with one of the
two codes of a leader that cannot serve. That is safe as long as such an attempt
has had no effect: the query was not sent whole, or the leader says so and did
not apply it.
-/

namespace Crabgresql.Forward

open Wire Function List Pool
open Cluster (NodeId)

variable {acc : Response} {c : ConnId} {leader : NodeId} {reply : Reply}

/-- How often statements of call `k` took effect. -/
def Pool.applied (P : Pool) (k : CallId) : ℕ :=
  P.served.countP fun s => s.call == k && s.reply.applied

/-- The response can be read, and reports a code that the gateway retries only for a statement that
had no effect. -/
structure Reply.Honest (reply : Reply) : Prop where
  sound : reply.Sound
  readable : ∀ m ∈ reply.messages, Readable m
  codes : ∀ e, reply.outcome = .error e → e.code = "40001" ∨ e.code = "08006" →
    reply.applied = false

/-- Once a query is sent whole its response is read to the end, and responses are honest. -/
def Delivered (P : Pool) : Act → Prop
  | .call k .drop => ∀ call, P.calls k = some call → call.phase.inFlight = false
  | .call _ .readFails => False
  | .execute _ reply => reply.Honest
  | _ => True

theorem undisturbed_of_delivered {P : Pool} {a : Act} (h : Delivered P a) : Undisturbed P a := by
  cases a with
  | forward | reset => trivial
  | execute => exact h.sound
  | call k a =>
    cases a with
    | drop => exact h
    | _ => trivial

/-! ## What a response says -/

theorem sqlErr_foldl_seen {messages : List BackendMessage}
    (h : ∀ m ∈ messages, ∀ e, m ≠ .errorResponse e) (acc : Response) :
    (messages.foldl Response.seen acc).sqlErr = acc.sqlErr := by
  induction messages generalizing acc with
  | nil => rfl
  | cons m messages ih =>
    rw [foldl_cons, ih fun m' hm' => h m' (mem_cons_of_mem _ hm')]
    cases m with
    | errorResponse e => exact absurd rfl (h _ mem_cons_self e)
    | rowDescription | parameterDescription | dataRow | commandComplete | emptyQueryResponse
    | parseComplete | bindComplete | closeComplete | noData | readyForQuery => rfl

theorem not_error_of_mem_writeResults {results : List QueryResult} {m : BackendMessage}
    (h : m ∈ writeResults results) (e : PgError) : m ≠ .errorResponse e := by
  obtain ⟨r, -, hm⟩ := mem_flatMap.mp h
  rintro rfl
  cases r <;> simp at hm

theorem Reply.Honest.outcome_of_error (h : reply.Honest)
    (hacc : collect .empty reply.messages = .ok acc) {code msg : String}
    (herr : acc.result = .error (code, msg)) : ∃ e, reply.outcome = .error e ∧ e.code = code := by
  rw [collect_readable (fun m hm => (h.sound m hm).1) h.readable] at hacc
  cases hacc
  have hsql : (reply.messages.foldl Response.seen .empty).sqlErr = some (code, msg) := by
    rw [Response.result] at herr
    cases hs : (reply.messages.foldl Response.seen .empty).sqlErr with
    | none =>
      rw [hs] at herr
      simp only at herr
      split_ifs at herr
    | some =>
      rw [hs] at herr
      cases herr
      rfl
  cases hout : reply.outcome with
  | ok results =>
    have hmessages : reply.messages = writeResults results ++ [.readyForQuery reply.status] := by
      rw [Reply.messages, hout]
    rw [hmessages, sqlErr_foldl_seen] at hsql
    · cases hsql
    · intro m hm e
      rw [mem_append, mem_singleton] at hm
      obtain hm | rfl := hm
      · exact not_error_of_mem_writeResults hm e
      · simp
  | error e =>
    refine ⟨e, rfl, ?_⟩
    rw [Reply.messages, hout] at hsql
    simp only at hsql
    split_ifs at hsql <;> cases hsql <;> rfl

theorem Reply.Honest.not_applied (h : reply.Honest) (hacc : collect .empty reply.messages = .ok acc)
    (hretries : (Attempt.response acc.result).retries = true) : reply.applied = false := by
  cases hres : acc.result with
  | ok =>
    rw [hres] at hretries
    cases hretries
  | error e =>
    obtain ⟨code, msg⟩ := e
    obtain ⟨e, hout, rfl⟩ := h.outcome_of_error hacc hres
    refine h.codes e hout ?_
    rw [hres] at hretries
    by_contra hcon
    obtain ⟨h40001, h08006⟩ := not_or.mp hcon
    simp only [Attempt.retries, Attempt.result, if_neg h40001, if_neg h08006] at hretries
    cases hretries

/-! ## Counting -/

def Phase.unsent : Phase → Bool
  | .resolving | .locking _ _ | .dialing _ _ | .writing _ _ => true
  | .reading _ _ _ | .returned _ | .dropped => false

structure Once (P : Pool) : Prop where
  fresh : ∀ k, P.calls k = none → P.applied k = 0
  /-- A query waits only where its call reads. -/
  waiting : ∀ c, (P.conns c).queries ≠ [] →
    ∃ k call n acc, P.calls k = some call ∧ call.phase = .reading n c acc
  unsent : ∀ k call, P.calls k = some call → call.phase.unsent = true → P.applied k = 0
  flight : ∀ k call n c acc, P.calls k = some call → call.phase = .reading n c acc →
    ∃ st, Carries P.served (P.conns c) k call.sql acc st ∧
      P.applied k = (st.elim false (·.reply.applied)).toNat ∧
      ∀ s, st = some s → s.reply.Honest
  once : ∀ k call, P.calls k = some call → P.applied k ≤ 1

theorem once_initial : Once .initial where
  fresh _ _ := rfl
  waiting _ h := absurd rfl h
  unsent _ _ h := nomatch h
  flight _ _ _ _ _ h := nomatch h
  once _ _ h := nomatch h

section

variable {P Q : Pool} {k : CallId} {call call' : Call}

theorem applied_append (P : Pool) (s : Served) (k : CallId) :
    applied { P with served := P.served ++ [s] } k =
      P.applied k + (s.call == k && s.reply.applied).toNat := by
  rw [applied, countP_append, countP_singleton]
  cases (s.call == k && s.reply.applied) <;> rfl

/-- A turn of call `k` that runs no query and leaves the queries of every connection alone, unless
the call reads from it. -/
theorem Once.of_turn (h : Once P) (hcalls : Q.calls = update P.calls k (some call'))
    (hserved : Q.served = P.served) (hothers : ∀ j other n c acc, j ≠ k → P.calls j = some other →
      other.phase = .reading n c acc → Q.conns c = P.conns c)
    (hwaiting : ∀ c, (Q.conns c).queries ≠ [] →
      (∃ n acc, call'.phase = .reading n c acc) ∨ ((P.conns c).queries ≠ [] ∧
        ∀ call n acc, P.calls k = some call → call.phase ≠ .reading n c acc))
    (hunsent : call'.phase.unsent = true → P.applied k = 0)
    (hflight : ∀ n c acc, call'.phase = .reading n c acc →
      ∃ st, Carries Q.served (Q.conns c) k call'.sql acc st ∧
        P.applied k = (st.elim false (·.reply.applied)).toNat ∧
        ∀ s, st = some s → s.reply.Honest) : Once Q := by
  have happlied : ∀ j, Q.applied j = P.applied j := fun j => by
    rw [applied, hserved, applied]
  refine ⟨?_, ?_, ?_, ?_, ?_⟩
  · intro j hj
    rw [happlied]
    refine h.fresh j ?_
    rw [hcalls] at hj
    by_cases hjk : j = k
    · subst hjk
      rw [update_self] at hj
      cases hj
    · rwa [update_of_ne hjk] at hj
  · intro c hc
    obtain ⟨n, acc, hphase⟩ | ⟨hold, hnot⟩ := hwaiting c hc
    · exact ⟨k, call', n, acc, by rw [hcalls, update_self], hphase⟩
    · obtain ⟨j, other, n, acc, hother, hphase⟩ := h.waiting c hold
      have hjk : j ≠ k := by
        rintro rfl
        exact hnot other n acc hother hphase
      exact ⟨j, other, n, acc, by rw [hcalls, update_of_ne hjk, hother], hphase⟩
  · intro j other hother hphase
    rw [happlied]
    rw [hcalls] at hother
    obtain ⟨rfl, rfl⟩ | ⟨-, hold⟩ := calls_update j _ hother
    · exact hunsent hphase
    · exact h.unsent j other hold hphase
  · intro j other n c acc hother hphase
    rw [happlied]
    rw [hcalls] at hother
    obtain ⟨rfl, rfl⟩ | ⟨hj, hold⟩ := calls_update j _ hother
    · exact hflight n c acc hphase
    · rw [hserved, hothers j other n c acc hj hold hphase]
      exact h.flight j other n c acc hold hphase
  · intro j _ _
    rw [happlied]
    cases hold : P.calls j with
    | none => exact (h.fresh j hold).trans_le (Nat.zero_le 1)
    | some other => exact h.once j other hold

theorem Once.of_quiet_turn (h : Once P) (hcall : P.calls k = some call)
    (hcalls : Q.calls = update P.calls k (some call')) (hserved : Q.served = P.served)
    (hothers : ∀ j other n c acc, j ≠ k → P.calls j = some other →
      other.phase = .reading n c acc → Q.conns c = P.conns c)
    (hqueries : ∀ c, (Q.conns c).queries ≠ [] →
      (P.conns c).queries ≠ [] ∧ ∀ n acc, call.phase ≠ .reading n c acc)
    (happlied : call'.phase.unsent = true → P.applied k = 0)
    (hafter : ∀ n c acc, call'.phase ≠ .reading n c acc) : Once Q := by
  refine h.of_turn hcalls hserved hothers (fun c hc => .inr ⟨(hqueries c hc).1, ?_⟩) happlied
    fun n c acc hphase => absurd hphase (hafter n c acc)
  intro other n acc hother
  cases hcall.symm.trans hother
  exact (hqueries c hc).2 n acc

theorem Once.setConn {conn : Conn} (h : Once P)
    (hqueries : conn.queries ≠ [] → (P.conns c).queries ≠ [])
    (hst : ∀ k sql acc st, Carries P.served (P.conns c) k sql acc st →
      Carries P.served conn k sql acc st) : Once (P.setConn c conn) := by
  refine ⟨h.fresh, ?_, h.unsent, ?_, h.once⟩
  · intro d hd
    change (update P.conns c _ d).queries ≠ [] at hd
    by_cases hdc : d = c
    · subst hdc
      rw [update_self] at hd
      exact h.waiting d (hqueries hd)
    · rw [update_of_ne hdc] at hd
      exact h.waiting d hd
  · intro k call n d acc hcall hphase
    obtain ⟨st, hcarries, hrest⟩ := h.flight k call n d acc hcall hphase
    refine ⟨st, ?_, hrest⟩
    change Carries P.served (update P.conns c _ d) k _ _ st
    by_cases hdc : d = c
    · subst hdc
      rw [update_self]
      exact hst _ _ _ _ hcarries
    · rw [update_of_ne hdc]
      exact hcarries

theorem reading_conclude (call : Call) (a : Attempt) (n : NodeId) (c : ConnId) (acc : Response) :
    (call.conclude a).phase ≠ .reading n c acc := by
  rw [Call.conclude]
  split_ifs <;> simp [Call.enter]

theorem unsent_conclude {a : Attempt} (h : (call.conclude a).phase.unsent = true) :
    a.retries = true := by
  rw [Call.conclude] at h
  split_ifs at h with hretry
  · exact hretry.1
  · cases h

theorem not_reading_of_alone (halone : Alone P k) {j : CallId} {other : Call} {n : NodeId}
    (hj : j ≠ k) (hother : P.calls j = some other) : other.phase ≠ .reading n c acc := by
  intro hphase
  have hnot := halone j other hj hother
  rw [hphase] at hnot
  cases hnot

theorem Once.of_phase (h : Once P) (hcall : P.calls k = some call)
    (hcalls : Q.calls = update P.calls k (some call')) (hserved : Q.served = P.served)
    (hconns : Q.conns = P.conns) (hbefore : call.phase.unsent = true)
    (hafter : ∀ n c acc, call'.phase ≠ .reading n c acc) : Once Q := by
  refine h.of_quiet_turn hcall hcalls hserved (fun _ _ _ c _ _ _ _ => by rw [hconns]) ?_
    (fun _ => h.unsent k call hcall hbefore) hafter
  intro c hc
  rw [hconns] at hc
  refine ⟨hc, fun n acc hphase => ?_⟩
  rw [hphase] at hbefore
  cases hbefore

theorem Once.enterPool (h : Once P) (hcall : P.calls k = some call) {addr : String}
    (hphase : call.phase = .locking leader addr) : Once (P.enterPool k call leader addr) := by
  have hbefore : call.phase.unsent = true := by rw [hphase]; rfl
  rw [Pool.enterPool]
  simp only
  cases P.pooled leader with
  | none => exact h.of_phase hcall rfl rfl rfl hbefore (by simp [Call.enter])
  | some =>
    simp only
    split_ifs
    · exact h.of_phase hcall rfl rfl rfl hbefore (by simp [Call.enter])
    · exact h.of_phase hcall rfl rfl rfl hbefore (by simp [Call.enter])

theorem Once.insertConn (h : Once P) (hP : Paired P) (hcall : P.calls k = some call) {addr : String}
    (hphase : call.phase = .dialing leader addr) : Once (P.insertConn k call leader addr) := by
  have halone : Alone P k := hP.alone hcall (by rw [hphase]; rfl)
  refine h.of_quiet_turn hcall rfl rfl ?_ ?_ (fun _ => h.unsent k call hcall (by rw [hphase]; rfl))
    nofun
  · intro j other n c acc hj hother hreading
    exact absurd hreading (not_reading_of_alone halone hj hother)
  · intro c hc
    change (update P.conns P.nextConn (.dialed addr) c).queries ≠ [] at hc
    refine ⟨?_, fun n acc hreading => ?_⟩
    · by_cases hnext : c = P.nextConn
      · subst hnext
        rw [update_self] at hc
        exact absurd rfl hc
      · rwa [update_of_ne hnext] at hc
    · rw [hphase] at hreading
      cases hreading

theorem Once.wrote (h : Once P) (hP : Paired P) (hcall : P.calls k = some call)
    (hphase : call.phase = .writing leader c) : Once (P.wrote k call leader c) := by
  have halone : Alone P k := hP.alone hcall (by rw [hphase]; rfl)
  have hnone : P.applied k = 0 := h.unsent k call hcall (by rw [hphase]; rfl)
  have hquiet : (P.conns c).Quiet :=
    hP.quiet_of_alone halone hcall (hP.entry k call leader c hcall (by rw [hphase]; rfl))
      (by rw [hphase]; exact nofun)
  refine h.of_turn rfl rfl ?_ ?_ (fun _ => hnone) ?_
  · intro j other n d acc hj hother hreading
    exact absurd hreading (not_reading_of_alone halone hj hother)
  · intro d hd
    by_cases hdc : d = c
    · subst hdc
      exact .inl ⟨leader, .empty, rfl⟩
    · change (update P.conns c _ d).queries ≠ [] at hd
      rw [update_of_ne hdc] at hd
      refine .inr ⟨hd, fun other n acc hother => ?_⟩
      cases hcall.symm.trans hother
      simp [hphase]
  · intro n d acc hreading
    cases hreading
    refine ⟨none, ?_, hnone, nofun⟩
    change Carries P.served (update P.conns c _ c) k _ _ none
    rw [update_self]
    exact hquiet.send k call.sql

theorem Carries.not_bad {served : List Served} {conn : Conn} {sql : String} {st : Option Served}
    (h : Carries served conn k sql acc st) {e : PgError} {rest : Bytes} :
    nextBackendFrame conn.inbuf ≠ (.error e, rest) := by
  intro hframe
  cases st with
  | none =>
    rw [h.inbuf] at hframe
    cases hframe
  | some =>
    obtain ⟨-, -, seen, left, ha⟩ := h
    obtain ⟨lost, hbytes⟩ := ha.bytes
    have hwhole := framed_nextBackendFrame.fails (c := conn.sent ++ lost)
      (by rw [hframe] : (nextBackendFrame conn.inbuf).1 = .error e)
    rw [← append_assoc, hbytes] at hwhole
    cases left with
    | nil => cases hwhole
    | cons m =>
      have hfits : m.Fits := (ha.sound m (by rw [ha.messages]; simp)).1
      rw [flatMap_cons, nextBackendFrame_encode hfits] at hwhole
      cases hwhole

theorem Once.frame (h : Once P) (hP : Paired P) (hcall : P.calls k = some call)
    (hphase : call.phase = .reading leader c acc) (hturn : FrameTurn P k call leader c acc Q) :
    Once Q := by
  have halone : Alone P k := hP.alone hcall (by rw [hphase]; rfl)
  obtain ⟨st, hst, happlied, hhonest⟩ := h.flight k call leader c acc hcall hphase
  have hothers : ∀ (f : ConnId → Conn) j other n d acc', j ≠ k → P.calls j = some other →
      other.phase = .reading n d acc' → f d = P.conns d := by
    intro f j other n d acc' hj hother hreading
    exact absurd hreading (not_reading_of_alone halone hj hother)
  have helsewhere : ∀ d, d ≠ c → ∀ other n acc', P.calls k = some other →
      other.phase ≠ .reading n d acc' := by
    intro d hd other n acc' hother hreading
    cases hcall.symm.trans hother
    cases hphase.symm.trans hreading
    exact hd rfl
  cases hturn with
  | bad hframe => exact absurd hframe hst.not_bad
  | malformed hframe htag hadd =>
    obtain ⟨s, seen, m, rest, rfl, -, -, ha, rfl, -⟩ := hst.next hframe
    have hmem : m ∈ s.reply.messages := by rw [ha.messages]; simp
    rw [add_frameOf (ha.sound m hmem).1 ((hhonest s rfl).readable m hmem)] at hadd
    cases hadd
  | panics hframe hadd =>
    obtain ⟨s, seen, m, rest, rfl, -, -, ha, rfl, -⟩ := hst.next hframe
    have hmem : m ∈ s.reply.messages := by rw [ha.messages]; simp
    exact absurd hadd (add_ne_panics (ha.sound m hmem).2 acc)
  | ready hframe htag =>
    obtain ⟨s, seen, m, rest, rfl, rfl, hsql, ha, rfl, hbytes⟩ := hst.next hframe
    obtain ⟨st, rfl⟩ := BackendMessage.tag_readyForQuery htag
    refine h.of_quiet_turn hcall rfl rfl (hothers _) ?_ ?_ (reading_conclude call _)
    · intro d hd
      by_cases hdc : d = c
      · subst hdc
        change (update P.conns d _ d).queries ≠ [] at hd
        rw [update_self] at hd
        exact absurd ha.queries hd
      · change (update P.conns c _ d).queries ≠ [] at hd
        rw [update_of_ne hdc] at hd
        exact ⟨hd, fun n acc' => helsewhere d hdc call n acc' hcall⟩
    · -- the response was read whole, so a retry means that the statement had no effect
      intro hunsent
      have hcollect : collect .empty s.reply.messages = .ok acc := by
        obtain rfl := Reply.rest_of_ready ha.messages
        rw [ha.messages, collect_append, ha.acc]
        rfl
      rw [happlied]
      change (s.reply.applied).toNat = 0
      rw [(hhonest s rfl).not_applied hcollect (unsent_conclude hunsent)]
      rfl
  | added hframe htag hadd =>
    obtain ⟨s, seen, m, rest, rfl, rfl, hsql, ha, rfl, hbytes⟩ := hst.next hframe
    refine h.of_turn rfl rfl (hothers _) ?_ nofun ?_
    · intro d hd
      by_cases hdc : d = c
      · subst hdc
        exact .inl ⟨leader, _, rfl⟩
      · change (update P.conns c _ d).queries ≠ [] at hd
        rw [update_of_ne hdc] at hd
        exact .inr ⟨hd, helsewhere d hdc⟩
    · intro n d acc' hreading
      cases hreading
      refine ⟨some s, ?_, happlied, hhonest⟩
      change Carries P.served (update P.conns c _ c) _ _ _ (some s)
      rw [update_self]
      exact ⟨rfl, hsql, _, rest, ha.advance hadd hbytes⟩

theorem Once.turn (h : Once P) (hP : Paired P) (hcall : P.calls k = some call) {a : CallAct}
    (hok : Delivered P (.call k a)) (hturn : Turn P k call a Q) : Once Q := by
  cases hturn with
  | resolved hphase => exact h.of_phase hcall rfl rfl rfl (by rw [hphase]; rfl) nofun
  | unresolved hphase | undialed hphase | unwritten hphase =>
    exact h.of_phase hcall rfl rfl rfl (by rw [hphase]; rfl) (reading_conclude call _)
  | locked hphase => exact h.enterPool hcall hphase
  | dialed hphase => exact h.insertConn hP hcall hphase
  | wrote hphase => exact h.wrote hP hcall hphase
  | read => exact h.setConn id fun _ _ _ _ hst => hst.receive _
  | unread => exact hok.elim
  | frame hphase hQ => exact h.frame hP hcall hphase (frameTurn_of_frame hQ)
  | dropWaiting hphase =>
    refine h.of_phase hcall rfl rfl rfl ?_ nofun
    obtain hphase | ⟨leader, addr, hphase⟩ := hphase <;> rw [hphase] <;> rfl
  | dropHolding hphase =>
    have hflight := hok call hcall
    obtain ⟨leader, addr, hphase⟩ | ⟨leader, c, hphase⟩ | ⟨leader, c, acc, hphase⟩ := hphase
    · exact h.of_phase hcall rfl rfl rfl (by rw [hphase]; rfl) nofun
    · rw [hphase] at hflight
      cases hflight
    · rw [hphase] at hflight
      cases hflight

theorem Once.execute (h : Once P) (hP : Paired P) (hhonest : reply.Honest)
    (hstep : P.execute c reply = some Q) : Once Q := by
  rw [Pool.execute] at hstep
  cases hqueries : (P.conns c).queries with
  | nil =>
    rw [hqueries] at hstep
    cases hstep
  | cons q queries =>
    obtain ⟨j, sql⟩ := q
    rw [hqueries] at hstep
    cases hstep
    obtain ⟨k, call, n, acc, hcall, hphase⟩ := h.waiting c (by rw [hqueries]; simp)
    obtain ⟨st, hst, happlied, -⟩ := h.flight k call n c acc hcall hphase
    obtain ⟨rfl, rfl, rfl, hanswer⟩ := hst.answer hqueries hhonest.sound c
    have halone : Alone P j := hP.alone hcall (by rw [hphase]; rfl)
    have hnone : P.applied j = 0 := happlied
    have hcount : ∀ i, applied { P.setConn c ((P.conns c).answer [] reply) with
        served := P.served ++ [⟨j, sql, c, reply⟩] } i =
          P.applied i + (j == i && reply.applied).toNat := fun i => applied_append _ _ i
    have hother : ∀ i, i ≠ j → applied { P.setConn c ((P.conns c).answer [] reply) with
        served := P.served ++ [⟨j, sql, c, reply⟩] } i = P.applied i := by
      intro i hi
      rw [hcount, beq_eq_false_iff_ne.mpr (Ne.symm hi)]
      rfl
    have hmine : applied { P.setConn c ((P.conns c).answer [] reply) with
        served := P.served ++ [⟨j, sql, c, reply⟩] } j = reply.applied.toNat := by
      rw [hcount, hnone, beq_self_eq_true, Bool.true_and, Nat.zero_add]
    refine ⟨?_, ?_, ?_, ?_, ?_⟩
    · intro i hi
      have hij : i ≠ j := by
        rintro rfl
        rw [show P.calls i = none from hi] at hcall
        cases hcall
      rw [hother i hij]
      exact h.fresh i hi
    · intro d hd
      by_cases hdc : d = c
      · subst hdc
        exact ⟨j, call, n, acc, hcall, hphase⟩
      · change (update P.conns c _ d).queries ≠ [] at hd
        rw [update_of_ne hdc] at hd
        exact h.waiting d hd
    · intro i call' hi hunsent
      have hij : i ≠ j := by
        rintro rfl
        rw [show P.calls i = some call' from hi] at hcall
        cases hcall
        rw [hphase] at hunsent
        cases hunsent
      rw [hother i hij]
      exact h.unsent i call' hi hunsent
    · intro i call' m d acc' hi hreading
      by_cases hij : i = j
      · subst hij
        rw [show P.calls i = some call' from hi] at hcall
        cases hcall
        rw [hphase] at hreading
        cases hreading
        refine ⟨some ⟨i, sql, c, reply⟩, ?_, hmine, ?_⟩
        · change Carries _ (update P.conns c _ c) _ _ _ _
          rw [update_self]
          exact hanswer
        · rintro s hs
          cases hs
          exact hhonest
      · exact absurd hreading (not_reading_of_alone halone hij hi)
    · intro i call' hi
      by_cases hij : i = j
      · subst hij
        rw [hmine]
        cases reply.applied <;> decide
      · rw [hother i hij]
        exact h.once i call' hi

end

theorem Once.step {P Q : Pool} {a : Act} (h : Once P) (hP : Paired P) (hok : Delivered P a)
    (hstep : P.step a = some Q) : Once Q := by
  cases a with
  | forward k range sql =>
    rw [Pool.step] at hstep
    cases hcall : P.calls k with
    | some =>
      rw [hcall] at hstep
      cases hstep
    | none =>
      rw [hcall] at hstep
      cases hstep
      refine h.of_turn rfl rfl (fun _ _ _ _ _ _ _ _ => rfl) (fun c hc => .inr ⟨hc, ?_⟩)
        (fun _ => h.fresh k hcall) (by simp)
      intro other n acc hother
      cases hcall.symm.trans hother
  | call =>
    obtain ⟨call, hcall, hstep⟩ := Option.bind_eq_some_iff.mp hstep
    exact h.turn hP hcall hok (turn_of_stepCall hstep)
  | execute => exact h.execute hP hok hstep
  | reset c queries bytes =>
    cases hstep
    refine h.setConn (fun hq hnil => hq ?_) fun _ _ _ _ hst => hst.reset queries bytes
    rw [Conn.reset, hnil, take_nil]

/-- While every response is read to its end once the query was sent whole, and the leader reports
40001 or 08006 only for a statement that had no effect, no call's statement takes effect twice. -/
theorem applied_at_most_once {P : Pool} {as : List Act}
    (hrun : Runs.exec Pool.step .initial as = some P)
    (hok : Runs.Along Pool.step Delivered .initial as) (k : CallId) : P.applied k ≤ 1 := by
  have hboth : Paired P ∧ Once P := by
    refine Runs.exec_invariant (I := fun P => Paired P ∧ Once P) ?_
      ⟨paired_initial, once_initial⟩ hok hrun
    intro S a T h hdelivered hstep
    exact ⟨h.1.step (undisturbed_of_delivered hdelivered) hstep, h.2.step h.1 hdelivered hstep⟩
  cases hcall : P.calls k with
  | none => exact (hboth.2.fresh k hcall).trans_le (Nat.zero_le 1)
  | some call => exact hboth.2.once k call hcall

/-- The leader runs an INSERT and the connection breaks before the response is read. -/
def brokenAfterSend : List Act :=
  sendFirst 0 "INSERT INTO t VALUES (1)" ++
    [.execute 0 (command "INSERT 0 1"), .reset 0 0 0, .call 0 .readFails,
      .call 0 (.resolved (some (7, "n7"))), .call 0 .locked, .call 0 (.dialed true),
      .call 0 (.wrote true), .execute 1 (command "INSERT 0 1")] ++ readBoth 0

theorem insert_applied_twice : ∃ P call,
    Runs.exec Pool.step .initial brokenAfterSend = some P ∧ P.calls 0 = some call ∧
    call.phase = .returned (.response (.ok (.command "INSERT 0 1"))) ∧ P.applied 0 = 2 :=
  ⟨_, _, rfl, rfl, rfl, rfl⟩

/-- The write of the query fails on the first connection; the second attempt delivers it. -/
def brokenBeforeSend : List Act :=
  [.forward 0 1 "INSERT INTO t VALUES (1)", .call 0 (.resolved (some (7, "n7"))), .call 0 .locked,
    .call 0 (.dialed true), .reset 0 0 0, .call 0 (.wrote false),
    .call 0 (.resolved (some (7, "n7"))), .call 0 .locked, .call 0 (.dialed true),
    .call 0 (.wrote true), .execute 1 (command "INSERT 0 1")] ++ readBoth 0

theorem honest_command {tag : String} (h : (BackendMessage.commandComplete tag).Fits)
    (hnul : NoNul tag) : (command tag).Honest := by
  refine ⟨sound_command h, ?_, nofun⟩
  intro m hm
  simp only [command, Reply.messages, writeResults, flatMap_cons, flatMap_nil,
    append_nil, cons_append, nil_append, mem_cons, not_mem_nil,
    or_false] at hm
  obtain rfl | rfl := hm
  · exact hnul
  · trivial

theorem applied_at_most_once_retried : ∃ P call,
    Runs.exec Pool.step .initial brokenBeforeSend = some P ∧ P.calls 0 = some call ∧
    call.phase = .returned (.response (.ok (.command "INSERT 0 1"))) ∧ P.applied 0 ≤ 1 := by
  refine ⟨_, _, rfl, rfl, rfl, @applied_at_most_once _ brokenBeforeSend rfl ?_ 0⟩
  have hinsert : (command "INSERT 0 1").Honest :=
    honest_command (by rw [BackendMessage.Fits]; decide) (by rw [NoNul]; decide)
  simp only [brokenBeforeSend, readBoth, cons_append, nil_append, Runs.Along, Delivered,
    true_and, hinsert, implies_true]

end Crabgresql.Forward
