import Crabgresql.Forward.Pool

/-!
# Responses belong to their queries

The lock lets one call at a time use the pool. While no call is dropped between
its query and the ReadyForQuery that ends the response, every pooled connection
that is not read from is empty in both directions, and the one that is read from
carries what is left of the response to the reader's own query.
-/

namespace Crabgresql.Forward

open Wire Function List BackendMessage Option Conn
open Cluster (NodeId)

variable {conn : Conn} {served : List Served} {acc : Response} {c : ConnId} {sql : String}
  {leader : NodeId} {st : Option Served} {seen rest : List BackendMessage} {inbuf : Bytes}
  {m : BackendMessage} {reply : Reply} {s : Served} {phase : Phase}

def Phase.holds : Phase → Bool
  | .dialing _ _ | .writing _ _ | .reading _ _ _ => true
  | .resolving | .locking _ _ | .returned _ | .dropped => false

def Phase.entry : Phase → Option (NodeId × ConnId)
  | .writing n c | .reading n c _ => some (n, c)
  | .resolving | .locking _ _ | .dialing _ _ | .returned _ | .dropped => none

def Phase.source : Phase → Option ConnId
  | .reading _ c _ => some c
  | .resolving | .locking _ _ | .dialing _ _ | .writing _ _ | .returned _ | .dropped => none

/-- The query has been written, at least in part, and the response not read to its end. -/
def Phase.inFlight : Phase → Bool
  | .writing _ _ | .reading _ _ _ => true
  | .resolving | .locking _ _ | .dialing _ _ | .returned _ | .dropped => false

def columns : BackendMessage → ℕ
  | .rowDescription fields => fields.length
  | .dataRow values => values.length
  | _ => 0

/-- Every message fits its length field and its count. -/
def Reply.Sound (reply : Reply) : Prop := ∀ m ∈ reply.messages, m.Fits ∧ columns m < 2 ^ 15

/-- No call is dropped while its query is in flight, and responses fit their fields. -/
def Undisturbed (P : Pool) : Act → Prop
  | .call k .drop => ∀ call, P.calls k = some call → call.phase.inFlight = false
  | .execute _ reply => reply.Sound
  | _ => True

/-- Some session ran the query of call `k`, and `r` is what it answered. -/
def Answered (served : List Served) (k : CallId) (sql : String)
    (r : Except (String × String) QueryResult) : Prop :=
  ∃ s ∈ served, s.call = k ∧ s.sql = sql ∧
    ∃ acc, collect .empty s.reply.messages = .ok acc ∧ r = acc.result

def Conn.Quiet (conn : Conn) : Prop := conn.inbuf = [] ∧ conn.sent = [] ∧ conn.queries = []

/-- The query of `k` waits to be run, or was lost. -/
structure Waiting (conn : Conn) (k : CallId) (sql : String) (acc : Response) : Prop where
  inbuf : conn.inbuf = []
  sent : conn.sent = []
  queries : conn.queries = [(k, sql)] ∨ conn.queries = []
  acc : acc = .empty

/-- The session answered; `rest` is not read yet, and its end may be lost. -/
structure Answering (served : List Served) (conn : Conn) (s : Served) (acc : Response)
    (seen rest : List BackendMessage) : Prop where
  served : s ∈ served
  sound : s.reply.Sound
  queries : conn.queries = []
  messages : s.reply.messages = seen ++ rest
  acc : collect .empty seen = .ok acc
  bytes : ∃ lost, conn.inbuf ++ conn.sent ++ lost = rest.flatMap encode

/-- What the connection carries for the query of `k`: nothing yet, or what is left of the response
that the session gave in `s`. -/
def Carries (served : List Served) (conn : Conn) (k : CallId) (sql : String) (acc : Response) :
    Option Served → Prop
  | none => Waiting conn k sql acc
  | some s => s.call = k ∧ s.sql = sql ∧ ∃ seen rest, Answering served conn s acc seen rest

/-- A connection between the query of call `k` and the end of the response. -/
def InFlight (served : List Served) (conn : Conn) (k : CallId) (sql : String) (acc : Response) :
    Prop := ∃ st, Carries served conn k sql acc st

structure Paired (P : Pool) : Prop where
  fresh : ∀ n c, P.pooled n = some c → c < P.nextConn
  apart : ∀ n m c, P.pooled n = some c → P.pooled m = some c → n = m
  holder : ∀ k call, P.calls k = some call → call.phase.holds = true → P.lock = some k
  entry : ∀ k call n c, P.calls k = some call → call.phase.entry = some (n, c) →
    P.pooled n = some c
  flight : ∀ k call n c acc, P.calls k = some call → call.phase = .reading n c acc →
    InFlight P.served (P.conns c) k call.sql acc
  quiet : ∀ n c, P.pooled n = some c →
    (∀ k call, P.calls k = some call → call.phase.source ≠ some c) → (P.conns c).Quiet
  answers : ∀ k call r, P.calls k = some call → call.phase = .returned (.response r) →
    Answered P.served k call.sql r

theorem paired_initial : Paired .initial where
  fresh _ _ h := nomatch h
  apart _ _ _ h := nomatch h
  holder _ _ h := nomatch h
  entry _ _ _ _ h := nomatch h
  flight _ _ _ _ _ h := nomatch h
  quiet _ _ h := nomatch h
  answers _ _ _ h := nomatch h

/-! ## Counts -/

def Calm {α : Type} (r : Reader α) : Prop := ∀ b, r b ≠ .error .panics

section

variable {α β : Type}

theorem calm_pure (a : α) : Calm (pure a : Reader α) := fun _ => nofun

variable {r : Reader α}

theorem Calm.bind {f : α → Reader β} (h : Calm r) (hf : ∀ a, Calm (f a)) : Calm (r >>= f) := by
  intro b
  change (r b >>= fun p => f p.1 p.2) ≠ _
  have hr := h b
  generalize r b = first at hr
  cases first with
  | error =>
    intro he
    cases he
    exact hr rfl
  | ok p => exact hf p.1 p.2

theorem Calm.times (h : Calm r) (n : ℕ) : Calm (Reading.times r n) := by
  induction n with
  | zero => exact calm_pure []
  | succ n ih => exact h.bind fun a => ih.bind fun as => calm_pure (a :: as)

theorem Calm.run (h : Calm r) (b : Bytes) : Prod.fst <$> r.run b ≠ .error .panics := by
  have hr := h b
  change Prod.fst <$> r b ≠ _
  generalize r b = first at hr
  cases first with
  | error =>
    intro he
    cases he
    exact hr rfl
  | ok => exact nofun

end

theorem calm_readI16 : Calm readI16 := by
  intro b
  rw [readI16]
  split_ifs <;> simp

theorem calm_readI32 : Calm readI32 := by
  intro b
  rw [readI32]
  split_ifs <;> simp

theorem calm_readBytes (n : ℕ) : Calm (readBytes n) := by
  intro b
  rw [readBytes]
  split_ifs <;> simp

theorem calm_readCstr : Calm readCstr := by
  intro b
  rw [readCstr]
  split_ifs
  · simp only
    generalize String.fromUTF8? ⟨(b.takeWhile (· != 0)).toArray⟩ = text
    cases text with
    | none | some => simp
  · simp

theorem calm_readU32 : Calm readU32 := calm_readI32.bind fun _ => calm_pure _

theorem calm_readField : Calm readField :=
  calm_readCstr.bind fun _ => calm_readU32.bind fun _ => calm_readI16.bind fun _ =>
    calm_readU32.bind fun _ => calm_readI16.bind fun _ => calm_readI32.bind fun _ =>
      calm_readI16.bind fun _ => calm_pure _

theorem calm_readCell : Calm readCell := by
  refine calm_readI32.bind fun len => ?_
  split_ifs
  · exact calm_pure none
  · exact (calm_readBytes _).bind fun bytes => calm_pure _

theorem Calm.counted {α : Type} {r : Reader α} (h : Calm r) {n : ℕ} (hn : n < 2 ^ 15)
    (rest : Bytes) : Prod.fst <$> (readCount >>= Reading.times r).run (putI16 n ++ rest) ≠
      .error .panics := by
  have hcount : (readCount >>= Reading.times r).run (putI16 n ++ rest) =
      (Reading.times r n).run rest := by
    change (readCount (putI16 n ++ rest) >>= fun p => Reading.times r p.1 p.2) = _
    rw [reads_readCount hn rest]
    rfl
  rw [hcount]
  exact (h.times n).run rest

theorem errorFields_calm (found : String × String) (n : ℕ) (b : Bytes) :
    errorFields found n b ≠ .error .panics := by
  induction n generalizing found b with
  | zero => simp [errorFields]
  | succ n ih =>
    cases b with
    | nil => simp [errorFields]
    | cons field b =>
      rw [errorFields]
      by_cases hend : field = 0
      · rw [if_pos hend]
        simp
      · rw [if_neg hend]
        have hread := calm_readCstr b
        generalize readCstr b = first at hread
        cases first with
        | error =>
          intro he
          cases he
          exact hread rfl
        | ok p => exact ih _ p.2

theorem map_ne_panics {α β : Type} {x : Except Broken α} (h : x ≠ .error .panics) (f : α → β) :
    f <$> x ≠ .error .panics := by
  cases x with
  | error =>
    intro he
    cases he
    exact h rfl
  | ok => exact nofun

theorem add_ne_panics (h : columns m < 2 ^ 15) (acc : Response) :
    acc.add (frameOf m) ≠ .error .panics := by
  cases m with
  | rowDescription => exact map_ne_panics (calm_readField.counted h _) _
  | dataRow => exact map_ne_panics (calm_readCell.counted h _) _
  | commandComplete => exact map_ne_panics (calm_readCstr.run _) _
  | errorResponse => exact map_ne_panics (errorFields_calm _ _ _) _
  | parameterDescription | emptyQueryResponse | parseComplete | bindComplete | closeComplete
  | noData | readyForQuery => exact nofun

/-! ## Responses -/

theorem Answered.mono {served' : List Served} {k : CallId}
    {r : Except (String × String) QueryResult} (h : Answered served k sql r)
    (hsub : ∀ s ∈ served, s ∈ served') : Answered served' k sql r := by
  obtain ⟨s, hs, hrest⟩ := h
  exact ⟨s, hsub s hs, hrest⟩

theorem Carries.mono {served' : List Served} {k : CallId} (h : Carries served conn k sql acc st)
    (hsub : ∀ s ∈ served, s ∈ served') : Carries served' conn k sql acc st := by
  cases st with
  | none => exact h
  | some s =>
    obtain ⟨hk, hsql, seen, rest, ha⟩ := h
    exact ⟨hk, hsql, seen, rest, { ha with served := hsub s ha.served }⟩

theorem collect_append (acc : Response) (ms ms' : List BackendMessage) :
    collect acc (ms ++ ms') = collect acc ms >>= fun acc => collect acc ms' :=
  foldlM_append

theorem not_ready_of_mem_writeResults {results : List QueryResult} (h : m ∈ writeResults results)
    (st : TxStatus) : m ≠ .readyForQuery st := by
  obtain ⟨r, -, hm⟩ := mem_flatMap.mp h
  rintro rfl
  cases r <;> simp at hm

theorem Reply.rest_of_ready {st : TxStatus}
    (h : reply.messages = seen ++ .readyForQuery st :: rest) : rest = [] := by
  -- in every response ReadyForQuery stands at the end, after messages of other kinds
  have hlast : ∀ body : List BackendMessage, (∀ m ∈ body, ∀ st, m ≠ .readyForQuery st) →
      ∀ st', body ++ [.readyForQuery st'] = seen ++ .readyForQuery st :: rest → rest = [] := by
    intro body hbody st' heq
    obtain rfl | ⟨rest, m, rfl⟩ := eq_nil_or_concat rest
    · rfl
    · rw [concat_eq_append, ← cons_append, ← append_assoc] at heq
      obtain ⟨rfl, -⟩ := append_inj' heq rfl
      exact absurd rfl (hbody (.readyForQuery st) (by simp) st)
  rw [Reply.messages] at h
  cases hout : reply.outcome with
  | ok =>
    rw [hout] at h
    exact hlast _ (fun m hm => not_ready_of_mem_writeResults hm) _ h
  | error e =>
    rw [hout] at h
    simp only at h
    split_ifs at h
    · cases seen with
      | nil | cons => simp at h
    · exact hlast [.errorResponse e] (by simp) _ h

theorem Answering.next (h : Answering served conn s acc seen rest) {found : UInt8 × Bytes}
    (hframe : nextBackendFrame conn.inbuf = (.ok (some found), inbuf)) :
    ∃ m rest', rest = m :: rest' ∧ found = frameOf m ∧
      ∃ lost, inbuf ++ conn.sent ++ lost = rest'.flatMap encode := by
  obtain ⟨lost, hbytes⟩ := h.bytes
  have hwhole := framed_nextBackendFrame.keeps (c := conn.sent ++ lost) hframe
  rw [← append_assoc, hbytes] at hwhole
  cases rest with
  | nil =>
    have hnone : nextBackendFrame ([] : Bytes) = (.ok none, []) := rfl
    rw [flatMap_nil, hnone] at hwhole
    cases hwhole
  | cons m rest =>
    have hfits : m.Fits := (h.sound m (by rw [h.messages]; simp)).1
    rw [flatMap_cons, nextBackendFrame_encode hfits] at hwhole
    obtain ⟨hfound, hrest⟩ := Prod.mk.inj hwhole
    cases hfound
    exact ⟨m, rest, rfl, rfl, lost, by rw [append_assoc, hrest]⟩

theorem Answering.advance {acc' : Response} (h : Answering served conn s acc seen (m :: rest))
    (hadd : acc.add (frameOf m) = .ok acc')
    (hbytes : ∃ lost, inbuf ++ conn.sent ++ lost = rest.flatMap encode) :
    Answering served { conn with inbuf := inbuf } s acc' (seen ++ [m]) rest where
  served := h.served
  sound := h.sound
  queries := h.queries
  messages := by rw [h.messages, append_assoc]; rfl
  acc := by
    rw [collect_append, h.acc]
    change collect acc [m] = _
    simp only [collect, foldlM_cons, hadd]
    rfl
  bytes := hbytes

theorem Answering.complete {st : TxStatus}
    (h : Answering served conn s acc seen (.readyForQuery st :: rest))
    (hbytes : ∃ lost, inbuf ++ conn.sent ++ lost = rest.flatMap encode) :
    Answered served s.call s.sql acc.result ∧ Conn.Quiet { conn with inbuf := inbuf } := by
  obtain rfl := Reply.rest_of_ready h.messages
  obtain ⟨lost, hbytes⟩ := hbytes
  rw [flatMap_nil, append_eq_nil_iff, append_eq_nil_iff] at hbytes
  refine ⟨⟨s, h.served, rfl, rfl, acc, ?_, rfl⟩, hbytes.1.1, hbytes.1.2, h.queries⟩
  rw [h.messages, collect_append, h.acc]
  rfl

/-! ## Steps -/

section

variable {P Q : Pool} {k : CallId} {call call' : Call}

theorem calls_update (j : CallId) (f : CallId → Option Call) {other : Call}
    (h : update f k (some call) j = some other) :
    (j = k ∧ other = call) ∨ (j ≠ k ∧ f j = some other) := by
  by_cases hj : j = k
  · subst hj
    rw [update_self] at h
    exact .inl ⟨rfl, (some.inj h).symm⟩
  · rw [update_of_ne hj] at h
    exact .inr ⟨hj, h⟩

theorem holds_of_entry {e : NodeId × ConnId} (h : phase.entry = some e) : phase.holds = true := by
  cases phase with
  | writing | reading => rfl
  | _ => cases h

theorem holds_of_source (h : phase.source = some c) : phase.holds = true := by
  cases phase with
  | reading => rfl
  | _ => cases h

def Alone (P : Pool) (k : CallId) : Prop :=
  ∀ j other, j ≠ k → P.calls j = some other → other.phase.holds = false

theorem Paired.alone (h : Paired P) (hcall : P.calls k = some call)
    (hholds : call.phase.holds = true) : Alone P k := by
  intro j other hj hother
  by_contra hcon
  have hlock := h.holder j other hother (by simpa using hcon)
  rw [h.holder k call hcall hholds] at hlock
  exact hj (some.inj hlock).symm

theorem Paired.alone_of_unlocked (h : Paired P) (hlock : P.lock = none) : Alone P k := by
  intro j other _ hother
  by_contra hcon
  have hheld := h.holder j other hother (by simpa using hcon)
  rw [hlock] at hheld
  cases hheld

theorem Paired.of_alone (h : Paired P) (halone : Alone P k)
    (hcalls : Q.calls = update P.calls k (some call')) (hserved : Q.served = P.served)
    (hfresh : ∀ n c, Q.pooled n = some c → c < Q.nextConn)
    (hapart : ∀ n m c, Q.pooled n = some c → Q.pooled m = some c → n = m)
    (hlock : call'.phase.holds = true → Q.lock = some k)
    (hentry : ∀ n c, call'.phase.entry = some (n, c) → Q.pooled n = some c)
    (hflight : ∀ n c acc, call'.phase = .reading n c acc →
      InFlight Q.served (Q.conns c) k call'.sql acc)
    (hquiet : ∀ n c, Q.pooled n = some c → call'.phase.source ≠ some c → (Q.conns c).Quiet)
    (hanswers : ∀ r, call'.phase = .returned (.response r) →
      Answered Q.served k call'.sql r) : Paired Q where
  fresh := hfresh
  apart := hapart
  holder j other hother hholds := by
    rw [hcalls] at hother
    obtain ⟨rfl, rfl⟩ | ⟨hj, hold⟩ := calls_update j _ hother
    · exact hlock hholds
    · exact absurd hholds (by rw [halone j other hj hold]; decide)
  entry j other n c hother he := by
    rw [hcalls] at hother
    obtain ⟨rfl, rfl⟩ | ⟨hj, hold⟩ := calls_update j _ hother
    · exact hentry n c he
    · exact absurd (holds_of_entry he) (by rw [halone j other hj hold]; decide)
  flight j other n c acc hother hphase := by
    rw [hcalls] at hother
    obtain ⟨rfl, rfl⟩ | ⟨hj, hold⟩ := calls_update j _ hother
    · exact hflight n c acc hphase
    · have hnot := halone j other hj hold
      rw [hphase] at hnot
      cases hnot
  quiet n c hn hnone := hquiet n c hn (hnone k call' (by rw [hcalls, update_self]))
  answers j other r hother hphase := by
    rw [hcalls] at hother
    obtain ⟨rfl, rfl⟩ | ⟨hj, hold⟩ := calls_update j _ hother
    · exact hanswers r hphase
    · rw [hserved]
      exact h.answers j other r hold hphase

theorem Paired.of_aside (h : Paired P) (hbefore : ∀ call, P.calls k = some call →
      call.phase.holds = false)
    (hafter : call'.phase.holds = false)
    (hanswers : ∀ r, call'.phase ≠ .returned (.response r)) : Paired (P.setCall k call') where
  fresh := h.fresh
  apart := h.apart
  holder j other hother hholds := by
    obtain ⟨rfl, rfl⟩ | ⟨hj, hold⟩ := calls_update j _ hother
    · rw [hafter] at hholds
      cases hholds
    · exact h.holder j other hold hholds
  entry j other n c hother he := by
    obtain ⟨rfl, rfl⟩ | ⟨hj, hold⟩ := calls_update j _ hother
    · rw [holds_of_entry he] at hafter
      cases hafter
    · exact h.entry j other n c hold he
  flight j other n c acc hother hphase := by
    obtain ⟨rfl, rfl⟩ | ⟨hj, hold⟩ := calls_update j _ hother
    · rw [hphase] at hafter
      cases hafter
    · exact h.flight j other n c acc hold hphase
  quiet n c hn hnone := by
    refine h.quiet n c hn fun j other hother => ?_
    by_cases hj : j = k
    · subst hj
      intro hsource
      exact absurd (holds_of_source hsource) (by simp [hbefore other hother])
    · exact hnone j other ((update_of_ne hj ..).trans hother)
  answers j other r hother hphase := by
    obtain ⟨rfl, rfl⟩ | ⟨hj, hold⟩ := calls_update j _ hother
    · exact absurd hphase (hanswers r)
    · exact h.answers j other r hold hphase

theorem Paired.of_conn (h : Paired P) (hserved : ∀ s ∈ P.served, s ∈ served)
    (hquiet : (P.conns c).Quiet → conn.Quiet)
    (hflight : ∀ k sql acc, InFlight P.served (P.conns c) k sql acc →
      InFlight served conn k sql acc) :
    Paired { P.setConn c conn with served := served } where
  fresh := h.fresh
  apart := h.apart
  holder := h.holder
  entry := h.entry
  flight k call n d acc hcall hphase := by
    have hbefore := h.flight k call n d acc hcall hphase
    by_cases hd : d = c
    · subst hd
      change InFlight served (update P.conns d conn d) k call.sql acc
      rw [update_self]
      exact hflight k call.sql acc hbefore
    · change InFlight served (update P.conns c conn d) k call.sql acc
      rw [update_of_ne hd]
      obtain ⟨st, hst⟩ := hbefore
      exact ⟨st, hst.mono hserved⟩
  quiet n d hn hnone := by
    have hbefore := h.quiet n d hn hnone
    change (update P.conns c conn d).Quiet
    by_cases hd : d = c
    · subst hd
      rw [update_self]
      exact hquiet hbefore
    · rw [update_of_ne hd]
      exact hbefore
  answers k call r hcall hphase := (h.answers k call r hcall hphase).mono hserved

theorem Paired.quiet_of_alone (h : Paired P) (halone : Alone P k) (hcall : P.calls k = some call)
    {n : NodeId} (hn : P.pooled n = some c) (hc : call.phase.source ≠ some c) :
    (P.conns c).Quiet := by
  refine h.quiet n c hn fun j other hother hsource => ?_
  by_cases hj : j = k
  · subst hj
    rw [hcall] at hother
    cases hother
    exact hc hsource
  · exact absurd (holds_of_source hsource) (by simp [halone j other hj hother])

@[simp] theorem sql_conclude (call : Call) (a : Attempt) : (call.conclude a).sql = call.sql := by
  rw [Call.conclude]
  split_ifs <;> rfl

theorem holds_conclude (call : Call) (a : Attempt) : (call.conclude a).phase.holds = false := by
  rw [Call.conclude]
  split_ifs <;> rfl

theorem entry_of_not_holds (h : phase.holds = false) : phase.entry = none := by
  cases phase with
  | dialing | writing | reading => cases h
  | _ => rfl

theorem conclude_returned {a : Attempt} {r : Except (String × String) QueryResult}
    (h : (call.conclude a).phase = .returned (.response r)) : a = .response r := by
  rw [Call.conclude] at h
  split_ifs at h
  exact Phase.returned.inj h

theorem pooled_conclude {n : NodeId} {a : Attempt}
    (h : (P.conclude k call leader a).pooled n = some c) :
    P.pooled n = some c ∧ (a.poisons = true → n ≠ leader) := by
  change (if a.poisons then update P.pooled leader none else P.pooled) n = some c at h
  split_ifs at h with hp
  · by_cases hn : n = leader
    · subst hn
      rw [update_self] at h
      cases h
    · rw [update_of_ne hn] at h
      exact ⟨h, fun _ => hn⟩
  · exact ⟨h, fun hcon => absurd hcon hp⟩

theorem Paired.leave (h : Paired P) (hcall : P.calls k = some call)
    (hholds : call.phase.holds = true) (hcalls : Q.calls = update P.calls k (some call'))
    (hserved : Q.served = P.served) (hnext : Q.nextConn = P.nextConn)
    (hpooled : ∀ n c, Q.pooled n = some c → P.pooled n = some c)
    (hafter : call'.phase.holds = false) (hquiet : ∀ n c, Q.pooled n = some c → (Q.conns c).Quiet)
    (hanswers : ∀ r, call'.phase = .returned (.response r) →
      Answered P.served k call'.sql r) : Paired Q := by
  refine h.of_alone (h.alone hcall hholds) hcalls hserved ?_ ?_ ?_ ?_ ?_ ?_ ?_
  · intro n c hn
    rw [hnext]
    exact h.fresh n c (hpooled n c hn)
  · intro n m c hn hm
    exact h.apart n m c (hpooled n c hn) (hpooled m c hm)
  · intro hholds'
    rw [hafter] at hholds'
    cases hholds'
  · intro n c he
    rw [entry_of_not_holds hafter] at he
    cases he
  · intro n c acc hphase
    rw [hphase] at hafter
    cases hafter
  · exact fun n c hn _ => hquiet n c hn
  · intro r hphase
    rw [hserved]
    exact hanswers r hphase

theorem Paired.conclude (h : Paired P) (hcall : P.calls k = some call)
    (hholds : call.phase.holds = true) (conns : ConnId → Conn) (leader : NodeId) (a : Attempt)
    (hquiet : ∀ n c, P.pooled n = some c → (a.poisons = true → n ≠ leader) → (conns c).Quiet)
    (hanswers : ∀ r, a = .response r → Answered P.served k call.sql r) :
    Paired ({ P with conns := conns }.conclude k call leader a) := by
  have hpooled : ∀ n c, (P.conclude k call leader a).pooled n = some c →
      P.pooled n = some c ∧ (a.poisons = true → n ≠ leader) := fun _ _ => pooled_conclude
  refine h.leave hcall hholds rfl rfl rfl (fun n c hn => (hpooled n c hn).1) (holds_conclude call a)
    ?_ ?_
  · intro n c hn
    exact hquiet n c (hpooled n c hn).1 (hpooled n c hn).2
  · intro r hphase
    rw [sql_conclude]
    exact hanswers r (conclude_returned hphase)

theorem Paired.wire (h : Paired P) (hcall : P.calls k = some call)
    (hentry : call.phase.entry = some (leader, c)) (conn : Conn) :
    Paired ((P.setConn c conn).conclude k call leader .wire) := by
  have hholds := holds_of_entry hentry
  refine h.conclude hcall hholds (update P.conns c conn) leader .wire ?_ nofun
  intro n d hn hleader
  have hd : d ≠ c := by
    rintro rfl
    exact hleader rfl (h.apart n leader d hn (h.entry k call leader d hcall hentry))
  rw [update_of_ne hd]
  refine h.quiet_of_alone (h.alone hcall hholds) hcall hn fun hsource => ?_
  cases hphase : call.phase with
  | reading =>
    rw [hphase] at hentry hsource
    cases hentry
    cases hsource
    exact hd rfl
  | _ =>
    rw [hphase] at hsource
    cases hsource

theorem Paired.enterPool (h : Paired P) (hcall : P.calls k = some call) {addr : String}
    (hphase : call.phase = .locking leader addr) (hlock : P.lock = none) :
    Paired (P.enterPool k call leader addr) := by
  have halone : Alone P k := h.alone_of_unlocked hlock
  have hsource : call.phase.source = none := by rw [hphase]; rfl
  have hquiet : ∀ n c, P.pooled n = some c → (P.conns c).Quiet := by
    intro n c hn
    exact h.quiet_of_alone halone hcall hn (by rw [hsource]; exact nofun)
  have hdial : Paired ({ P with lock := some k }.setCall k (call.enter (.dialing leader addr))) :=
    h.of_alone halone rfl rfl h.fresh h.apart (fun _ => rfl) nofun nofun
      (fun n c hn _ => hquiet n c hn) nofun
  rw [Pool.enterPool]
  simp only
  cases hpooled : P.pooled leader with
  | none => exact hdial
  | some c =>
    simp only
    split_ifs
    · refine h.of_alone halone rfl rfl h.fresh h.apart (fun _ => rfl) ?_ nofun
        (fun n c hn _ => hquiet n c hn) nofun
      intro n d he
      cases he
      exact hpooled
    · exact hdial

theorem Paired.insertConn (h : Paired P) (hcall : P.calls k = some call) {addr : String}
    (hphase : call.phase = .dialing leader addr) : Paired (P.insertConn k call leader addr) := by
  have hholds : call.phase.holds = true := by rw [hphase]; rfl
  have hsource : call.phase.source = none := by rw [hphase]; rfl
  have halone := h.alone hcall hholds
  have hpooled : ∀ n c, update P.pooled leader (some P.nextConn) n = some c →
      (n = leader ∧ c = P.nextConn) ∨ P.pooled n = some c := by
    intro n c hn
    by_cases hleader : n = leader
    · subst hleader
      rw [update_self] at hn
      exact .inl ⟨rfl, (some.inj hn).symm⟩
    · rw [update_of_ne hleader] at hn
      exact .inr hn
  refine h.of_alone halone rfl rfl ?_ ?_ ?_ ?_ nofun ?_ nofun
  · intro n c hn
    obtain ⟨-, rfl⟩ | hold := hpooled n c hn
    · exact Nat.lt_succ_self _
    · exact Nat.lt_succ_of_lt (h.fresh n c hold)
  · intro n m c hn hm
    obtain ⟨rfl, hc⟩ | hold := hpooled n c hn <;> obtain ⟨rfl, hc'⟩ | hold' := hpooled m c hm
    · rfl
    · exact absurd (hc ▸ h.fresh m c hold') (Nat.lt_irrefl _)
    · exact absurd (hc' ▸ h.fresh n c hold) (Nat.lt_irrefl _)
    · exact h.apart n m c hold hold'
  · exact fun _ => h.holder k call hcall hholds
  · intro n c he
    cases he
    exact update_self ..
  · intro n c hn _
    change (update P.conns P.nextConn (.dialed addr) c).Quiet
    obtain ⟨-, rfl⟩ | hold := hpooled n c hn
    · rw [update_self]
      exact ⟨rfl, rfl, rfl⟩
    · rw [update_of_ne (Nat.ne_of_lt (h.fresh n c hold))]
      exact h.quiet_of_alone halone hcall hold (by rw [hsource]; exact nofun)

theorem Conn.Quiet.send (h : conn.Quiet) (k : CallId) (sql : String) :
    Waiting (conn.send k sql) k sql .empty := by
  obtain ⟨hinbuf, hsent, hqueries⟩ := h
  rw [Conn.send]
  split_ifs
  · exact ⟨hinbuf, hsent, .inl (by rw [hqueries]; rfl), rfl⟩
  · exact ⟨hinbuf, hsent, .inr hqueries, rfl⟩

theorem Paired.wrote (h : Paired P) (hcall : P.calls k = some call)
    (hphase : call.phase = .writing leader c) : Paired (P.wrote k call leader c) := by
  have hholds : call.phase.holds = true := by rw [hphase]; rfl
  have hsource : call.phase.source = none := by rw [hphase]; rfl
  have halone := h.alone hcall hholds
  have hentry : P.pooled leader = some c := h.entry k call leader c hcall (by rw [hphase]; rfl)
  have hquiet : ∀ n d, P.pooled n = some d → (P.conns d).Quiet := by
    intro n d hn
    exact h.quiet_of_alone halone hcall hn (by rw [hsource]; exact nofun)
  refine h.of_alone halone rfl rfl h.fresh h.apart (fun _ => h.holder k call hcall hholds) ?_ ?_ ?_
    nofun
  · intro n d he
    cases he
    exact hentry
  · intro n d acc he
    cases he
    change InFlight P.served (update P.conns c ((P.conns c).send k call.sql) c) k _ _
    rw [update_self]
    exact ⟨none, (hquiet leader c hentry).send k call.sql⟩
  · intro n d hn hne
    have hd : d ≠ c := fun e => hne (by rw [e]; rfl)
    change (update P.conns c _ d).Quiet
    rw [update_of_ne hd]
    exact hquiet n d hn

theorem Carries.receive (h : Carries served conn k sql acc st) (n : ℕ) :
    Carries served (conn.receive n) k sql acc st := by
  cases st with
  | none =>
    refine ⟨?_, ?_, h.queries, h.acc⟩
    · simp [receive, h.inbuf, h.sent]
    · simp [receive, h.sent]
  | some =>
    obtain ⟨hk, hsql, seen, rest, ha⟩ := h
    obtain ⟨lost, hbytes⟩ := ha.bytes
    refine ⟨hk, hsql, seen, rest, { ha with bytes := ⟨lost, ?_⟩ }⟩
    rw [← hbytes, receive, append_assoc conn.inbuf, take_append_drop]

theorem Conn.Quiet.receive (h : conn.Quiet) (n : ℕ) : (conn.receive n).Quiet := by
  obtain ⟨hinbuf, hsent, hqueries⟩ := h
  refine ⟨?_, ?_, hqueries⟩
  · simp [Conn.receive, hinbuf, hsent]
  · simp [Conn.receive, hsent]

theorem Carries.reset (h : Carries served conn k sql acc st) (queries bytes : ℕ) :
    Carries served (conn.reset queries bytes) k sql acc st := by
  cases st with
  | none =>
    refine ⟨h.inbuf, ?_, ?_, h.acc⟩
    · rw [reset, h.sent, take_nil]
    · change conn.queries.take queries = _ ∨ conn.queries.take queries = _
      obtain hq | hq := h.queries <;> rw [hq]
      · cases queries with
        | zero => exact .inr rfl
        | succ => exact .inl (by rw [take_succ_cons, take_nil])
      · exact .inr take_nil
  | some =>
    obtain ⟨hk, hsql, seen, rest, ha⟩ := h
    obtain ⟨lost, hbytes⟩ := ha.bytes
    refine ⟨hk, hsql, seen, rest, { ha with
      queries := by rw [reset, ha.queries, take_nil]
      bytes := ⟨conn.sent.drop bytes ++ lost, ?_⟩ }⟩
    rw [← hbytes, reset, append_assoc, ← append_assoc (conn.sent.take bytes),
      take_append_drop, append_assoc]

theorem Conn.Quiet.reset (h : conn.Quiet) (queries bytes : ℕ) :
    (conn.reset queries bytes).Quiet := by
  obtain ⟨hinbuf, hsent, hqueries⟩ := h
  refine ⟨hinbuf, ?_, ?_⟩
  · rw [Conn.reset, hsent, take_nil]
  · rw [Conn.reset, hqueries, take_nil]

theorem Carries.answer {sql' : String} {j : CallId} {queries : List (CallId × String)}
    (h : Carries served conn k sql acc st) (hqueries : conn.queries = (j, sql') :: queries)
    (hsound : reply.Sound) (c : ConnId) : st = none ∧ j = k ∧ queries = [] ∧
      Carries (served ++ [⟨j, sql', c, reply⟩]) (conn.answer queries reply) k sql acc
        (some ⟨j, sql', c, reply⟩) := by
  cases st with
  | none =>
    obtain hq | hq := h.queries <;> rw [hqueries] at hq
    · cases hq
      refine ⟨rfl, rfl, rfl, rfl, rfl, [], reply.messages, ?_⟩
      refine ⟨by simp, hsound, rfl, rfl, by rw [h.acc]; rfl, ?_⟩
      simp only [answer, h.inbuf, h.sent]
      split_ifs
      · exact ⟨[], by rw [append_nil]; rfl⟩
      · exact ⟨reply.bytes, rfl⟩
    · cases hq
  | some =>
    obtain ⟨-, -, seen, rest, ha⟩ := h
    rw [ha.queries] at hqueries
    cases hqueries

theorem Paired.execute (h : Paired P) (hsound : reply.Sound) (hstep : P.execute c reply = some Q) :
    Paired Q := by
  rw [Pool.execute] at hstep
  cases hqueries : (P.conns c).queries with
  | nil =>
    rw [hqueries] at hstep
    cases hstep
  | cons q =>
    obtain ⟨j, sql⟩ := q
    rw [hqueries] at hstep
    cases hstep
    refine h.of_conn (fun s hs => mem_append_left _ hs) ?_ ?_
    · intro hquiet
      rw [hquiet.2.2] at hqueries
      cases hqueries
    · rintro k sql acc ⟨st, hst⟩
      obtain ⟨-, -, -, hanswer⟩ := hst.answer hqueries hsound c
      exact ⟨_, hanswer⟩

theorem setConn_self (P : Pool) (c : ConnId) : P.setConn c (P.conns c) = P := by
  rw [Pool.setConn, update_eq_self]

theorem Carries.next (h : Carries served conn k sql acc st) {found : UInt8 × Bytes}
    (hframe : nextBackendFrame conn.inbuf = (.ok (some found), inbuf)) :
    ∃ s seen m rest, st = some s ∧ s.call = k ∧ s.sql = sql ∧
      Answering served conn s acc seen (m :: rest) ∧ found = frameOf m ∧
      ∃ lost, inbuf ++ conn.sent ++ lost = rest.flatMap encode := by
  cases st with
  | none =>
    rw [h.inbuf] at hframe
    cases hframe
  | some s =>
    obtain ⟨hk, hsql, seen, rest, ha⟩ := h
    obtain ⟨m, rest, rfl, rfl, hbytes⟩ := ha.next hframe
    exact ⟨s, seen, m, rest, rfl, hk, hsql, ha, rfl, hbytes⟩

theorem Paired.frame (h : Paired P) (hcall : P.calls k = some call)
    (hphase : call.phase = .reading leader c acc) (hturn : FrameTurn P k call leader c acc Q) :
    Paired Q := by
  have hholds : call.phase.holds = true := by rw [hphase]; rfl
  have hentry : call.phase.entry = some (leader, c) := by rw [hphase]; rfl
  have hpooled := h.entry k call leader c hcall hentry
  obtain ⟨st, hst⟩ := h.flight k call leader c acc hcall hphase
  have hothers : ∀ n d, P.pooled n = some d → d ≠ c → (P.conns d).Quiet := by
    intro n d hn hd
    refine h.quiet_of_alone (h.alone hcall hholds) hcall hn ?_
    rw [hphase]
    exact fun e => hd (some.inj e).symm
  cases hturn with
  | bad =>
    have hwire := h.wire hcall hentry (P.conns c)
    rwa [setConn_self] at hwire
  | malformed => exact h.wire hcall hentry _
  | panics hframe hadd =>
    obtain ⟨s, seen, m, rest, -, -, -, ha, rfl, -⟩ := hst.next hframe
    have hcolumns := (ha.sound m (by rw [ha.messages]; simp)).2
    exact absurd hadd (add_ne_panics hcolumns acc)
  | ready hframe htag =>
    obtain ⟨s, seen, m, rest, -, rfl, hsql, ha, rfl, hbytes⟩ := hst.next hframe
    obtain ⟨st, rfl⟩ := tag_readyForQuery htag
    obtain ⟨hanswered, hquiet⟩ := ha.complete hbytes
    refine h.conclude hcall hholds (update P.conns c _) leader _ ?_ ?_
    · intro n d hn _
      by_cases hd : d = c
      · subst hd
        rw [update_self]
        exact hquiet
      · rw [update_of_ne hd]
        exact hothers n d hn hd
    · intro r hr
      cases hr
      rw [← hsql]
      exact hanswered
  | added hframe htag hadd =>
    obtain ⟨s, seen, m, rest, -, rfl, hsql, ha, rfl, hbytes⟩ := hst.next hframe
    refine h.of_alone (h.alone hcall hholds) rfl rfl h.fresh h.apart
      (fun _ => h.holder _ call hcall hholds) ?_ ?_ ?_ nofun
    · intro n d he
      cases he
      exact hpooled
    · intro n d acc he
      cases he
      change InFlight P.served (update P.conns c _ c) _ call.sql _
      rw [update_self]
      exact ⟨some s, rfl, hsql, _, rest, ha.advance hadd hbytes⟩
    · intro n d hn hne
      have hd : d ≠ c := fun e => hne (by rw [e]; rfl)
      change (update P.conns c _ d).Quiet
      rw [update_of_ne hd]
      exact hothers n d hn hd

theorem Paired.turn (h : Paired P) (hcall : P.calls k = some call) {a : CallAct}
    (hdrop : a = .drop → call.phase.inFlight = false) (hturn : Turn P k call a Q) : Paired Q := by
  have hself : ∀ other, P.calls k = some other → other = call := by
    intro other hother
    rw [hcall] at hother
    exact (some.inj hother).symm
  have hwaiting : call.phase.holds = false → ∀ other, P.calls k = some other →
      other.phase.holds = false := by
    intro hnot other hother
    rw [hself other hother]
    exact hnot
  have hwire : ∀ leader c, call.phase.entry = some (leader, c) →
      Paired (P.conclude k call leader .wire) := by
    intro leader c hentry
    have hpaired := h.wire hcall hentry (P.conns c)
    rwa [setConn_self] at hpaired
  cases hturn with
  | resolved hphase => exact h.of_aside (hwaiting (by rw [hphase]; rfl)) rfl nofun
  | unresolved hphase =>
    refine h.of_aside (hwaiting (by rw [hphase]; rfl)) (holds_conclude _ _) fun r hr => ?_
    cases conclude_returned hr
  | locked hphase hlock => exact h.enterPool hcall hphase hlock
  | dialed hphase => exact h.insertConn hcall hphase
  | @undialed leader addr hphase =>
    have hholds : call.phase.holds = true := by rw [hphase]; rfl
    refine h.conclude hcall hholds P.conns leader .dialFailed (fun n c hn _ => ?_) nofun
    exact h.quiet_of_alone (h.alone hcall hholds) hcall hn (by rw [hphase]; exact nofun)
  | wrote hphase => exact h.wrote hcall hphase
  | unwritten hphase => exact hwire _ _ (by rw [hphase]; rfl)
  | read hphase =>
    exact h.of_conn (fun _ hs => hs) (fun hq => hq.receive _) fun _ _ _ ⟨st, hst⟩ =>
      ⟨st, hst.receive _⟩
  | unread hphase => exact hwire _ _ (by rw [hphase]; rfl)
  | frame hphase hQ => exact h.frame hcall hphase (frameTurn_of_frame hQ)
  | dropWaiting hphase =>
    refine h.of_aside (hwaiting ?_) rfl nofun
    obtain hphase | ⟨leader, addr, hphase⟩ := hphase <;> rw [hphase] <;> rfl
  | dropHolding hphase =>
    have hflight := hdrop rfl
    obtain ⟨leader, addr, hphase⟩ | ⟨leader, c, hphase⟩ | ⟨leader, c, acc, hphase⟩ := hphase
    · have hholds : call.phase.holds = true := by rw [hphase]; rfl
      refine h.leave hcall hholds rfl rfl rfl (fun _ _ hn => hn) rfl (fun n c hn => ?_) nofun
      exact h.quiet_of_alone (h.alone hcall hholds) hcall hn (by rw [hphase]; exact nofun)
    · rw [hphase] at hflight
      cases hflight
    · rw [hphase] at hflight
      cases hflight

end

theorem Paired.step {P Q : Pool} {a : Act} (h : Paired P) (hok : Undisturbed P a)
    (hstep : P.step a = some Q) : Paired Q := by
  cases a with
  | forward k =>
    rw [Pool.step] at hstep
    cases hcall : P.calls k with
    | some =>
      rw [hcall] at hstep
      cases hstep
    | none =>
      rw [hcall] at hstep
      cases hstep
      refine h.of_aside (fun call hc => ?_) rfl nofun
      rw [hcall] at hc
      cases hc
  | call =>
    obtain ⟨call, hcall, hstep⟩ := bind_eq_some_iff.mp hstep
    refine h.turn hcall (fun ha => ?_) (turn_of_stepCall hstep)
    subst ha
    exact hok call hcall
  | execute => exact h.execute hok hstep
  | reset c queries bytes =>
    cases hstep
    exact h.of_conn (fun _ hs => hs) (fun hq => hq.reset queries bytes) fun _ _ _ ⟨st, hst⟩ =>
      ⟨st, hst.reset queries bytes⟩

theorem paired_run {P : Pool} {as : List Act} (hrun : Runs.exec Pool.step .initial as = some P)
    (hok : Runs.Along Pool.step Undisturbed .initial as) : Paired P :=
  Runs.exec_invariant (fun _ _ _ h hok hstep => h.step hok hstep) paired_initial hok hrun

/-- While no call is dropped with its query in flight and responses fit their fields, a call that
returns with a response, a result or an SQL error, returns what a session answered to its own SQL
text. -/
theorem responses_paired {P : Pool} {as : List Act}
    (hrun : Runs.exec Pool.step .initial as = some P)
    (hok : Runs.Along Pool.step Undisturbed .initial as) (k : CallId) (call : Call) (a : Attempt)
    (hcall : P.calls k = some call) (hphase : call.phase = .returned a) :
    (∀ r, a = .response r → Answered P.served k call.sql r) ∧
    (∀ res, a.result = .ok res → Answered P.served k call.sql (.ok res)) ∧
    ∀ msg, a.result = .error (.unsupported msg) → ∃ code text,
      Answered P.served k call.sql (.error (code, text)) ∧ msg = s!"remote {code}: {text}" := by
  have hanswer : ∀ r, a = .response r → Answered P.served k call.sql r := by
    rintro r rfl
    exact (paired_run hrun hok).answers k call r hcall hphase
  refine ⟨hanswer, ?_, ?_⟩
  · intro res hres
    cases a with
    | response r =>
      cases r with
      | ok =>
        cases hres
        exact hanswer _ rfl
      | error =>
        simp only [Attempt.result] at hres
        split_ifs at hres
    | _ => cases hres
  · intro msg hmsg
    cases a with
    | response r =>
      cases r with
      | ok => cases hmsg
      | error e =>
        obtain ⟨code, text⟩ := e
        refine ⟨code, text, hanswer _ rfl, ?_⟩
        simp only [Attempt.result] at hmsg
        split_ifs at hmsg <;> cases hmsg
        rfl
    | _ => cases hmsg

def sendFirst (k : CallId) (sql : String) : List Act :=
  [.forward k 1 sql, .call k (.resolved (some (7, "n7"))), .call k .locked, .call k (.dialed true),
    .call k (.wrote true)]

def sendNext (k : CallId) (sql : String) : List Act :=
  [.forward k 1 sql, .call k (.resolved (some (7, "n7"))), .call k .locked, .call k (.wrote true)]

def readBoth (k : CallId) : List Act :=
  [.call k (.read 100), .call k .frame, .call k .frame]

def command (tag : String) : Reply := ⟨.ok [.command tag], .idle, true⟩

/-- A client cancels its INSERT after the leader ran it; the next client's query returns the
response to the INSERT, before its own was run. -/
def cancelled : List Act :=
  sendFirst 0 "INSERT INTO t VALUES (1)" ++ [.execute 0 (command "INSERT 0 1"), .call 0 .drop] ++
    sendNext 1 "DELETE FROM t" ++ readBoth 1

theorem response_of_earlier_query : ∃ P call,
    Runs.exec Pool.step .initial cancelled = some P ∧ P.calls 1 = some call ∧
    call.sql = "DELETE FROM t" ∧ call.phase = .returned (.response (.ok (.command "INSERT 0 1"))) ∧
    P.served.map (fun s => (s.call, s.sql)) = [(0, "INSERT INTO t VALUES (1)")] :=
  ⟨_, _, rfl, rfl, rfl, rfl, rfl⟩

def inTurn : List Act :=
  sendFirst 0 "INSERT INTO t VALUES (1)" ++ [.execute 0 (command "INSERT 0 1")] ++ readBoth 0 ++
    sendNext 1 "DELETE FROM t" ++ [.execute 0 (command "DELETE 1")] ++ readBoth 1

theorem sound_command {tag : String} (h : (commandComplete tag).Fits) : (command tag).Sound := by
  intro m hm
  simp only [command, Reply.messages, writeResults, flatMap_cons, flatMap_nil,
    append_nil, cons_append, nil_append, mem_cons, not_mem_nil,
    or_false] at hm
  obtain rfl | rfl := hm
  · exact ⟨h, by simp [columns]⟩
  · exact ⟨by rw [Fits]; decide, by decide⟩

theorem responses_paired_in_turn : ∃ P call,
    Runs.exec Pool.step .initial inTurn = some P ∧ P.calls 1 = some call ∧
    call.phase = .returned (.response (.ok (.command "DELETE 1"))) ∧
    Answered P.served 1 "DELETE FROM t" (.ok (.command "DELETE 1")) := by
  refine ⟨_, _, rfl, rfl, rfl, ?_⟩
  refine (@responses_paired _ inTurn rfl ?_ 1 _ _ rfl rfl).1 _ rfl
  have hinsert : (command "INSERT 0 1").Sound :=
    sound_command (by rw [Fits]; decide)
  have hdelete : (command "DELETE 1").Sound := sound_command (by rw [Fits]; decide)
  simp only [inTurn, sendFirst, sendNext, readBoth, cons_append, nil_append, Runs.Along,
    Undisturbed, true_and, hinsert, hdelete, implies_true]

end Crabgresql.Forward
