import Crabgresql.Wire.Backend
import Crabgresql.Wire.Scram

/-!
# Authentication and the start of a session

A connection after its startup packet: the exchange of authentication messages,
then the engine session and the message loop. The client's bytes arrive in reads
of any size, and what was read ahead stays in the buffer. A run is recorded as
what the server sends, the password messages it takes, its verdict on the final
one, and its calls of the engine. A write that fails ends a run early and is left
out, so is the time anything takes.
-/

namespace Crabgresql.Wire

open Function List ScramServer

open Replica (utf8)

variable {σ : Type}

inductive ServerMessage
  | authenticationOk
  | authenticationSasl (mechanisms : List String)
  | authenticationSaslContinue (data : Bytes)
  | authenticationSaslFinal (data : Bytes)
  | parameterStatus (name value : String)
  | backendKeyData (processId secretKey : ℤ)
  | backend (m : BackendMessage)
  deriving DecidableEq

namespace ServerMessage

def tag : ServerMessage → UInt8
  | .authenticationOk | .authenticationSasl _ | .authenticationSaslContinue _
  | .authenticationSaslFinal _ => 82             -- R
  | .parameterStatus _ _ => 83                   -- S
  | .backendKeyData _ _ => 75                    -- K
  | .backend m => m.tag

def body : ServerMessage → Bytes
  | .authenticationOk => putI32 0
  | .authenticationSasl mechanisms => putI32 10 ++ mechanisms.flatMap putCstr ++ [0]
  | .authenticationSaslContinue data => putI32 11 ++ data
  | .authenticationSaslFinal data => putI32 12 ++ data
  | .parameterStatus name value => putCstr name ++ putCstr value
  | .backendKeyData processId secretKey => putI32 processId ++ putI32 secretKey
  | .backend m => m.body

def encode (m : ServerMessage) : Bytes := m.tag :: putI32 (m.body.length + 4) ++ m.body

end ServerMessage

/-- What the client has sent and the server has not decoded: the buffer, and the reads to come. -/
structure Stream where
  inbuf : Bytes
  reads : List Bytes
  deriving DecidableEq

inductive Event
  | sent (m : ServerMessage)
  /-- The body of a password message. -/
  | received (body : Bytes)
  /-- The verdict on the client's final message. -/
  | checked (server : ScramServer) (msg : Bytes) (reply : Except PgError Bytes)
  | connect
  | call (c : EngineCall)

def Event.isEngine : Event → Bool
  | .connect | .call _ => true
  | _ => false

inductive AuthMode
  | trust
  | scramSha256 (verifiers : String → Option ScramVerifier) (mockSecret : Bytes)

structure SessionConfig where
  auth : AuthMode
  serverParams : List (String × String)

/-- The next message if it is a password message. Anything else, an error and the end of the stream
give up. -/
def readPassword (inbuf : Bytes) : List Bytes → Option Bytes × Stream
  | [] =>
    match decodeMessage inbuf with
    | (.ok (some (.password body)), rest) => (some body, ⟨rest, []⟩)
    | (_, rest) => (none, ⟨rest, []⟩)
  | read :: reads =>
    match decodeMessage inbuf with
    | (.ok (some (.password body)), rest) => (some body, ⟨rest, read :: reads⟩)
    | (.ok none, rest) => readPassword (rest ++ read) reads
    | (_, rest) => (none, ⟨rest, read :: reads⟩)

/-- The client's first message out of the body of its password message. -/
inductive SaslInitial
  | malformed
  | refused
  | clientFirst (msg : Bytes)

def saslInitial (body : Bytes) : SaslInitial :=
  match getCstr body with
  | .error _ => .malformed
  | .ok (mechanism, rest) =>
    if mechanism ≠ "SCRAM-SHA-256" then .refused
    else
      match getI32 rest with
      | .error _ => .malformed
      -- the length itself is not compared with what follows
      | .ok (len, msg) => if len < 0 then .refused else .clientFirst msg

def userOf (startupParams : List (String × String)) : String :=
  ((startupParams.find? fun p => p.1 == "user").map Prod.snd).getD ""

def authFailure (user : String) : ServerMessage :=
  .backend (.errorResponse
    ⟨.fatal, "28P01", s!"password authentication failed for user \"{user}\""⟩)

/-- The record of an authentication, its result, and what it leaves in the output buffer. -/
structure Authenticated where
  events : List Event
  result : Except String Bool
  out : List ServerMessage
  rest : Stream

def scramExchange (H : Hashes) (verifier : ScramVerifier) (user : String) (serverNonce : Bytes)
    (stream : Stream) : Authenticated :=
  let asked := [Event.sent (.authenticationSasl ["SCRAM-SHA-256"])]
  match readPassword stream.inbuf stream.reads with
  | (none, rest) => ⟨asked, .ok false, [], rest⟩
  | (some body, rest) =>
    let asked := asked ++ [.received body]
    match saslInitial body with
    | .malformed => ⟨asked, .error "malformed SASL message", [], rest⟩
    | .refused => ⟨asked ++ [.sent (authFailure user)], .ok false, [], rest⟩
    | .clientFirst msg =>
      match (fromVerifier verifier serverNonce).handleClientFirst msg with
      | (.error _, _) => ⟨asked ++ [.sent (authFailure user)], .ok false, [], rest⟩
      | (.ok serverFirst, scram) =>
        let asked := asked ++ [.sent (.authenticationSaslContinue serverFirst)]
        match readPassword rest.inbuf rest.reads with
        | (none, rest) => ⟨asked, .ok false, [], rest⟩
        | (some clientFinal, rest) =>
          let reply := (scram.handleClientFinal H clientFinal).1
          let asked := asked ++ [.received clientFinal, .checked scram clientFinal reply]
          match reply with
          | .ok serverFinal =>
            ⟨asked, .ok true, [.authenticationSaslFinal serverFinal, .authenticationOk], rest⟩
          | .error _ => ⟨asked ++ [.sent (authFailure user)], .ok false, [], rest⟩

/-- An unknown user is held to a verifier that nobody has a password for. -/
def verifierOf (H : Hashes) (verifiers : String → Option ScramVerifier) (mockSecret : Bytes)
    (user : String) : ScramVerifier :=
  match verifiers user with
  | some v => v
  | none => .mock H mockSecret user

def authenticate (H : Hashes) (auth : AuthMode) (startupParams : List (String × String))
    (serverNonce : Bytes) (stream : Stream) : Authenticated :=
  match auth with
  | .trust => ⟨[], .ok true, [.authenticationOk], stream⟩
  | .scramSha256 verifiers mockSecret =>
    let user := userOf startupParams
    scramExchange H (verifierOf H verifiers mockSecret user) user serverNonce stream

def Connection.since (c c' : Connection σ) : List Event :=
  (c'.calls.drop c.calls.length).map .call ++
    (c'.sent.drop c.sent.length).map fun m => .sent (.backend m)

/-- The message loop over the messages of the stream. An error of the decoder ends it. -/
def messageLoop (E : EngineSession σ) (tail : Except PgError Bytes) :
    Connection σ → List Input → List Event
  | c, [] =>
    if c.closed then []
    else
      match tail with
      | .error e => [.sent (.backend (.errorResponse e))]
      | .ok _ => []
  | c, i :: is =>
    match c.step E i with
    | none => []
    | some c' => c.since c' ++ messageLoop E tail c' is

/-- What the server draws for a connection, and the cancel requests that reach its executions. -/
structure Assigned where
  processId : ℤ
  secretKey : ℤ
  serverNonce : Bytes
  cancels : ℕ → Cancel
  length_serverNonce : serverNonce.length = 24
  alphanumeric : ∀ b ∈ serverNonce, 48 ≤ b ∧ b ≤ 57 ∨ 65 ≤ b ∧ b ≤ 90 ∨ 97 ≤ b ∧ b ≤ 122

def serve (E : EngineSession σ) (connect : σ) (config : SessionConfig) (assigned : Assigned)
    (out : List ServerMessage) (stream : Stream) : List Event :=
  let (messages, tail) := Framing.feed decodeMessage stream.inbuf stream.reads
  let inputs := messages.mapIdx fun i m => Input.mk m (assigned.cancels i)
  let greeting := out ++ config.serverParams.map (fun p => ServerMessage.parameterStatus p.1 p.2) ++
    [.backendKeyData assigned.processId assigned.secretKey,
      .backend (.readyForQuery (E.txStatus connect))]
  -- the replies of the authentication are written together with the greeting
  .connect :: (greeting.map .sent ++ messageLoop E tail (.start connect) inputs)

def runSession (H : Hashes) (E : EngineSession σ) (connect : σ) (config : SessionConfig)
    (startupParams : List (String × String)) (assigned : Assigned) (stream : Stream) : List Event :=
  let a := authenticate H config.auth startupParams assigned.serverNonce stream
  match a.result with
  | .ok true => a.events ++ serve E connect config assigned a.out a.rest
  | _ => a.events

/-! ## The outcomes of an exchange -/

section Outcomes

variable {H : Hashes} {verifier : ScramVerifier} {user : String} {serverNonce : Bytes}
  {stream : Stream}

def askedSasl : Event := .sent (.authenticationSasl ["SCRAM-SHA-256"])

/-- Neither a call of the engine nor the answer to a first message. -/
def Event.plain : Event → Bool
  | .connect | .call _ | .sent (.authenticationSaslContinue _) => false
  | _ => true

/-- How far an exchange comes: the first message is not answered, or it is and the client gives up
or is refused, or the client is accepted. -/
inductive Exchanged (H : Hashes) (verifier : ScramVerifier) (serverNonce : Bytes) :
    Authenticated → Prop
  | ended (events : List Event) (result : Except String Bool) (rest : Stream)
      (hresult : result ≠ .ok true) (hplain : ∀ e ∈ events, e.plain = true) :
      Exchanged H verifier serverNonce ⟨events, result, [], rest⟩
  | answered (body msg serverFirst : Bytes) (scram : ScramServer) (events : List Event)
      (rest : Stream) (hfirst : (fromVerifier verifier serverNonce).handleClientFirst msg =
        (.ok serverFirst, scram)) (hplain : ∀ e ∈ events, e.plain = true) :
      Exchanged H verifier serverNonce ⟨[askedSasl, .received body,
        .sent (.authenticationSaslContinue serverFirst)] ++ events, .ok false, [], rest⟩
  | accepted (body msg serverFirst clientFinal reply : Bytes) (scram : ScramServer) (rest : Stream)
      (hinitial : saslInitial body = .clientFirst msg)
      (hfirst : (fromVerifier verifier serverNonce).handleClientFirst msg =
        (.ok serverFirst, scram)) (hfinal : (scram.handleClientFinal H clientFinal).1 = .ok reply) :
      Exchanged H verifier serverNonce ⟨[askedSasl, .received body,
        .sent (.authenticationSaslContinue serverFirst), .received clientFinal,
        .checked scram clientFinal (.ok reply)], .ok true,
        [.authenticationSaslFinal reply, .authenticationOk], rest⟩

variable (H verifier user serverNonce stream)

theorem exchange_cases :
    Exchanged H verifier serverNonce (scramExchange H verifier user serverNonce stream) := by
  unfold scramExchange
  dsimp only
  split
  · exact .ended _ _ _ nofun (by simp [Event.plain])
  rename_i body rest hread
  split
  · exact .ended _ _ _ nofun (by simp [Event.plain])
  · exact .ended _ _ _ nofun (by simp [Event.plain, authFailure])
  rename_i msg hinitial
  split
  · exact .ended _ _ _ nofun (by simp [Event.plain, authFailure])
  rename_i serverFirst scram hfirst
  split
  · exact .answered body msg serverFirst scram [] _ hfirst nofun
  rename_i clientFinal rest' hread'
  split
  · rename_i reply hfinal
    rw [hfinal]
    exact .accepted body msg serverFirst clientFinal reply scram rest' hinitial hfirst hfinal
  · rename_i e hfinal
    rw [hfinal]
    exact .answered body msg serverFirst scram
      [.received clientFinal, .checked scram clientFinal (.error e), .sent (authFailure user)] rest'
      hfirst (by simp [Event.plain, authFailure])

end Outcomes

/-! ## No engine before the verdict -/

/-- The record of an exchange that was accepted. -/
def AcceptedExchange (H : Hashes) (verifier : ScramVerifier) (serverNonce : Bytes)
    (events : List Event) : Prop :=
  ∃ body clientFirst serverFirst clientFinal scram reply,
    events = [.sent (.authenticationSasl ["SCRAM-SHA-256"]), .received body,
      .sent (.authenticationSaslContinue serverFirst), .received clientFinal,
      .checked scram clientFinal (.ok reply)] ∧
    saslInitial body = .clientFirst clientFirst ∧ scram.verifier = verifier ∧
    Authentic H verifier serverNonce clientFirst serverFirst clientFinal

section Access

variable {H : Hashes} {verifier : ScramVerifier} {serverNonce : Bytes} {a : Authenticated}

theorem Exchanged.accepts (h : Exchanged H verifier serverNonce a)
    (hresult : a.result = .ok true) : AcceptedExchange H verifier serverNonce a.events := by
  cases h with
  | ended events result rest hne => exact absurd hresult hne
  | answered => cases hresult
  | accepted body msg serverFirst clientFinal reply scram rest hinitial hfirst hfinal =>
    obtain ⟨gs2Header, bare, clientNonce, -, -, -, -, hscram⟩ := handleClientFirst_ok hfirst
    refine ⟨body, msg, serverFirst, clientFinal, scram, reply, rfl, hinitial, ?_,
      authentic_of_ok hfirst hfinal⟩
    rw [hscram]

theorem Event.not_engine {e : Event} (h : e.plain = true) : e.isEngine = false := by
  cases e <;> first | rfl | cases h

theorem Exchanged.quiet (h : Exchanged H verifier serverNonce a) :
    ∀ e ∈ a.events, e.isEngine = false := by
  intro e he
  cases h with
  | ended events result rest hresult hplain => exact Event.not_engine (hplain e he)
  | answered body msg serverFirst scram events rest hfirst hplain =>
    simp only [cons_append, nil_append, mem_cons] at he
    rcases he with rfl | rfl | rfl | he
    · rfl
    · rfl
    · rfl
    · exact Event.not_engine (hplain e he)
  | accepted =>
    revert e
    simp [askedSasl, Event.isEngine]

end Access

theorem prefix_of_not_mem {α : Type*} {xs ys before after : List α} {e : α} (he : e ∉ xs)
    (h : xs ++ ys = before ++ e :: after) : xs <+: before := by
  obtain ⟨mid, hbefore, -⟩ | ⟨mid, hxs, hmid⟩ := append_eq_append_iff.mp h
  · exact ⟨mid, hbefore.symm⟩
  · cases mid with
    | nil => exact ⟨[], by rw [hxs, append_nil, append_nil]⟩
    | cons =>
      cases hmid
      rw [hxs] at he
      exact absurd (mem_append_right _ mem_cons_self) he

/-- Under SCRAM, whatever the client sends, an engine is connected and called only after an accepted
exchange with the verifier of the user that the startup packet names. -/
theorem engine_after_authentication (H : Hashes) (E : EngineSession σ) (connect : σ)
    (verifiers : String → Option ScramVerifier) (mockSecret : Bytes)
    (serverParams startupParams : List (String × String)) (assigned : Assigned) (stream : Stream)
    (before after : List Event) (e : Event) (he : e.isEngine = true)
    (hrun : runSession H E connect ⟨.scramSha256 verifiers mockSecret, serverParams⟩ startupParams
      assigned stream = before ++ e :: after) :
    ∃ exchange, exchange <+: before ∧ AcceptedExchange H
      (verifierOf H verifiers mockSecret (userOf startupParams)) assigned.serverNonce exchange := by
  have hcases := exchange_cases H (verifierOf H verifiers mockSecret (userOf startupParams))
    (userOf startupParams) assigned.serverNonce stream
  unfold runSession authenticate at hrun
  dsimp only at hrun
  generalize scramExchange H (verifierOf H verifiers mockSecret (userOf startupParams))
    (userOf startupParams) assigned.serverNonce stream = a at hrun hcases
  have hquiet : e ∉ a.events := by
    intro hin
    rw [hcases.quiet e hin] at he
    cases he
  split at hrun
  · rename_i hresult
    exact ⟨a.events, prefix_of_not_mem hquiet hrun, hcases.accepts hresult⟩
  · rw [hrun] at hquiet
    exact absurd (mem_append_right _ mem_cons_self) hquiet

section Runs

/-- Functions that authenticate whoever sends the stored key itself. -/
def plainHashes : Hashes where
  sha256 m := (m ++ replicate 32 0).take 32
  hmac _ _ := replicate 32 0
  length_sha256 m := by simp
  length_hmac _ _ := by simp

def plainVerifier : ScramVerifier where
  salt := replicate 16 1
  iterations := defaultIterations
  storedKey := replicate 32 0
  serverKey := replicate 32 0
  length_storedKey := rfl
  length_serverKey := rfl

def plainAssigned : Assigned where
  processId := 1
  secretKey := 2
  serverNonce := replicate 24 97
  cancels _ := .never
  length_serverNonce := rfl
  alphanumeric b hb := by
    rw [eq_of_mem_replicate hb]
    decide

def passwordFrame (body : Bytes) : Bytes := 112 :: putI32 (body.length + 4) ++ body

def plainClient (proof : Bytes) : Stream :=
  ⟨passwordFrame (putCstr "SCRAM-SHA-256" ++ putI32 9 ++ utf8 "n,,n=,r=b") ++
    passwordFrame (utf8 "c=biws,r=b" ++ replicate 24 97 ++ utf8 ",p=" ++
      Base64.encode proof), []⟩

def plainRun (verifiers : String → Option ScramVerifier) (proof : Bytes) : List Event :=
  runSession plainHashes countingEngine 0 ⟨.scramSha256 verifiers [7], []⟩ [("user", "u")]
    plainAssigned (plainClient proof)

end Runs

/-- The engine is reached, after the exchange. -/
theorem engine_after_authentication_plain : ∃ before e after, e.isEngine = true ∧
      plainRun (fun _ => some plainVerifier) (List.replicate 32 0) = before ++ e :: after ∧
      ∃ exchange, exchange <+: before ∧
        AcceptedExchange plainHashes plainVerifier (List.replicate 24 97) exchange := by
  have h : (plainRun (fun _ => some plainVerifier) (replicate 32 0)).any Event.isEngine =
      true := by decide +kernel
  obtain ⟨e, hin, he⟩ := any_eq_true.mp h
  obtain ⟨before, after, hrun⟩ := append_of_mem hin
  exact ⟨before, e, after, he, hrun, engine_after_authentication plainHashes countingEngine 0
    (fun _ => some plainVerifier) [7] [] [("user", "u")] plainAssigned _ before after e he hrun⟩

/-! ## Unknown users -/

/-- The same message, or two replies to the client's first message that differ in the salt. -/
inductive SameButSalt : ServerMessage → ServerMessage → Prop
  | same (m : ServerMessage) : SameButSalt m m
  | salt (nonces salt salt' iterations : Bytes) (h : salt.length = salt'.length) :
      SameButSalt
        (.authenticationSaslContinue (nonces ++ Base64.encode salt ++ iterations))
        (.authenticationSaslContinue (nonces ++ Base64.encode salt' ++ iterations))

inductive AlikeEvent : Event → Event → Prop
  | sent {m m' : ServerMessage} (h : SameButSalt m m') : AlikeEvent (.sent m) (.sent m')
  | received (body : Bytes) : AlikeEvent (.received body) (.received body)
  | checked (s s' : ScramServer) (msg : Bytes) (reply reply' : Except PgError Bytes) :
      AlikeEvent (.checked s msg reply) (.checked s' msg reply')

/-- Two authentications that a client cannot tell apart but for the salt. -/
structure AlikeAuth (a a' : Authenticated) : Prop where
  events : Forall₂ AlikeEvent a.events a'.events
  result : a.result = a'.result
  rest : a.rest = a'.rest

def Event.accepts : Event → Bool
  | .checked _ _ (.ok _) => true
  | _ => false

def Verified (events : List Event) : Prop := ∃ e ∈ events, e.accepts = true

instance (events : List Event) : Decidable (Verified events) :=
  inferInstanceAs (Decidable (∃ e ∈ events, e.accepts = true))

def sentLengths (events : List Event) : List ℕ :=
  events.filterMap fun
    | .sent m => some m.encode.length
    | _ => none

theorem SameButSalt.length_encode {m m' : ServerMessage} (h : SameButSalt m m') :
    m.tag = m'.tag ∧ m.encode.length = m'.encode.length := by
  cases h with
  | same => exact ⟨rfl, rfl⟩
  | salt nonces salt salt' iterations h =>
    refine ⟨rfl, ?_⟩
    simp only [ServerMessage.encode, ServerMessage.body, length_append, length_cons,
      Base64.length_encode, h]

section Unknown

variable {H : Hashes} {v v' : ScramVerifier} {user : String} {serverNonce : Bytes}
  {stream : Stream} {a a' : Authenticated}

/-- Whether the first message is answered does not depend on the verifier, and the answers differ
in the salt. -/
theorem handleClientFirst_alike (hsalt : v.salt.length = v'.salt.length)
    (hiter : v.iterations = v'.iterations) (serverNonce msg : Bytes) :
    (∃ e, ((fromVerifier v serverNonce).handleClientFirst msg).1 = .error e ∧
      ((fromVerifier v' serverNonce).handleClientFirst msg).1 = .error e) ∨
    ∃ data data', ((fromVerifier v serverNonce).handleClientFirst msg).1 = .ok data ∧
      ((fromVerifier v' serverNonce).handleClientFirst msg).1 = .ok data' ∧
      SameButSalt (.authenticationSaslContinue data) (.authenticationSaslContinue data') := by
  unfold handleClientFirst fromVerifier
  dsimp only
  split
  · exact .inl ⟨_, rfl, rfl⟩
  split
  · exact .inl ⟨_, rfl, rfl⟩
  split
  · exact .inl ⟨_, rfl, rfl⟩
  rename_i clientNonce hnonce
  refine .inr ⟨_, _, rfl, rfl, ?_⟩
  unfold serverFirstMessage
  rw [hiter, append_assoc _ (utf8 ",i=") _, append_assoc _ (utf8 ",i=") _]
  exact .salt _ v.salt v'.salt _ hsalt

theorem scramExchange_alike (hsalt : v.salt.length = v'.salt.length)
    (hiter : v.iterations = v'.iterations)
    (hrefused : (scramExchange H v user serverNonce stream).result ≠ .ok true)
    (hrefused' : (scramExchange H v' user serverNonce stream).result ≠ .ok true) :
    AlikeAuth (scramExchange H v user serverNonce stream)
      (scramExchange H v' user serverNonce stream) := by
  have hasked : AlikeEvent askedSasl askedSasl := .sent (.same _)
  have hfailure : AlikeEvent (.sent (authFailure user)) (.sent (authFailure user)) :=
    .sent (.same _)
  unfold scramExchange at hrefused hrefused' ⊢
  dsimp only at hrefused hrefused' ⊢
  generalize readPassword stream.inbuf stream.reads = p at hrefused hrefused' ⊢
  obtain ⟨_ | body, rest⟩ := p
  · exact ⟨.cons hasked .nil, rfl, rfl⟩
  dsimp only at hrefused hrefused' ⊢
  generalize saslInitial body = initial at hrefused hrefused' ⊢
  cases initial with
  | malformed => exact ⟨.cons hasked (.cons (.received body) .nil), rfl, rfl⟩
  | refused => exact ⟨.cons hasked (.cons (.received body) (.cons hfailure .nil)), rfl, rfl⟩
  | clientFirst msg =>
    dsimp only at hrefused hrefused' ⊢
    have hfirst := handleClientFirst_alike hsalt hiter serverNonce msg
    generalize (fromVerifier v serverNonce).handleClientFirst msg = q at *
    generalize (fromVerifier v' serverNonce).handleClientFirst msg = q' at *
    obtain ⟨r, scram⟩ := q
    obtain ⟨r', scram'⟩ := q'
    dsimp only at hfirst
    obtain ⟨e, rfl, rfl⟩ | ⟨data, data', rfl, rfl, hdata⟩ := hfirst
    · exact ⟨.cons hasked (.cons (.received body) (.cons hfailure .nil)), rfl, rfl⟩
    dsimp only at hrefused hrefused' ⊢
    generalize readPassword rest.inbuf rest.reads = p at hrefused hrefused' ⊢
    obtain ⟨_ | clientFinal, rest'⟩ := p
    · exact ⟨.cons hasked (.cons (.received body) (.cons (.sent hdata) .nil)), rfl, rfl⟩
    dsimp only at hrefused hrefused' ⊢
    generalize (scram.handleClientFinal H clientFinal).1 = reply at hrefused ⊢
    generalize (scram'.handleClientFinal H clientFinal).1 = reply' at hrefused' ⊢
    cases reply with
    | ok => exact absurd rfl hrefused
    | error =>
      cases reply' with
      | ok => exact absurd rfl hrefused'
      | error =>
        exact ⟨.cons hasked (.cons (.received body) (.cons (.sent hdata)
          (.cons (.received clientFinal) (.cons (.checked _ _ _ _ _) (.cons hfailure .nil))))),
          rfl, rfl⟩

theorem Exchanged.verified (h : Exchanged H v serverNonce a) (hresult : a.result = .ok true) :
    Verified a.events := by
  obtain ⟨body, clientFirst, serverFirst, clientFinal, scram, reply, hevents, -⟩ :=
    h.accepts hresult
  refine ⟨.checked scram clientFinal (.ok reply), ?_, rfl⟩
  rw [hevents]
  simp

theorem Exchanged.salt (h : Exchanged H v serverNonce a) (hnonce : comma ∉ serverNonce)
    {data : Bytes} (hsent : .sent (.authenticationSaslContinue data) ∈ a.events) :
    Carries data 115 (Base64.encode v.salt) := by
  obtain ⟨msg, scram, hfirst⟩ : ∃ msg scram,
      (fromVerifier v serverNonce).handleClientFirst msg = (.ok data, scram) := by
    cases h with
    | ended events result rest hresult hplain => cases hplain _ hsent
    | answered body msg serverFirst scram events rest hfirst hplain =>
      rcases mem_append.mp hsent with hfixed | hlater
      · obtain rfl : data = serverFirst := by simpa [askedSasl] using hfixed
        exact ⟨msg, scram, hfirst⟩
      · cases hplain _ hlater
    | accepted body msg serverFirst clientFinal reply scram rest hinitial hfirst =>
      obtain rfl : data = serverFirst := by simpa [askedSasl] using hsent
      exact ⟨msg, scram, hfirst⟩
  obtain ⟨gs2Header, bare, clientNonce, -, -, hclient, rfl, -⟩ := handleClientFirst_ok hfirst
  refine carries_salt v ?_
  rw [mem_append, not_or]
  exact ⟨hclient.comma_not_mem, hnonce⟩

theorem Assigned.comma_not_mem (assigned : Assigned) : comma ∉ assigned.serverNonce := by
  intro h
  have halnum := assigned.alphanumeric comma h
  revert halnum
  decide

theorem runSession_refused {E : EngineSession σ} {connect : σ} {config : SessionConfig}
    {startupParams : List (String × String)} {assigned : Assigned}
    (h : (authenticate H config.auth startupParams assigned.serverNonce stream).result ≠ .ok true) :
    runSession H E connect config startupParams assigned stream =
      (authenticate H config.auth startupParams assigned.serverNonce stream).events := by
  unfold runSession
  dsimp only
  split
  · contradiction
  · rfl

end Unknown

theorem length_mock_salt (H : Hashes) (secret : Bytes) (user : String) :
    (ScramVerifier.mock H secret user).salt.length = saltLen := by
  simp [ScramVerifier.mock, H.length_hmac, saltLen]

theorem sentLengths_alike {events events' : List Event}
    (h : Forall₂ AlikeEvent events events') : sentLengths events = sentLengths events' := by
  induction h with
  | nil => rfl
  | cons he _ ih =>
    cases he with
    | sent hm =>
      simp only [sentLengths, filterMap_cons] at ih ⊢
      rw [ih, hm.length_encode.2]
    | received | checked => exact ih

def withUser (verifiers : String → Option ScramVerifier) (mockSecret : Bytes)
    (serverParams : List (String × String)) (u : String) (entry : Option ScramVerifier) :
    SessionConfig :=
  ⟨.scramSha256 (update verifiers u entry) mockSecret, serverParams⟩

theorem verifierOf_alike (H : Hashes) (verifiers : String → Option ScramVerifier)
    (mockSecret : Bytes) (u user : String) {v : ScramVerifier} (hsalt : v.salt.length = saltLen)
    (hiter : v.iterations = defaultIterations) :
    (verifierOf H (update verifiers u (some v)) mockSecret user).salt.length =
      (verifierOf H (update verifiers u none) mockSecret user).salt.length ∧
    (verifierOf H (update verifiers u (some v)) mockSecret user).iterations =
      (verifierOf H (update verifiers u none) mockSecret user).iterations := by
  unfold verifierOf
  by_cases hu : user = u
  · subst hu
    rw [update_self, update_self]
    exact ⟨hsalt.trans (length_mock_salt H mockSecret user).symm, hiter⟩
  · rw [update_of_ne hu, update_of_ne hu]
    exact ⟨rfl, rfl⟩

theorem result_of_not_verified {H : Hashes} {E : EngineSession σ} {connect : σ}
    {verifiers : String → Option ScramVerifier} {mockSecret : Bytes}
    {serverParams startupParams : List (String × String)} {assigned : Assigned} {stream : Stream}
    (h : ¬ Verified (runSession H E connect ⟨.scramSha256 verifiers mockSecret, serverParams⟩
      startupParams assigned stream)) :
    (authenticate H (.scramSha256 verifiers mockSecret) startupParams assigned.serverNonce
      stream).result ≠ .ok true := by
  intro hresult
  obtain ⟨e, hin, he⟩ := (exchange_cases H _ _ _ stream).verified hresult
  refine h ⟨e, ?_, he⟩
  unfold runSession
  dsimp only
  rw [hresult]
  exact mem_append_left _ hin

/-- Whether a user has a verifier shows in nothing but the salt, as long as the client is refused:
the server sends messages of the same kinds and lengths and stops at the same point of the stream.
The salt of an unknown user is the same in every attempt. -/
theorem user_existence_hidden (H : Hashes) (E : EngineSession σ) (connect : σ)
    (verifiers : String → Option ScramVerifier) (mockSecret : Bytes) (u : String)
    (v : ScramVerifier) (hsalt : v.salt.length = saltLen) (hiter : v.iterations = defaultIterations)
    (serverParams startupParams : List (String × String)) (assigned : Assigned) (stream : Stream)
    (hknown : ¬ Verified (runSession H E connect
      (withUser verifiers mockSecret serverParams u (some v)) startupParams assigned stream))
    (hunknown : ¬ Verified (runSession H E connect
      (withUser verifiers mockSecret serverParams u none) startupParams assigned stream)) :
    List.Forall₂ AlikeEvent
      (runSession H E connect (withUser verifiers mockSecret serverParams u (some v))
        startupParams assigned stream)
      (runSession H E connect (withUser verifiers mockSecret serverParams u none)
        startupParams assigned stream) ∧
    sentLengths (runSession H E connect (withUser verifiers mockSecret serverParams u (some v))
        startupParams assigned stream) =
      sentLengths (runSession H E connect (withUser verifiers mockSecret serverParams u none)
        startupParams assigned stream) ∧
    (authenticate H (withUser verifiers mockSecret serverParams u (some v)).auth startupParams
        assigned.serverNonce stream).rest =
      (authenticate H (withUser verifiers mockSecret serverParams u none).auth startupParams
        assigned.serverNonce stream).rest ∧
    ∀ (verifiers' : String → Option ScramVerifier) (startupParams' : List (String × String))
      (assigned' : Assigned) (stream' : Stream) (data : Bytes), verifiers' u = none →
      userOf startupParams' = u →
      .sent (.authenticationSaslContinue data) ∈ (authenticate H
        (.scramSha256 verifiers' mockSecret) startupParams' assigned'.serverNonce stream').events →
      Carries data 115 (Base64.encode (ScramVerifier.mock H mockSecret u).salt) := by
  have hresult := result_of_not_verified hknown
  have hresult' := result_of_not_verified hunknown
  obtain ⟨hlength, hiterations⟩ :=
    verifierOf_alike H verifiers mockSecret u (userOf startupParams) hsalt hiter
  have halike : AlikeAuth
      (authenticate H (withUser verifiers mockSecret serverParams u (some v)).auth startupParams
        assigned.serverNonce stream)
      (authenticate H (withUser verifiers mockSecret serverParams u none).auth startupParams
        assigned.serverNonce stream) :=
    scramExchange_alike hlength hiterations hresult hresult'
  have hevents : Forall₂ AlikeEvent
      (runSession H E connect (withUser verifiers mockSecret serverParams u (some v))
        startupParams assigned stream)
      (runSession H E connect (withUser verifiers mockSecret serverParams u none)
        startupParams assigned stream) := by
    rw [runSession_refused hresult, runSession_refused hresult']
    exact halike.events
  refine ⟨hevents, sentLengths_alike hevents, halike.rest, ?_⟩
  intro verifiers' startupParams' assigned' stream' data hnone huser hsent
  have hverifier : verifierOf H verifiers' mockSecret (userOf startupParams') =
      .mock H mockSecret u := by
    unfold verifierOf
    rw [huser, hnone]
  rw [← hverifier]
  exact (exchange_cases H _ _ _ stream').salt assigned'.comma_not_mem hsent

/-- A wrong proof for a user with and without a verifier. -/
theorem user_existence_hidden_plain : List.Forall₂ AlikeEvent
      (plainRun (Function.update (fun _ => none) "u" (some plainVerifier)) (List.replicate 32 1))
      (plainRun (Function.update (fun _ => none) "u" none) (List.replicate 32 1)) := by
  have hknown : ¬ Verified (plainRun (update (fun _ => none) "u" (some plainVerifier))
      (replicate 32 1)) := by decide +kernel
  have hunknown : ¬ Verified (plainRun (update (fun _ => none) "u" none)
      (replicate 32 1)) := by decide +kernel
  exact (user_existence_hidden plainHashes countingEngine 0 (fun _ => none) [7] "u" plainVerifier
    rfl rfl [] [("user", "u")] plainAssigned _ hknown hunknown).1

end Crabgresql.Wire
