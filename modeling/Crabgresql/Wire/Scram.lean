import Crabgresql.Lib.Base64
import Crabgresql.Replica.Keys
import Crabgresql.Wire.Messages

/-!
# Server-side SCRAM-SHA-256

Two rounds: the client's nonce against the server's nonce, salt and iteration
count, and the client's proof against the server's signature. SHA-256 and HMAC
are any functions with results of 32 bytes. A string is its bytes, which were
checked to be UTF-8; the separators and attribute names are ASCII, so that
splitting the string and splitting its bytes is the same.
-/

namespace Crabgresql.Wire

open List

open Replica (utf8)

structure Hashes where
  sha256 : Bytes → Bytes
  hmac : Bytes → Bytes → Bytes
  length_sha256 : ∀ m, (sha256 m).length = 32
  length_hmac : ∀ k m, (hmac k m).length = 32

def defaultIterations : ℕ := 4096

def saltLen : ℕ := 16

structure ScramVerifier where
  salt : Bytes
  iterations : ℕ
  storedKey : Bytes
  serverKey : Bytes
  length_storedKey : storedKey.length = 32
  length_serverKey : serverKey.length = 32
  deriving DecidableEq

/-- The fake verifier of an unknown user. -/
def ScramVerifier.mock (H : Hashes) (serverSecret : Bytes) (user : String) : ScramVerifier where
  salt := (H.hmac serverSecret (utf8 ("mock-salt:" ++ user))).take saltLen
  iterations := defaultIterations
  storedKey := H.hmac serverSecret (utf8 ("mock-stored:" ++ user))
  serverKey := H.hmac serverSecret (utf8 ("mock-server:" ++ user))
  length_storedKey := H.length_hmac _ _
  length_serverKey := H.length_hmac _ _

def isUtf8 (msg : Bytes) : Bool := (String.fromUTF8? ⟨msg.toArray⟩).isSome

def comma : UInt8 := 44

def attrValue (name : UInt8) : Bytes → Option Bytes
  | n :: eq :: value => if n = name ∧ eq = 61 then some value else none
  | _ => none

def attr (msg : Bytes) (name : UInt8) : Except PgError Bytes :=
  match (msg.splitOn comma).findSome? (attrValue name) with
  | some value => .ok value
  | none =>
    let shown := (charOf name).toString
    .error (.protocol s!"SCRAM: missing attribute '{shown}'")

def rsplitOnce (pat : Bytes) : Bytes → Option (Bytes × Bytes)
  | [] => if pat = [] then some ([], []) else none
  | b :: s =>
    match rsplitOnce pat s with
    | some (head, tail) => some (b :: head, tail)
    | none => ((b :: s).dropPrefix? pat).map fun tail => ([], tail)

/-- The gs2 header and the rest of the message. Channel binding is not offered. -/
def stripGs2 (msg : Bytes) : Option (Bytes × Bytes) :=
  match msg.dropPrefix? (utf8 "n,,") with
  | some rest => some (utf8 "n,,", rest)
  | none => (msg.dropPrefix? (utf8 "y,,")).map fun rest => (utf8 "y,,", rest)

inductive ScramState
  | initial
  | sentServerFirst (clientFirstBare serverFirst fullNonce gs2Header : Bytes)
  | done
  deriving DecidableEq

structure ScramServer where
  verifier : ScramVerifier
  serverNonce : Bytes
  state : ScramState
  deriving DecidableEq

def serverFirstMessage (v : ScramVerifier) (fullNonce : Bytes) : Bytes :=
  utf8 "r=" ++ fullNonce ++ utf8 ",s=" ++ Base64.encode v.salt ++ utf8 ",i=" ++
    utf8 (toString v.iterations)

def authMessage (clientFirstBare serverFirst withoutProof : Bytes) : Bytes :=
  clientFirstBare ++ [comma] ++ serverFirst ++ [comma] ++ withoutProof

def passwordFailed : PgError := ⟨.fatal, "28P01", "password authentication failed"⟩

def serverFinal (H : Hashes) (v : ScramVerifier)
    (clientFirstBare serverFirst fullNonce gs2Header msg : Bytes) : Except PgError Bytes :=
  if isUtf8 msg = false then .error (.protocol "SCRAM: client-final is not UTF-8")
  else
    match attr msg 99 with                       -- c
    | .error e => .error e
    | .ok channel =>
      if channel ≠ Base64.encode gs2Header then
        .error (.protocol "SCRAM: channel binding data mismatch")
      else
        match attr msg 114 with                  -- r
        | .error e => .error e
        | .ok nonce =>
          if nonce ≠ fullNonce then .error (.protocol "SCRAM: nonce mismatch")
          else
            match attr msg 112 with              -- p
            | .error e => .error e
            | .ok text =>
              match Base64.decode text with
              | none => .error (.protocol "SCRAM: proof is not valid base64")
              | some proof =>
                match rsplitOnce (utf8 ",p=") msg with
                | none => .error (.protocol "SCRAM: missing proof")
                | some (withoutProof, _) =>
                  let auth := authMessage clientFirstBare serverFirst withoutProof
                  let clientSignature := H.hmac v.storedKey auth
                  if proof.length ≠ 32 then .error passwordFailed
                  else if H.sha256 (List.zipWith (· ^^^ ·) proof clientSignature) ≠ v.storedKey then
                    .error passwordFailed
                  else .ok (utf8 "v=" ++ Base64.encode (H.hmac v.serverKey auth))

namespace ScramServer

variable {msg value serverFirst : Bytes} {name : UInt8}

def fromVerifier (verifier : ScramVerifier) (serverNonce : Bytes) : ScramServer :=
  ⟨verifier, serverNonce, .initial⟩

def handleClientFirst (s : ScramServer) (msg : Bytes) : Except PgError Bytes × ScramServer :=
  match s.state with
  | .initial =>
    if isUtf8 msg = false then (.error (.protocol "SCRAM: client-first is not UTF-8"), s)
    else
      match stripGs2 msg with
      | none => (.error (.protocol
          "SCRAM: unsupported gs2 header (channel binding not offered)"), s)
      | some (gs2Header, bare) =>
        match attr bare 114 with                 -- r
        | .error e => (.error e, s)
        | .ok clientNonce =>
          let fullNonce := clientNonce ++ s.serverNonce
          let serverFirst := serverFirstMessage s.verifier fullNonce
          (.ok serverFirst,
            { s with state := .sentServerFirst bare serverFirst fullNonce gs2Header })
  | _ => (.error (.protocol "SCRAM: unexpected client-first message"), s)

def handleClientFinal (H : Hashes) (s : ScramServer) (msg : Bytes) :
    Except PgError Bytes × ScramServer :=
  match s.state with
  | .sentServerFirst bare serverFirst fullNonce gs2Header =>
    (serverFinal H s.verifier bare serverFirst fullNonce gs2Header msg, { s with state := .done })
  | _ => (.error (.protocol "SCRAM: unexpected client-final message"), { s with state := .done })

end ScramServer

/-! ## What an accepted exchange has shown -/

/-- Among the comma-separated parts, the first of that name has the given value. -/
def Carries (msg : Bytes) (name : UInt8) (value : Bytes) : Prop :=
  ∃ before after, msg.splitOn comma = before ++ (name :: 61 :: value) :: after ∧
    ∀ part ∈ before, ¬ [name, 61] <+: part

theorem attrValue_eq_some {part : Bytes} :
    attrValue name part = some value ↔ part = name :: 61 :: value := by
  unfold attrValue
  split
  · rename_i n eq rest
    constructor
    · intro h
      split_ifs at h with hn
      cases h
      rw [hn.1, hn.2]
    · intro h
      cases h
      rw [if_pos ⟨rfl, rfl⟩]
  · rename_i hshort
    constructor
    · intro h
      cases h
    · intro h
      exact absurd h (hshort _ _ _)

theorem attr_ok : attr msg name = .ok value ↔ Carries msg name value := by
  have hfound : attr msg name = .ok value ↔
      (msg.splitOn comma).findSome? (attrValue name) = some value := by
    unfold attr
    cases (msg.splitOn comma).findSome? (attrValue name) <;> simp
  rw [hfound, findSome?_eq_some_iff]
  constructor
  · rintro ⟨before, part, after, hparts, hvalue, hnone⟩
    rw [attrValue_eq_some] at hvalue
    subst hvalue
    refine ⟨before, after, hparts, fun part hpart => ?_⟩
    rintro ⟨rest, rfl⟩
    have hsome : attrValue name ([name, 61] ++ rest) = some rest := attrValue_eq_some.mpr rfl
    rw [hnone _ hpart] at hsome
    cases hsome
  · rintro ⟨before, after, hparts, hfirst⟩
    refine ⟨before, _, after, hparts, attrValue_eq_some.mpr rfl, fun part hpart => ?_⟩
    cases hvalue : attrValue name part with
    | none => rfl
    | some rest =>
      rw [attrValue_eq_some] at hvalue
      exact absurd ⟨rest, hvalue.symm⟩ (hfirst part hpart)

theorem not_mem_of_mem_splitOn {c : UInt8} {l part : Bytes} (h : part ∈ l.splitOn c) :
    c ∉ part := by
  induction l generalizing part with
  | nil =>
    rw [splitOn_nil, mem_singleton] at h
    rw [h]
    exact not_mem_nil
  | cons b l ih =>
    rw [splitOn_cons_eq_if_modifyHead] at h
    split_ifs at h with hb
    · obtain rfl | h := mem_cons.mp h
      · exact not_mem_nil
      · exact ih h
    · cases hs : l.splitOn c with
      | nil => exact absurd hs (splitOn_ne_nil c l)
      | cons =>
        rw [hs] at h ih
        obtain rfl | h := mem_cons.mp h
        · intro hc
          obtain hc | hc := mem_cons.mp hc
          · exact hb (beq_iff_eq.mpr hc.symm)
          · exact ih mem_cons_self hc
        · exact ih (mem_cons_of_mem _ h)

theorem Carries.comma_not_mem (h : Carries msg name value) : comma ∉ value := by
  obtain ⟨before, after, hparts, -⟩ := h
  have hpart : comma ∉ name :: 61 :: value := by
    refine not_mem_of_mem_splitOn (l := msg) ?_
    rw [hparts]
    exact mem_append_right _ mem_cons_self
  intro hin
  exact hpart (mem_cons_of_mem _ (mem_cons_of_mem _ hin))

theorem carries_salt (v : ScramVerifier) {nonce : Bytes} (hnonce : comma ∉ nonce) :
    Carries (serverFirstMessage v nonce) 115 (Base64.encode v.salt) := by
  have hsalt : comma ∉ Base64.encode v.salt :=
    Base64.not_mem_encode (by decide) (by decide) v.salt
  have hmsg : serverFirstMessage v nonce = (114 :: 61 :: nonce) ++ comma ::
      ((115 :: 61 :: Base64.encode v.salt) ++ comma ::
        (105 :: 61 :: utf8 (toString v.iterations))) := by
    unfold serverFirstMessage
    rw [show utf8 "r=" = [114, 61] by decide +kernel,
      show utf8 ",s=" = [comma, 115, 61] by decide +kernel,
      show utf8 ",i=" = [comma, 105, 61] by decide +kernel]
    simp only [append_assoc, cons_append, nil_append]
  refine ⟨[114 :: 61 :: nonce], (105 :: 61 :: utf8 (toString v.iterations)).splitOn comma, ?_, ?_⟩
  · rw [hmsg, splitOn_append_cons_self_of_not_mem, splitOn_append_cons_self_of_not_mem]
    · rfl
    · simp only [mem_cons, not_or]
      exact ⟨by decide, by decide, hsalt⟩
    · simp only [mem_cons, not_or]
      exact ⟨by decide, by decide, hnonce⟩
  · intro part hpart
    rw [mem_singleton.mp hpart]
    rintro ⟨rest, hrest⟩
    cases hrest

theorem dropPrefix_eq_some {l p rest : Bytes} : l.dropPrefix? p = some rest ↔ l = p ++ rest := by
  rw [dropPrefix?_eq_some_iff]
  constructor
  · rintro ⟨p', rfl, hp⟩
    rw [eq_of_beq hp]
  · rintro rfl
    exact ⟨p, rfl, BEq.rfl⟩

theorem stripGs2_some {header bare : Bytes} (h : stripGs2 msg = some (header, bare)) :
    (header = utf8 "n,," ∨ header = utf8 "y,,") ∧ msg = header ++ bare := by
  unfold stripGs2 at h
  split at h
  · rename_i rest hrest
    cases h
    exact ⟨.inl rfl, dropPrefix_eq_some.mp hrest⟩
  · obtain ⟨rest, hrest, heq⟩ := Option.map_eq_some_iff.mp h
    cases heq
    exact ⟨.inr rfl, dropPrefix_eq_some.mp hrest⟩

theorem not_infix_of_rsplitOnce {pat s : Bytes} (h : rsplitOnce pat s = none) : ¬ pat <:+: s := by
  induction s with
  | nil =>
    unfold rsplitOnce at h
    split_ifs at h with hpat
    rwa [infix_nil]
  | cons b s ih =>
    unfold rsplitOnce at h
    split at h
    · cases h
    · rename_i hnone
      rw [Option.map_eq_none_iff] at h
      intro hin
      obtain hin | hin := infix_cons_iff.mp hin
      · obtain ⟨rest, hrest⟩ := hin
        rw [dropPrefix_eq_some.mpr hrest.symm] at h
        cases h
      · exact ih hnone hin

theorem rsplitOnce_some {pat s head tail : Bytes} (hpat : pat ≠ [])
    (h : rsplitOnce pat s = some (head, tail)) : s = head ++ pat ++ tail ∧ ¬ pat <:+: tail := by
  induction s generalizing head with
  | nil =>
    unfold rsplitOnce at h
    rw [if_neg hpat] at h
    cases h
  | cons b s ih =>
    unfold rsplitOnce at h
    split at h
    · rename_i head' tail' hrest
      cases h
      obtain ⟨hs, hlast⟩ := ih hrest
      exact ⟨by rw [hs]; rfl, hlast⟩
    · rename_i hnone
      obtain ⟨rest, hrest, heq⟩ := Option.map_eq_some_iff.mp h
      cases heq
      have hsplit := dropPrefix_eq_some.mp hrest
      refine ⟨hsplit, fun hin => not_infix_of_rsplitOnce hnone (hin.trans ?_)⟩
      obtain ⟨c, pat', rfl⟩ := exists_cons_of_ne_nil hpat
      cases hsplit
      exact ⟨pat', [], by simp⟩

/-- The exchange of a client that knows a key for the verifier: the final message carries the
channel binding for the gs2 header of the first one, both nonces, and a proof over the three
messages. The last message counts up to its last `,p=`. -/
inductive Authentic (H : Hashes) (v : ScramVerifier)
    (serverNonce clientFirst serverFirst clientFinal : Bytes) : Prop
  | intro (gs2Header bare clientNonce text proof withoutProof rest : Bytes)
      (hgs2 : gs2Header = utf8 "n,," ∨ gs2Header = utf8 "y,,")
      (hfirst : clientFirst = gs2Header ++ bare)
      (hnonce : Carries bare 114 clientNonce)
      (hserver : serverFirst = serverFirstMessage v (clientNonce ++ serverNonce))
      (hchannel : Carries clientFinal 99 (Base64.encode gs2Header))
      (hnonces : Carries clientFinal 114 (clientNonce ++ serverNonce))
      (hproof : Carries clientFinal 112 text)
      (hdecode : Base64.decode text = some proof)
      (hlength : proof.length = 32)
      (hfinal : clientFinal = withoutProof ++ utf8 ",p=" ++ rest)
      (hlast : ¬ utf8 ",p=" <:+: rest)
      (hverified : H.sha256 (List.zipWith (· ^^^ ·) proof
        (H.hmac v.storedKey (authMessage bare serverFirst withoutProof))) = v.storedKey)

section Exchange

variable {H : Hashes} {v : ScramVerifier}

theorem serverFinal_ok {bare fullNonce gs2Header reply : Bytes}
    (h : serverFinal H v bare serverFirst fullNonce gs2Header msg = .ok reply) :
    ∃ text proof withoutProof rest, Carries msg 99 (Base64.encode gs2Header) ∧
      Carries msg 114 fullNonce ∧ Carries msg 112 text ∧ Base64.decode text = some proof ∧
      proof.length = 32 ∧ msg = withoutProof ++ utf8 ",p=" ++ rest ∧ ¬ utf8 ",p=" <:+: rest ∧
      H.sha256 (List.zipWith (· ^^^ ·) proof
        (H.hmac v.storedKey (authMessage bare serverFirst withoutProof))) = v.storedKey := by
  unfold serverFinal at h
  split at h
  · cases h
  split at h
  · cases h
  rename_i channel hchannel
  split at h
  · cases h
  rename_i hchan
  split at h
  · cases h
  rename_i nonce hnonce
  split at h
  · cases h
  rename_i hnon
  split at h
  · cases h
  rename_i text htext
  split at h
  · cases h
  rename_i proof hproof
  split at h
  · cases h
  rename_i withoutProof rest hsplit
  dsimp only at h
  split at h
  · cases h
  rename_i hlength
  split at h
  · cases h
  rename_i hverified
  rw [not_not] at hchan hnon hlength hverified
  subst hchan hnon
  obtain ⟨hmsg, hlast⟩ := rsplitOnce_some (by decide) hsplit
  exact ⟨text, proof, withoutProof, rest, attr_ok.mp hchannel, attr_ok.mp hnonce, attr_ok.mp htext,
    hproof, hlength, hmsg, hlast, hverified⟩

theorem handleClientFirst_ok {serverNonce : Bytes} {s : ScramServer}
    (h : (ScramServer.fromVerifier v serverNonce).handleClientFirst msg = (.ok serverFirst, s)) :
    ∃ gs2Header bare clientNonce, (gs2Header = utf8 "n,," ∨ gs2Header = utf8 "y,,") ∧
      msg = gs2Header ++ bare ∧ Carries bare 114 clientNonce ∧
      serverFirst = serverFirstMessage v (clientNonce ++ serverNonce) ∧
      s = ⟨v, serverNonce,
        .sentServerFirst bare serverFirst (clientNonce ++ serverNonce) gs2Header⟩ := by
  unfold ScramServer.handleClientFirst ScramServer.fromVerifier at h
  dsimp only at h
  split at h
  · cases h
  split at h
  · cases h
  rename_i gs2Header bare hgs2
  split at h
  · cases h
  rename_i clientNonce hnonce
  cases h
  obtain ⟨hheader, hmsg⟩ := stripGs2_some hgs2
  exact ⟨gs2Header, bare, clientNonce, hheader, hmsg, attr_ok.mp hnonce, rfl, rfl⟩

theorem authentic_of_ok {serverNonce clientFirst clientFinal reply : Bytes} {s : ScramServer}
    (hfirst : (ScramServer.fromVerifier v serverNonce).handleClientFirst clientFirst = (.ok serverFirst, s))
    (hfinal : (s.handleClientFinal H clientFinal).1 = .ok reply) :
    Authentic H v serverNonce clientFirst serverFirst clientFinal := by
  obtain ⟨gs2Header, bare, clientNonce, hgs2, hmsg, hnonce, hserver, rfl⟩ :=
    handleClientFirst_ok hfirst
  obtain ⟨text, proof, withoutProof, rest, hchannel, hnonces, hproof, hdecode, hlength, hsplit,
    hlast, hverified⟩ := serverFinal_ok hfinal
  exact .intro gs2Header bare clientNonce text proof withoutProof rest hgs2 hmsg hnonce hserver
    hchannel hnonces hproof hdecode hlength hsplit hlast hverified

end Exchange

end Crabgresql.Wire
