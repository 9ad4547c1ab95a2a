import Crabgresql.Lib.BigEndian
import Crabgresql.Lib.Framing

/-!
# Frontend messages

The decoders of the client's byte stream. Before startup a packet is a
self-inclusive length and a body; afterwards a message is a tag, a
self-inclusive length and a body. Both look at the header, wait for the whole
frame, take it off the buffer and only then parse the body, so that what the
stream says does not depend on the pieces in which it arrives.
-/

namespace Crabgresql.Wire

open List

variable {i : ℕ}

abbrev Bytes := List UInt8

inductive Severity
  | error
  | fatal
  deriving DecidableEq

structure PgError where
  severity : Severity
  /-- The SQLSTATE. -/
  code : String
  message : String
  deriving DecidableEq

def PgError.ofCode (code message : String) : PgError := ⟨.error, code, message⟩

/-- Malformed bytes on the wire, always fatal. -/
def PgError.protocol (message : String) : PgError := ⟨.fatal, "08P01", message⟩

/-! ## Characters in messages -/

def charOf (b : UInt8) : Char := Char.ofNat b.toNat

/-- A byte as a character, as `{:?}` prints it. -/
def charDebug (b : UInt8) : String :=
  let escaped : String :=
    match b with
    | 0 => "\\0"
    | 9 => "\\t"
    | 10 => "\\n"
    | 13 => "\\r"
    | 39 => "\\'"
    | 92 => "\\\\"
    | _ =>
      if b < 32 ∨ (127 ≤ b ∧ b ≤ 160) ∨ b = 173 then
        "\\u\x7b" ++ String.ofList (Nat.toDigits 16 b.toNat) ++ "\x7d"
      else (charOf b).toString
  "'" ++ escaped ++ "'"

/-! ## Checked readers -/

abbrev Reader := StateT Bytes (Except PgError)

/-- Two's complement of a big-endian number of `w` bytes. -/
def signed (w n : ℕ) : ℤ := if 2 * n < 256 ^ w then n else n - (256 ^ w : ℕ)

def getI32 : Reader ℤ := fun buf =>
  if buf.length < 4 then .error (.protocol "message truncated reading i32")
  else .ok (signed 4 (BigEndian.value (buf.take 4)), buf.drop 4)

def getI16 : Reader ℤ := fun buf =>
  if buf.length < 2 then .error (.protocol "message truncated reading i16")
  else .ok (signed 2 (BigEndian.value (buf.take 2)), buf.drop 2)

def getU8 : Reader UInt8 := fun buf =>
  match buf with
  | [] => .error (.protocol "message truncated reading byte")
  | b :: buf => .ok (b, buf)

def getBytes (n : ℕ) : Reader Bytes := fun buf =>
  if buf.length < n then .error (.protocol "message truncated reading bytes")
  else .ok (buf.take n, buf.drop n)

/-- A string up to the first NUL, which is dropped. -/
def getCstr : Reader String := fun buf =>
  if 0 ∈ buf then
    let raw := buf.takeWhile (· != 0)
    match String.fromUTF8? ⟨raw.toArray⟩ with
    | some s => .ok (s, buf.drop (raw.length + 1))
    | none => .error (.protocol "string is not valid UTF-8")
  else .error (.protocol "unterminated string")

def getCount : Reader ℕ := do
  let n ← getI16
  if n < 0 then throw (.protocol "negative count in message") else pure n.toNat

def times {α : Type} (read : Reader α) : ℕ → Reader (List α)
  | 0 => pure []
  | n + 1 => do
    let a ← read
    let rest ← times read n
    pure (a :: rest)

def decodeI16Vec : Reader (List ℤ) := do
  let n ← getCount
  times getI16 n

/-! ## Startup packets -/

def protocol30 : ℤ := 0x00030000

def sslRequestCode : ℤ := 80877103

def cancelRequestCode : ℤ := 80877102

def gssencRequestCode : ℤ := 80877104

def maxStartupPacketLen : ℤ := 10000

inductive StartupPacket
  | startup (params : List (String × String))
  | sslRequest
  | gssEncRequest
  | cancelRequest (processId secretKey : ℤ)
  deriving DecidableEq

/-- Pairs of strings up to an empty key; each takes at least one byte, so `fuel` bytes are enough. -/
def getParams : ℕ → Reader (List (String × String))
  | 0 => throw (.protocol "unterminated string")
  | fuel + 1 => do
    let key ← getCstr
    if key.isEmpty then pure []
    else
      let value ← getCstr
      let rest ← getParams fuel
      pure ((key, value) :: rest)

/-- The body of a startup packet, after the length. -/
def startupBody : Reader StartupPacket := do
  let code ← getI32
  if code = sslRequestCode then pure .sslRequest
  else if code = gssencRequestCode then pure .gssEncRequest
  else if code = cancelRequestCode then
    let processId ← getI32
    let secretKey ← getI32
    pure (.cancelRequest processId secretKey)
  else if code = protocol30 then
    let body ← get
    let params ← getParams (body.length + 1)
    pure (.startup params)
  else
    let other := (code % 2 ^ 32).toNat
    let major := other / 2 ^ 16
    let minor := other % 2 ^ 16
    throw (.protocol s!"unsupported frontend protocol {major}.{minor}; server supports 3.0")

def lengthAt (buf : Bytes) (i : ℕ) : ℤ := signed 4 (BigEndian.value ((buf.drop i).take 4))

def decodeStartup (buf : Bytes) : Except PgError (Option StartupPacket) × Bytes :=
  if buf.length < 4 then (.ok none, buf)
  else
    let len := lengthAt buf 0
    if len < 8 ∨ maxStartupPacketLen < len then
      (.error (.protocol s!"invalid startup packet length: {len}"), buf)
    else if buf.length < len.toNat then (.ok none, buf)
    else
      let body := (buf.take len.toNat).drop 4
      ((startupBody.run' body).map some, buf.drop len.toNat)

/-! ## Messages -/

def maxMessageLen : ℤ := 64 * 1024 * 1024

inductive FrontendMessage
  | query (sql : String)
  | password (body : Bytes)
  | parse (name sql : String) (paramTypes : List ℤ)
  | bind (portal statement : String) (paramFormats : List ℤ) (params : List (Option Bytes))
      (resultFormats : List ℤ)
  | describe (kind : UInt8) (name : String)
  | execute (portal : String) (maxRows : ℤ)
  | close (kind : UInt8) (name : String)
  | sync
  | flush
  | terminate
  deriving DecidableEq

def getParam : Reader (Option Bytes) := do
  let len ← getI32
  if len < 0 then pure none
  else
    let value ← getBytes len.toNat
    pure (some value)

def messageFields (tag : UInt8) : Reader FrontendMessage :=
  if tag = 81 then do                      -- Q
    let sql ← getCstr
    pure (.query sql)
  else if tag = 88 then pure .terminate    -- X
  else if tag = 83 then pure .sync         -- S
  else if tag = 72 then pure .flush        -- H
  else if tag = 112 then do                -- p
    let payload ← get
    set ([] : Bytes)
    pure (.password payload)
  else if tag = 80 then do                 -- P
    let name ← getCstr
    let sql ← getCstr
    let n ← getCount
    let paramTypes ← times getI32 n
    pure (.parse name sql (paramTypes.map (· % 2 ^ 32)))
  else if tag = 66 then do                 -- B
    let portal ← getCstr
    let statement ← getCstr
    let paramFormats ← decodeI16Vec
    let n ← getCount
    let params ← times getParam n
    let resultFormats ← decodeI16Vec
    pure (.bind portal statement paramFormats params resultFormats)
  else if tag = 68 then do                 -- D
    let kind ← getU8
    let name ← getCstr
    pure (.describe kind name)
  else if tag = 69 then do                 -- E
    let portal ← getCstr
    let maxRows ← getI32
    pure (.execute portal maxRows)
  else if tag = 67 then do                 -- C
    let kind ← getU8
    let name ← getCstr
    pure (.close kind name)
  else
    let shown := charDebug tag
    throw (.protocol s!"unknown frontend message tag {shown}")

def messageBody (tag : UInt8) (body : Bytes) : Except PgError FrontendMessage :=
  match (messageFields tag).run body with
  | .error e => .error e
  | .ok (msg, rest) =>
    if rest.isEmpty then .ok msg
    else
      let n := rest.length
      let shown := (charOf tag).toString
      .error (.protocol s!"invalid message format: {n} trailing bytes after '{shown}' message")

def decodeMessage (buf : Bytes) : Except PgError (Option FrontendMessage) × Bytes :=
  match buf with
  | tag :: _ =>
    if buf.length < 5 then (.ok none, buf)
    else
      let len := lengthAt buf 1
      if len < 4 ∨ maxMessageLen < len then
        let shown := (charOf tag).toString
        (.error (.protocol s!"invalid message length {len} for tag {shown}"), buf)
      else
        let total := 1 + len.toNat
        if buf.length < total then (.ok none, buf)
        else
          let body := (buf.take total).drop 5
          ((messageBody tag body).map some, buf.drop total)
  | [] => (.ok none, buf)

/-! ## Frames -/

theorem lengthAt_append {buf c : Bytes} (h : i + 4 ≤ buf.length) :
    lengthAt (buf ++ c) i = lengthAt buf i := by
  have hdrop : (buf ++ c).drop i = buf.drop i ++ c := by
    rw [drop_append, Nat.sub_eq_zero_of_le (by omega), drop_zero]
  have htake : (buf.drop i ++ c).take 4 = (buf.drop i).take 4 := by
    rw [List.take_append, Nat.sub_eq_zero_of_le (by rw [length_drop]; omega), take_zero,
      append_nil]
  rw [lengthAt, hdrop, htake, lengthAt]

/-- The header of a frame whose length field stands at `i` and must be from `lo` to `hi`. -/
def lengthHeader (i : ℕ) (lo hi : ℤ) (err : Bytes → ℤ → PgError) : Framing.Header UInt8 PgError :=
  fun buf =>
    if buf.length < i + 4 then .ok none
    else if lengthAt buf i < lo ∨ hi < lengthAt buf i then .error (err buf (lengthAt buf i))
    else .ok (some (i + (lengthAt buf i).toNat))

theorem announces_lengthHeader {lo hi : ℤ} {err : Bytes → ℤ → PgError} (hlo : 0 < lo)
    (herr : ∀ b c len, i + 4 ≤ b.length → err (b ++ c) len = err b len) :
    Framing.Announces (lengthHeader i lo hi err) where
  fails {b c e} h := by
    unfold lengthHeader at h ⊢
    split_ifs at h with hshort hbad
    have hb : i + 4 ≤ b.length := Nat.not_lt.mp hshort
    rw [if_neg (by rw [length_append]; omega), lengthAt_append hb, if_pos hbad,
      herr b c _ hb]
    exact h
  keeps {b c n} h := by
    unfold lengthHeader at h ⊢
    split_ifs at h with hshort hbad
    · cases h
    · rw [if_neg (by rw [length_append]; omega), lengthAt_append (Nat.not_lt.mp hshort),
        if_neg hbad]
      exact h
  pos {b n} h := by
    unfold lengthHeader at h
    split_ifs at h with hshort hbad
    · cases h
    · cases h
      omega

def startupError (_ : Bytes) (len : ℤ) : PgError :=
  .protocol s!"invalid startup packet length: {len}"

def messageError (buf : Bytes) (len : ℤ) : PgError :=
  let shown := (charOf (buf.headD 0)).toString
  .protocol s!"invalid message length {len} for tag {shown}"

theorem decodeStartup_eq : decodeStartup =
    Framing.byHeader (lengthHeader 0 8 maxStartupPacketLen startupError)
      fun frame => startupBody.run' (frame.drop 4) := by
  funext buf
  by_cases hshort : buf.length < 4
  · simp only [decodeStartup, Framing.byHeader, lengthHeader, Nat.zero_add, if_pos hshort]
  · by_cases hbad : lengthAt buf 0 < 8 ∨ maxStartupPacketLen < lengthAt buf 0
    · simp only [decodeStartup, Framing.byHeader, lengthHeader, Nat.zero_add, if_neg hshort,
        if_pos hbad]
      rfl
    · simp only [decodeStartup, Framing.byHeader, lengthHeader, Nat.zero_add, if_neg hshort,
        if_neg hbad]

theorem decodeMessage_eq : decodeMessage =
    Framing.byHeader (lengthHeader 1 4 maxMessageLen messageError)
      fun frame => messageBody (frame.headD 0) (frame.drop 5) := by
  funext buf
  cases buf with
  | nil => rfl
  | cons tag rest =>
    by_cases hshort : (tag :: rest).length < 5
    · simp only [decodeMessage, Framing.byHeader, lengthHeader, if_pos hshort]
    · by_cases hbad : lengthAt (tag :: rest) 1 < 4 ∨ maxMessageLen < lengthAt (tag :: rest) 1
      · simp only [decodeMessage, Framing.byHeader, lengthHeader, if_neg hshort, if_pos hbad]
        rfl
      · have hhead : ((tag :: rest).take (1 + (lengthAt (tag :: rest) 1).toNat)).headD 0 = tag := by
          rw [Nat.add_comm, take_succ_cons]
          rfl
        simp only [decodeMessage, Framing.byHeader, lengthHeader, if_neg hshort, if_neg hbad, hhead]

theorem framed_decodeStartup : Framing.Framed decodeStartup := by
  rw [decodeStartup_eq]
  exact Framing.framed_byHeader (announces_lengthHeader (by decide) fun _ _ _ _ => rfl)

theorem framed_decodeMessage : Framing.Framed decodeMessage := by
  rw [decodeMessage_eq]
  refine Framing.framed_byHeader (announces_lengthHeader (by decide) fun b c len hb => ?_)
  cases b with
  | nil => cases hb
  | cons => rfl

theorem consumed_of_byHeader {μ : Type} {lo hi : ℤ} {err : Bytes → ℤ → PgError}
    {body : Bytes → Except PgError μ} {buf rest : Bytes} {m : μ}
    (h : Framing.byHeader (lengthHeader i lo hi err) body buf = (.ok (some m), rest)) :
    i + 4 ≤ buf.length ∧ ∃ frame, buf = frame ++ rest ∧
      frame.length = i + (lengthAt buf i).toNat := by
  obtain ⟨n, hheader, hn, -, rfl⟩ := Framing.byHeader_some h
  unfold lengthHeader at hheader
  split_ifs at hheader with hshort hbad
  · cases hheader
  · cases hheader
    refine ⟨Nat.not_lt.mp hshort, _, (take_append_drop _ buf).symm, ?_⟩
    rw [length_take, Nat.min_eq_left hn]

/-- The stream decides the messages, not its pieces: for every way of cutting a byte string into
appends both decoders give the messages and the final error of the whole string; a call that finds
no whole message leaves the buffer; and a call that finds one takes off the frame its header
announced. -/
theorem framing_independent_of_chunks : (∀ chunks : List Bytes,
      Framing.feed decodeMessage [] chunks = Framing.decodeAll decodeMessage chunks.flatten ∧
      Framing.feed decodeStartup [] chunks = Framing.decodeAll decodeStartup chunks.flatten) ∧
      (∀ buf rest, decodeMessage buf = (.ok none, rest) → rest = buf) ∧
      (∀ buf rest, decodeStartup buf = (.ok none, rest) → rest = buf) ∧
      (∀ buf rest m, decodeMessage buf = (.ok (some m), rest) → 5 ≤ buf.length ∧
        ∃ frame, buf = frame ++ rest ∧ frame.length = 1 + (lengthAt buf 1).toNat) ∧
      ∀ buf rest p, decodeStartup buf = (.ok (some p), rest) → 4 ≤ buf.length ∧
        ∃ frame, buf = frame ++ rest ∧ frame.length = (lengthAt buf 0).toNat := by
  refine ⟨fun chunks => ⟨framed_decodeMessage.feed_eq [] chunks,
    framed_decodeStartup.feed_eq [] chunks⟩, fun buf rest => framed_decodeMessage.waits,
    fun buf rest => framed_decodeStartup.waits, fun buf rest m h => ?_, fun buf rest p h => ?_⟩
  · rw [decodeMessage_eq] at h
    exact consumed_of_byHeader h
  · rw [decodeStartup_eq] at h
    have hconsumed := consumed_of_byHeader h
    rwa [Nat.zero_add, Nat.zero_add] at hconsumed

end Crabgresql.Wire
