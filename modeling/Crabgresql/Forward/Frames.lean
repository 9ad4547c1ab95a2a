import Crabgresql.Lib.Reading
import Crabgresql.Wire.Backend

/-!
# Reading a leader's response

The gateway cuts the leader's bytes into frames and folds the frames of one
response into a query result. Every message the backend encodes is one frame,
whatever follows it, and a message whose texts hold no NUL and whose count is not
negative is read back.
-/

namespace Crabgresql.Forward

open Wire List BigEndian Reading BackendMessage Framing
open Replica (utf8)
open Reading (Reads)

/-- Why a frame cannot be used: it is malformed, or its negative count is too large a capacity,
which panics. -/
inductive Broken
  | malformed
  | panics
  deriving DecidableEq

abbrev Reader := StateT Bytes (Except Broken)

def nextBackendFrame (buf : Bytes) : Except PgError (Option (UInt8 × Bytes)) × Bytes :=
  if buf.length < 5 then (.ok none, buf)
  else
    let tag := buf.headD 0
    let len := lengthAt buf 1
    if len < 4 then (.error (.protocol "backend frame length < 4"), buf)
    else
      let total := 1 + len.toNat
      if buf.length < total then (.ok none, buf)
      else (.ok (some (tag, (buf.take total).drop 5)), buf.drop total)

/-! ## The bodies -/

def readI16 : Reader ℤ := fun b =>
  if b.length < 2 then .error .malformed
  else .ok (signed 2 (value (b.take 2)), b.drop 2)

def readI32 : Reader ℤ := fun b =>
  if b.length < 4 then .error .malformed
  else .ok (signed 4 (value (b.take 4)), b.drop 4)

def readCstr : Reader String := fun b =>
  if 0 ∈ b then
    let raw := b.takeWhile (· != 0)
    match String.fromUTF8? ⟨raw.toArray⟩ with
    | some s => .ok (s, b.drop (raw.length + 1))
    | none => .error .malformed
  else .error .malformed

def readCount : Reader ℕ := do
  let count ← readI16
  if count < 0 then throw .panics else pure count.toNat

def readU32 : Reader ℕ := do
  let v ← readI32
  pure (v % 2 ^ 32).toNat

def readField : Reader FieldDescription := do
  let name ← readCstr
  let tableOid ← readU32
  let columnId ← readI16
  let typeOid ← readU32
  let typeSize ← readI16
  let typeModifier ← readI32
  let format ← readI16
  pure ⟨name, tableOid, columnId, typeOid, typeSize, typeModifier, format⟩

def parseRowDescription (body : Bytes) : Except Broken (List FieldDescription) :=
  Prod.fst <$> (readCount >>= times readField).run body

def readBytes (n : ℕ) : Reader Bytes := fun b =>
  if b.length < n then .error .malformed else .ok (b.take n, b.drop n)

/-- Responses of the simple protocol are text; the binary half is set to the same bytes. -/
def readCell : Reader (Option Cell) := do
  let len ← readI32
  if len < 0 then pure none
  else
    let bytes ← readBytes len.toNat
    pure (some ⟨bytes, bytes⟩)

def parseDataRow (body : Bytes) : Except Broken (List (Option Cell)) :=
  Prod.fst <$> (readCount >>= times readCell).run body

/-- A code or a message that is found again replaces the one before. -/
def errorFields (found : String × String) : ℕ → Bytes → Except Broken (String × String)
  | 0, _ | _ + 1, [] => .ok found
  | n + 1, field :: b =>
    if field = 0 then .ok found
    else
      match readCstr b with
      | .error e => .error e
      | .ok (value, b) =>
        let found :=
          if field = 67 then (value, found.2) else if field = 77 then (found.1, value) else found
        errorFields found n b

/-- Every field takes at least its type byte, so the length bounds the rounds. -/
def parseError (body : Bytes) : Except Broken (String × String) :=
  errorFields ("", "") body.length body

def parseCstr (body : Bytes) : Except Broken String := Prod.fst <$> readCstr.run body

/-! ## The response -/

/-- The locals of `send_query`. -/
structure Response where
  fields : List FieldDescription
  rows : List (List (Option Cell))
  tag : String
  sqlErr : Option (String × String)
  deriving DecidableEq

namespace Response

def empty : Response := ⟨[], [], "", none⟩

def add (acc : Response) (frame : UInt8 × Bytes) : Except Broken Response :=
  match frame.1 with
  | 84 => (fun fields => { acc with fields := fields }) <$> parseRowDescription frame.2
  | 68 => (fun row => { acc with rows := acc.rows ++ [row] }) <$> parseDataRow frame.2
  | 67 => (fun tag => { acc with tag := tag }) <$> parseCstr frame.2
  | 69 => (fun e => { acc with sqlErr := some e }) <$> parseError frame.2
  | _ => .ok acc

def result (acc : Response) : Except (String × String) QueryResult :=
  match acc.sqlErr with
  | some e => .error e
  | none =>
    if acc.fields = [] then .ok (.command acc.tag)
    else .ok (.rows acc.fields acc.rows acc.tag)

end Response

def frameOf (m : BackendMessage) : UInt8 × Bytes := (m.tag, m.body)

def collect (acc : Response) (messages : List BackendMessage) : Except Broken Response :=
  messages.foldlM (fun acc m => acc.add (frameOf m)) acc

/-! ## Frames -/

variable {n : ℕ} {s : String}

theorem signed_of_lt {w : ℕ} (h : 2 * n < 256 ^ w) : signed w n = n := by
  rw [signed, if_pos h]

theorem lengthAt_lt (buf : Bytes) (i : ℕ) : lengthAt buf i ≤ 2 ^ 31 - 1 := by
  have hvalue := value_lt ((buf.drop i).take 4)
  have hlen : ((buf.drop i).take 4).length ≤ 4 := length_take_le ..
  have hpow : 256 ^ ((buf.drop i).take 4).length ≤ 256 ^ 4 := Nat.pow_le_pow_right (by decide) hlen
  rw [lengthAt, signed]
  split_ifs <;> omega

theorem nextBackendFrame_eq : nextBackendFrame = byHeader
      (lengthHeader 1 4 (2 ^ 31 - 1) fun _ _ => .protocol "backend frame length < 4")
      fun frame => .ok (frame.headD 0, frame.drop 5) := by
  funext buf
  by_cases hshort : buf.length < 5
  · simp only [nextBackendFrame, byHeader, lengthHeader, if_pos hshort]
  · have hhi : ¬(2 ^ 31 - 1 < lengthAt buf 1) := Int.not_lt.mpr (lengthAt_lt buf 1)
    by_cases hbad : lengthAt buf 1 < 4
    · simp only [nextBackendFrame, byHeader, lengthHeader, if_neg hshort, if_pos hbad,
        if_pos (.inl hbad : lengthAt buf 1 < 4 ∨ 2 ^ 31 - 1 < lengthAt buf 1)]
    · have hhead : (buf.take (1 + (lengthAt buf 1).toNat)).headD 0 = buf.headD 0 := by
        rw [Nat.add_comm]
        cases buf <;> rfl
      simp only [nextBackendFrame, byHeader, lengthHeader, if_neg hshort, if_neg hbad,
        if_neg (not_or.mpr ⟨hbad, hhi⟩ : ¬(lengthAt buf 1 < 4 ∨ 2 ^ 31 - 1 < lengthAt buf 1)),
        hhead]
      rfl

theorem framed_nextBackendFrame : Framing.Framed nextBackendFrame := by
  rw [nextBackendFrame_eq]
  exact framed_byHeader (announces_lengthHeader (by decide) fun _ _ _ _ => rfl)

theorem length_putI32 (x : ℤ) : (putI32 x).length = 4 := length_bytes ..

theorem value_putI32 (h : n < 2 ^ 32) : value (putI32 n) = n := by
  have hmod : ((n : ℤ) % 2 ^ 32).toNat = n := by omega
  rw [putI32, hmod, value_bytes_of_lt (by simpa using h)]

theorem nextBackendFrame_encode {m : BackendMessage} (h : m.Fits) (rest : Bytes) :
    nextBackendFrame (m.encode ++ rest) = (.ok (some (frameOf m)), rest) := by
  have hfits : m.body.length + 4 < 2 ^ 31 := h
  have hlen : lengthAt (m.encode ++ rest) 1 = m.body.length + 4 := by
    have htake : ((m.encode ++ rest).drop 1).take 4 = putI32 (m.body.length + 4) := by
      rw [encode, cons_append, cons_append, drop_one, tail_cons,
        append_assoc, take_append_of_le_length (by rw [length_putI32]),
        take_of_length_le (by rw [length_putI32])]
    have hvalue : value (putI32 (m.body.length + 4)) = m.body.length + 4 :=
      value_putI32 (n := m.body.length + 4) (by omega)
    rw [lengthAt, htake, hvalue, signed_of_lt (by omega)]
    rfl
  have htotal : m.encode.length = 1 + (m.body.length + 4) := by
    rw [encode, cons_append, length_cons, length_append,
      length_putI32]
    omega
  have hnat : ((m.body.length : ℤ) + 4).toNat = m.body.length + 4 := by omega
  have hbody : m.encode.drop 5 = m.body := by
    rw [encode, cons_append, drop_succ_cons,
      drop_left' (length_putI32 _)]
  rw [nextBackendFrame, if_neg (by rw [length_append]; omega)]
  simp only [hlen, hnat]
  rw [if_neg (by omega), if_neg (by rw [length_append]; omega), ← htotal, take_left,
    drop_left, hbody]
  rfl

/-! ## Reading back the bodies -/

theorem reads_readBytes (bs : Bytes) : Reads (readBytes bs.length) bs bs := by
  intro rest
  rw [readBytes, if_neg (by simp), take_left, drop_left]

theorem reads_readI16 (x : ℤ) : Reads readI16 (putI16 x) (signed 2 (x % 2 ^ 16).toNat) := by
  intro rest
  have hlen : (putI16 x).length = 2 := length_bytes ..
  have hlt : (x % 2 ^ 16).toNat < 256 ^ 2 := by omega
  rw [readI16, if_neg (by rw [length_append]; omega), take_left' hlen,
    drop_left' hlen, putI16, value_bytes_of_lt hlt]

theorem reads_readI32 (x : ℤ) : Reads readI32 (putI32 x) (signed 4 (x % 2 ^ 32).toNat) := by
  intro rest
  have hlen := length_putI32 x
  have hlt : (x % 2 ^ 32).toNat < 256 ^ 4 := by omega
  rw [readI32, if_neg (by rw [length_append]; omega), take_left' hlen,
    drop_left' hlen, putI32, value_bytes_of_lt hlt]

def NoNul (s : String) : Prop := 0 ∉ utf8 s

theorem takeWhile_putCstr (h : NoNul s) (rest : Bytes) :
    (putCstr s ++ rest).takeWhile (· != 0) = utf8 s := by
  rw [putCstr, append_assoc, takeWhile_append_of_pos]
  · exact append_nil _
  · intro b hb
    have hne : b ≠ 0 := fun e => h (e ▸ hb)
    simpa using hne

theorem reads_readCstr (h : NoNul s) : Reads readCstr (putCstr s) s := by
  intro rest
  have hmem : (0 : UInt8) ∈ putCstr s ++ rest := by simp [putCstr]
  have hlen : (putCstr s).length = (utf8 s).length + 1 := by simp [putCstr]
  simp only [readCstr, if_pos hmem, takeWhile_putCstr h, Replica.fromUTF8_utf8,
    drop_left' hlen]

theorem reads_readCount (h : n < 2 ^ 15) : Reads readCount (putI16 n) n := by
  have hmod : ((n : ℤ) % 2 ^ 16).toNat = n := by omega
  refine (reads_readI16 n).bind_pure ?_
  rw [hmod, signed_of_lt (by omega), if_neg (by omega)]
  exact reads_pure n

theorem reads_readU32 (x : ℤ) : Reads readU32 (putI32 x) (x % 2 ^ 32).toNat := by
  refine (reads_readI32 x).bind_pure ?_
  have hwrap : (signed 4 (x % 2 ^ 32).toNat % 2 ^ 32).toNat = (x % 2 ^ 32).toNat := by
    rw [signed]
    split_ifs <;> omega
  rw [hwrap]
  exact reads_pure _

def relayedField (f : FieldDescription) : FieldDescription where
  name := f.name
  tableOid := ((f.tableOid : ℤ) % 2 ^ 32).toNat
  columnId := signed 2 (f.columnId % 2 ^ 16).toNat
  typeOid := ((f.typeOid : ℤ) % 2 ^ 32).toNat
  typeSize := signed 2 (f.typeSize % 2 ^ 16).toNat
  typeModifier := signed 4 (f.typeModifier % 2 ^ 32).toNat
  format := signed 2 (f.format % 2 ^ 16).toNat

theorem reads_readField {f : FieldDescription} (h : NoNul f.name) :
    Reads readField (putField f) (relayedField f) :=
  (reads_readCstr h).bind ((reads_readU32 _).bind ((reads_readI16 _).bind ((reads_readU32 _).bind
    ((reads_readI16 _).bind ((reads_readI32 _).bind ((reads_readI16 _).bind_pure
      (reads_pure _)))))))

def relayedCell (v : Option Bytes) : Option Cell := v.map fun b => ⟨b, b⟩

theorem reads_readCell {v : Option Bytes} (h : ∀ b, v = some b → b.length < 2 ^ 31) :
    Reads readCell (putValue v) (relayedCell v) := by
  cases v with
  | none =>
    refine (reads_readI32 (-1)).bind_pure ?_
    rw [if_pos (by decide)]
    exact reads_pure _
  | some b =>
    have hb := h b rfl
    have hlen : signed 4 ((b.length : ℤ) % 2 ^ 32).toNat = b.length := by
      rw [signed_of_lt (by omega)]
      omega
    refine (reads_readI32 b.length).bind ?_
    rw [hlen, if_neg (by omega), Int.toNat_natCast]
    exact (reads_readBytes b).bind_pure (reads_pure _)

theorem fst_run_of_reads {α : Type} {r : Reader α} {bs : Bytes} {a : α} (h : Reads r bs a) :
    Prod.fst <$> r.run bs = .ok a := by
  have hread := h []
  rw [append_nil] at hread
  change Prod.fst <$> r bs = _
  rw [hread]
  rfl

theorem parseRowDescription_body {fields : List FieldDescription} (hcount : fields.length < 2 ^ 15)
    (hnames : ∀ f ∈ fields, NoNul f.name) : parseRowDescription (rowDescription fields).body =
      .ok (fields.map relayedField) :=
  fst_run_of_reads ((reads_readCount hcount).bind
    (reads_times fun f hf => reads_readField (hnames f hf)))

theorem parseDataRow_body {values : List (Option Bytes)} (hcount : values.length < 2 ^ 15)
    (hvalues : ∀ b, some b ∈ values → b.length < 2 ^ 31) :
    parseDataRow (dataRow values).body = .ok (values.map relayedCell) :=
  fst_run_of_reads ((reads_readCount hcount).bind
    (reads_times fun _ hv => reads_readCell fun b hb => hvalues b (hb ▸ hv)))

theorem errorFields_cons {field : UInt8} (hfield : field ≠ 0) (hs : NoNul s)
    (found : String × String) (n : ℕ) (rest : Bytes) :
    errorFields found (n + 1) (field :: putCstr s ++ rest) =
      errorFields
        (if field = 67 then (s, found.2) else if field = 77 then (found.1, s) else found) n
        rest := by
  rw [cons_append, errorFields, if_neg hfield]
  have hread : readCstr (putCstr s ++ rest) = .ok (s, rest) := reads_readCstr hs rest
  simp only [hread]

theorem noNul_asStr (s : Severity) : NoNul s.asStr := by
  rw [NoNul]
  cases s <;> decide

theorem parseError_body {e : PgError} (hcode : NoNul e.code) (hmessage : NoNul e.message) :
    parseError (errorResponse e).body = .ok (e.code, e.message) := by
  have hlen : 5 ≤ (errorResponse e).body.length := by
    simp only [body, putCstr, length_append, length_cons, length_nil]
    omega
  obtain ⟨n, hn⟩ := Nat.exists_eq_add_of_le' hlen
  rw [parseError, hn, body, errorFields_cons (by decide) (noNul_asStr _),
    errorFields_cons (by decide) (noNul_asStr _), errorFields_cons (by decide) hcode,
    errorFields_cons (by decide) hmessage]
  rfl

/-- The texts of the message hold no NUL and its count is not negative on the wire. -/
def Readable : BackendMessage → Prop
  | .rowDescription fields => fields.length < 2 ^ 15 ∧ ∀ f ∈ fields, NoNul f.name
  | .dataRow values => values.length < 2 ^ 15
  | .commandComplete tag => NoNul tag
  | .errorResponse e => NoNul e.code ∧ NoNul e.message
  | .parameterDescription _ | .emptyQueryResponse | .parseComplete | .bindComplete | .closeComplete
  | .noData | .readyForQuery _ => True

def Response.seen (acc : Response) : BackendMessage → Response
  | .rowDescription fields => { acc with fields := fields.map relayedField }
  | .dataRow values => { acc with rows := acc.rows ++ [values.map relayedCell] }
  | .commandComplete tag => { acc with tag := tag }
  | .errorResponse e => { acc with sqlErr := some (e.code, e.message) }
  | .parameterDescription _ | .emptyQueryResponse | .parseComplete | .bindComplete | .closeComplete
  | .noData | .readyForQuery _ => acc

theorem length_le_of_mem_values {values : List (Option Bytes)} {b : Bytes} (h : some b ∈ values) :
    b.length ≤ (dataRow values).body.length := by
  obtain ⟨before, after, rfl⟩ := append_of_mem h
  simp only [body, flatMap_append, flatMap_cons, putValue,
    length_append]
  omega

theorem add_frameOf {m : BackendMessage} (hfits : m.Fits) (h : Readable m) (acc : Response) :
    acc.add (frameOf m) = .ok (acc.seen m) := by
  cases m with
  | rowDescription =>
    simp only [Response.add, frameOf, tag, parseRowDescription_body h.1 h.2]
    rfl
  | dataRow values =>
    have hvalues : ∀ b, some b ∈ values → b.length < 2 ^ 31 := by
      intro b hb
      have hle := length_le_of_mem_values hb
      have hlt : (dataRow values).body.length + 4 < 2 ^ 31 := hfits
      omega
    simp only [Response.add, frameOf, tag, parseDataRow_body h hvalues]
    rfl
  | commandComplete tag =>
    have hparse : parseCstr (commandComplete tag).body = .ok tag :=
      fst_run_of_reads (reads_readCstr h)
    simp only [Response.add, frameOf, BackendMessage.tag, hparse]
    rfl
  | errorResponse =>
    simp only [Response.add, frameOf, tag, parseError_body h.1 h.2]
    rfl
  | parameterDescription | emptyQueryResponse | parseComplete | bindComplete | closeComplete
  | noData | readyForQuery => rfl

theorem collect_readable {messages : List BackendMessage} (hfits : ∀ m ∈ messages, m.Fits)
    (h : ∀ m ∈ messages, Readable m) (acc : Response) :
    collect acc messages = .ok (messages.foldl Response.seen acc) := by
  induction messages generalizing acc with
  | nil => rfl
  | cons m messages ih =>
    rw [collect, foldlM_cons,
      add_frameOf (hfits m mem_cons_self) (h m mem_cons_self)]
    exact ih (fun a ha => hfits a (mem_cons_of_mem _ ha))
      (fun a ha => h a (mem_cons_of_mem _ ha)) _

/-! ## A result from leader to gateway -/

theorem decodeAll_encode {messages : List BackendMessage} (h : ∀ m ∈ messages, m.Fits) :
    decodeAll nextBackendFrame (messages.flatMap encode) = (messages.map frameOf, .ok []) := by
  induction messages with
  | nil => rfl
  | cons m messages ih =>
    rw [flatMap_cons, framed_nextBackendFrame.decodeAll_some
      (nextBackendFrame_encode (h m mem_cons_self) _), ih fun a ha => h a (mem_cons_of_mem _ ha)]
    rfl

/-- The gateway has the text of a cell in both formats. -/
def relayedRow (row : List (Option Cell)) : List (Option Cell) :=
  row.map fun c => relayedCell (c.map Cell.text)

/-- A result of the leader as the gateway returns it. -/
def relayed : QueryResult → QueryResult
  | .rows [] _ tag | .command tag => .command tag
  | .rows fields rows tag => .rows (fields.map relayedField) (rows.map relayedRow) tag
  | .empty => .command ""

theorem foldl_seen_rows (rows : List (List (Option Cell))) (acc : Response) :
    (rows.map fun row => dataRow (row.map fun c => c.map Cell.text)).foldl Response.seen acc =
      { acc with rows := acc.rows ++ rows.map relayedRow } := by
  induction rows generalizing acc with
  | nil => simp
  | cons row rows ih =>
    rw [map_cons, foldl_cons, ih]
    simp [Response.seen, relayedRow]

/-- In whatever pieces the leader's response arrives, the gateway returns the result that the leader
has sent. -/
theorem result_relayed (r : QueryResult) (status : TxStatus) (pieces : List Bytes)
    (hsent : pieces.flatten = (writeResults [r] ++ [readyForQuery status]).flatMap encode)
    (h : ∀ m ∈ writeResults [r] ++ [readyForQuery status], m.Fits ∧ Readable m) :
    ∃ frames, feed nextBackendFrame [] pieces = (frames, .ok []) ∧
      (frames.foldlM Response.add .empty).map Response.result = .ok (.ok (relayed r)) := by
  refine ⟨(writeResults [r] ++ [readyForQuery status]).map frameOf, ?_, ?_⟩
  · rw [framed_nextBackendFrame.feed_eq, nil_append, hsent]
    exact decodeAll_encode fun m hm => (h m hm).1
  · rw [foldlM_map, ← collect, collect_readable (fun m hm => (h m hm).1) fun m hm => (h m hm).2]
    cases r with
    | rows fields rows tag =>
      cases fields <;> simp [writeResults, foldl_seen_rows, Response.seen] <;> rfl
    | command | empty => rfl

theorem result_relayed_command : ∃ frames,
    feed nextBackendFrame [] [encode (.commandComplete "BEGIN"), encode (.readyForQuery .idle)] =
        (frames, .ok []) ∧
      (frames.foldlM Response.add .empty).map Response.result = .ok (.ok (.command "BEGIN")) := by
  refine result_relayed (.command "BEGIN") .idle _ rfl fun m hm => ?_
  obtain rfl | hm := mem_cons.mp hm
  · exact ⟨by unfold Fits; decide +kernel, show 0 ∉ utf8 "BEGIN" by decide +kernel⟩
  · rw [mem_singleton.mp hm]
    exact ⟨by unfold Fits; decide, trivial⟩

end Crabgresql.Forward
