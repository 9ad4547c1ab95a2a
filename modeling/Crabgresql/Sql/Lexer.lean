import Crabgresql.Replica.Keys
import Crabgresql.Wire.Messages

/-!
# The lexer

The tokens of a statement with their byte offsets. The lexer walks the bytes of
the text; a token's text is built byte by byte, each byte taken as a character.
-/

namespace Crabgresql.Sql

open List

open Wire (Bytes charOf charDebug)
open Replica (utf8)

structure ParseError where
  message : String
  position : ℕ
  sqlstate : String
  deriving DecidableEq

def ParseError.new (message : String) (position : ℕ) : ParseError :=
  ⟨s!"syntax error at position {position}: {message}", position, "42601"⟩

inductive Keyword
  | create | table | drop | insert | into | values | select | with_ | recursive | from_
  | where_ | order | by_ | asc | desc | limit | and | or | not | true | false | null | as_
  | begin | start | transaction | commit | end_ | rollback | abort | update | set | delete
  | isolation | level | read | committed | repeatable | for_ | share | group | having
  | distinct | all | is | in_ | between | like | ilike | case | when | then_ | else_ | offset
  | cast | join | inner | left | right | full | outer | cross | on | using | natural | exists
  | any | some | union | intersect | except | foreign | data | wrapper | server | mapping
  | user | options | import_ | schema | to | if_ | currentUser | public_
  deriving DecidableEq

def keywords : List (String × Keyword) :=
  [("create", .create), ("table", .table), ("drop", .drop), ("insert", .insert),
    ("into", .into), ("values", .values), ("select", .select), ("with", .with_),
    ("recursive", .recursive), ("from", .from_), ("where", .where_), ("order", .order),
    ("by", .by_), ("asc", .asc), ("desc", .desc), ("limit", .limit), ("and", .and),
    ("or", .or), ("not", .not), ("true", .true), ("false", .false), ("null", .null),
    ("as", .as_), ("begin", .begin), ("start", .start), ("transaction", .transaction),
    ("commit", .commit), ("end", .end_), ("rollback", .rollback), ("abort", .abort),
    ("update", .update), ("set", .set), ("delete", .delete), ("isolation", .isolation),
    ("level", .level), ("read", .read), ("committed", .committed), ("repeatable", .repeatable),
    ("for", .for_), ("share", .share), ("group", .group), ("having", .having),
    ("distinct", .distinct), ("all", .all), ("is", .is), ("in", .in_), ("between", .between),
    ("like", .like), ("ilike", .ilike), ("case", .case), ("when", .when), ("then", .then_),
    ("else", .else_), ("offset", .offset), ("cast", .cast), ("join", .join), ("inner", .inner),
    ("left", .left), ("right", .right), ("full", .full), ("outer", .outer), ("cross", .cross),
    ("on", .on), ("using", .using), ("natural", .natural), ("exists", .exists), ("any", .any),
    ("some", .some), ("union", .union), ("intersect", .intersect), ("except", .except),
    ("foreign", .foreign), ("data", .data), ("wrapper", .wrapper), ("server", .server),
    ("mapping", .mapping), ("user", .user), ("options", .options), ("import", .import_),
    ("schema", .schema), ("to", .to), ("if", .if_), ("current_user", .currentUser),
    ("public", .public_)]

def Keyword.fromWord (w : String) : Option Keyword := keywords.lookup w

inductive Token
  | ident (s : String)
  | keyword (k : Keyword)
  | intLit (s : String)
  | floatLit (s : String)
  | stringLit (s : String)
  | lParen | rParen | comma | semicolon | star | plus | minus | slash
  | concat | typeCast | dot | eq | ne | lt | le | gt | ge
  | param (n : ℕ)
  | eof
  deriving DecidableEq

/-! ## Bytes -/

def isDigit (b : UInt8) : Bool := 48 ≤ b ∧ b ≤ 57

def isAlphabetic (b : UInt8) : Bool := (65 ≤ b ∧ b ≤ 90) ∨ (97 ≤ b ∧ b ≤ 122)

def isWord (b : UInt8) : Bool := b = 95 ∨ isAlphabetic b ∨ isDigit b

def lowercase (b : UInt8) : UInt8 := if 65 ≤ b ∧ b ≤ 90 then b + 32 else b

def textOf (bs : Bytes) : String := String.ofList (bs.map charOf)

def decimal (bs : Bytes) : ℕ := bs.foldl (fun n b => 10 * n + (b.toNat - 48)) 0

/-! ## Lexemes

What starts at a byte, and how many bytes after the first belong to it. -/

/-- The bytes up to the end of a block comment. -/
def blockComment : Bytes → Option ℕ
  | [] => none
  | 42 :: 47 :: _ => some 2
  | _ :: rest => (blockComment rest).map (· + 1)

/-- The characters up to the closing quote, and the bytes they and the quote take. -/
def stringLit : Bytes → Option (List Char × ℕ)
  | [] => none
  | 39 :: 39 :: rest => (stringLit rest).map fun r => ('\'' :: r.1, r.2 + 2)
  | 39 :: _ => some ([], 1)
  | b :: rest => (stringLit rest).map fun r => (charOf b :: r.1, r.2 + 1)

-- a doubled quote is no escape here
def quotedIdent : Bytes → Option (List Char × ℕ)
  | [] => none
  | 34 :: _ => some ([], 1)
  | b :: rest => (quotedIdent rest).map fun r => (charOf b :: r.1, r.2 + 1)

def twoByte (b : UInt8) (next : Option UInt8) : Option Token :=
  if b = 60 ∧ next = some 61 then some .le
  else if b = 62 ∧ next = some 61 then some .ge
  else if b = 60 ∧ next = some 62 then some .ne
  else if b = 124 ∧ next = some 124 then some .concat
  else if b = 58 ∧ next = some 58 then some .typeCast
  else none

def oneByte (b : UInt8) : Option Token :=
  if b = 40 then some .lParen
  else if b = 41 then some .rParen
  else if b = 44 then some .comma
  else if b = 59 then some .semicolon
  else if b = 42 then some .star
  else if b = 43 then some .plus
  else if b = 45 then some .minus
  else if b = 47 then some .slash
  else if b = 61 then some .eq
  else if b = 60 then some .lt
  else if b = 62 then some .gt
  else none

/-- The length of an exponent: `e`, a sign if there is one, and at least one digit. -/
def exponent (bs : Bytes) : ℕ :=
  match bs with
  | [] => 0
  | e :: rest =>
    if e = 101 ∨ e = 69 then
      let sign := if rest.head? = some 43 ∨ rest.head? = some 45 then 1 else 0
      let digits := ((rest.drop sign).takeWhile isDigit).length
      -- without a digit the letter is left for the next token
      if digits = 0 then 0 else 1 + sign + digits
    else 0

def number (bs : Bytes) : Token × ℕ :=
  let int := (bs.takeWhile isDigit).length
  let fraction :=
    match bs.drop int with
    | 46 :: rest => 1 + (rest.takeWhile isDigit).length
    | _ => 0
  let exp := exponent (bs.drop (int + fraction))
  let n := int + fraction + exp
  let text := textOf (bs.take n)
  (if fraction = 0 ∧ exp = 0 then .intLit text else .floatLit text, n)

def word (bs : Bytes) : Token × ℕ :=
  let chars := bs.takeWhile isWord
  let text := textOf (chars.map lowercase)
  (match Keyword.fromWord text with
    | some k => .keyword k
    | none => .ident text,
    chars.length)

/-- The lexeme that starts with byte `b` at offset `i`; a space or a comment has no token. -/
def scan (i : ℕ) (b : UInt8) (rest : Bytes) : Except ParseError (Option Token × ℕ) :=
  if b = 32 ∨ b = 9 ∨ b = 13 ∨ b = 10 then .ok (none, 0)
  else if b = 45 ∧ rest.head? = some 45 then .ok (none, (rest.takeWhile (· != 10)).length)
  else if b = 47 ∧ rest.head? = some 42 then
    match blockComment rest.tail with
    | none => .error (.new "unterminated block comment" i)
    | some n => .ok (none, 1 + n)
  else if b = 39 then
    match stringLit rest with
    | none => .error (.new "unterminated string literal" i)
    | some (chars, n) => .ok (some (.stringLit (String.ofList chars)), n)
  else if b = 34 then
    match quotedIdent rest with
    | none => .error (.new "unterminated quoted identifier" i)
    | some (chars, n) => .ok (some (.ident (String.ofList chars)), n)
  else
    match twoByte b rest.head? with
    | some tok => .ok (some tok, 1)
    | none =>
      match oneByte b with
      | some tok => .ok (some tok, 0)
      | none =>
        if b = 36 ∧ rest.head?.any isDigit then
          let digits := rest.takeWhile isDigit
          if decimal digits ≤ 4294967295 then
            .ok (some (.param (decimal digits)), digits.length)
          else .error (.new "parameter number out of range" i)
        else if isDigit b ∨ (b = 46 ∧ rest.head?.any isDigit) then
          let r := number (b :: rest)
          .ok (some r.1, r.2 - 1)
        else if b = 46 then .ok (some .dot, 0)
        else if b = 95 ∨ isAlphabetic b then
          let r := word (b :: rest)
          .ok (some r.1, r.2 - 1)
        else
          let shown := charDebug b
          .error (.new s!"unexpected character {shown}" i)

/-- The lexer at offset `i`, with `skip` bytes of the last lexeme still to pass. -/
def lexFrom : (skip i : ℕ) → Bytes → Except ParseError (List (Token × ℕ))
  | _, i, [] => .ok [(.eof, i)]
  | skip + 1, i, _ :: rest => lexFrom skip (i + 1) rest
  | 0, i, b :: rest => do
    let (tok, n) ← scan i b rest
    let toks ← lexFrom n (i + 1) rest
    pure (tok.toList.map (·, i) ++ toks)

def lex (sql : String) : Except ParseError (List (Token × ℕ)) := lexFrom 0 0 (utf8 sql)

theorem lexFrom_skip (rest : Bytes) (i : ℕ) :
    lexFrom rest.length i rest = .ok [(.eof, i + rest.length)] := by
  induction rest generalizing i with
  | nil => rfl
  | cons b rest ih =>
    rw [length_cons, lexFrom, ih, Nat.add_right_comm i, Nat.add_assoc]

theorem lexFrom_single {b : UInt8} {rest : Bytes} {tok : Token}
    (h : scan 0 b rest = .ok (some tok, rest.length)) :
    lexFrom 0 0 (b :: rest) = .ok [(tok, 0), (.eof, rest.length + 1)] := by
  rw [lexFrom, h]
  simp only [bind, Except.bind, lexFrom_skip]
  rw [Nat.add_comm]
  rfl

/-! ## Quoted text -/

def doubled {α : Type} [DecidableEq α] (q : α) (l : List α) : List α :=
  l.flatMap fun a => if a = q then [q, q] else [a]

def quoted (q : Char) (s : String) : String :=
  String.ofList (q :: (doubled q s.toList ++ [q]))

theorem doubled_of_notMem {α : Type} [DecidableEq α] {q : α} {l : List α} (h : q ∉ l) :
    doubled q l = l := by
  induction l with
  | nil => rfl
  | cons a l ih =>
    have hne : a ≠ q := fun e => h (e ▸ mem_cons_self)
    rw [doubled, flatMap_cons, if_neg hne]
    change a :: doubled q l = _
    rw [ih fun hq => h (mem_cons_of_mem _ hq)]

theorem stringLit_doubled (bs : Bytes) :
    stringLit (doubled 39 bs ++ [39]) = some (bs.map charOf, (doubled 39 bs).length + 1) := by
  induction bs with
  | nil => rfl
  | cons b bs ih =>
    by_cases hb : b = 39
    · subst hb
      change stringLit (39 :: 39 :: (doubled 39 bs ++ [39])) = _
      rw [stringLit, ih]
      rfl
    · have hcons : doubled 39 (b :: bs) = b :: doubled 39 bs := by
        rw [doubled, flatMap_cons, if_neg hb]
        rfl
      rw [hcons, cons_append, stringLit, ih]
      · rfl
      · exact fun _ h _ => hb h
      · exact hb

theorem quotedIdent_plain {bs : Bytes} (h : 34 ∉ bs) :
    quotedIdent (bs ++ [34]) = some (bs.map charOf, bs.length + 1) := by
  induction bs with
  | nil => rfl
  | cons b bs ih =>
    have hb : b ≠ 34 := fun e => h (e ▸ mem_cons_self)
    rw [cons_append, quotedIdent, ih fun hq => h (mem_cons_of_mem _ hq)]
    · rfl
    · exact hb

def Ascii (s : String) : Prop := ∀ c ∈ s.toList, c.toNat < 128

instance (s : String) : Decidable (Ascii s) :=
  inferInstanceAs (Decidable (∀ c ∈ s.toList, c.toNat < 128))

def byteOf (c : Char) : UInt8 := UInt8.ofNat c.toNat

theorem utf8_ofList (l : List Char) : utf8 (String.ofList l) = l.flatMap String.utf8EncodeChar := by
  simp only [utf8, String.toByteArray_ofList, List.utf8Encode, data_toByteArray]

theorem utf8_ofList_ascii {l : List Char} (h : ∀ c ∈ l, c.toNat < 128) :
    utf8 (String.ofList l) = l.map byteOf := by
  rw [utf8_ofList]
  induction l with
  | nil => rfl
  | cons c l ih =>
    have hc : c.val.toNat ≤ 127 := Nat.le_of_lt_succ (h c mem_cons_self)
    rw [flatMap_cons, map_cons, ih fun d hd => h d (mem_cons_of_mem _ hd)]
    simp only [String.utf8EncodeChar, if_pos hc]
    rfl

theorem charOf_byteOf {c : Char} (h : c.toNat < 128) : charOf (byteOf c) = c := by
  have hmod : (byteOf c).toNat = c.toNat := by
    rw [byteOf, UInt8.toNat_ofNat']
    exact Nat.mod_eq_of_lt (by omega)
  rw [charOf, hmod, Char.ofNat_toNat]

theorem byteOf_eq_iff {c d : Char} (hc : c.toNat < 128) (hd : d.toNat < 128) :
    byteOf c = byteOf d ↔ c = d := by
  constructor
  · intro h
    rw [← charOf_byteOf hc, h, charOf_byteOf hd]
  · exact congrArg byteOf

theorem map_charOf_byteOf {s : String} (h : Ascii s) :
    String.ofList ((s.toList.map byteOf).map charOf) = s := by
  have hmap : (s.toList.map byteOf).map charOf = s.toList := by
    rw [List.map_map]
    calc s.toList.map (charOf ∘ byteOf) = s.toList.map id :=
          map_congr_left fun c hc => charOf_byteOf (h c hc)
      _ = s.toList := List.map_id _
  rw [hmap, String.ofList_toList]

theorem map_byteOf_doubled {q : Char} {l : List Char} (hq : q.toNat < 128)
    (hl : ∀ c ∈ l, c.toNat < 128) :
    (doubled q l).map byteOf = doubled (byteOf q) (l.map byteOf) := by
  induction l with
  | nil => rfl
  | cons c l ih =>
    have ih := ih fun d hd => hl d (mem_cons_of_mem _ hd)
    have hiff := byteOf_eq_iff (hl c mem_cons_self) hq
    simp only [doubled] at ih
    simp only [doubled, flatMap_cons, map_cons, map_append, ih, hiff]
    split_ifs <;> rfl

theorem utf8_quoted {q : Char} {s : String} (hq : q.toNat < 128) (hs : Ascii s) :
    utf8 (quoted q s) =
      byteOf q :: (doubled (byteOf q) (s.toList.map byteOf) ++ [byteOf q]) := by
  have hascii : ∀ c ∈ q :: (doubled q s.toList ++ [q]), c.toNat < 128 := by
    intro c hc
    simp only [doubled, mem_cons, mem_append, mem_flatMap, not_mem_nil,
      or_false] at hc
    obtain rfl | ⟨a, ha, hc⟩ | rfl := hc
    · exact hq
    · split_ifs at hc with haq
      · simp only [mem_cons, not_mem_nil, or_false, or_self] at hc
        exact hc ▸ hq
      · exact mem_singleton.mp hc ▸ hs a ha
    · exact hq
  rw [quoted, utf8_ofList_ascii hascii, map_cons, map_append, map_byteOf_doubled hq hs]
  rfl

theorem scan_string (i : ℕ) (bs : Bytes) : scan i 39 (doubled 39 bs ++ [39]) =
      .ok (some (.stringLit (String.ofList (bs.map charOf))), (doubled 39 bs ++ [39]).length) := by
  simp [scan, stringLit_doubled]

theorem scan_ident (i : ℕ) {bs : Bytes} (h : 34 ∉ bs) : scan i 34 (bs ++ [34]) =
      .ok (some (.ident (String.ofList (bs.map charOf))), (bs ++ [34]).length) := by
  simp [scan, quotedIdent_plain h]

end Crabgresql.Sql
