import Mathlib

/-!
# Base64 with padding

Three bytes are four digits of the standard alphabet. The last group is padded,
and a decoder refuses padding anywhere else and bits that no byte accounts for.
-/

namespace Base64

open List

def pad : UInt8 := 61

def digit (n : ℕ) : UInt8 :=
  if n < 26 then UInt8.ofNat (65 + n)
  else if n < 52 then UInt8.ofNat (71 + n)
  else if n < 62 then UInt8.ofNat (n - 4)
  else if n = 62 then 43
  else 47

def value (c : UInt8) : Option ℕ :=
  if 65 ≤ c ∧ c ≤ 90 then some (c.toNat - 65)
  else if 97 ≤ c ∧ c ≤ 122 then some (c.toNat - 71)
  else if 48 ≤ c ∧ c ≤ 57 then some (c.toNat + 4)
  else if c = 43 then some 62
  else if c = 47 then some 63
  else none

/-- The four digits of a number of three bytes. -/
def digits (n : ℕ) : List UInt8 :=
  [digit (n / 262144 % 64), digit (n / 4096 % 64), digit (n / 64 % 64), digit (n % 64)]

def encode : List UInt8 → List UInt8
  | [] => []
  | [a] => (digits (a.toNat * 65536)).take 2 ++ [pad, pad]
  | [a, b] => (digits (a.toNat * 65536 + b.toNat * 256)).take 3 ++ [pad]
  | a :: b :: c :: rest =>
    digits (a.toNat * 65536 + b.toNat * 256 + c.toNat) ++ encode rest

def group (a b c d : UInt8) : Option (List UInt8) := do
  let n := (← value a) * 262144 + (← value b) * 4096 + (← value c) * 64 + (← value d)
  pure [UInt8.ofNat (n / 65536), UInt8.ofNat (n / 256 % 256), UInt8.ofNat (n % 256)]

def lastGroup (a b c d : UInt8) : Option (List UInt8) :=
  if d ≠ pad then group a b c d
  else if c ≠ pad then do
    let n := (← value a) * 4096 + (← value b) * 64 + (← value c)
    if n % 4 = 0 then pure [UInt8.ofNat (n / 1024), UInt8.ofNat (n / 4 % 256)] else none
  else do
    let n := (← value a) * 64 + (← value b)
    if n % 16 = 0 then pure [UInt8.ofNat (n / 16)] else none

def decode : List UInt8 → Option (List UInt8)
  | [] => some []
  | [a, b, c, d] => lastGroup a b c d
  | a :: b :: c :: d :: rest => do
    let bytes ← group a b c d
    let more ← decode rest
    pure (bytes ++ more)
  | _ => none

example : encode [77, 97] = [84, 87, 69, 61] := by decide

example : decode [84, 87, 69, 61] = some [77, 97] := by decide

-- the last digit has bits that the two bytes do not account for
example : decode [84, 87, 70, 61] = none := by decide

/-- The length of the text depends on the length of the bytes only. -/
theorem length_encode (bs : List UInt8) : (encode bs).length = (bs.length + 2) / 3 * 4 := by
  induction bs using encode.induct with
  | case1 => rfl
  | case2 | case3 => simp [encode, digits]
  | case4 a b c rest ih =>
    simp only [encode, digits, length_append, length_cons, length_nil, ih]
    omega

theorem digit_ne {c : UInt8} (h : ∀ n < 64, digit n ≠ c) {n : ℕ} : digit (n % 64) ≠ c :=
  h _ (Nat.mod_lt n (by decide))

/-- A character outside the alphabet does not occur. -/
theorem not_mem_encode {c : UInt8} (hdigit : ∀ n < 64, digit n ≠ c) (hpad : c ≠ pad)
    (bs : List UInt8) : c ∉ encode bs := by
  have hdigits : ∀ n, c ∉ digits n := by
    intro n hn
    simp only [digits, mem_cons, not_mem_nil, or_false] at hn
    obtain h | h | h | h := hn <;> exact digit_ne hdigit h.symm
  have hpads : ∀ k, c ∉ List.replicate k pad := fun k h => hpad (eq_of_mem_replicate h)
  induction bs using encode.induct with
  | case1 => exact not_mem_nil
  | case2 =>
    intro h
    obtain h | h := mem_append.mp h
    · exact hdigits _ (mem_of_mem_take h)
    · exact hpads 2 h
  | case3 =>
    intro h
    obtain h | h := mem_append.mp h
    · exact hdigits _ (mem_of_mem_take h)
    · exact hpads 1 h
  | case4 a b c rest ih =>
    intro h
    obtain h | h := mem_append.mp h
    · exact hdigits _ h
    · exact ih h

end Base64
