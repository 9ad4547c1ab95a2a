import Crabgresql.Lib.BigEndian

/-!
# Byte strings in lexicographic order

The order of byte strings as keys of an ordered map: a common front does not
count, fronts of equal length decide first, and the big-endian bytes of a number
are ordered as the numbers are. In an ordered list of keys those with a given
prefix stand together, from the prefix itself on.
-/

namespace ByteOrder

open List BigEndian

variable {n m : ℕ} {p : List UInt8}

theorem compare_append_left (p a b : List UInt8) : compare (p ++ a) (p ++ b) = compare a b := by
  induction p with
  | nil => rfl
  | cons x p ih =>
    have hself : compare x x = .eq := Std.ReflCmp.compare_self
    rw [List.cons_append, List.cons_append, List.compare_cons_cons, ih, hself]
    rfl

/-- Fronts of one length decide before the rest. -/
theorem compare_append {a b : List UInt8} (hlen : a.length = b.length) (c d : List UInt8) :
    compare (a ++ c) (b ++ d) = (compare a b).then (compare c d) := by
  induction a generalizing b with
  | nil =>
    rw [length_nil, eq_comm, length_eq_zero_iff] at hlen
    subst hlen
    rfl
  | cons x a ih =>
    cases b with
    | nil => cases hlen
    | cons y =>
      rw [List.cons_append, List.cons_append, List.compare_cons_cons, List.compare_cons_cons,
        ih (Nat.succ.inj hlen)]
      cases compare x y <;> rfl

theorem compare_ofNat (hn : n < 256) (hm : m < 256) :
    compare (UInt8.ofNat n) (UInt8.ofNat m) = compare n m := by
  have hlt : UInt8.ofNat n < UInt8.ofNat m ↔ n < m := by
    rw [UInt8.lt_iff_toNat_lt, UInt8.toNat_ofNat_of_lt' hn, UInt8.toNat_ofNat_of_lt' hm]
  have heq : UInt8.ofNat n = UInt8.ofNat m ↔ n = m := by
    rw [← UInt8.toNat_inj, UInt8.toNat_ofNat_of_lt' hn, UInt8.toNat_ofNat_of_lt' hm]
  change compareOfLessAndEq _ _ = compareOfLessAndEq _ _
  simp only [compareOfLessAndEq, hlt, heq]

theorem compare_eq_then_mod (n m b : ℕ) (hb : 0 < b) :
    compare n m = (compare (n / b) (m / b)).then (compare (n % b) (m % b)) := by
  have hn := Nat.div_add_mod n b
  have hm := Nat.div_add_mod m b
  have hnb := Nat.mod_lt n hb
  have hmb := Nat.mod_lt m hb
  rcases Nat.lt_trichotomy (n / b) (m / b) with hlt | heq | hgt
  · have hquot : compare (n / b) (m / b) = .lt := Nat.compare_eq_lt.mpr hlt
    have hmul : b * (n / b) + b ≤ b * (m / b) := by
      rw [← Nat.mul_succ]
      exact Nat.mul_le_mul_left b hlt
    have hnm : n < m := by omega
    rw [Nat.compare_eq_lt.mpr hnm, hquot]
    rfl
  · have hquot : compare (n / b) (m / b) = .eq := Nat.compare_eq_eq.mpr heq
    rw [heq] at hn
    rw [hquot]
    change compareOfLessAndEq _ _ = compareOfLessAndEq _ _
    have hlt : n < m ↔ n % b < m % b := by omega
    have hsame : n = m ↔ n % b = m % b := by omega
    simp only [compareOfLessAndEq, hlt, hsame]
  · have hquot : compare (n / b) (m / b) = .gt := Nat.compare_eq_gt.mpr hgt
    have hmul : b * (m / b) + b ≤ b * (n / b) := by
      rw [← Nat.mul_succ]
      exact Nat.mul_le_mul_left b hgt
    have hnm : m < n := by omega
    rw [Nat.compare_eq_gt.mpr hnm, hquot]
    rfl

theorem bytes_mod (w n : ℕ) {v : ℕ} (hv : w ≤ v) : bytes w (n % 256 ^ v) = bytes w n := by
  induction w with
  | zero => rfl
  | succ w ih =>
    have hpow : 256 ^ v = 256 ^ w * (256 * 256 ^ (v - (w + 1))) := by
      rw [← pow_succ', ← pow_add]
      congr 1
      omega
    have hbyte : UInt8.ofNat (n % 256 ^ v / 256 ^ w) = UInt8.ofNat (n / 256 ^ w) := by
      rw [hpow, Nat.mod_mul_right_div_self]
      apply UInt8.toNat_inj.mp
      rw [UInt8.toNat_ofNat', UInt8.toNat_ofNat', Nat.mod_mul_right_mod]
    rw [bytes, bytes, hbyte, ih (by omega)]

theorem bytes_value (bs : List UInt8) : bytes bs.length (value bs) = bs := by
  induction bs with
  | nil => rfl
  | cons b bs ih =>
    have hlt := value_lt bs
    have hhead : value (b :: bs) / 256 ^ bs.length = b.toNat := by
      rw [value, Nat.mul_comm, Nat.mul_add_div (by positivity), Nat.div_eq_of_lt hlt, Nat.add_zero]
    have hrest : value (b :: bs) % 256 ^ bs.length = value bs := by
      rw [value, Nat.mul_comm, Nat.mul_add_mod, Nat.mod_eq_of_lt hlt]
    rw [length_cons, bytes, hhead, ← bytes_mod _ _ le_rfl, hrest, ih, UInt8.ofNat_toNat]

/-- Big-endian bytes are ordered as the numbers they spell. -/
theorem compare_bytes {w : ℕ} (hn : n < 256 ^ w) (hm : m < 256 ^ w) :
    compare (bytes w n) (bytes w m) = compare n m := by
  induction w generalizing n m with
  | zero =>
    have hzero : n = m := by
      rw [pow_zero] at hn hm
      omega
    rw [hzero, Nat.compare_eq_eq.mpr rfl]
    rfl
  | succ w ih =>
    have hpos : 0 < 256 ^ w := Nat.pow_pos (by decide)
    have hdiv {k : ℕ} (hk : k < 256 ^ (w + 1)) : k / 256 ^ w < 256 := by
      rw [Nat.div_lt_iff_lt_mul hpos, Nat.mul_comm, ← pow_succ]
      exact hk
    rw [bytes, bytes, List.compare_cons_cons,
      compare_ofNat (hdiv hn) (hdiv hm), ← bytes_mod w n le_rfl, ← bytes_mod w m le_rfl,
      ih (Nat.mod_lt n hpos) (Nat.mod_lt m hpos), compare_eq_then_mod n m _ hpos]

theorem bytes_inj {w : ℕ} (hn : n < 256 ^ w) (hm : m < 256 ^ w)
    (h : bytes w n = bytes w m) : n = m := by
  rw [← value_bytes_of_lt hn, h, value_bytes_of_lt hm]

/-! ## Scans of ordered keys -/

/-- A byte string is not before its prefixes. -/
theorem isLE_of_isPrefix {k : List UInt8} (h : p <+: k) : (compare p k).isLE = true := by
  obtain ⟨rest, rfl⟩ := h
  induction p with
  | nil => cases rest <;> rfl
  | cons x p ih =>
    have hself : compare x x = .eq := Std.ReflCmp.compare_self
    rw [List.cons_append, List.compare_cons_cons, hself]
    exact ih

/-- What lies between a prefix and a string with that prefix has it too. -/
theorem prefix_of_between {a k : List UInt8} (hlow : (compare p a).isLE = true)
    (hhigh : compare a k = .lt) (hk : p <+: k) : p <+: a := by
  induction p generalizing a k with
  | nil => exact nil_prefix
  | cons x p ih =>
    obtain ⟨rest, rfl⟩ := hk
    cases a with
    | nil => cases hlow
    | cons y =>
      rw [List.compare_cons_cons] at hlow
      rw [List.cons_append, List.compare_cons_cons] at hhigh
      cases hxy : compare x y with
      | gt =>
        rw [hxy] at hlow
        cases hlow
      | lt =>
        have hyx : compare y x = .gt := Std.OrientedCmp.gt_iff_lt.mpr hxy
        rw [hyx] at hhigh
        cases hhigh
      | eq =>
        obtain rfl := Std.LawfulEqCmp.eq_of_compare hxy
        rw [hxy] at hlow hhigh
        exact (cons_prefix_cons).mpr ⟨rfl, ih hlow hhigh (prefix_append p rest)⟩

/-- From a prefix on, the keys that have it come first: reading on while the prefix matches finds
them all. -/
theorem takeWhile_isPrefixOf {β : Type*} {l : List (List UInt8 × β)}
    (hsorted : l.Pairwise fun a b => compare a.1 b.1 = .lt)
    (hfrom : ∀ e ∈ l, (compare p e.1).isLE = true) :
    l.takeWhile (fun e => p.isPrefixOf e.1) = l.filter fun e => p.isPrefixOf e.1 := by
  induction l with
  | nil => rfl
  | cons e l ih =>
    obtain ⟨hhead, htail⟩ := pairwise_cons.mp hsorted
    have hrest := ih htail fun a ha => hfrom a (mem_cons_of_mem _ ha)
    rw [takeWhile_cons, filter_cons]
    split_ifs with he
    · rw [hrest]
    · rw [eq_comm, filter_eq_nil_iff]
      intro a ha hpa
      exact he ( isPrefixOf_iff_prefix.mpr (prefix_of_between
        (hfrom e mem_cons_self) (hhead a ha) ( isPrefixOf_iff_prefix.mp hpa)))

/-- Two lists in strict key order with the same members are the same list. -/
theorem eq_of_sorted {α β : Type*} {r : α → α → Prop} (hirrefl : ∀ a, ¬ r a a)
    (htrans : ∀ a b c, r a b → r b c → r a c) {l l' : List (α × β)}
    (hl : l.Pairwise fun a b => r a.1 b.1) (hl' : l'.Pairwise fun a b => r a.1 b.1)
    (hmem : ∀ e, e ∈ l ↔ e ∈ l') : l = l' := by
  have hnodup {l : List (α × β)} (hl : l.Pairwise fun a b => r a.1 b.1) : l.Nodup := by
    refine hl.imp ?_
    rintro a b hab rfl
    exact hirrefl _ hab
  refine Perm.eq_of_pairwise ?_ hl hl'
    ((perm_ext_iff_of_nodup (hnodup hl) (hnodup hl')).mpr hmem)
  intro a b _ _ hab hba
  exact absurd (htrans _ _ _ hab hba) (hirrefl _)

end ByteOrder
