import Crabgresql.Replica.Layout

/-!
# The scan for transactions in doubt

The recovery sweep reads the entries of the local part of the commit log in key order,
collects the global transactions of the prepare markers that range 0 has not decided, and
keeps the first such marker and the last entry it met. The new watermark is the first, or
one past the last.
-/

namespace Crabgresql.Replica

open Mvcc BigEndian ByteOrder
open Std (ExtTreeMap)

/-- The accumulators of the loop. -/
structure Sweep where
  gs : Finset Xid := ∅
  firstUndecided : Option Xid := none
  maxLi : Option Xid := none

def Sweep.entry (catalog : Contents) (s : Sweep) (e : Key × Value) : Except String Sweep :=
  match clogXidOf e.1 with
  | none => .ok s
  | some li => do
    match ← decode e.2 with
    | .prepared g =>
      let status ← clogGet catalog g
      if status.isTerminal then .ok { s with maxLi := some li }
      else .ok ⟨insert g s.gs, s.firstUndecided.or (some li), some li⟩
    | _ => .ok { s with maxLi := some li }

def saturatingAdd (n m : ℕ) : ℕ := min (n + m) (2 ^ 64 - 1)

def Sweep.newLo (s : Sweep) (lo : ℕ) : ℕ :=
  max ((s.firstUndecided.or (s.maxLi.map (saturatingAdd · 1))).getD lo) lo

/-- `none` is the panic of the range scan. -/
def inDoubtGlobalsFrom (map : ExtTreeMap Key Value) (catalog : Contents) (lo : ℕ) :
    Option (Except String (List Xid × ℕ)) :=
  (scanRange map (clogKey lo) (clogKey globalXidBase)).map fun found => do
    let s ← found.foldlM (Sweep.entry catalog) {}
    .ok (s.gs.sort (· ≤ ·), s.newLo lo)

/-! ## One entry and the loop -/

/-- Range 0 has a status for `g` that is not terminal. -/
def isOpen (catalog : Contents) (g : Xid) : Bool :=
  match clogGet catalog g with
  | .ok st => !st.isTerminal
  | .error _ => false

/-- The entry of the commit log that a pair holds. -/
def decoded (e : Key × Value) : Option (Xid × XidStatus) :=
  (clogXidOf e.1).bind fun li => (decode e.2).toOption.map (li, ·)

/-- An entry that the scan can read, and range 0's entry with it. -/
def Clear (catalog : Contents) (e : Key × Value) : Prop :=
  ∀ li, clogXidOf e.1 = some li → ∃ st, decode e.2 = .ok st ∧
    ∀ g, st = .prepared g → ∃ st', clogGet catalog g = .ok st'

variable {catalog : Contents} {lo : ℕ} {map : ExtTreeMap Key Value}

def marks (catalog : Contents) (read : List (Xid × XidStatus)) : List (Xid × Xid) :=
  read.filterMap fun e =>
    match e.2 with
    | .prepared g => if isOpen catalog g then some (e.1, g) else none
    | _ => none

/-- The accumulators after the entries `read`. -/
def Sweep.after (catalog : Contents) (read : List (Xid × XidStatus)) : Sweep :=
  ⟨((marks catalog read).map Prod.snd).toFinset, (marks catalog read).head?.map Prod.fst,
    read.getLast?.map Prod.fst⟩

theorem mem_marks {read : List (Xid × XidStatus)} {li g : Xid} :
    (li, g) ∈ marks catalog read ↔ (li, .prepared g) ∈ read ∧ isOpen catalog g = true := by
  simp only [marks, List.mem_filterMap]
  constructor
  · rintro ⟨⟨x, st⟩, hmem, hst⟩
    cases st with
    | prepared g' =>
      simp only at hst
      split_ifs at hst with hopen
      cases hst
      exact ⟨hmem, hopen⟩
    | _ => cases hst
  · rintro ⟨hmem, hopen⟩
    exact ⟨_, hmem, by simp [hopen]⟩

theorem entry_after {e : Key × Value} (read : List (Xid × XidStatus)) (h : Clear catalog e) :
    Sweep.entry catalog (.after catalog read) e =
      .ok (.after catalog (read ++ (decoded e).toList)) := by
  cases hli : clogXidOf e.1 with
  | none => simp [Sweep.entry, decoded, hli]
  | some li =>
    obtain ⟨st, hst, hglobal⟩ := h li hli
    simp only [Sweep.entry, decoded, hli, hst, bind, Except.bind, Except.toOption, Option.bind_some,
      Option.map_some, Option.toList_some]
    cases st with
    | prepared g =>
      obtain ⟨st', hst'⟩ := hglobal g rfl
      cases hterm : st'.isTerminal with
      | true => simp [Sweep.after, marks, isOpen, hst', hterm]
      | false =>
        have hmarks : marks catalog (read ++ [(li, .prepared g)]) =
            marks catalog read ++ [(li, g)] := by
          simp [marks, isOpen, hst', hterm]
        simp only [hst', hterm, Bool.false_eq_true, if_false, Sweep.after, hmarks]
        generalize marks catalog read = open_
        refine congrArg _ (Sweep.mk.injEq _ _ _ _ _ _ ▸ ⟨?_, ?_, by simp⟩)
        · ext x
          simp
        · cases open_ <;> rfl
    | _ => simp [Sweep.after, marks]

theorem foldlM_after {found : List (Key × Value)} (h : ∀ e ∈ found, Clear catalog e)
    (read : List (Xid × XidStatus)) : found.foldlM (Sweep.entry catalog) (.after catalog read) =
      .ok (.after catalog (read ++ found.filterMap decoded)) := by
  induction found generalizing read with
  | nil => simp [pure, Except.pure]
  | cons e found ih =>
    rw [List.foldlM_cons, entry_after read (h e List.mem_cons_self)]
    refine (ih (fun e' he' => h e' (List.mem_cons_of_mem _ he')) _).trans ?_
    cases hd : decoded e <;> simp [hd]

/-! ## Keys and numbers -/

theorem clogXidOf_iff {key : Key} {x : Xid} :
    clogXidOf key = some x ↔ key = clogKey x ∧ x < 256 ^ 8 := by
  constructor
  · intro h
    simp only [clogXidOf] at h
    split_ifs at h with hshape
    push Not at hshape
    obtain ⟨hlen, htake⟩ := hshape
    have hrest : (key.drop clogPrefix.length).length = 8 := by simp [hlen]
    rw [takeU64, if_pos hrest.ge] at h
    cases h
    rw [List.take_of_length_le hrest.le]
    refine ⟨?_, by simpa [hrest] using value_lt (key.drop clogPrefix.length)⟩
    rw [clogKey, ← hrest, bytes_value]
    conv_lhs => rw [← List.take_append_drop clogPrefix.length key, htake]
  · rintro ⟨rfl, hx⟩
    exact clogXidOf_clogKey ⟨x, hx⟩

/-- The commit log has `st` for a local xid from `lo` on. -/
def Scanned (map : ExtTreeMap Key Value) (lo : ℕ) (x : Xid) (st : XidStatus) : Prop :=
  lo ≤ x ∧ x < globalXidBase ∧ ∃ v, map[clogKey x]? = some v ∧ decode v = .ok st

def scanned (map : ExtTreeMap Key Value) (lo : ℕ) : List (Key × Value) :=
  map.toList.filter fun e =>
    (compare (clogKey lo) e.1).isLE && compare e.1 (clogKey globalXidBase) == .lt

theorem mem_scanned {x : Xid} {v : Value} (hlo : lo ≤ globalXidBase) (hx : x < 256 ^ 8) :
    (clogKey x, v) ∈ scanned map lo ↔
      lo ≤ x ∧ x < globalXidBase ∧ map[clogKey x]? = some v := by
  have hbase : globalXidBase < 256 ^ 8 := by decide
  have hstart := compare_clogKey ⟨lo, hlo.trans_lt hbase⟩ ⟨x, hx⟩
  have hstop := compare_clogKey ⟨x, hx⟩ ⟨globalXidBase, hbase⟩
  rw [scanned, List.mem_filter, ExtTreeMap.mem_toList_iff_getElem?_eq_some, hstart, hstop]
  simp [Nat.isLE_compare, Nat.compare_eq_lt, and_comm, and_assoc]

theorem mem_read {x : Xid} {st : XidStatus} (hlo : lo ≤ globalXidBase) :
    (x, st) ∈ (scanned map lo).filterMap decoded ↔ Scanned map lo x st := by
  have hbase : globalXidBase < 256 ^ 8 := by decide
  simp only [List.mem_filterMap, Scanned]
  constructor
  · rintro ⟨⟨key, v⟩, hmem, hdec⟩
    obtain ⟨y, hy, hdec⟩ := Option.bind_eq_some_iff.mp hdec
    obtain ⟨rfl, hlt⟩ := clogXidOf_iff.mp hy
    obtain ⟨st', hst', heq⟩ := Option.map_eq_some_iff.mp hdec
    cases heq
    obtain ⟨hle, hlocal, hget⟩ := (mem_scanned hlo hlt).mp hmem
    refine ⟨hle, hlocal, v, hget, ?_⟩
    cases hv : decode v <;> simp_all [Except.toOption]
  · rintro ⟨hle, hlocal, v, hget, hv⟩
    have hlt : x < 256 ^ 8 := hlocal.trans hbase
    refine ⟨(clogKey x, v), (mem_scanned hlo hlt).mpr ⟨hle, hlocal, hget⟩, ?_⟩
    simp [decoded, clogXidOf_iff.mpr ⟨rfl, hlt⟩, hv, Except.toOption]

theorem read_sorted : ((scanned map lo).filterMap decoded).Pairwise fun a b => a.1 < b.1 := by
  have hkeys : (scanned map lo).Pairwise fun a b => compare a.1 b.1 = .lt :=
    ExtTreeMap.ordered_keys_toList.filter _
  refine hkeys.filterMap _ fun e e' hlt a ha b hb => ?_
  obtain ⟨x, hx, ha⟩ := Option.bind_eq_some_iff.mp ha
  obtain ⟨y, hy, hb⟩ := Option.bind_eq_some_iff.mp hb
  obtain ⟨-, -, rfl⟩ := Option.map_eq_some_iff.mp ha
  obtain ⟨-, -, rfl⟩ := Option.map_eq_some_iff.mp hb
  obtain ⟨hkx, hx⟩ := clogXidOf_iff.mp hx
  obtain ⟨hky, hy⟩ := clogXidOf_iff.mp hy
  rw [hkx, hky, compare_clogKey ⟨x, hx⟩ ⟨y, hy⟩] at hlt
  exact Nat.compare_eq_lt.mp hlt

/-- The first open marker, or one past the last entry. -/
theorem newLo_after {read : List (Xid × XidStatus)} (hsorted : read.Pairwise fun a b => a.1 < b.1)
    (hin : ∀ p ∈ read, lo ≤ p.1 ∧ p.1 < globalXidBase) {hi : ℕ}
    (hhi : (Sweep.after catalog read).newLo lo = hi) :
    lo ≤ hi ∧ (hi = lo ∨ ∃ p ∈ read, hi ≤ p.1 + 1) ∧ (∀ p ∈ marks catalog read, hi ≤ p.1) ∧
      ∀ bound, (∃ p ∈ read, bound ≤ p.1 + 1) → (∀ p ∈ marks catalog read, bound ≤ p.1) →
        bound ≤ hi := by
  cases hm : marks catalog read with
  | cons p t =>
    have hp : (p.1, .prepared p.2) ∈ read := (mem_marks.mp (hm ▸ List.mem_cons_self)).1
    obtain rfl : p.1 = hi := by
      simpa [Sweep.after, Sweep.newLo, hm, (hin _ hp).1] using hhi
    have hmarks : (marks catalog read).Pairwise fun a b => a.1 < b.1 := by
      refine hsorted.filterMap _ fun e e' hlt a ha b hb => ?_
      obtain ⟨x, st⟩ := e
      obtain ⟨y, st'⟩ := e'
      cases st <;> cases st' <;> simp_all
      rw [← ha.2, ← hb.2]
      exact hlt
    rw [hm, List.pairwise_cons] at hmarks
    refine ⟨(hin _ hp).1, .inr ⟨_, hp, by simp⟩, fun q hq => ?_,
      fun bound _ h => h p List.mem_cons_self⟩
    obtain rfl | hq := List.mem_cons.mp hq
    · exact le_rfl
    · exact (hmarks.1 q hq).le
  | nil =>
    cases hlast : read.getLast? with
    | none =>
      have hnil : read = [] := List.getLast?_eq_none_iff.mp hlast
      obtain rfl : lo = hi := by simpa [Sweep.after, Sweep.newLo, hnil, marks] using hhi
      simp [hnil]
    | some p =>
      obtain ⟨before, rfl⟩ := List.getLast?_eq_some_iff.mp hlast
      have hp := hin p (by simp)
      have hbase : globalXidBase < 2 ^ 64 - 1 := by decide
      have hsucc : saturatingAdd p.1 1 = p.1 + 1 :=
        Nat.min_eq_left ((Nat.succ_le_of_lt hp.2).trans hbase.le)
      obtain rfl : p.1 + 1 = hi := by
        simpa [Sweep.after, Sweep.newLo, hm, hsucc, hp.1.trans (Nat.le_succ _)] using hhi
      refine ⟨by omega, .inr ⟨p, by simp, le_rfl⟩, by simp, fun bound hbound _ => ?_⟩
      obtain ⟨q, hq, hle⟩ := hbound
      obtain hq | hq := List.mem_append.mp hq
      · have hlt : q.1 < p.1 := (List.pairwise_append.mp hsorted).2.2 q hq p (by simp)
        exact hle.trans (Nat.succ_le_succ hlt.le)
      · rw [List.mem_singleton.mp hq] at hle
        exact hle

end Crabgresql.Replica
