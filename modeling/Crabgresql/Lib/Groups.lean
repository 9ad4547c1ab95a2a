import Mathlib

/-!
# Rows folded into groups

Rows are folded one after the other into the state of the group of their key; a key
met for the first time begins a group. Keys are compared by a canonical form. The
groups partition the rows, and the state of each is the fold over its own rows.
-/

namespace Groups

open List

variable {κ κ' ρ σ ε : Type} [DecidableEq κ'] (canon : κ → κ') (keyOf : ρ → Except ε κ)
  (init : σ) (fold : σ → ρ → Except ε σ)

def insert (k : κ) (r : ρ) : List (κ × σ) → Except ε (List (κ × σ))
  | [] => do
    let s ← fold init r
    pure [(k, s)]
  | g :: gs =>
    if canon g.1 = canon k then do
      let s ← fold g.2 r
      pure ((g.1, s) :: gs)
    else do
      let gs ← insert k r gs
      pure (g :: gs)

def add (gs : List (κ × σ)) (r : ρ) : Except ε (List (κ × σ)) := do
  let k ← keyOf r
  insert canon init fold k r gs

def group (rows : List ρ) : Except ε (List (κ × σ)) :=
  rows.foldlM (add canon keyOf init fold) []

def members (k : κ') (rows : List ρ) : List ρ :=
  rows.filter fun r => (keyOf r).toOption.map canon = some k

/-- Each row has a group, each group a row, no two groups one key, and each state is the fold over
the members. -/
structure IsPartition (rows : List ρ) (gs : List (κ × σ)) : Prop where
  distinct : (gs.map fun g => canon g.1).Nodup
  keyed : ∀ r ∈ rows, ∃ k, keyOf r = .ok k ∧ ∃ g ∈ gs, canon g.1 = canon k
  inhabited : ∀ g ∈ gs, ∃ r ∈ rows, keyOf r = .ok g.1
  folded : ∀ g ∈ gs, (members canon keyOf (canon g.1) rows).foldlM fold init = .ok g.2

variable {canon keyOf init fold} {rows : List ρ} {gs gs' : List (κ × σ)} {k : κ} {r : ρ}

theorem insert_cases (h : insert canon init fold k r gs = .ok gs') :
    (∃ l g l' s, gs = l ++ g :: l' ∧ canon g.1 = canon k ∧ fold g.2 r = .ok s ∧
      gs' = l ++ (g.1, s) :: l') ∨
    ((∀ g ∈ gs, canon g.1 ≠ canon k) ∧ ∃ s, fold init r = .ok s ∧ gs' = gs ++ [(k, s)]) := by
  induction gs generalizing gs' with
  | nil =>
    rw [insert] at h
    cases hs : fold init r with
    | error => simp [hs, bind, Except.bind] at h
    | ok s =>
      rw [hs] at h
      exact .inr ⟨nofun, s, rfl, (Except.ok.inj h).symm⟩
  | cons g gs ih =>
    rw [insert] at h
    split_ifs at h with hk
    · cases hs : fold g.2 r with
      | error => simp [hs, bind, Except.bind] at h
      | ok s =>
        rw [hs] at h
        exact .inl ⟨[], g, gs, s, rfl, hk, hs, (Except.ok.inj h).symm⟩
    · cases hrest : insert canon init fold k r gs with
      | error => simp [hrest, bind, Except.bind] at h
      | ok =>
        rw [hrest] at h
        obtain rfl := Except.ok.inj h
        obtain ⟨l, g', l', s, rfl, hg', hs, rfl⟩ | ⟨hno, s, hs, rfl⟩ := ih hrest
        · exact .inl ⟨g :: l, g', l', s, rfl, hg', hs, rfl⟩
        · exact .inr ⟨forall_mem_cons.mpr ⟨hk, hno⟩, s, hs, rfl⟩

theorem members_append (k' : κ') (hk : keyOf r = .ok k) : members canon keyOf k' (rows ++ [r]) =
      members canon keyOf k' rows ++ if canon k = k' then [r] else [] := by
  simp [members, filter_append, filter_cons, hk, Except.toOption]

theorem foldlM_members {k' : κ'} {t : σ} (hk : keyOf r = .ok k)
    (h : (members canon keyOf k' rows).foldlM fold init = .ok t) :
    (members canon keyOf k' (rows ++ [r])).foldlM fold init =
      if canon k = k' then fold t r else .ok t := by
  rw [members_append k' hk, foldlM_append, h]
  split_ifs
  · simp [bind, Except.bind]
    cases fold t r <;> rfl
  · rfl

theorem IsPartition.members_eq_nil (h : IsPartition canon keyOf init fold rows gs)
    (hno : ∀ g ∈ gs, canon g.1 ≠ canon k) : members canon keyOf (canon k) rows = [] := by
  refine filter_eq_nil_iff.mpr fun r hr hkey => ?_
  obtain ⟨k', hk', g, hg, hgk⟩ := h.keyed r hr
  simp only [hk', Except.toOption, Option.map_some, Option.some.injEq, decide_eq_true_eq] at hkey
  exact hno g hg (hgk.trans hkey)

theorem IsPartition.insert (h : IsPartition canon keyOf init fold rows gs) (hk : keyOf r = .ok k)
    (hins : Groups.insert canon init fold k r gs = .ok gs') :
    IsPartition canon keyOf init fold (rows ++ [r]) gs' := by
  obtain ⟨l, g, l', s, rfl, hg, hs, rfl⟩ | ⟨hno, s, hs, rfl⟩ := insert_cases hins
  · have hkeys : ((l ++ (g.1, s) :: l').map fun g => canon g.1) =
        (l ++ g :: l').map fun g => canon g.1 := by simp
    have hmem : ∀ g' ∈ l ++ (g.1, s) :: l', g' = (g.1, s) ∨
        g' ∈ l ++ g :: l' ∧ canon k ≠ canon g'.1 := by
      have hdistinct := (perm_middle.map fun g : κ × σ => canon g.1).nodup_iff.mp h.distinct
      rw [map_cons, nodup_cons] at hdistinct
      intro g' hg'
      rcases mem_cons.mp (perm_middle.mem_iff.mp hg') with rfl | hl
      · exact .inl rfl
      · refine .inr ⟨perm_middle.mem_iff.mpr (mem_cons_of_mem _ hl), fun heq => ?_⟩
        exact hdistinct.1 (List.mem_map.mpr ⟨g', hl, (hg.trans heq).symm⟩)
    refine ⟨hkeys ▸ h.distinct, fun r' hr' => ?_, fun g' hg' => ?_, fun g' hg' => ?_⟩
    · rcases mem_append.mp hr' with hr' | hr'
      · obtain ⟨k', hk', g', hg', hgk⟩ := h.keyed r' hr'
        have hin : canon k' ∈ (l ++ (g.1, s) :: l').map fun g => canon g.1 :=
          hkeys ▸ List.mem_map.mpr ⟨g', hg', hgk⟩
        obtain ⟨g', hg', hgk⟩ := List.mem_map.mp hin
        exact ⟨k', hk', g', hg', hgk⟩
      · obtain rfl := mem_singleton.mp hr'
        exact ⟨k, hk, (g.1, s), by simp, hg⟩
    · have hold : ∃ r ∈ rows, keyOf r = .ok g'.1 := by
        obtain rfl | ⟨hg', -⟩ := hmem g' hg'
        · exact h.inhabited g (by simp)
        · exact h.inhabited g' hg'
      obtain ⟨r', hr', hkey⟩ := hold
      exact ⟨r', mem_append_left _ hr', hkey⟩
    · obtain rfl | ⟨hg', hne⟩ := hmem g' hg'
      · rw [foldlM_members hk (h.folded g (by simp)), if_pos hg.symm, hs]
      · rw [foldlM_members hk (h.folded g' hg'), if_neg hne]
  · refine ⟨?_, fun r' hr' => ?_, fun g' hg' => ?_, fun g' hg' => ?_⟩
    · rw [map_append, nodup_append]
      refine ⟨h.distinct, by simp, fun a ha b hb => ?_⟩
      obtain ⟨g, hg, rfl⟩ := List.mem_map.mp ha
      obtain rfl : b = canon k := by simpa using hb
      exact hno g hg
    · rcases mem_append.mp hr' with hr' | hr'
      · obtain ⟨k', hk', g', hg', hgk⟩ := h.keyed r' hr'
        exact ⟨k', hk', g', mem_append_left _ hg', hgk⟩
      · obtain rfl := mem_singleton.mp hr'
        exact ⟨k, hk, (k, s), by simp, rfl⟩
    · rcases mem_append.mp hg' with hg' | hg'
      · obtain ⟨r', hr', hkey⟩ := h.inhabited g' hg'
        exact ⟨r', mem_append_left _ hr', hkey⟩
      · obtain rfl := mem_singleton.mp hg'
        exact ⟨r, by simp, hk⟩
    · rcases mem_append.mp hg' with hg' | hg'
      · rw [foldlM_members hk (h.folded g' hg'), if_neg fun heq => hno g' hg' heq.symm]
      · obtain rfl := mem_singleton.mp hg'
        have hnil : (members canon keyOf (canon k) rows).foldlM fold init = .ok init := by
          rw [h.members_eq_nil hno]
          rfl
        rw [foldlM_members hk hnil, if_pos rfl, hs]

theorem isPartition_nil : IsPartition canon keyOf init fold [] [] :=
  ⟨nodup_nil, nofun, nofun, nofun⟩

/-- What `group` returns is a partition of the rows. -/
theorem isPartition_group (h : group canon keyOf init fold rows = .ok gs) :
    IsPartition canon keyOf init fold rows gs := by
  induction rows using List.reverseRecOn generalizing gs with
  | nil =>
    obtain rfl := Except.ok.inj h
    exact isPartition_nil
  | append_singleton rows r ih =>
    rw [group, foldlM_append] at h
    cases hrows : rows.foldlM (add canon keyOf init fold) [] with
    | error => simp [hrows, bind, Except.bind] at h
    | ok mid =>
      cases hk : keyOf r with
      | error => simp [hrows, add, hk, bind, Except.bind] at h
      | ok =>
        refine (ih hrows).insert hk ?_
        rw [hrows] at h
        change (add canon keyOf init fold mid r >>= pure) = _ at h
        rwa [bind_pure, add, hk] at h

theorem sum_members {keys : List κ'} (hkeys : keys.Nodup)
    (h : ∀ r ∈ rows, ∃ k, keyOf r = .ok k ∧ canon k ∈ keys) :
    (keys.map fun k => (members canon keyOf k rows).length).sum = rows.length := by
  induction rows with
  | nil => simp [members]
  | cons r rows ih =>
    obtain ⟨k, hk, hin⟩ := h r mem_cons_self
    have hstep : ∀ k', (members canon keyOf k' (r :: rows)).length =
        (if k' = canon k then 1 else 0) + (members canon keyOf k' rows).length := by
      intro k'
      simp only [members, filter_cons, hk, Except.toOption, Option.map_some,
        Option.some.injEq, decide_eq_true_eq, eq_comm (a := canon k)]
      split_ifs
      · rw [length_cons, Nat.add_comm]
      · rw [Nat.zero_add]
    have hone : (keys.map fun k' => if k' = canon k then 1 else 0).sum = 1 := by
      rw [sum_map_ite, filter_eq, count_eq_one_of_mem hkeys hin]
      simp
    simp only [hstep, sum_map_add, hone, length_cons]
    rw [ih fun r hr => h r (mem_cons_of_mem _ hr), Nat.add_comm]

/-- The members of the groups together are as many as the rows. -/
theorem IsPartition.sum_length (h : IsPartition canon keyOf init fold rows gs) :
    (gs.map fun g => (members canon keyOf (canon g.1) rows).length).sum = rows.length := by
  rw [← sum_members h.distinct fun r hr => ?_, List.map_map]
  · rfl
  · obtain ⟨k, hk, g, hg, hgk⟩ := h.keyed r hr
    exact ⟨k, hk, List.mem_map.mpr ⟨g, hg, hgk⟩⟩

end Groups
