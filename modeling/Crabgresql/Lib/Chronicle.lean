import Mathlib

/-!
# Logs of attributed changes

A log is a list of changes, each with an author and with the image it found and
the image it left. `authors` is the order in which authors enter the log, with
the consecutive changes of one author counted once. `Linked` says that every
change found what the change before it left. A predicate that is closed downward
along a list has at most one element on its frontier.
-/

namespace Chronicle

open List

variable {ε α β : Type*}

section Authors

variable [DecidableEq α] (author : ε → α)

def addAuthor (c : List α) (x : α) : List α := if c.getLast? = some x then c else c ++ [x]

def authors (L : List ε) : List α := L.foldl (fun c e => addAuthor c (author e)) []

@[simp] theorem authors_nil : authors author [] = [] := rfl

theorem authors_snoc (L : List ε) (e : ε) :
    authors author (L ++ [e]) = addAuthor (authors author L) (author e) := by
  simp [authors, foldl_append]

theorem getLast?_addAuthor (c : List α) (x : α) : (addAuthor c x).getLast? = some x := by
  unfold addAuthor
  split_ifs with h
  · exact h
  · simp

variable {x : α} {L : List ε}

theorem mem_addAuthor {c : List α} {y : α} : y ∈ addAuthor c x ↔ y ∈ c ∨ y = x := by
  unfold addAuthor
  split_ifs with h
  · constructor
    · exact .inl
    · rintro (hy | rfl)
      · exact hy
      · exact mem_of_getLast? h
  · simp

theorem getLast?_authors (L : List ε) : (authors author L).getLast? = L.getLast?.map author := by
  induction L using reverseRecOn with
  | nil => rfl
  | append_singleton L e ih =>
    rw [authors_snoc, getLast?_addAuthor]
    simp

theorem mem_authors : x ∈ authors author L ↔ ∃ e ∈ L, author e = x := by
  induction L using reverseRecOn with
  | nil => simp
  | append_singleton L e ih =>
    rw [authors_snoc, mem_addAuthor, ih]
    simp only [mem_append, mem_singleton]
    constructor
    · rintro (⟨e', he', hx⟩ | rfl)
      · exact ⟨e', .inl he', hx⟩
      · exact ⟨e, .inr rfl, rfl⟩
    · rintro ⟨e', he' | rfl, hx⟩
      · exact .inl ⟨e', he', hx⟩
      · exact .inr hx.symm

theorem authors_eq_nil : authors author L = [] ↔ L = [] := by
  constructor
  · intro h
    have hlast := getLast?_authors author L
    rw [h] at hlast
    cases L using reverseRecOn with
    | nil => rfl
    | append_singleton L e => simp at hlast
  · rintro rfl
    rfl

theorem authors_snoc_of_last {e : ε} (h : (authors author L).getLast? = some (author e)) :
    authors author (L ++ [e]) = authors author L := by
  rw [authors_snoc, addAuthor, if_pos h]

theorem filter_author_ne_of_notMem (h : x ∉ authors author L) :
    L.filter (fun e => author e ≠ x) = L := by
  rw [filter_eq_self]
  intro e he
  have hne : author e ≠ x := fun hx => h ((mem_authors author).mpr ⟨e, he, hx⟩)
  simpa using hne

/-- Keeping the changes of some authors keeps those authors, in order. -/
theorem authors_filter (p : α → Bool) (hnd : (authors author L).Nodup) :
    authors author (L.filter fun e => p (author e)) = (authors author L).filter p := by
  induction L using reverseRecOn with
  | nil => rfl
  | append_singleton L e ih =>
    rw [authors_snoc, addAuthor] at hnd ⊢
    rw [filter_append]
    by_cases hlast : (authors author L).getLast? = some (author e)
    · rw [if_pos hlast] at hnd ⊢
      obtain ⟨c, hc⟩ := getLast?_eq_some_iff.mp hlast
      cases hp : p (author e) with
      | true =>
        have hsnoc : [e].filter (fun e => p (author e)) = [e] := by simp [hp]
        rw [hsnoc, authors_snoc, ih hnd, addAuthor, if_pos]
        simp [hc, hp]
      | false =>
        have hsnoc : [e].filter (fun e => p (author e)) = [] := by simp [hp]
        rw [hsnoc, append_nil, ih hnd]
    · rw [if_neg hlast] at hnd ⊢
      obtain ⟨hndL, -, hdisj⟩ := nodup_append.mp hnd
      rw [filter_append]
      cases hp : p (author e) with
      | true =>
        have hsnoc : [e].filter (fun e => p (author e)) = [e] := by simp [hp]
        have hkeep : [author e].filter p = [author e] := by simp [hp]
        rw [hsnoc, hkeep, authors_snoc, ih hndL, addAuthor, if_neg]
        intro hl
        exact hdisj _ (mem_of_mem_filter (mem_of_getLast? hl)) _ (by simp) rfl
      | false =>
        have hsnoc : [e].filter (fun e => p (author e)) = [] := by simp [hp]
        have hdrop : [author e].filter p = [] := by simp [hp]
        rw [hsnoc, hdrop, append_nil, append_nil, ih hndL]

/-- Striking out the last author shortens the author list by one. -/
theorem authors_filter_last (hnd : (authors author L).Nodup)
    (hlast : (authors author L).getLast? = some x) :
    authors author (L.filter fun e => author e ≠ x) = (authors author L).dropLast := by
  rw [authors_filter author (fun a => decide (a ≠ x)) hnd]
  obtain ⟨c, hc⟩ := getLast?_eq_some_iff.mp hlast
  rw [hc] at hnd ⊢
  have hkeep : c.filter (fun a => decide (a ≠ x)) = c := by
    rw [filter_eq_self]
    intro a ha
    have hne : a ≠ x := fun hax => (nodup_append.mp hnd).2.2 a ha x (by simp) hax
    simpa using hne
  rw [filter_append, hkeep, dropLast_concat]
  simp

theorem filter_last_prefix (hnd : (authors author L).Nodup)
    (hlast : (authors author L).getLast? = some x) : (L.filter fun e => author e ≠ x) <+: L := by
  induction L using reverseRecOn with
  | nil => cases hlast
  | append_singleton L e ih =>
    have hx : author e = x := by
      rw [authors_snoc, getLast?_addAuthor] at hlast
      exact Option.some.inj hlast
    have hfilter : (L ++ [e]).filter (fun e => author e ≠ x) =
        L.filter fun e => author e ≠ x := by
      simp [filter_append, hx]
    rw [hfilter]
    by_cases hl : (authors author L).getLast? = some x
    · rw [authors_snoc_of_last author (by rw [hl, hx])] at hnd
      exact (ih hnd hl).trans (prefix_append L [e])
    · have hnm : x ∉ authors author L := by
        intro hm
        rw [authors_snoc, addAuthor, hx, if_neg hl] at hnd
        exact (nodup_append.mp hnd).2.2 x hm x (by simp) rfl
      rw [filter_author_ne_of_notMem author hnm]
      exact prefix_append L [e]

def lastImage (post : ε → Option β) (L : List ε) (a : α) : Option β :=
  (L.filter fun e => author e = a).getLast?.bind post

theorem lastImage_snoc (post : ε → Option β) (L : List ε) (e : ε) (a : α) :
    lastImage author post (L ++ [e]) a =
      if author e = a then post e else lastImage author post L a := by
  unfold lastImage
  by_cases h : author e = a
  · simp [filter_append, h]
  · simp [filter_append, h]

theorem lastImage_filter (post : ε → Option β) (p : α → Bool) (L : List ε) {a : α}
    (h : p a = true) :
    lastImage author post (L.filter fun e => p (author e)) a = lastImage author post L a := by
  unfold lastImage
  rw [filter_filter]
  congr 2
  apply filter_congr
  intro e _
  by_cases ha : author e = a
  · simp [ha, h]
  · simp [ha]

theorem lastImage_of_last {post : ε → Option β} {e : ε}
    (h : L.getLast? = some e) : lastImage author post L (author e) = post e := by
  obtain ⟨L', rfl⟩ := getLast?_eq_some_iff.mp h
  rw [lastImage_snoc, if_pos rfl]

end Authors

section Linked

variable (pre post : ε → Option β)

/-- Starting from image `s`, every change finds what the one before it left. -/
def Linked : Option β → List ε → Prop
  | _, [] => True
  | s, e :: L => pre e = s ∧ Linked (post e) L

def final : Option β → List ε → Option β
  | s, [] => s
  | _, e :: L => final (post e) L

variable {s : Option β} {L : List ε}

theorem linked_append {M : List ε} : Linked pre post s (L ++ M) ↔
      Linked pre post s L ∧ Linked pre post (final post s L) M := by
  induction L generalizing s with
  | nil => simp [Linked, final]
  | cons e L ih => simp only [cons_append, Linked, final, ih, and_assoc]

theorem final_append (s : Option β) (L M : List ε) :
    final post s (L ++ M) = final post (final post s L) M := by
  induction L generalizing s with
  | nil => rfl
  | cons e L ih => exact ih (post e)

theorem final_of_last {e : ε} (h : L.getLast? = some e) : final post s L = post e := by
  obtain ⟨L', rfl⟩ := getLast?_eq_some_iff.mp h
  rw [final_append]
  rfl

theorem final_eq_lastImage [DecidableEq α] (author : ε → α) {a : α}
    (h : (authors author L).getLast? = some a) : final post s L = lastImage author post L a := by
  rw [getLast?_authors, Option.map_eq_some_iff] at h
  obtain ⟨e, he, rfl⟩ := h
  rw [final_of_last post he, lastImage_of_last author he]

/-- Increments of a measure by `delta` add up along a linked log. -/
theorem linked_sum {γ : Type*} [AddMonoid γ] {pre post : ε → Option β} {val : β → γ}
    {delta : ε → γ} {b : β} (h : Linked pre post (some b) L)
    (hd : ∀ e ∈ L, ∀ v, pre e = some v → ∃ v', post e = some v' ∧ val v' = val v + delta e) :
    ∃ c, final post (some b) L = some c ∧ val c = val b + (L.map delta).sum := by
  induction L generalizing b with
  | nil => exact ⟨b, rfl, by simp⟩
  | cons e L ih =>
    obtain ⟨v', hpost, hval⟩ := hd e (by simp) b h.1
    have hrest := h.2
    rw [hpost] at hrest
    obtain ⟨c, hc, hsum⟩ := ih hrest fun e' he' => hd e' (by simp [he'])
    refine ⟨c, ?_, ?_⟩
    · simp only [final, hpost, hc]
    · rw [hsum, hval, map_cons, sum_cons, add_assoc]

end Linked

/-- A downward closed predicate has one frontier element. -/
theorem frontier_unique {P : α → Prop} {l : List α} (hc : l.Pairwise fun a b => P b → P a)
    {i j : ℕ} {a b : α} (hi : l[i]? = some a) (hj : l[j]? = some b) (ha : P a) (hb : P b)
    (hna : ∀ a', l[i + 1]? = some a' → ¬ P a') (hnb : ∀ b', l[j + 1]? = some b' → ¬ P b') :
    i = j := by
  have key : ∀ {i j : ℕ} {b : α}, l[j]? = some b → P b →
      (∀ a', l[i + 1]? = some a' → ¬ P a') → j ≤ i := by
    intro i j b hj hb hna
    by_contra hlt
    obtain ⟨hjl, hjb⟩ := List.getElem?_eq_some_iff.mp hj
    have hil : i + 1 < l.length := by omega
    have hsucc : l[i + 1]? = some l[i + 1] := getElem?_eq_getElem hil
    apply hna _ hsucc
    by_cases hij : i + 1 = j
    · subst hij
      rw [hjb]
      exact hb
    · have hpair := pairwise_iff_getElem.mp hc (i + 1) j hil hjl (by omega)
      rw [hjb] at hpair
      exact hpair hb
  have h1 := key hj hb hna
  have h2 := key hi ha hnb
  omega

/-- The frontier element is the last one that satisfies the predicate. -/
theorem getLast?_filter_iff {p : α → Bool} {l : List α}
    (hc : l.Pairwise fun a b => p b = true → p a = true) {a : α} : (l.filter p).getLast? = some a ↔
      ∃ i : ℕ, l[i]? = some a ∧ p a = true ∧ ∀ b, l[i + 1]? = some b → ¬ p b = true := by
  have hforward : ∀ {a : α}, (l.filter p).getLast? = some a →
      ∃ i : ℕ, l[i]? = some a ∧ p a = true ∧ ∀ b, l[i + 1]? = some b → ¬ p b = true := by
    induction l using reverseRecOn with
    | nil =>
      intro a ha
      cases ha
    | append_singleton l x ih =>
      intro a ha
      rw [pairwise_append] at hc
      rw [filter_append] at ha
      cases hx : p x with
      | true =>
        have hkeep : [x].filter p = [x] := by simp [hx]
        rw [hkeep, getLast?_concat] at ha
        cases ha
        refine ⟨l.length, by simp, hx, fun b hb => ?_⟩
        rw [getElem?_eq_none (by simp)] at hb
        cases hb
      | false =>
        have hdrop : [x].filter p = [] := by simp [hx]
        rw [hdrop, append_nil] at ha
        obtain ⟨i, hi, hpa, hnext⟩ := ih hc.1 ha
        obtain ⟨hlt, -⟩ := List.getElem?_eq_some_iff.mp hi
        refine ⟨i, by rw [getElem?_append_left hlt, hi], hpa, fun b hb => ?_⟩
        rcases Nat.lt_or_ge (i + 1) l.length with hlt' | hge
        · rw [getElem?_append_left hlt'] at hb
          exact hnext b hb
        · have hb' : b ∈ [x] := by
            rw [getElem?_append_right hge] at hb
            exact mem_of_getElem? hb
          rw [mem_singleton.mp hb', hx]
          simp
  constructor
  · exact hforward
  · rintro ⟨i, hi, hpa, hnext⟩
    have hmem : a ∈ l.filter p := mem_filter.mpr ⟨mem_of_getElem? hi, hpa⟩
    obtain ⟨b, hb⟩ := Option.ne_none_iff_exists'.mp
      (mt getLast?_eq_none_iff.mp (ne_nil_of_mem hmem))
    obtain ⟨j, hj, hpb, hnext'⟩ := hforward hb
    have hij : i = j := frontier_unique hc hi hj hpa hpb hnext hnext'
    rw [hij, hj] at hi
    rw [hb, hi]

end Chronicle
