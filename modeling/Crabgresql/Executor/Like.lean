import Crabgresql.Executor.Values

/-!
# LIKE

The matcher moves along the text and the pattern together. Once it has met a `%` it can
fall back to the last one, which then takes one more character of the text. What it
decides is whether the text can be cut into pieces, one for each item of the pattern.
-/

namespace Crabgresql.Executor

open List Option

/-! ## The matcher -/

/-- The text is used up. -/
def likeEnd : List Char → Except TypeError Bool
  | [] => .ok true
  | '%' :: p => likeEnd p
  | ['\\'] => .error .invalidEscape
  | _ => .ok false

/-- The pattern after its first item, if that is not `%` and takes the character. -/
def likeTake (fold : Char → Char) (c : Char) : List Char → Except TypeError (Option (List Char))
  | [] => .ok none
  | ['\\'] => .error .invalidEscape
  | '\\' :: lit :: p => .ok (if fold c = fold lit then some p else none)
  | '_' :: p => .ok (some p)
  | x :: p => .ok (if fold c = fold x then some p else none)

theorem likeTake_length {fold : Char → Char} {c : Char} {p q : List Char}
    (h : likeTake fold c p = .ok (some q)) : q.length < p.length := by
  unfold likeTake at h
  split at h <;> simp_all

/-- At the rest of the text and of the pattern. `star` holds the pattern after the last `%` and
the text at which it was tried last. -/
def likeLoop (fold : Char → Char) (s p : List Char) (star : Option (List Char × List Char)) :
    Except TypeError Bool :=
  match s, p with
  | [], p => likeEnd p
  | c :: s, '%' :: p => likeLoop fold (c :: s) p (some (p, c :: s))
  | c :: s, p =>
    match _h : likeTake fold c p with
    | .error e => .error e
    | .ok (some q) => likeLoop fold s q star
    | .ok none =>
      match star with
      | none => .ok false
      | some (sp, []) => likeEnd sp
      | some (sp, _ :: ss) => likeLoop fold ss sp (some (sp, ss))
termination_by (max p.length (star.elim 0 (·.1.length)), star.elim 0 (·.2.length), p.length)
decreasing_by
  · simp [Prod.lex_def]
  · have := likeTake_length _h
    simp [Prod.lex_def]
    omega
  · simp [Prod.lex_def]
    omega

def likeMatch (s p : String) (ci : Bool) : Except TypeError Bool :=
  likeLoop (if ci then Char.toLower else id) s.toList p.toList none

/-! ## What a pattern means -/

inductive LikeItem
  | any
  | one
  | lit (c : Char)
  deriving DecidableEq

/-- The items of a pattern; nothing if it ends in a backslash that is not escaped. -/
def likeItems : List Char → Option (List LikeItem)
  | [] => some []
  | ['\\'] => none
  | '\\' :: c :: p => (likeItems p).map (.lit c :: ·)
  | '%' :: p => (likeItems p).map (.any :: ·)
  | '_' :: p => (likeItems p).map (.one :: ·)
  | c :: p => (likeItems p).map (.lit c :: ·)

def LikeItem.Takes (fold : Char → Char) : LikeItem → List Char → Prop
  | .any, _ => True
  | .one, piece => ∃ x, piece = [x]
  | .lit c, piece => ∃ x, piece = [x] ∧ fold x = fold c

def LikeMatches (fold : Char → Char) (items : List LikeItem) (s : List Char) : Prop :=
  ∃ pieces : List (List Char), pieces.flatten = s ∧ List.Forall₂ (LikeItem.Takes fold) items pieces

variable {fold : Char → Char} {items : List LikeItem} {item : LikeItem} {c : Char}
  {s t p : List Char}

theorem likeMatches_nil : LikeMatches fold [] s ↔ s = [] := by
  simp [LikeMatches, eq_comm]

theorem likeMatches_cons : LikeMatches fold (item :: items) s ↔
    ∃ a t, s = a ++ t ∧ item.Takes fold a ∧ LikeMatches fold items t := by
  constructor
  · rintro ⟨_, rfl, h⟩
    obtain ⟨a, pieces, ha, hrest, rfl⟩ := forall₂_cons_left_iff.mp h
    exact ⟨a, _, flatten_cons, ha, pieces, rfl, hrest⟩
  · rintro ⟨a, _, rfl, ha, pieces, rfl, hrest⟩
    exact ⟨a :: pieces, rfl, .cons ha hrest⟩

theorem likeMatches_any :
    LikeMatches fold (.any :: items) s ↔ ∃ t, t <:+ s ∧ LikeMatches fold items t := by
  rw [likeMatches_cons]
  constructor
  · rintro ⟨a, t, rfl, -, h⟩
    exact ⟨t, suffix_append a t, h⟩
  · rintro ⟨t, ⟨a, rfl⟩, h⟩
    exact ⟨a, t, rfl, trivial, h⟩

theorem likeMatches_single (h : item ≠ .any) : LikeMatches fold (item :: items) s ↔
    ∃ c t, s = c :: t ∧ item.Takes fold [c] ∧ LikeMatches fold items t := by
  rw [likeMatches_cons]
  constructor
  · rintro ⟨a, t, rfl, ha, hrest⟩
    obtain ⟨c, rfl⟩ : ∃ c, a = [c] := by
      cases item with
      | any => exact absurd rfl h
      | one => exact ha
      | lit => exact ⟨ha.choose, ha.choose_spec.1⟩
    exact ⟨c, t, rfl, ha, hrest⟩
  · rintro ⟨c, t, rfl, ha, hrest⟩
    exact ⟨[c], t, rfl, ha, hrest⟩

/-- Items that are no `%` take one character each. -/
theorem likeMatches_drop {mid : List LikeItem} (hmid : .any ∉ mid)
    (h : LikeMatches fold (mid ++ items) s) : LikeMatches fold items (s.drop mid.length) := by
  induction mid generalizing s with
  | nil => exact h
  | cons item mid ih =>
    rw [mem_cons, not_or] at hmid
    obtain ⟨c, t, rfl, -, hrest⟩ := (likeMatches_single (Ne.symm hmid.1)).mp h
    exact ih hmid.2 hrest

/-! ## The matcher decides it -/

theorem likeEnd_spec (fold : Char → Char) (h : likeItems p = some items) :
    ∃ b, likeEnd p = .ok b ∧ (b = true ↔ LikeMatches fold items []) := by
  fun_induction likeEnd p generalizing items with
  | case1 =>
    cases h
    simp [likeMatches_nil]
  | case2 p ih =>
    obtain ⟨rest, hrest, rfl⟩ := map_eq_some_iff.mp h
    obtain ⟨b, hb, hiff⟩ := ih hrest
    exact ⟨b, hb, by simp [hiff, likeMatches_any]⟩
  | case3 => cases h
  | case4 p h₀ h₁ h₂ =>
    have hitem : ∃ item rest, items = item :: rest ∧ item ≠ .any := by
      unfold likeItems at h
      split at h <;> simp_all <;> aesop
    obtain ⟨item, rest, rfl, hne⟩ := hitem
    simp [likeMatches_single hne]

/-- What `r` says about a pattern with these items, before the character. -/
def LikeTook (fold : Char → Char) (c : Char) (items : List LikeItem) : Option (List Char) → Prop
  | some q => ∃ item rest, items = item :: rest ∧ likeItems q = some rest ∧ item ≠ .any ∧
      item.Takes fold [c]
  | none => ∀ s, ¬ LikeMatches fold items (c :: s)

theorem likeTook_lit {x : Char} (h : likeItems p = some items) :
    LikeTook fold c (.lit x :: items) (if fold c = fold x then some p else none) := by
  split_ifs with hc
  · exact ⟨_, _, rfl, h, LikeItem.noConfusion, c, rfl, hc⟩
  · intro s hm
    obtain ⟨_, _, heq, ⟨_, hx, hfold⟩, -⟩ := (likeMatches_single LikeItem.noConfusion).mp hm
    cases heq
    cases hx
    exact hc hfold

theorem likeTake_spec (fold : Char → Char) (c : Char) (h : likeItems p = some items)
    (hp : ∀ q, p ≠ '%' :: q) : ∃ r, likeTake fold c p = .ok r ∧ LikeTook fold c items r := by
  fun_cases likeTake fold c p with
  | case1 =>
    cases h
    exact ⟨none, rfl, fun s hm => by cases likeMatches_nil.mp hm⟩
  | case2 => cases h
  | case3 lit q =>
    obtain ⟨rest, hrest, rfl⟩ := map_eq_some_iff.mp h
    exact ⟨_, rfl, likeTook_lit hrest⟩
  | case4 q =>
    obtain ⟨rest, hrest, rfl⟩ := map_eq_some_iff.mp h
    exact ⟨_, rfl, _, _, rfl, hrest, LikeItem.noConfusion, c, rfl⟩
  | case5 x q hx hescape hone =>
    have hmany : x = '%' → False := fun hx => hp q (by rw [hx])
    rw [likeItems.eq_6 x q hx hescape hmany hone] at h
    obtain ⟨rest, hrest, rfl⟩ := map_eq_some_iff.mp h
    exact ⟨_, rfl, likeTook_lit hrest⟩

/-- The items between the last `%` and the rest of the pattern have each taken one character. -/
def LikeStar (items : List LikeItem) (s : List Char) (star : Option (List Char × List Char)) :
    Prop :=
  ∀ sp ss, star = some (sp, ss) → ∃ mid pre, likeItems sp = some (mid ++ items) ∧ .any ∉ mid ∧
    ss = pre ++ s ∧ pre.length = mid.length

/-- The last `%` takes more characters than it has now. -/
def LikeLater (fold : Char → Char) (star : Option (List Char × List Char)) : Prop :=
  ∃ sp ss items t, star = some (sp, ss) ∧ likeItems sp = some items ∧ t <:+ ss.tail ∧
    LikeMatches fold items t

/-- So nothing is lost when a `%` replaces the one before it. -/
theorem LikeStar.later {star : Option (List Char × List Char)} (h : LikeStar items s star)
    (hl : LikeLater fold star) : ∃ t, t <:+ s ∧ LikeMatches fold items t := by
  obtain ⟨sp, ss, sits, t, hstar, hsp, ht, hm⟩ := hl
  obtain ⟨mid, pre, hmid, hany, rfl, hlen⟩ := h sp ss hstar
  cases hsp.symm.trans hmid
  have hsuffix : t <:+ pre ++ s := ht.trans (tail_suffix _)
  have hlong : (t.drop mid.length).length ≤ s.length := by
    have := hsuffix.length_le
    simp only [length_append, length_drop] at this ⊢
    omega
  exact ⟨t.drop mid.length, suffix_of_suffix_length_le
    ((drop_suffix _ _).trans hsuffix) (suffix_append _ _) hlong, likeMatches_drop hany hm⟩

theorem likeStar_restart (h : likeItems p = some items) : LikeStar items s (some (p, s)) := by
  rintro _ _ ⟨⟩
  exact ⟨[], [], h, not_mem_nil, rfl, rfl⟩

theorem likeLater_some (h : likeItems p = some items) :
    LikeLater fold (some (p, s)) ↔ ∃ t, t <:+ s.tail ∧ LikeMatches fold items t := by
  simp [LikeLater, h]

theorem likeMatches_or_later (h : likeItems p = some items) :
    LikeMatches fold items s ∨ LikeLater fold (some (p, s)) ↔
      ∃ t, t <:+ s ∧ LikeMatches fold items t := by
  rw [likeLater_some h]
  cases s with
  | nil => simp
  | cons c s => simp [suffix_cons_iff, or_and_right, exists_or]

theorem likeLoop_spec (fold : Char → Char) {star : Option (List Char × List Char)}
    (h : likeItems p = some items) (hstar : LikeStar items s star) :
    ∃ b, likeLoop fold s p star = .ok b ∧
      (b = true ↔ LikeMatches fold items s ∨ LikeLater fold star) := by
  fun_induction likeLoop fold s p star generalizing items with
  | case1 p star =>
    obtain ⟨b, hb, hiff⟩ := likeEnd_spec fold h
    refine ⟨b, hb, hiff.trans ⟨.inl, fun hm => hm.elim id fun hl => ?_⟩⟩
    obtain ⟨t, ht, hm⟩ := hstar.later hl
    exact suffix_nil.mp ht ▸ hm
  | case2 star c s p ih =>
    obtain ⟨rest, hrest, rfl⟩ := map_eq_some_iff.mp h
    obtain ⟨b, hb, hiff⟩ := ih hrest (likeStar_restart hrest)
    refine ⟨b, hb, hiff.trans ?_⟩
    rw [likeMatches_or_later hrest, likeMatches_any, iff_comm, or_iff_left_iff_imp]
    intro hl
    obtain ⟨t, ht, hm⟩ := hstar.later hl
    obtain ⟨u, hu, hm⟩ := likeMatches_any.mp hm
    exact ⟨u, hu.trans ht, hm⟩
  | case3 star c s p hp e he =>
    obtain ⟨r, hr, -⟩ := likeTake_spec fold c h hp
    cases he.symm.trans hr
  | case4 star c s p hp q hq ih =>
    obtain ⟨r, hr, htook⟩ := likeTake_spec fold c h hp
    cases hq.symm.trans hr
    obtain ⟨item, rest, rfl, hrest, hany, htakes⟩ := htook
    have hnew : LikeStar rest s star := by
      intro sp ss hss
      obtain ⟨mid, pre, hsp, hmid, rfl, hlen⟩ := hstar sp ss hss
      exact ⟨mid ++ [item], pre ++ [c], by simpa using hsp, by simp [hmid, Ne.symm hany],
        by simp, by simp [hlen]⟩
    obtain ⟨b, hb, hiff⟩ := ih hrest hnew
    exact ⟨b, hb, by simp [hiff, likeMatches_single hany, htakes]⟩
  | case5 c s p hp hq =>
    obtain ⟨r, hr, htook⟩ := likeTake_spec fold c h hp
    cases hq.symm.trans hr
    exact ⟨false, rfl, by simp [htook s, LikeLater]⟩
  | case6 c s p hp hq sp =>
    obtain ⟨mid, pre, hsp, hmid, hss, hlen⟩ := hstar sp [] rfl
    simp at hss
  | case7 c s p hp hq sp x ss ih =>
    obtain ⟨r, hr, htook⟩ := likeTake_spec fold c h hp
    cases hq.symm.trans hr
    obtain ⟨mid, pre, hsp, hmid, hss, hlen⟩ := hstar sp _ rfl
    obtain ⟨b, hb, hiff⟩ := ih hsp (likeStar_restart hsp)
    refine ⟨b, hb, hiff.trans ?_⟩
    rw [likeMatches_or_later hsp, or_iff_right (htook s), likeLater_some hsp, tail_cons]

theorem likeMatch_iff (s p : String) (ci : Bool) (h : likeItems p.toList = some items) :
    ∃ b, likeMatch s p ci = .ok b ∧
      (b = true ↔ LikeMatches (if ci then Char.toLower else id) items s.toList) := by
  have hnone : LikeStar items s.toList none := nofun
  obtain ⟨b, hb, hiff⟩ := likeLoop_spec (if ci then Char.toLower else id) h hnone
  exact ⟨b, hb, hiff.trans (or_iff_left nofun)⟩

theorem likeMatch_iff_escaped : likeItems "50\\%".toList = some [.lit '5', .lit '0', .lit '%'] ∧
    ∃ b, likeMatch "50%" "50\\%" false = .ok b ∧
      (b = true ↔ LikeMatches id [.lit '5', .lit '0', .lit '%'] ['5', '0', '%']) :=
  ⟨by decide, likeMatch_iff "50%" "50\\%" false (by decide)⟩

end Crabgresql.Executor
