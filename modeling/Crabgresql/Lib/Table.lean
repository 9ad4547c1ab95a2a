import Mathlib

/-!
# Finite tables

A table from keys to values that can be listed. A batch of writes, each a value
or a removal, takes effect in order. Removing every listed key of a table and
then writing the list of another makes it that other one.
-/

abbrev Table (α β : Type*) := AList fun _ : α => β

namespace Table

open Function List

variable {α β : Type*} [DecidableEq α]

def write (t : Table α β) (k : α) : Option β → Table α β
  | some v => t.insert k v
  | none => t.erase k

def writeAll (t : Table α β) (batch : List (α × Option β)) : Table α β :=
  batch.foldl (fun t w => write t w.1 w.2) t

def contents (t : Table α β) (k : α) : Option β := t.lookup k

def pairs (t : Table α β) : List (α × β) := t.entries.map fun e => (e.1, e.2)

/-- The batch that removes the listed keys and then writes the listed pairs. -/
def replacing (old new : List (α × β)) : List (α × Option β) :=
  old.map (fun p => (p.1, none)) ++ new.map fun p => (p.1, some p.2)

theorem contents_write (t : Table α β) (k : α) (o : Option β) :
    contents (write t k o) = Function.update (contents t) k o := by
  funext k'
  rw [update_apply]
  split_ifs with hk
  · subst hk
    cases o with
    | some => exact AList.lookup_insert t
    | none => exact AList.lookup_erase k' t
  · cases o with
    | some => exact AList.lookup_insert_ne hk
    | none => exact AList.lookup_erase_ne hk

theorem contents_writeAll (t : Table α β) (batch : List (α × Option β)) :
    contents (writeAll t batch) =
      batch.foldl (fun f w => Function.update f w.1 w.2) (contents t) := by
  induction batch generalizing t with
  | nil => rfl
  | cons w batch ih =>
    rw [writeAll, foldl_cons, foldl_cons, ← contents_write]
    exact ih _

theorem mem_pairs {t : Table α β} {k : α} {v : β} : (k, v) ∈ pairs t ↔ contents t k = some v := by
  rw [contents, ← Option.mem_def, AList.mem_lookup_iff, pairs, List.mem_map]
  constructor
  · rintro ⟨⟨k', v'⟩, he, heq⟩
    cases heq
    exact he
  · exact fun h => ⟨⟨k, v⟩, h, rfl⟩

omit [DecidableEq α] in
theorem pairs_nodup (t : Table α β) : ((pairs t).map Prod.fst).Nodup := by
  have hkeys : (pairs t).map Prod.fst = t.keys := by
    rw [pairs, List.map_map]
    rfl
  rw [hkeys]
  exact t.keys_nodup

/-- Removing keys leaves nothing under them and the rest as it was. -/
theorem foldl_remove (f : α → Option β) (keys : List α) (k : α) :
    (keys.map fun k => (k, (none : Option β))).foldl
      (fun f w => Function.update f w.1 w.2) f k = if k ∈ keys then none else f k := by
  induction keys generalizing f with
  | nil => rfl
  | cons k' keys ih =>
    rw [map_cons, foldl_cons, ih]
    by_cases hmem : k ∈ keys
    · rw [if_pos hmem, if_pos (mem_cons_of_mem _ hmem)]
    · rw [if_neg hmem, update_apply]
      simp only [mem_cons, hmem, or_false]

/-- Writing pairs with different keys writes each of them. -/
theorem foldl_put {f : α → Option β} {ps : List (α × β)} (hnodup : (ps.map Prod.fst).Nodup)
    {k : α} {o : Option β} (ho : ∀ v, (k, v) ∈ ps ↔ o = some v) (hf : o = none → f k = none) :
    (ps.map fun p => (p.1, some p.2)).foldl (fun f w => Function.update f w.1 w.2) f k = o := by
  induction ps generalizing f o with
  | nil =>
    have hnone : o = none := by
      cases o with
      | none => rfl
      | some v => exact absurd ((ho v).mpr rfl) not_mem_nil
    rw [hnone]
    exact hf hnone
  | cons p ps ih =>
    rw [map_cons, nodup_cons] at hnodup
    rw [map_cons, foldl_cons]
    by_cases hk : k = p.1
    · -- the key is written here and not again
      have hp : (k, p.2) ∈ p :: ps := by
        rw [hk]
        exact mem_cons_self
      have hfresh : ∀ v, (k, v) ∉ ps := fun v hv =>
        hnodup.1 (List.mem_map.mpr ⟨(k, v), hv, hk⟩)
      have hrest : ∀ (g : α → Option β), g k = some p.2 →
          (ps.map fun p => (p.1, some p.2)).foldl (fun f w => Function.update f w.1 w.2) g k =
            some p.2 := by
        intro g hg
        clear ih ho hp hf
        induction ps generalizing g with
        | nil => exact hg
        | cons q qs ihq =>
          rw [map_cons, foldl_cons]
          have hq : k ≠ q.1 := fun h =>
            hfresh q.2 (by rw [h]; exact mem_cons_self)
          refine ihq ⟨fun h => hnodup.1 (mem_cons_of_mem _ h), ?_⟩
            (fun v hv => hfresh v (mem_cons_of_mem _ hv)) _ ?_
          · exact (nodup_cons.mp hnodup.2).2
          · rw [update_of_ne hq]
            exact hg
      rw [hrest _ (by rw [hk, update_self]), (ho p.2).mp hp]
    · refine ih hnodup.2 (fun v => ?_) fun hnone => ?_
      · rw [← ho v, mem_cons]
        refine ⟨.inr, fun h => h.resolve_left fun heq => hk (congrArg Prod.fst heq)⟩
      · rw [update_of_ne hk]
        exact hf hnone

/-- A table that is emptied and then filled with the pairs of another holds what the other does. -/
theorem contents_replacing (t u : Table α β) :
    contents (writeAll t (replacing (pairs t) (pairs u))) = contents u := by
  funext k
  rw [contents_writeAll, replacing, foldl_append]
  refine foldl_put (pairs_nodup u) (fun v => mem_pairs) fun _ => ?_
  have hmap : (pairs t).map (fun p => (p.1, (none : Option β))) =
      ((pairs t).map Prod.fst).map fun k => (k, (none : Option β)) := by
    rw [List.map_map]
    rfl
  rw [hmap, foldl_remove]
  split_ifs with hk
  · rfl
  · cases hold : contents t k with
    | none => rfl
    | some v => exact absurd (List.mem_map.mpr ⟨(k, v), mem_pairs.mpr hold, rfl⟩) hk

end Table
