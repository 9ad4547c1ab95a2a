import Crabgresql.Single.Rows

/-!
# Changing one row

The row invariant is kept where nothing of the row changes, where a pending
change of a running transaction is written, and where the changes of a
transaction that ends without a commit are struck out.
-/

namespace Crabgresql.Single

open Mvcc Kv Procarray Lockmgr Exec Session Engine List Chronicle Entry Change

variable {Row : Type} {a b : Shared Row} {x : Xid} {k : RowKey}
variable {y : Xid} {e : Entry Row} {cur : Row} {cover : Option Snapshot}

theorem RowInv.mono (h : RowInv a k) (hlog : b.log.rowLog k = a.log.rowLog k)
    (hver : ∀ y, b.kv.version k y = a.kv.version k y) (hdead : ∀ y, a.Dead y → b.Dead y)
    (hset : ∀ y, a.Committed y ∧ a.pa.Finished y → b.Committed y ∧ b.pa.Finished y)
    (hguard : ∀ y ∈ a.log.chain k, y ∈ b.pa.running → y ∈ a.pa.running ∧
      (a.lm.HoldsExclusive k y → b.lm.HoldsExclusive k y)) : RowInv b k where
  nodup := by
    rw [chain_congr hlog]
    exact h.nodup
  linked := by
    rw [hlog]
    exact h.linked
  version y t ht := by
    rw [hver] at ht
    rw [chain_congr hlog]
    obtain ⟨hmin, hmem⟩ := h.version y t ht
    exact ⟨hmin, hmem.imp_right (hdead y)⟩
  settled y hy := by
    rw [chain_congr hlog] at hy
    exact hset y (h.settled y hy)
  stamped i y z hy hz := by
    rw [chain_congr hlog] at hy hz
    rw [image_congr hlog, hver]
    exact h.stamped i y z hy hz
  live y r hy him := by
    rw [chain_congr hlog] at hy
    rw [image_congr hlog] at him
    obtain ⟨m, hm, hd⟩ := h.live y r hy him
    exact ⟨m, by rw [hver, hm], hd.imp_right (hdead m)⟩
  gone y t hy him ht := by
    rw [chain_congr hlog] at hy
    rw [image_congr hlog] at him
    rw [hver] at ht
    exact h.gone y t hy him ht
  guarded y hy hr := by
    rw [chain_congr hlog] at hy ⊢
    obtain ⟨hra, hlock⟩ := hguard y hy hr
    exact (h.guarded y hy hra).imp_left hlock

/-- The step writes a change of `x`, and may record the outcome of `x`. -/
structure Writes (a b : Shared Row) (x : Xid) : Prop where
  pa : b.pa = a.pa
  lm : b.lm = a.lm
  clog : ∀ y, y ≠ x → b.kv.clogGet y = a.kv.clogGet y
  running : x ∈ a.pa.running

namespace Writes

theorem committed (hw : Writes a b x) (hy : y ≠ x) (h : a.Committed y) : b.Committed y := by
  unfold Shared.Committed
  rw [hw.clog y hy]
  exact h

theorem dead (hw : Writes a b x) (h : a.Dead y) : b.Dead y := by
  have hy : y ≠ x := by
    rintro rfl
    exact not_finished_of_running hw.running h.1
  refine ⟨hw.pa ▸ h.1, ?_⟩
  unfold Shared.Committed
  rw [hw.clog y hy]
  exact h.2

theorem settled (hw : Writes a b x) (h : a.Committed y ∧ a.pa.Finished y) :
    b.Committed y ∧ b.pa.Finished y := by
  have hy : y ≠ x := by
    rintro rfl
    exact not_finished_of_running hw.running h.2
  exact ⟨hw.committed hy h.1, hw.pa ▸ h.2⟩

theorem same (hw : Writes a b x) (h : RowInv a k) (hlog : b.log.rowLog k = a.log.rowLog k)
    (hver : ∀ y, b.kv.version k y = a.kv.version k y) : RowInv b k := by
  refine h.mono hlog hver (fun y => hw.dead) (fun y => hw.settled) ?_
  intro y _ hr
  rw [hw.pa] at hr
  exact ⟨hr, by rw [hw.lm]; exact id⟩

end Writes

theorem final_eq_image {sh : Shared Row} (h : (sh.log.chain k).getLast? = some y) :
    final Entry.post none (sh.log.rowLog k) = sh.log.image k y :=
  final_eq_lastImage Entry.post Entry.xid h

theorem linked_write (h : RowInv a k) (hlog : b.log.rowLog k = a.log.rowLog k ++ [e])
    (hlast : (a.log.chain k).getLast? = some y) (him : a.log.image k y = some cur)
    (hpre : e.pre = some cur) : Linked Entry.pre Entry.post none (b.log.rowLog k) := by
  rw [hlog, linked_append]
  refine ⟨h.linked, ?_, trivial⟩
  rw [final_eq_image hlast, him, hpre]

theorem image_write (hlog : b.log.rowLog k = a.log.rowLog k ++ [e]) (y : Xid) :
    b.log.image k y = if e.xid = y then e.post else a.log.image k y := by
  simp only [History.image, hlog, lastImage_snoc]

theorem ne_of_mem_dropLast (h : RowInv a k) (hrun : x ∈ a.pa.running)
    (hy : y ∈ (a.log.chain k).dropLast) : y ≠ x := by
  rintro rfl
  exact not_finished_of_running hrun (h.settled y hy).2

theorem RowInv.write_own (h : RowInv a k) (hw : Writes a b x) (hxid : e.xid = x)
    (hlog : b.log.rowLog k = a.log.rowLog k ++ [e]) (hcur : Current a x cover k x cur)
    (hpre : e.pre = some cur) (hother : ∀ y, y ≠ x → b.kv.version k y = a.kv.version k y)
    (hlive : ∀ r, e.post = some r → b.kv.version k x = some ⟨x, invalidXid, r⟩)
    (hgone : e.post = none → ∃ r, b.kv.version k x = some ⟨x, x, r⟩) : RowInv b k := by
  have hchain : b.log.chain k = a.log.chain k := by
    rw [chain_write hlog, hxid, addAuthor, if_pos hcur.last]
  have himage : ∀ y, b.log.image k y = if x = y then e.post else a.log.image k y := by
    intro y
    rw [image_write hlog, hxid]
  have hdrop : ∀ y ∈ (a.log.chain k).dropLast, y ≠ x :=
    fun y hy => ne_of_mem_dropLast h hw.running hy
  refine ⟨?_, linked_write h hlog hcur.last hcur.image hpre, ?_, ?_, ?_, ?_, ?_, ?_⟩
  · rw [hchain]
    exact h.nodup
  · intro y t ht
    rw [hchain]
    by_cases hy : y = x
    · subst hy
      refine ⟨?_, .inl (mem_of_getLast? hcur.last)⟩
      cases hp : e.post with
      | some r =>
        rw [hlive r hp] at ht
        cases ht
        rfl
      | none =>
        obtain ⟨r, hr⟩ := hgone hp
        rw [hr] at ht
        cases ht
        rfl
    · rw [hother y hy] at ht
      obtain ⟨hmin, hmem⟩ := h.version y t ht
      exact ⟨hmin, hmem.imp_right hw.dead⟩
  · intro y hy
    rw [hchain] at hy
    exact hw.settled (h.settled y hy)
  · intro i y z hy hz
    rw [hchain] at hy hz
    obtain ⟨r, hr, hv⟩ := h.stamped i y z hy hz
    have hyx : y ≠ x := by
      apply hdrop
      obtain ⟨hi, rfl⟩ := List.getElem?_eq_some_iff.mp hy
      obtain ⟨hi', -⟩ := List.getElem?_eq_some_iff.mp hz
      exact getElem_mem_dropLast hi'
    exact ⟨r, by rw [himage, if_neg hyx.symm, hr], by rw [hother y hyx, hv]⟩
  · intro y r hy him
    rw [hchain, hcur.last] at hy
    cases hy
    rw [himage, if_pos rfl] at him
    exact ⟨invalidXid, hlive r him, .inl rfl⟩
  · intro y t hy him ht
    rw [hchain, hcur.last] at hy
    cases hy
    rw [himage, if_pos rfl] at him
    obtain ⟨r, hr⟩ := hgone him
    rw [hr] at ht
    cases ht
    rfl
  · intro y hy hr
    rw [hchain] at hy ⊢
    rw [hw.pa] at hr
    rw [hw.lm]
    exact h.guarded y hy hr

theorem RowInv.write_next {curXmin : Xid} (h : RowInv a k) (hw : Writes a b x) (hxid : e.xid = x)
    (hlog : b.log.rowLog k = a.log.rowLog k ++ [e]) (hcur : Current a x cover k curXmin cur)
    (hne : curXmin ≠ x) (hpre : e.pre = some cur)
    (hstamp : b.kv.version k curXmin = some ⟨curXmin, x, cur⟩)
    (hother : ∀ y, y ≠ x → y ≠ curXmin → b.kv.version k y = a.kv.version k y)
    (hlive : ∀ r, e.post = some r → b.kv.version k x = some ⟨x, invalidXid, r⟩)
    (hgone : e.post = none → b.kv.version k x = a.kv.version k x) : RowInv b k := by
  have hxnot : x ∉ a.log.chain k := by
    intro hx
    have hlast := last_of_running h hx hw.running
    rw [hcur.last] at hlast
    exact hne (Option.some.inj hlast)
  have hchain : b.log.chain k = a.log.chain k ++ [x] := by
    rw [chain_write hlog, hxid, addAuthor, if_neg]
    intro hl
    exact hxnot (mem_of_getLast? hl)
  have himage : ∀ y, b.log.image k y = if x = y then e.post else a.log.image k y := by
    intro y
    rw [image_write hlog, hxid]
  have hold : a.kv.version k x = none := by
    cases hv : a.kv.version k x with
    | none => rfl
    | some t =>
      rcases (h.version x t hv).2 with hm | hd
      · exact absurd hm hxnot
      · exact absurd hd.1 (not_finished_of_running hw.running)
  have hcurmem : curXmin ∈ a.log.chain k := mem_of_getLast? hcur.last
  refine ⟨?_, linked_write h hlog hcur.last hcur.image hpre, ?_, ?_, ?_, ?_, ?_, ?_⟩
  · rw [hchain, nodup_append]
    refine ⟨h.nodup, nodup_singleton x, ?_⟩
    intro y hy z hz hyz
    rw [mem_singleton] at hz
    exact hxnot (hz ▸ hyz ▸ hy)
  · intro y t ht
    rw [hchain]
    by_cases hy : y = x
    · subst hy
      refine ⟨?_, .inl (by simp)⟩
      cases hp : e.post with
      | some r =>
        rw [hlive r hp] at ht
        cases ht
        rfl
      | none =>
        rw [hgone hp, hold] at ht
        cases ht
    · by_cases hyc : y = curXmin
      · subst hyc
        rw [hstamp] at ht
        cases ht
        exact ⟨rfl, .inl (by simp [hcurmem])⟩
      · rw [hother y hy hyc] at ht
        obtain ⟨hmin, hmem⟩ := h.version y t ht
        exact ⟨hmin, hmem.imp (fun hm => by simp [hm]) hw.dead⟩
  · intro y hy
    rw [hchain, dropLast_concat] at hy
    have hyx : y ≠ x := by
      rintro rfl
      exact hxnot hy
    exact hw.settled (hcur.others y hy hyx)
  · intro i y z hy hz
    rw [hchain] at hy hz
    obtain ⟨hi, hiz⟩ := List.getElem?_eq_some_iff.mp hz
    rw [length_append, length_singleton] at hi
    rw [getElem?_append_left (by omega)] at hy
    have hymem := mem_of_getElem? hy
    have hyx : y ≠ x := by
      rintro rfl
      exact hxnot hymem
    rw [himage, if_neg hyx.symm]
    by_cases hend : i + 1 < (a.log.chain k).length
    · rw [getElem?_append_left hend] at hz
      obtain ⟨r, hr, hv⟩ := h.stamped i y z hy hz
      have hyc : y ≠ curXmin := by
        rintro rfl
        have hlast := hcur.last
        rw [getLast?_eq_getElem?] at hlast
        have hidx := (getElem?_inj (by omega) h.nodup).mp (hy.trans hlast.symm)
        omega
      exact ⟨r, hr, by rw [hother y hyx hyc, hv]⟩
    · -- the pair at the end: the version the change found, now stamped by `x`
      have hidx : (a.log.chain k).length - 1 = i := by omega
      have hlast := hcur.last
      rw [getLast?_eq_getElem?, hidx, hy] at hlast
      cases hlast
      rw [getElem?_append_right (by omega)] at hz
      have hzx : z = x := by
        have hzero : i + 1 - (a.log.chain k).length = 0 := by omega
        simpa [hzero, eq_comm] using hz
      subst hzx
      exact ⟨cur, hcur.image, hstamp⟩
  · intro y r hy him
    rw [hchain, getLast?_concat] at hy
    cases hy
    rw [himage, if_pos rfl] at him
    exact ⟨invalidXid, hlive r him, .inl rfl⟩
  · intro y t hy him ht
    rw [hchain, getLast?_concat] at hy
    cases hy
    rw [himage, if_pos rfl] at him
    rw [hgone him, hold] at ht
    cases ht
  · intro y hy hr
    rw [hchain, mem_append, mem_singleton] at hy
    rw [hw.pa] at hr
    rw [hw.lm]
    by_cases hyx : y = x
    · subst hyx
      exact .inl hcur.lock
    · have hfin := (hcur.others y (hy.resolve_right hyx) hyx).2
      exact absurd hr hfin.2

theorem RowInv.write {c : Change Row} {w : Work Row} (h : RowInv a c.key) (hw : Writes a b x)
    (hlog : b.log.rowLog c.key = a.log.rowLog c.key ++ [⟨x, w, c⟩]) (hP : Pending a x cover c)
    (hver : ∀ y, b.kv.version c.key y = c.newVersion x (a.kv.version c.key) y) :
    RowInv b c.key := by
  cases c with
  | insert k row =>
    change ∀ y, b.kv.version k y = _ at hver
    change b.log.rowLog k = _ at hlog
    obtain ⟨hnil, hnone, -⟩ := hP
    have hlog' : b.log.rowLog k = [⟨x, w, .insert k row⟩] := by
      rw [hlog]
      change a.log.rowLog k ++ _ = _
      rw [hnil]
      rfl
    have hchain : b.log.chain k = [x] := by
      simp [History.chain, hlog', authors, addAuthor]
    have himage : b.log.image k x = some row := by
      simp [History.image, hlog', lastImage, Entry.post, Change.post]
    have hvx : b.kv.version k x = some ⟨x, invalidXid, row⟩ := by
      rw [hver]
      simp [newVersion]
    change RowInv b k
    refine ⟨?_, ?_, ?_, ?_, ?_, ?_, ?_, ?_⟩
    · rw [hchain]
      exact nodup_singleton x
    · rw [hlog']
      exact ⟨rfl, trivial⟩
    · intro y t ht
      by_cases hy : y = x
      · subst hy
        rw [hvx] at ht
        cases ht
        exact ⟨rfl, .inl (by simp [hchain])⟩
      · rw [hver] at ht
        simp only [newVersion, if_neg hy] at ht
        change a.kv.version k y = some t at ht
        rw [hnone] at ht
        cases ht
    · intro y hy
      simp [hchain] at hy
    · intro i y z _ hz
      simp [hchain] at hz
    · intro y r hy him
      have hy' : y = x := by simpa [hchain, eq_comm] using hy
      subst hy'
      rw [himage] at him
      cases him
      exact ⟨invalidXid, hvx, .inl rfl⟩
    · intro y t hy him _
      have hy' : y = x := by simpa [hchain, eq_comm] using hy
      subst hy'
      rw [himage] at him
      cases him
    · intro y hy _
      have hy' : y = x := by simpa [hchain] using hy
      subst hy'
      exact .inr (by simp [hchain])
  | update k curXmin cur next =>
    by_cases hcx : curXmin = x
    · subst hcx
      refine RowInv.write_own h hw rfl hlog hP rfl ?_ ?_ ?_
      · intro y hy
        rw [hver]
        simp [newVersion, hy]
      · intro r hr
        rw [hver]
        have hr' : next = r := Option.some.inj hr
        simp [newVersion, hr']
      · intro hr
        cases hr
    · refine RowInv.write_next h hw rfl hlog hP hcx rfl ?_ ?_ ?_ ?_
      · rw [hver]
        simp [newVersion, hcx]
      · intro y hy hyc
        rw [hver]
        simp [newVersion, hy, hyc]
      · intro r hr
        rw [hver]
        have hr' : next = r := Option.some.inj hr
        simp [newVersion, hr']
      · intro hr
        cases hr
  | delete k curXmin cur =>
    by_cases hcx : curXmin = x
    · subst hcx
      refine RowInv.write_own h hw rfl hlog hP rfl ?_ ?_ ?_
      · intro y hy
        rw [hver]
        simp [newVersion, hy]
      · intro r hr
        cases hr
      · intro _
        refine ⟨cur, ?_⟩
        rw [hver]
        simp [newVersion]
    · refine RowInv.write_next h hw rfl hlog hP hcx rfl ?_ ?_ ?_ ?_
      · rw [hver]
        simp [newVersion]
      · intro y hy hyc
        rw [hver]
        simp [newVersion, hyc]
      · intro r hr
        cases hr
      · intro _
        rw [hver]
        simp [newVersion, Ne.symm hcx]

theorem RowInv.strike (h : RowInv a k) (hrun : x ∈ a.pa.running)
    (hlast : (a.log.chain k).getLast? = some x)
    (hlog : b.log.rowLog k = (a.log.rowLog k).filter fun e => e.xid ≠ x)
    (hver : ∀ y, b.kv.version k y = a.kv.version k y) (hdead : ∀ y, a.Dead y → b.Dead y)
    (hx : b.Dead x)
    (hset : ∀ y, a.Committed y ∧ a.pa.Finished y → b.Committed y ∧ b.pa.Finished y) :
    RowInv b k := by
  have hchain : b.log.chain k = (a.log.chain k).dropLast := chain_strike h.nodup hlast hlog
  obtain ⟨c, hc⟩ := getLast?_eq_some_iff.mp hlast
  have hbc : b.log.chain k = c := by rw [hchain, hc, dropLast_concat]
  have hxc : ∀ y ∈ c, y ≠ x := by
    intro y hy
    refine ne_of_mem_dropLast h hrun ?_
    rw [hc, dropLast_concat]
    exact hy
  have himage : ∀ y, y ≠ x → b.log.image k y = a.log.image k y := by
    intro y hy
    simp only [History.image, hlog]
    exact lastImage_filter xid post (fun a => decide (a ≠ x)) _
      (by simpa using hy)
  -- the last transaction left in the chain carries the stamp of `x`
  have hend : ∀ y, c.getLast? = some y →
      ∃ r, a.log.image k y = some r ∧ a.kv.version k y = some ⟨y, x, r⟩ := by
    intro y hy
    obtain ⟨d, rfl⟩ := getLast?_eq_some_iff.mp hy
    refine h.stamped d.length y x ?_ ?_
    · rw [hc]
      simp
    · rw [hc]
      simp
  refine ⟨?_, ?_, ?_, ?_, ?_, ?_, ?_, ?_⟩
  · rw [hchain]
    exact h.nodup.sublist (dropLast_sublist _)
  · obtain ⟨M, hM⟩ := filter_last_prefix xid h.nodup hlast
    have hl := h.linked
    rw [← hM, linked_append] at hl
    rw [hlog]
    exact hl.1
  · intro y t ht
    rw [hver] at ht
    obtain ⟨hmin, hmem⟩ := h.version y t ht
    refine ⟨hmin, ?_⟩
    rcases hmem with hm | hd
    · rw [hc, mem_append, mem_singleton] at hm
      rcases hm with hm | rfl
      · exact .inl (by rw [hbc]; exact hm)
      · exact .inr hx
    · exact .inr (hdead y hd)
  · intro y hy
    rw [hchain] at hy
    exact hset y (h.settled y (mem_of_mem_dropLast hy))
  · intro i y z hy hz
    rw [hbc] at hy hz
    have hyx := hxc y (mem_of_getElem? hy)
    have hlen := (List.getElem?_eq_some_iff.mp hz).1
    rw [himage y hyx, hver]
    refine h.stamped i y z ?_ ?_
    · rw [hc, getElem?_append_left (by omega), hy]
    · rw [hc, getElem?_append_left hlen, hz]
  · intro y r hy him
    rw [hbc] at hy
    obtain ⟨r', hr', hv⟩ := hend y hy
    rw [himage y (hxc y (mem_of_getLast? hy)), hr'] at him
    cases him
    exact ⟨x, by rw [hver, hv], .inr hx⟩
  · intro y t hy him _
    rw [hbc] at hy
    obtain ⟨r', hr', -⟩ := hend y hy
    rw [himage y (hxc y (mem_of_getLast? hy)), hr'] at him
    cases him
  · intro y hy hr
    rw [hchain] at hy
    exact absurd hr (hset y (h.settled y hy)).2.2

end Crabgresql.Single
