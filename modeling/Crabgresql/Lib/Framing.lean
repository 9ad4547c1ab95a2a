import Mathlib

/-!
# Length-prefixed frames

A decoder takes one message off the front of a buffer, or finds an error, or
finds no whole message yet. If the header alone decides how long a frame is, the
messages that come out of a stream do not depend on how the stream was cut into
the appends to the buffer.
-/

namespace Framing

open List

variable {β ε μ : Type*}
variable {n : ℕ}

/-- The result and the buffer that is left. -/
abbrev Decoder (β ε μ : Type*) := List β → Except ε (Option μ) × List β

/-- A decoder for which more input changes nothing that was already there. -/
structure Framed (dec : Decoder β ε μ) : Prop where
  waits : ∀ {b r}, dec b = (.ok none, r) → r = b
  fails : ∀ {b c e}, (dec b).1 = .error e → (dec (b ++ c)).1 = .error e
  keeps : ∀ {b c m r}, dec b = (.ok (some m), r) → dec (b ++ c) = (.ok (some m), r ++ c)
  shrinks : ∀ {b m r}, dec b = (.ok (some m), r) → r.length < b.length

/-- Call the decoder until it finds no message or an error: the messages, and the error or the
buffer that is left. -/
def drain (dec : Decoder β ε μ) : ℕ → List β → List μ × Except ε (List β)
  | 0, b => ([], .ok b)
  | n + 1, b =>
    match dec b with
    | (.error e, _) => ([], .error e)
    | (.ok none, r) => ([], .ok r)
    | (.ok (some m), r) => (m :: (drain dec n r).1, (drain dec n r).2)

/-- Every message takes something off the buffer, so its length bounds the calls. -/
def decodeAll (dec : Decoder β ε μ) (b : List β) : List μ × Except ε (List β) :=
  drain dec (b.length + 1) b

/-- Continue after the messages found so far, unless there was an error. -/
def andThen (p : List μ × Except ε (List β)) (k : List β → List μ × Except ε (List β)) :
    List μ × Except ε (List β) :=
  match p with
  | (ms, .error e) => (ms, .error e)
  | (ms, .ok r) => (ms ++ (k r).1, (k r).2)

/-- The read loop: decode what is there, append the next piece, go on. -/
def feed (dec : Decoder β ε μ) : List β → List (List β) → List μ × Except ε (List β)
  | b, [] => decodeAll dec b
  | b, c :: cs => andThen (decodeAll dec b) fun r => feed dec (r ++ c) cs

namespace Framed

variable {dec : Decoder β ε μ}

variable {b : List β}

theorem drain_congr (h : Framed dec) {k : ℕ} (hn : b.length < n) (hk : b.length < k) : drain dec n b = drain dec k b := by
  induction n generalizing k b with
  | zero => exact absurd hn (Nat.not_lt_zero _)
  | succ n ih =>
    cases k with
    | zero => exact absurd hk (Nat.not_lt_zero _)
    | succ k =>
      rw [drain, drain]
      obtain ⟨⟨res, r⟩, hdec⟩ : ∃ p, dec b = p := ⟨_, rfl⟩
      rw [hdec]
      cases res with
      | error => rfl
      | ok found =>
        cases found with
        | none => rfl
        | some m =>
          have hlt := h.shrinks hdec
          have hrest : drain dec n r = drain dec k r := ih (by omega) (by omega)
          simp only [hrest]

theorem decodeAll_error {e : ε} (he : (dec b).1 = .error e) : decodeAll dec b = ([], .error e) := by
  obtain ⟨⟨res, r⟩, hdec⟩ : ∃ p, dec b = p := ⟨_, rfl⟩
  rw [hdec] at he
  cases he
  rw [decodeAll, drain, hdec]

theorem decodeAll_none (h : Framed dec) {r : List β} (hdec : dec b = (.ok none, r)) :
    decodeAll dec b = ([], .ok b) := by
  rw [decodeAll, drain, hdec, h.waits hdec]

theorem decodeAll_some (h : Framed dec) {r : List β} {m : μ} (hdec : dec b = (.ok (some m), r)) :
    decodeAll dec b = (m :: (decodeAll dec r).1, (decodeAll dec r).2) := by
  have hlt := h.shrinks hdec
  rw [decodeAll, drain, hdec]
  simp only [h.drain_congr hlt (Nat.lt_succ_self r.length)]
  rfl

/-- What was found before more input arrived stays, and the rest is found in what was left. -/
theorem decodeAll_append (h : Framed dec) (b c : List β) :
    decodeAll dec (b ++ c) = andThen (decodeAll dec b) fun r => decodeAll dec (r ++ c) := by
  induction hn : b.length using Nat.strong_induction_on generalizing b with
  | _ n ih =>
    obtain ⟨⟨res, r⟩, hdec⟩ : ∃ p, dec b = p := ⟨_, rfl⟩
    cases res with
    | error e =>
      have he : (dec b).1 = .error e := by rw [hdec]
      rw [decodeAll_error (h.fails he), decodeAll_error he]
      rfl
    | ok found =>
      cases found with
      | none =>
        rw [decodeAll_none h hdec]
        simp only [andThen, nil_append]
      | some =>
        have hlt := h.shrinks hdec
        rw [decodeAll_some h (h.keeps hdec), decodeAll_some h hdec, ih r.length (hn ▸ hlt) r rfl]
        obtain ⟨ms, out⟩ := decodeAll dec r
        cases out <;> rfl

/-- The messages and the final error do not depend on how the stream was cut. -/
theorem feed_eq (h : Framed dec) (b : List β) (cs : List (List β)) :
    feed dec b cs = decodeAll dec (b ++ cs.flatten) := by
  induction cs generalizing b with
  | nil => rw [feed, flatten_nil, append_nil]
  | cons c cs ih =>
    rw [feed, flatten_cons, h.decodeAll_append]
    refine congrArg _ (funext fun r => ?_)
    rw [ih, append_assoc]

end Framed

/-! ## Decoders by header -/

/-- The length of the first frame, which the header announces; `none` while the header is not all
there. -/
abbrev Header (β ε : Type*) := List β → Except ε (Option ℕ)

/-- Wait for the whole frame, take it off the buffer and decode it. -/
def byHeader (header : Header β ε) (body : List β → Except ε μ) : Decoder β ε μ := fun b =>
  match header b with
  | .error e => (.error e, b)
  | .ok none => (.ok none, b)
  | .ok (some n) =>
    if b.length < n then (.ok none, b) else ((body (b.take n)).map some, b.drop n)

/-- A header that more input does not change and that announces frames of some length. -/
structure Announces (header : Header β ε) : Prop where
  fails : ∀ {b c e}, header b = .error e → header (b ++ c) = .error e
  keeps : ∀ {b c n}, header b = .ok (some n) → header (b ++ c) = .ok (some n)
  pos : ∀ {b n}, header b = .ok (some n) → 0 < n

variable {header : Header β ε} {body : List β → Except ε μ}

variable {b : List β}

theorem byHeader_frame (hb : header b = .ok (some n)) (hn : n ≤ b.length) :
    byHeader header body b = ((body (b.take n)).map some, b.drop n) := by
  simp only [byHeader, hb, if_neg (Nat.not_lt.mpr hn)]

/-- A message is decoded only from the frame that the header announced, and that is what leaves the
buffer. -/
theorem byHeader_some {r : List β} {m : μ} (h : byHeader header body b = (.ok (some m), r)) :
    ∃ n, header b = .ok (some n) ∧ n ≤ b.length ∧ body (b.take n) = .ok m ∧ r = b.drop n := by
  unfold byHeader at h
  cases hb : header b with
  | error =>
    rw [hb] at h
    cases h
  | ok found =>
    cases found with
    | none =>
      rw [hb] at h
      cases h
    | some n =>
      simp only [hb] at h
      split_ifs at h with hlt
      · cases h
      · obtain ⟨hbody, hrest⟩ := Prod.mk.inj h
        refine ⟨n, rfl, Nat.not_lt.mp hlt, ?_, hrest.symm⟩
        cases hm : body (b.take n) with
        | error =>
          rw [hm] at hbody
          cases hbody
        | ok =>
          rw [hm] at hbody
          cases hbody
          rfl

theorem byHeader_none {r : List β} (h : byHeader header body b = (.ok none, r)) : r = b := by
  unfold byHeader at h
  cases hb : header b with
  | error =>
    rw [hb] at h
    cases h
  | ok found =>
    cases found with
    | none =>
      rw [hb] at h
      exact (Prod.mk.inj h).2.symm
    | some n =>
      simp only [hb] at h
      split_ifs at h with hlt
      · exact (Prod.mk.inj h).2.symm
      · cases hm : body (b.take n) <;> rw [hm] at h <;> cases h

theorem byHeader_error {e : ε} (h : (byHeader header body b).1 = .error e) : header b = .error e ∨
      ∃ n, header b = .ok (some n) ∧ n ≤ b.length ∧ body (b.take n) = .error e := by
  unfold byHeader at h
  cases hb : header b with
  | error =>
    rw [hb] at h
    cases h
    exact .inl rfl
  | ok found =>
    cases found with
    | none =>
      rw [hb] at h
      cases h
    | some n =>
      simp only [hb] at h
      split_ifs at h with hlt
      refine .inr ⟨n, rfl, Nat.not_lt.mp hlt, ?_⟩
      cases hm : body (b.take n) with
      | error =>
        rw [hm] at h
        cases h
        rfl
      | ok =>
        rw [hm] at h
        cases h

theorem take_append_frame {c : List β} (hn : n ≤ b.length) :
    (b ++ c).take n = b.take n ∧ (b ++ c).drop n = b.drop n ++ c := by
  rw [List.take_append, drop_append, Nat.sub_eq_zero_of_le hn, take_zero,
    append_nil, drop_zero]
  exact ⟨rfl, rfl⟩

/-- Frames decoded by their header are independent of the cuts. -/
theorem framed_byHeader (h : Announces header) : Framed (byHeader header body) where
  waits := byHeader_none
  fails {b c e} he := by
    rcases byHeader_error he with hb | ⟨n, hb, hn, hbody⟩
    · simp only [byHeader, h.fails hb]
    · have hlen : n ≤ (b ++ c).length := by
        rw [length_append]
        omega
      rw [byHeader_frame (h.keeps hb) hlen, (take_append_frame hn).1, hbody]
      rfl
  keeps {b c m r} hm := by
    obtain ⟨n, hb, hn, hbody, rfl⟩ := byHeader_some hm
    have hlen : n ≤ (b ++ c).length := by
      rw [length_append]
      omega
    rw [byHeader_frame (h.keeps hb) hlen, (take_append_frame hn).1, (take_append_frame hn).2, hbody]
    rfl
  shrinks {b m r} hm := by
    obtain ⟨n, hb, hn, -, rfl⟩ := byHeader_some hm
    have hpos := h.pos hb
    rw [length_drop]
    omega

end Framing
