import Mathlib

/-!
# Readers of a byte stream

A reader takes a value off the front of its input, or fails. It reads a string of
symbols as a value when it does so in front of any rest.
-/

namespace Reading

variable {β ε α γ : Type}

/-- In front of any rest, `r` takes exactly `bs` and returns `a`. -/
def Reads (r : StateT (List β) (Except ε) α) (bs : List β) (a : α) : Prop :=
  ∀ rest, r (bs ++ rest) = .ok (a, rest)

variable {r : StateT (List β) (Except ε) α} {f : α → StateT (List β) (Except ε) γ}
  {bs bs' : List β} {a : α} {c : γ}

theorem reads_pure (a : α) : Reads (pure a : StateT (List β) (Except ε) α) [] a := fun _ => rfl

theorem Reads.bind (h : Reads r bs a) (h' : Reads (f a) bs' c) : Reads (r >>= f) (bs ++ bs') c := by
  intro rest
  change (r (bs ++ bs' ++ rest) >>= fun p => f p.1 p.2) = _
  rw [List.append_assoc, h]
  exact h' rest

theorem Reads.map (h : Reads r bs a) (g : α → γ) : Reads (g <$> r) bs (g a) := by
  intro rest
  change ((fun p => (g p.1, p.2)) <$> r (bs ++ rest)) = _
  rw [h]
  rfl

/-- The last step of a reader adds nothing to what was read. -/
theorem Reads.bind_pure (h : Reads r bs a) (h' : Reads (f a) [] c) : Reads (r >>= f) bs c := by
  have hboth := h.bind h'
  rwa [List.append_nil] at hboth

def times (r : StateT (List β) (Except ε) α) : ℕ → StateT (List β) (Except ε) (List α)
  | 0 => pure []
  | n + 1 => do
    let a ← r
    let rest ← times r n
    pure (a :: rest)

theorem reads_times {δ : Type} {write : δ → List β} {g : δ → α} {l : List δ}
    (h : ∀ d ∈ l, Reads r (write d) (g d)) :
    Reads (times r l.length) (l.flatMap write) (l.map g) := by
  induction l with
  | nil => exact reads_pure []
  | cons d l ih =>
    have htail := ih fun e he => h e (List.mem_cons_of_mem _ he)
    exact (h d List.mem_cons_self).bind (htail.bind_pure (reads_pure (g d :: l.map g)))

/-- A reader that succeeds read its first value first. -/
theorem bind_ok {cur rest : List β} (h : (r >>= f) cur = .ok (c, rest)) :
    ∃ a cur', r cur = .ok (a, cur') ∧ f a cur' = .ok (c, rest) := by
  change (r cur >>= fun p => f p.1 p.2) = _ at h
  generalize r cur = first at h
  cases first with
  | error => cases h
  | ok p => exact ⟨p.1, p.2, rfl, h⟩

/-! ## Cut input -/

/-- What `r` returns does not depend on what follows the symbols it took. -/
def Local (r : StateT (List β) (Except ε) α) : Prop :=
  ∀ ⦃cur : List β⦄ ⦃a : α⦄ ⦃rest : List β⦄, r cur = .ok (a, rest) →
    ∀ more, r (cur ++ more) = .ok (a, rest ++ more)

theorem local_pure (a : α) : Local (pure a : StateT (List β) (Except ε) α) := by
  intro cur b rest h more
  cases h
  rfl

theorem local_throw (e : ε) : Local (throw e : StateT (List β) (Except ε) α) := by
  intro cur b rest h more
  cases h

theorem Local.bind (h : Local r) (h' : ∀ a, Local (f a)) : Local (r >>= f) := by
  intro cur c rest hrun more
  obtain ⟨a, cur', hfirst, hthen⟩ := bind_ok hrun
  change (r (cur ++ more) >>= fun p => f p.1 p.2) = _
  rw [h hfirst more]
  exact h' a hthen more

theorem Local.map (h : Local r) (g : α → γ) : Local (g <$> r) :=
  h.bind fun a => local_pure (g a)

/-- A reader that takes all of `bs` finds too little in anything shorter. -/
theorem Reads.cut (h : Reads r bs a) (hr : Local r) {cut : List β} (hcut : cut <+: bs)
    (hne : cut ≠ bs) (out : α × List β) : r cut ≠ .ok out := by
  intro hout
  obtain ⟨lost, rfl⟩ := hcut
  have hwhole := h []
  rw [List.append_nil, hr hout lost] at hwhole
  have hrest : out.2 ++ lost = [] := by injection hwhole with hwhole; exact (Prod.mk.inj hwhole).2
  exact hne (by rw [(List.append_eq_nil_iff.mp hrest).2, List.append_nil])

end Reading
