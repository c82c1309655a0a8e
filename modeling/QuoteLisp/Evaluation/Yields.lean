import QuoteLisp.Evaluation.Machine

/-!
# Results of runs

What a run comes to, said without the order in which it is computed: `Yields run m a m'` holds when
the run, started on the machine `m`, ends with the result `a` and the machine `m'`. A sequence of
two runs yields what the second yields from where the first ends (`yields_bind_iff`).

One run lies below another when the other yields everything that it yields. Sequences, and lists of
runs done one after another, keep this order.
-/

namespace QuoteLisp.Run

variable {α β : Type}

/-- The run, started on the machine `m`, ends with the result `a` and the machine `m'`. -/
def Yields (run : Run α) (m : Machine) (a : α) (m' : Machine) : Prop :=
  run m = .ok (a, m')

theorem yields_pure_iff {a b : α} {m m' : Machine} :
    Yields (pure a) m b m' ↔ b = a ∧ m' = m := by
  change Except.ok (a, m) = Except.ok (b, m') ↔ _
  simp [eq_comm]

theorem yields_bind_iff {x : Run α} {f : α → Run β} {m m' : Machine} {b : β} :
    Yields (x >>= f) m b m' ↔ ∃ a m₁, Yields x m a m₁ ∧ Yields (f a) m₁ b m' := by
  change StateT.bind x f m = _ ↔ _
  simp only [Yields, StateT.bind]
  cases h : x m with
  | error stop => simp [bind, Except.bind]
  | ok p =>
    obtain ⟨a, m₁⟩ := p
    constructor
    · exact fun h' ↦ ⟨a, m₁, rfl, h'⟩
    · rintro ⟨_, _, heq, h'⟩
      cases heq
      exact h'

/-- A run has one result at most. -/
theorem Yields.unique {run : Run α} {m m₁ m₂ : Machine} {a₁ a₂ : α} (h₁ : Yields run m a₁ m₁)
    (h₂ : Yields run m a₂ m₂) : a₁ = a₂ ∧ m₁ = m₂ := by
  simpa using Except.ok.inj (h₁.symm.trans h₂)

/-! ## The order of runs -/

/-- Everything that the run `x` yields, the run `y` yields too. -/
def Below (x y : Run α) : Prop :=
  ∀ m a m', Yields x m a m' → Yields y m a m'

theorem Below.refl (x : Run α) : Below x x := fun _ _ _ h ↦ h

theorem Below.trans {x y z : Run α} (hxy : Below x y) (hyz : Below y z) : Below x z :=
  fun _ _ _ h ↦ hyz _ _ _ (hxy _ _ _ h)

theorem Below.bind {x y : Run α} {f g : α → Run β} (hx : Below x y)
    (hf : ∀ a, Below (f a) (g a)) : Below (x >>= f) (y >>= g) := by
  intro m b m' h
  obtain ⟨a, m₁, h₁, h₂⟩ := yields_bind_iff.1 h
  exact yields_bind_iff.2 ⟨a, m₁, hx _ _ _ h₁, hf _ _ _ _ h₂⟩

theorem Below.mapM {γ : Type} {f g : γ → Run β} (h : ∀ c, Below (f c) (g c)) (cs : List γ) :
    Below (cs.mapM f) (cs.mapM g) := by
  induction cs with
  | nil => exact .refl _
  | cons c cs ih =>
    rw [List.mapM_cons, List.mapM_cons]
    exact .bind (h c) fun _ ↦ .bind ih fun _ ↦ .refl _

theorem Below.forM {γ : Type} {f g : γ → Run Unit} (h : ∀ c, Below (f c) (g c)) (cs : List γ) :
    Below (cs.forM f) (cs.forM g) := by
  induction cs with
  | nil => exact .refl _
  | cons c cs ih => exact .bind (h c) fun _ ↦ ih

end QuoteLisp.Run
