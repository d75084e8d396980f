/-! # What a computation yields and how it faults

A computation that is started in a state either yields a result and leaves another state, or
faults. The lemmas here take sequences of computations apart, so that later proofs read what a
function does off its definition. -/

namespace TextGrammar
variable {σ ε α β : Type}

/-- A computation that is started in a state yields a result and leaves another state. -/
def Yields (m : StateT σ (Except ε) α) (s : σ) (x : α) (t : σ) : Prop := m.run s = .ok (x, t)

def Faults (m : StateT σ (Except ε) α) (s : σ) (fault : ε) : Prop := m.run s = .error fault

theorem map_eq_ok {m : Except ε α} {f : α → β} {y : β} :
    m.map f = .ok y ↔ ∃ x, m = .ok x ∧ f x = y := by
  cases m <;> simp [Except.map]

theorem yields_bind {m : StateT σ (Except ε) α} {f : α → StateT σ (Except ε) β} {s u : σ} {y : β} :
    Yields (m >>= f) s y u ↔ ∃ x t, Yields m s x t ∧ Yields (f x) t y u := by
  unfold Yields
  rw [StateT.run_bind]
  rcases m.run s with fault | ⟨x, t⟩ <;> simp [bind, Except.bind, and_assoc]

theorem faults_bind {m : StateT σ (Except ε) α} {f : α → StateT σ (Except ε) β} {s : σ}
    {fault : ε} :
    Faults (m >>= f) s fault ↔
      Faults m s fault ∨ ∃ x t, Yields m s x t ∧ Faults (f x) t fault := by
  unfold Yields Faults
  rw [StateT.run_bind]
  rcases m.run s with other | ⟨x, t⟩ <;> simp [bind, Except.bind, and_assoc]

theorem yields_pure {x y : α} {s t : σ} :
    Yields (pure x : StateT σ (Except ε) α) s y t ↔ x = y ∧ s = t := by
  change (Except.ok (x, s) : Except ε (α × σ)) = .ok (y, t) ↔ _
  simp

theorem faults_pure {x : α} {s : σ} {fault : ε} :
    ¬Faults (pure x : StateT σ (Except ε) α) s fault := nofun

theorem yields_map {m : StateT σ (Except ε) α} {f : α → β} {s t : σ} {y : β} :
    Yields (f <$> m) s y t ↔ ∃ x, Yields m s x t ∧ f x = y := by
  rw [map_eq_pure_bind, yields_bind]
  constructor
  · rintro ⟨x, u, hx, hy⟩
    obtain ⟨rfl, rfl⟩ := yields_pure.1 hy
    exact ⟨x, hx, rfl⟩
  · rintro ⟨x, hx, rfl⟩
    exact ⟨x, t, hx, yields_pure.2 ⟨rfl, rfl⟩⟩

theorem yields_throw {fault : ε} {s t : σ} {x : α} :
    ¬Yields (throw fault : StateT σ (Except ε) α) s x t := nofun

theorem faults_throw {fault other : ε} {s : σ} :
    Faults (throw fault : StateT σ (Except ε) α) s other ↔ fault = other := by
  change (Except.error fault : Except ε (α × σ)) = .error other ↔ _
  simp

theorem yields_lift {m : Except ε α} {s t : σ} {x : α} :
    Yields (liftM m : StateT σ (Except ε) α) s x t ↔ m = .ok x ∧ s = t := by
  unfold Yields
  cases m with
  | error fault =>
    constructor
    · nofun
    · rintro ⟨h, -⟩
      cases h
  | ok y =>
    change (Except.ok (y, s) : Except ε (α × σ)) = .ok (x, t) ↔ _
    simp

theorem faults_lift {m : Except ε α} {s : σ} {fault : ε} :
    Faults (liftM m : StateT σ (Except ε) α) s fault ↔ m = .error fault := by
  unfold Faults
  cases m with
  | error other =>
    change (Except.error other : Except ε (α × σ)) = .error fault ↔ _
    simp
  | ok y =>
    constructor <;> nofun

theorem yields_get {s t x : σ} :
    Yields (get : StateT σ (Except ε) σ) s x t ↔ x = s ∧ t = s := by
  change (Except.ok (s, s) : Except ε (σ × σ)) = .ok (x, t) ↔ _
  simp [eq_comm]

theorem yields_modify {f : σ → σ} {s t : σ} {u : Unit} :
    Yields (modify f : StateT σ (Except ε) Unit) s u t ↔ t = f s := by
  change (Except.ok ((), f s) : Except ε (Unit × σ)) = .ok (u, t) ↔ _
  simp [eq_comm]

end TextGrammar
